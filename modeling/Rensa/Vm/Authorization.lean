import Rensa.Vm.Writes
import Rensa.Vm.Replay
import Rensa.Vm.Model.Ledger
/-!
# Who may move the coins of whom

On every run of the Currency contract coins leave an account with its
wallet's signature, and a mint changes with its authority's
(`authorized_run`).

A coin account whose bytes also decode as a mint could be governed by the
key those bytes spell. All but one byte of that key are those of a mint's
address, a digest, so nobody signs for it: `Sound` is what is assumed of
SHA3 and Ed25519 for this, of the names a run is about.
-/

namespace Rensa

namespace Currency

open Borsh (FixedBytes)

/-- The seeds, addresses and signing keys a run is about. -/
structure Names where
  seeds : Set (FixedBytes 32)
  addresses : Set Pubkey
  signers : Set Pubkey

/-- The names include those of a transaction. -/
structure Names.Cover (N : Names) (tx : Transaction) : Prop where
  seed : ∀ i rest, Borsh.deserialize tx.params = some (i, rest) →
    ∀ seed ∈ Instruction.seed i, seed ∈ N.seeds
  address : ∀ r ∈ tx.accounts, r.address ∈ N.addresses
  /-- The keys the transaction is signed with: only of them is it assumed
  that they are not spelled by mint addresses. -/
  signer : ∀ r ∈ tx.accounts, r.signer = true → r.address ∈ N.signers

variable {H : Type} (C : Crypto H) (N : Names)

/-- The address of a mint of the run. -/
def Names.Mint (k : Pubkey) : Prop := ∃ seed ∈ N.seeds, k = mintAddress C seed

/-- The derived addresses of coins are not those of mints. -/
def Names.Apart : Prop :=
  ∀ m, m ∈ N.addresses ∨ N.Mint C m → ∀ wallet ∈ N.addresses, ¬ N.Mint C (coinAddress C m wallet)

/-- **What the contract relies on in its hash and its signatures.** The
derived addresses of coins and of mints do not collide, and no key that
signs has the bytes of a mint address after the first for its first 31. -/
structure Sound : Prop where
  apart : ∀ m, m ∈ N.addresses ∨ N.Mint C m → ∀ wallet ∈ N.addresses,
    ¬ N.Mint C (coinAddress C m wallet)
  unspelled : ∀ m, N.Mint C m → ∀ key ∈ N.signers, key.bytes.take 31 ≠ m.bytes.drop 1

/-- A coin account of a mint of the run, at the address of its wallet. -/
structure CoinFor (s : State) (k : Pubkey) (coin : CoinAccount) : Prop
    extends CoinAt C s k coin where
  mint : N.Mint C coin.mint
  owner : coin.owner ∈ N.addresses

/-- A mint, at the address of its seed. -/
structure MintAt (s : State) (k : Pubkey) (mint : Mint) : Prop where
  held : mintOf (s k) = some mint
  derived : N.Mint C k

/-- **The accounts of the contract were all written by it**: each of them
is a mint or a coin account of a mint, at its address. -/
def Written (s : State) : Prop :=
  ∀ k a, s k = some a → a.owner = some address →
    (N.Mint C k ∧ ∃ mint, a.data = some (Borsh.serialize (mint : Mint))) ∨
    ∃ m wallet balance, N.Mint C m ∧ wallet ∈ N.addresses ∧ k = coinAddress C m wallet ∧
      a.data = some (Borsh.serialize (⟨m, wallet, balance⟩ : CoinAccount))

/-- **What a transaction may do** to coin accounts and mints. -/
structure Authorized (vm : Machine H) (l l' : Ledger H)
    (tx : Transaction) : Prop where
  /-- Coins leave an account in a transfer or a burn that its wallet
  signs. -/
  balance : ∀ k coin, CoinFor vm.crypto N l.view k coin →
    balanceOf coin.mint (l'.view k) < coin.balance.toNat →
    (∃ i rest, Borsh.deserialize tx.params = some (i, rest) ∧ Instruction.Spends i) ∧
      Marks (l.environment vm tx) coin.owner
  /-- A mint stays, and changes but for a smaller supply with the
  signature of its authority. -/
  mint : ∀ k mint, MintAt vm.crypto N l.view k mint →
    ∃ mint', MintAt vm.crypto N l'.view k mint' ∧
      (mint.supply < mint'.supply ∨ mint'.authority ≠ mint.authority →
        ∃ authority, mint.authority = some authority ∧ Marks (l.environment vm tx) authority)

/-- The end of a block changes no balance and no mint. -/
structure Settles (l l' : Ledger H) : Prop where
  balance : ∀ k m, balanceOf m (l'.view k) = balanceOf m (l.view k)
  mint : ∀ k mint, MintAt C N l.view k mint → MintAt C N l'.view k mint

/-- What a step may do. -/
def Lawful (vm : Machine H) (l l' : Ledger H) : LedgerStep → Prop
  | .execute tx => Authorized N vm l l' tx
  | .finalize => Settles vm.crypto N l l'

/-! ## A coin account as a mint -/

theorem written_iff {s : State} : Written C N s ↔ ∀ k data, held (s k) = some data →
    (N.Mint C k ∧ ∃ mint, data = some (Borsh.serialize (mint : Mint))) ∨
    ∃ m wallet balance, N.Mint C m ∧ wallet ∈ N.addresses ∧ k = coinAddress C m wallet ∧
      data = some (Borsh.serialize (⟨m, wallet, balance⟩ : CoinAccount)) := by
  constructor
  · intro h k data hk
    obtain ⟨acc, hacc, howner, rfl⟩ := held_eq_some.1 hk
    exact h k acc hacc howner
  · intro h k a hk howner
    exact h k a.data (held_eq_some.2 ⟨a, hk, howner, rfl⟩)

/-- The authority of a mint is the first thing read. -/
theorem deserialize_authority {bs : Bytes} {mint : Mint} {authority : Pubkey}
    (h : Borsh.tryFromSlice Mint bs = some mint) (hauth : mint.authority = some authority) :
    ∃ rest, (Borsh.deserialize bs : Option (Option Pubkey × Bytes)) =
      some (some authority, rest) := by
  obtain ⟨⟨fields, rest⟩, hfields, hmint⟩ :=
    Option.map_eq_some_iff.1 (Borsh.tryFromSlice_eq_some.1 h)
  obtain ⟨mid, hread, -⟩ := Borsh.deserialize_pair hfields
  obtain ⟨rfl, -⟩ := Prod.mk.inj hmint
  obtain hauth : fields.1 = some authority := hauth
  exact ⟨mid, hauth ▸ hread⟩

/-- The authority that the bytes of a coin account spell. -/
theorem authority_of_coin {coin : CoinAccount} {mint : Mint} {authority : Pubkey}
    (h : Borsh.tryFromSlice Mint (Borsh.serialize coin) = some mint)
    (hauth : mint.authority = some authority) :
    authority.bytes.take 31 = coin.mint.bytes.drop 1 := by
  obtain ⟨tail, htail, hlen⟩ : ∃ tail, Borsh.serialize coin = coin.mint.bytes ++ tail ∧
      32 ≤ tail.length := by
    refine ⟨coin.owner.bytes ++ leBytes 8 coin.balance.toNat, rfl, ?_⟩
    rw [List.length_append, Pubkey.length_bytes]
    omega
  obtain ⟨tag, digest, hmint⟩ : ∃ tag digest, coin.mint.bytes = tag :: digest :=
    List.exists_cons_of_length_pos (by rw [Pubkey.length_bytes]; omega)
  have hdigest : digest.length = 31 := by
    have := coin.mint.length_bytes
    rw [hmint, List.length_cons] at this
    omega
  -- the tag and the authority are read first
  obtain ⟨rest, hread⟩ : ∃ rest, (Borsh.deserialize (tag :: (digest ++ tail)) :
      Option (Option Pubkey × Bytes)) = some (some authority, rest) := by
    rw [htail, hmint, List.cons_append] at h
    exact deserialize_authority h hauth
  have hauthority : authority = Pubkey.ofBytes ((digest ++ tail).take 32) := by
    simp only [Borsh.deserialize] at hread
    split at hread
    · cases hread
    · rename_i bs heq
      obtain ⟨-, rfl⟩ := List.cons.inj heq
      have hkey : authority = Pubkey.ofBytes ((digest ++ tail).take 32) ∧
          rest = (digest ++ tail).drop 32 := by
        simpa [Borsh.takeExact, show 32 ≤ digest.length + tail.length by omega, eq_comm]
          using hread
      exact hkey.1
    · cases hread
  rw [hauthority, Pubkey.bytes_ofBytes (by simp; omega), List.take_take, hmint]
  simp [hdigest]

section Kinds

variable {C N} {s : State} {env : Environment} {k : Pubkey} {coin : CoinAccount}

/-- The names include what an environment lists and marks. -/
structure Names.Within (N : Names) (env : Environment) : Prop where
  listed : ∀ k, Listed env k → k ∈ N.addresses
  marked : ∀ k, Marks env k → k ∈ N.signers

theorem CoinFor.not_mint (h : CoinFor C N s k coin) (hapart : N.Apart C) : ¬ N.Mint C k := by
  rw [h.derived]
  exact hapart _ (.inr h.mint) _ h.owner

/-- A coin account that a call read is one of a mint of the run. -/
theorem coinFor_of_read (hapart : N.Apart C) (hwritten : Written C N s) (hN : N.Within env)
    (h : CoinRead C s env k coin) : CoinFor C N s k coin := by
  have hheld := h.held
  rw [coinOf_eq] at hheld
  obtain ⟨data, hdata, hcoin⟩ := Option.bind_eq_some_iff.1 hheld
  rcases (written_iff C N).1 hwritten k data hdata with ⟨hmint, -⟩ | ⟨m, wallet, balance, hm, hw,
    -, rfl⟩
  · rw [h.derived] at hmint
    exact absurd hmint (hapart _ (.inl (hN.listed _ h.mint)) _ (hN.listed _ h.owner))
  · rw [Option.bind_some, Borsh.tryFromSlice_serialize] at hcoin
    obtain rfl := Option.some.inj hcoin
    exact ⟨h.toCoinAt, hm, hw⟩

/-- Where a call changes an account as a mint with the signature of the
authority it reads there, the account is one. -/
def Governs (C : Crypto H) (N : Names) (s : State) (env : Environment) : Prop :=
  ∀ k mint authority, mintOf (s k) = some mint → mint.authority = some authority →
    Marks env authority → N.Mint C k

/-- **What is governed as a mint is one.** The other accounts of the
contract are coin accounts: the authority of such a mint would be a key
that nobody signs with. -/
theorem Sound.governs (hsound : Sound C N) (hwritten : Written C N s) (hN : N.Within env) :
    Governs C N s env := by
  intro k mint authority hmint hauth hmarks
  rw [mintOf_eq] at hmint
  obtain ⟨data, hdata, hmint⟩ := Option.bind_eq_some_iff.1 hmint
  rcases (written_iff C N).1 hwritten k data hdata with ⟨hk, -⟩ | ⟨m, wallet, balance, hm, -, -,
    rfl⟩
  · exact hk
  · have hspelled := authority_of_coin hmint hauth
    exact absurd hspelled (hsound.unspelled m hm _ (hN.marked _ hmarks))

/-- What a call takes for a mint is one: there are no coins of anything
else. -/
theorem mint_of_vouched (hapart : N.Apart C) (hwritten : Written C N s) (hN : N.Within env)
    (hgoverns : Governs C N s env) (h : Vouched C s env k) : N.Mint C k := by
  rcases h with ⟨mint, authority, hmint, hauth, hmarks⟩ | ⟨k', coin, hread, rfl⟩
  · exact hgoverns k mint authority hmint hauth hmarks
  · exact (coinFor_of_read hapart hwritten hN hread).mint

/-- **What a change makes of an account**: it stays a mint or a coin
account, and is treated as one. -/
theorem Write.spec {i : Instruction} {bytes : Bytes} (hapart : N.Apart C)
    (hwritten : Written C N s) (hN : N.Within env) (hgoverns : Governs C N s env)
    (hseed : ∀ seed ∈ i.seed, seed ∈ N.seeds) (h : Write C s env i k bytes) :
    (N.Mint C k ∧ ∃ mint' : Mint, bytes = Borsh.serialize mint' ∧
      ∀ mint, mintOf (s k) = some mint →
        mint.supply < mint'.supply ∨ mint'.authority ≠ mint.authority →
        ∃ authority, mint.authority = some authority ∧ Marks env authority) ∨
    ∃ coin' : CoinAccount, bytes = Borsh.serialize coin' ∧ N.Mint C coin'.mint ∧
      coin'.owner ∈ N.addresses ∧ k = coinAddress C coin'.mint coin'.owner ∧
      ∀ coin, coinOf (s k) = some coin → coin.mint = coin'.mint ∧
        (coin'.balance < coin.balance → i.Spends ∧ Marks env coin.owner) := by
  cases h with
  | create seed mint hfree hi =>
    refine .inl ⟨⟨seed, hseed seed hi, rfl⟩, mint, rfl, fun mint hmint => ?_⟩
    simp [hfree, mintOf] at hmint
  | fund m wallet balance hfree hv hw =>
    refine .inr ⟨⟨m, wallet, balance⟩, rfl, mint_of_vouched hapart hwritten hN hgoverns hv,
      hN.listed _ hw, rfl, fun coin hcoin => ?_⟩
    simp [hfree, coinOf] at hcoin
  | credit balance hread hle =>
    have hfor := coinFor_of_read hapart hwritten hN hread
    refine .inr ⟨_, rfl, hfor.mint, hfor.owner, hfor.derived, fun coin hcoin => ?_⟩
    obtain rfl := Option.some.inj (hread.held.symm.trans hcoin)
    exact ⟨rfl, fun hlt => absurd hlt (UInt64.not_lt.2 hle)⟩
  | debit balance hread hspends hmarks =>
    have hfor := coinFor_of_read hapart hwritten hN hread
    refine .inr ⟨_, rfl, hfor.mint, hfor.owner, hfor.derived, fun coin hcoin => ?_⟩
    obtain rfl := Option.some.inj (hread.held.symm.trans hcoin)
    exact ⟨rfl, fun _ => ⟨hspends, hmarks⟩⟩
  | govern supply next hheld hauth hmarks =>
    have hk := hgoverns _ _ _ hheld hauth hmarks
    refine .inl ⟨hk, _, rfl, fun mint hmint _ => ?_⟩
    obtain rfl := Option.some.inj (hheld.symm.trans hmint)
    exact ⟨_, hauth, hmarks⟩
  | burn supply hheld hv hle =>
    refine .inl ⟨mint_of_vouched hapart hwritten hN hgoverns hv, _, rfl, ?_⟩
    intro mint hmint hchange
    obtain rfl := Option.some.inj (hheld.symm.trans hmint)
    rcases hchange with hlt | hne
    · exact absurd hlt (UInt64.not_lt.2 hle)
    · exact absurd rfl hne

end Kinds

/-! ## One transaction -/

section Outcomes

variable {vm : Machine H} {fuel : ℕ}

/-- **What a call leaves behind**: every account it set is listed by
`Write`, and every account it deletes is dust. -/
structure Outcome (C : Crypto H) (s : State) (env : Environment) (i : Instruction)
    (d : StateDiff) : Prop where
  set : ∀ k a, d.get k = some a → a.owner = some address ∧
    ∃ bytes, a.data = some bytes ∧ Write C s env i k bytes
  dusty : Dusty C s env d

theorem outcome_execute {s : State} {u : ExecutionUnit} {out : TransactionOutput}
    (hcall : CallsOn vm s u) (h : vm.execute fuel u = some (.ok out)) :
    ∃ i rest, Borsh.deserialize u.params = some (i, rest) ∧
      Outcome vm.crypto s u.env i out.stateDiff := by
  obtain - | fuel := fuel
  · cases h
  simp only [Machine.execute, hcall.entry] at h
  split at h
  · simp at h
  rename_i os hos
  have hdirect := isDirect_call hos
  obtain ⟨hall, -⟩ := Machine.processOutputs_direct hdirect h
  obtain ⟨i, rest, hi⟩ : ∃ i rest, Borsh.deserialize u.params = some (i, rest) := by
    cases hi : (Borsh.deserialize u.params : Option (Instruction × Bytes)) with
    | none => simp [contract, hi] at hos
    | some p => exact ⟨p.1, p.2, hi⟩
  refine ⟨i, rest, hi, ?_, dusty_call hcall hi hos hall h⟩
  intro k a hset
  rcases Machine.processOutputs_set hdirect h hset with hempty | ⟨o, ho, r, heff, hget⟩
  · simp at hempty
  rcases lists_call hcall hi hos hall o ho with ⟨_, _, rfl⟩ | ⟨k', bytes, hkind, hwrite⟩ | ⟨_, rfl⟩
  · cases heff with
    | log => simp at hget
  · rcases hkind with rfl | rfl
    · cases heff with
      | create data _ _ =>
        rw [StateDiff.get_set, StateDiff.get_empty] at hget
        split at hget
        · rename_i hk
          subst hk
          obtain rfl := Option.some.inj hget
          exact ⟨by rw [hcall.contract], bytes, rfl, hwrite⟩
        · cases hget
    · cases heff with
      | write data _ hacc =>
        rw [StateDiff.get_set, StateDiff.get_empty] at hget
        split at hget
        · rename_i hk
          subst hk
          have howner := hwrite.owner (hcall.state ▸ hacc)
          obtain rfl := Option.some.inj hget
          exact ⟨howner, bytes, rfl, hwrite⟩
        · cases hget
  · cases heff with
    | delete => simp at hget

end Outcomes

section Step

variable {C N} [DecidableEq H] {vm : Machine H} {fuel : ℕ} {l l' : Ledger H}
  {tx : Transaction}

/-- The nonce of the payer is no part of what the contract holds. -/
theorem held_bumpNonce (store : State) (d : StateDiff) (payer k : Pubkey) :
    held (overlayed store (Machine.bumpNonce store d payer).get k) =
      held (overlayed store d.get k) := by
  unfold Machine.bumpNonce
  split
  · rename_i a ha
    rw [overlayed_apply, StateDiff.get_set]
    by_cases h : payer = k
    · subst h
      rw [if_pos rfl, ha, Option.some_or]
      rfl
    · rw [if_neg h, overlayed_apply]
  · rename_i ha
    rw [overlayed_apply, StateDiff.get_set]
    by_cases h : payer = k
    · subst h
      rw [if_pos rfl, ha, Option.some_or]
      rfl
    · rw [if_neg h, overlayed_apply]

/-- **What is true of a ledger between two steps**: the accounts of the
contract were written by it, and those the block deletes hold nothing. -/
structure Kept (C : Crypto H) (N : Names) (l : Ledger H) : Prop where
  written : Written C N l.view
  dust : ∀ k ∈ l.block.state.deletes, ∃ coin, CoinFor C N l.view k coin ∧ coin.balance = 0

variable (hbuiltin : vm.builtin address = some (contract vm.crypto))
include hbuiltin

/-- **What a transaction can do to a ledger**: nothing but a nonce, or the
outcome of one call. -/
theorem execute_cases (htx : tx.contract = address)
    (h : l.step vm fuel (.execute tx) = some l') :
    l'.store = l.store ∧
      (l'.block.state = Machine.bumpNonce l.store.get l.block.state tx.payer ∨
      ∃ i rest d, Borsh.deserialize tx.params = some (i, rest) ∧
        Outcome vm.crypto
          (overlayed l.store.get (Machine.bumpNonce l.store.get l.block.state tx.payer).get)
          (l.environment vm tx) i d ∧
        l'.block.state = (Machine.bumpNonce l.store.get l.block.state tx.payer).merge d) := by
  obtain ⟨block, hblock, rfl⟩ := Option.map_eq_some_iff.1 h
  refine ⟨rfl, ?_⟩
  simp only [Machine.executeNext] at hblock
  split at hblock
  · cases hblock
  · rename_i out hout
    obtain rfl := Option.some.inj hblock
    obtain ⟨u, hu, hexec⟩ := Machine.executeTransaction_ok hout
    obtain ⟨hstate, hcontract, hparams, hentry, henv⟩ := newUnit_currency hbuiltin htx hu
    obtain ⟨i, rest, hi, houtcome⟩ := outcome_execute
      ⟨hstate, hcontract, hentry, _, _, henv⟩ hexec
    refine .inr ⟨i, rest, _, hparams ▸ hi, ?_, rfl⟩
    rw [henv, ← htx] at houtcome
    exact houtcome
  · obtain rfl := Option.some.inj hblock
    exact .inl rfl

end Step

section Runs

variable {C N} {vm : Machine H} {fuel : ℕ} {l l' : Ledger H} {tx : Transaction}

theorem coinFor_congr {s s' : State} {k : Pubkey} {coin : CoinAccount}
    (heq : held (s' k) = held (s k)) (h : CoinFor C N s k coin) : CoinFor C N s' k coin := by
  refine ⟨⟨?_, h.derived⟩, h.mint, h.owner⟩
  rw [coinOf_eq, heq, ← coinOf_eq, h.held]

/-- The names of a transaction include those of its environment. -/
theorem within_environment (h : N.Cover tx) : N.Within (l.environment vm tx) := by
  refine ⟨?_, ?_⟩
  · rintro k ⟨p, hp, rfl⟩
    obtain ⟨r, hr, rfl⟩ := List.mem_map.1 hp
    exact h.address r hr
  · rintro k ⟨p, hp, rfl, hsigner⟩
    obtain ⟨r, hr, rfl⟩ := List.mem_map.1 hp
    exact h.signer r hr hsigner

theorem written_congr {s s' : State} (heq : ∀ k, held (s' k) = held (s k))
    (h : Written C N s) : Written C N s' := by
  rw [written_iff] at h ⊢
  intro k data hk
  exact h k data (heq k ▸ hk)

/-- The accounts of the contract at the end of a block. -/
theorem held_finalize (k : Pubkey) :
    held (Ledger.view (⟨l.store.apply l.block.state, {}⟩ : Ledger H) k) =
      if k ∈ l.block.state.deletes then none else held (l.view k) := by
  rw [Ledger.view, overlayed_apply, StateDiff.get_empty, Option.none_or,
    PersistentState.get_apply]
  split
  · rfl
  · rw [Ledger.view, overlayed_apply]
    cases l.block.state.get k <;> rfl

/-- The accounts of a ledger whose block had a diff merged in. -/
theorem view_of_merge {s d : StateDiff} (hstore : l'.store = l.store)
    (hstate : l'.block.state = s.merge d) (k : Pubkey) :
    l'.view k = (d.get k).or (overlayed l.store.get s.get k) := by
  rw [Ledger.view, hstore, hstate, overlayed_apply, StateDiff.get_merge, overlayed_apply,
    Option.or_assoc]

theorem Governs.congr {s s' : State} {env : Environment} (h : Governs C N s env)
    (heq : ∀ k, held (s' k) = held (s k)) : Governs C N s' env := by
  intro k mint authority hmint
  rw [mintOf_eq, heq, ← mintOf_eq] at hmint
  exact h k mint authority hmint

variable [DecidableEq H]

/-- **One account, one transaction**: it is left as it was, or changed as
`Write.spec` says. -/
theorem held_execute (hbuiltin : vm.builtin address = some (contract vm.crypto))
    (htx : tx.contract = address) (h : l.step vm fuel (.execute tx) = some l') (k : Pubkey) :
    held (l'.view k) = held (l.view k) ∨
      ∃ i rest bytes, Borsh.deserialize tx.params = some (i, rest) ∧
        Write vm.crypto
          (overlayed l.store.get (Machine.bumpNonce l.store.get l.block.state tx.payer).get)
          (l.environment vm tx) i k bytes ∧
        held (l'.view k) = some (some bytes) := by
  obtain ⟨hstore, hfail | ⟨i, rest, d, hi, hout, hstate⟩⟩ := execute_cases hbuiltin htx h
  · rw [Ledger.view, hstore, hfail, held_bumpNonce]
    exact .inl rfl
  · have hview := view_of_merge hstore hstate k
    cases hget : d.get k with
    | none =>
      rw [hview, hget, Option.none_or, held_bumpNonce]
      exact .inl rfl
    | some a =>
      obtain ⟨howner, bytes, hdata, hwrite⟩ := hout.set k a hget
      refine .inr ⟨i, rest, bytes, hi, hwrite, ?_⟩
      rw [hview, hget, Option.some_or]
      exact held_eq_some.2 ⟨a, rfl, howner, hdata⟩

section Change

variable (hbuiltin : vm.builtin address = some (contract vm.crypto)) (hapart : N.Apart vm.crypto)
include hbuiltin hapart

/-- The accounts of a ledger after a transaction, as mints and coin
accounts. -/
theorem change_execute (hwritten : Written vm.crypto N l.view)
    (hgoverns : Governs vm.crypto N l.view (l.environment vm tx)) (htx : tx.contract = address)
    (hcover : N.Cover tx) (h : l.step vm fuel (.execute tx) = some l') (k : Pubkey) :
    held (l'.view k) = held (l.view k) ∨
    (N.Mint vm.crypto k ∧ ∃ mint' : Mint,
      held (l'.view k) = some (some (Borsh.serialize mint')) ∧
      ∀ mint, mintOf (l.view k) = some mint →
        mint.supply < mint'.supply ∨ mint'.authority ≠ mint.authority →
        ∃ authority, mint.authority = some authority ∧ Marks (l.environment vm tx) authority) ∨
    ∃ coin' : CoinAccount, held (l'.view k) = some (some (Borsh.serialize coin')) ∧
      N.Mint vm.crypto coin'.mint ∧ coin'.owner ∈ N.addresses ∧
      k = coinAddress vm.crypto coin'.mint coin'.owner ∧
      ∀ coin, coinOf (l.view k) = some coin → coin.mint = coin'.mint ∧
        (coin'.balance < coin.balance →
          (∃ i rest, Borsh.deserialize tx.params = some (i, rest) ∧ Instruction.Spends i) ∧
            Marks (l.environment vm tx) coin.owner) := by
  have hbump := held_bumpNonce l.store.get l.block.state tx.payer
  rcases held_execute hbuiltin htx h k with hsame | ⟨i, rest, bytes, hi, hwrite, hheld⟩
  · exact .inl hsame
  refine .inr ?_
  have hgoverns' := hgoverns.congr hbump
  rcases hwrite.spec hapart (written_congr hbump hwritten) (within_environment hcover) hgoverns'
    (hcover.seed i rest hi) with ⟨hk, mint', rfl, hmint⟩ | ⟨coin', rfl, hm, hw, hk, hcoin⟩
  · refine .inl ⟨hk, mint', hheld, ?_⟩
    rw [mintOf_eq, hbump, ← mintOf_eq] at hmint
    exact hmint
  · refine .inr ⟨coin', hheld, hm, hw, hk, fun coin hat => ?_⟩
    rw [coinOf_eq, hbump, ← coinOf_eq] at hcoin
    obtain ⟨hsame, hdebit⟩ := hcoin coin hat
    exact ⟨hsame, fun hlt => ⟨⟨i, rest, hi, (hdebit hlt).1⟩, (hdebit hlt).2⟩⟩

/-- A transaction keeps the accounts of the contract its own writing. -/
theorem written_execute (hwritten : Written vm.crypto N l.view)
    (hgoverns : Governs vm.crypto N l.view (l.environment vm tx)) (htx : tx.contract = address)
    (hcover : N.Cover tx) (h : l.step vm fuel (.execute tx) = some l') :
    Written vm.crypto N l'.view := by
  rw [written_iff]
  intro k data hk
  rcases change_execute hbuiltin hapart hwritten hgoverns htx hcover h k with
    hsame | ⟨hmint, mint', hheld, -⟩ | ⟨coin', hheld, hm, hw, hk', -⟩
  · exact (written_iff _ _).1 hwritten k data (hsame ▸ hk)
  · obtain rfl := Option.some.inj (hk.symm.trans hheld)
    exact .inl ⟨hmint, mint', rfl⟩
  · obtain rfl := Option.some.inj (hk.symm.trans hheld)
    exact .inr ⟨_, _, coin'.balance, hm, hw, hk', rfl⟩

end Change

/-- So does the end of a block, where deletions come into effect. -/
theorem written_finalize {C : Crypto H} (hwritten : Written C N l.view)
    (h : l.step vm fuel .finalize = some l') : Written C N l'.view := by
  obtain rfl := Option.some.inj h
  rw [written_iff]
  intro k data hk
  rw [held_finalize] at hk
  split at hk
  · cases hk
  · exact (written_iff _ _).1 hwritten k data hk

section Lawful

variable (hbuiltin : vm.builtin address = some (contract vm.crypto)) (hsound : Sound vm.crypto N)
include hbuiltin hsound

theorem authorized_execute (hwritten : Written vm.crypto N l.view) (htx : tx.contract = address)
    (hcover : N.Cover tx) (h : l.step vm fuel (.execute tx) = some l') :
    Authorized N vm l l' tx where
  balance := by
    intro k coin hfor hlt
    have hN : N.Within (l.environment vm tx) := within_environment hcover
    have hgoverns := hsound.governs hwritten hN
    rcases change_execute hbuiltin hsound.apart hwritten hgoverns htx hcover h k with
      hsame | ⟨hk, -⟩ | ⟨coin', hheld, -, -, -, hcoin⟩
    · -- an account left as it was holds what it held
      have hbalance : balanceOf coin.mint (l'.view k) = coin.balance.toNat := by
        rw [balanceOf, coinOf_eq, hsame, ← coinOf_eq, hfor.held]
        exact if_pos rfl
      omega
    · exact absurd hk (hfor.not_mint hsound.apart)
    · obtain ⟨hmint, hdebit⟩ := hcoin coin hfor.held
      refine hdebit (UInt64.lt_iff_toNat_lt.2 ?_)
      rw [balanceOf, coinOf_eq, hheld] at hlt
      simpa [hmint] using hlt
  mint := by
    intro k mint hat
    have hN : N.Within (l.environment vm tx) := within_environment hcover
    have hgoverns := hsound.governs hwritten hN
    rcases change_execute hbuiltin hsound.apart hwritten hgoverns htx hcover h k with
      hsame | ⟨hk, mint', hheld, hmint⟩ | ⟨coin', -, hm, hw, hk, -⟩
    · refine ⟨mint, ⟨?_, hat.derived⟩, fun hchange => ?_⟩
      · rw [mintOf_eq, hsame, ← mintOf_eq, hat.held]
      · rcases hchange with hlt | hne
        · exact absurd hlt (UInt64.lt_irrefl _)
        · exact absurd rfl hne
    · refine ⟨mint', ⟨?_, hk⟩, hmint mint hat.held⟩
      rw [mintOf_eq, hheld]
      simp
    · exact absurd (hk ▸ hat.derived) (hsound.apart _ (.inr hm) _ hw)

theorem kept_execute (hkept : Kept vm.crypto N l) (htx : tx.contract = address)
    (hcover : N.Cover tx) (h : l.step vm fuel (.execute tx) = some l') :
    Kept vm.crypto N l' where
  written := by
    have hN : N.Within (l.environment vm tx) := within_environment hcover
    have hgoverns := hsound.governs hkept.written hN
    exact written_execute hbuiltin hsound.apart hkept.written hgoverns htx hcover h
  dust := by
    intro k hk
    have hbump := held_bumpNonce l.store.get l.block.state tx.payer
    have hold : k ∈ (Machine.bumpNonce l.store.get l.block.state tx.payer).deletes →
        held (l'.view k) = held (l.view k) →
        ∃ coin, CoinFor vm.crypto N l'.view k coin ∧ coin.balance = 0 := by
      intro hk hsame
      obtain ⟨coin, hfor, hzero⟩ := hkept.dust k (Machine.mem_deletes_bumpNonce hk)
      exact ⟨coin, coinFor_congr hsame hfor, hzero⟩
    obtain ⟨hstore, hfail | ⟨i, rest, d, hi, hout, hstate⟩⟩ := execute_cases hbuiltin htx h
    · refine hold (hfail ▸ hk) ?_
      rw [Ledger.view, hstore, hfail]
      exact hbump k
    · have hview := view_of_merge hstore hstate k
      rw [hstate, StateDiff.mem_deletes_merge] at hk
      rcases hk with hk | ⟨hk, hnone⟩
      · obtain ⟨a, coin, hread, hget, howner, hdata⟩ := hout.dusty k hk
        have hfor := coinFor_of_read hsound.apart (written_congr hbump hkept.written)
          (within_environment hcover) hread
        refine ⟨{ coin with balance := 0 }, ⟨⟨?_, hfor.derived⟩, hfor.mint, hfor.owner⟩, rfl⟩
        rw [hview, hget, Option.some_or, coinOf, if_pos howner, hdata]
        simp
      · refine hold hk ?_
        rw [hview, hnone, Option.none_or]
        exact hbump k

omit hbuiltin in
/-- The end of a block: the deletions come into effect. -/
theorem settles_finalize (hkept : Kept vm.crypto N l)
    (h : l.step vm fuel .finalize = some l') :
    Kept vm.crypto N l' ∧ Settles vm.crypto N l l' := by
  have hwritten := written_finalize hkept.written h
  obtain rfl := Option.some.inj h
  refine ⟨⟨hwritten, ?_⟩, ?_, ?_⟩
  · intro k hk
    exact absurd hk StateDiff.not_mem_deletes_empty
  · intro k m
    by_cases hk : k ∈ l.block.state.deletes
    · obtain ⟨coin, hfor, hzero⟩ := hkept.dust k hk
      rw [balanceOf, coinOf_eq, held_finalize, if_pos hk, balanceOf, hfor.held]
      simp [hzero]
    · rw [balanceOf, coinOf_eq, held_finalize, if_neg hk, ← coinOf_eq, balanceOf]
  · intro k mint hat
    refine ⟨?_, hat.derived⟩
    have hk : k ∉ l.block.state.deletes := by
      intro hk
      obtain ⟨coin, hfor, -⟩ := hkept.dust k hk
      exact hfor.not_mint hsound.apart hat.derived
    rw [mintOf_eq, held_finalize, if_neg hk, ← mintOf_eq, hat.held]

/-- **One step is lawful, and keeps the ledger well-formed.** -/
theorem lawful_step (hkept : Kept vm.crypto N l) {e : LedgerStep}
    (htx : ∀ tx, e = .execute tx → tx.contract = address ∧ N.Cover tx)
    (h : l.step vm fuel e = some l') : Kept vm.crypto N l' ∧ Lawful N vm l l' e := by
  cases e with
  | execute tx =>
    obtain ⟨hcontract, hcover⟩ := htx tx rfl
    exact ⟨kept_execute hbuiltin hsound hkept hcontract hcover h,
      authorized_execute hbuiltin hsound hkept.written hcontract hcover h⟩
  | finalize => exact settles_finalize hsound hkept h

theorem kept_run {steps : List LedgerStep} (hkept : Kept vm.crypto N l)
    (htx : ∀ tx, .execute tx ∈ steps → tx.contract = address ∧ N.Cover tx)
    (h : Ledger.run vm fuel l steps = some l') : Kept vm.crypto N l' := by
  induction steps generalizing l with
  | nil =>
    obtain rfl := Option.some.inj h
    exact hkept
  | cons e steps ih =>
    obtain ⟨mid, hstep, hrest⟩ := Option.bind_eq_some_iff.1 h
    have hmid := (lawful_step hbuiltin hsound hkept
      (fun tx he => htx tx (he ▸ List.mem_cons_self)) hstep).1
    exact ih hmid (fun tx hmem => htx tx (List.mem_cons_of_mem _ hmem)) hrest

/-- **A mint without an authority is closed for good**: no step gives it
one, or more supply. -/
theorem closed_step (hkept : Kept vm.crypto N l) {e : LedgerStep}
    (htx : ∀ tx, e = .execute tx → tx.contract = address ∧ N.Cover tx)
    (h : l.step vm fuel e = some l') {k : Pubkey} {mint : Mint}
    (hat : MintAt vm.crypto N l.view k mint) (hnone : mint.authority = none) :
    ∃ mint', MintAt vm.crypto N l'.view k mint' ∧ mint'.authority = none ∧
      mint'.supply ≤ mint.supply := by
  have hlawful := (lawful_step hbuiltin hsound hkept htx h).2
  cases e with
  | execute tx =>
    obtain ⟨mint', hat', hchange⟩ := hlawful.mint k mint hat
    have hsame : ¬ (mint.supply < mint'.supply ∨ mint'.authority ≠ mint.authority) := by
      intro hc
      obtain ⟨authority, hauth, -⟩ := hchange hc
      rw [hnone] at hauth
      cases hauth
    rw [not_or, not_not] at hsame
    exact ⟨mint', hat', hsame.2.trans hnone, UInt64.not_lt.1 hsame.1⟩
  | finalize => exact ⟨mint, hlawful.mint k mint hat, hnone, UInt64.le_refl _⟩

theorem closed_run {steps : List LedgerStep} (hkept : Kept vm.crypto N l)
    (htx : ∀ tx, .execute tx ∈ steps → tx.contract = address ∧ N.Cover tx)
    (h : Ledger.run vm fuel l steps = some l') {k : Pubkey} {mint : Mint}
    (hat : MintAt vm.crypto N l.view k mint) (hnone : mint.authority = none) :
    ∃ mint', MintAt vm.crypto N l'.view k mint' ∧ mint'.authority = none ∧
      mint'.supply ≤ mint.supply := by
  induction steps generalizing l mint with
  | nil =>
    obtain rfl := Option.some.inj h
    exact ⟨mint, hat, hnone, UInt64.le_refl _⟩
  | cons e steps ih =>
    obtain ⟨mid, hstep, hrest⟩ := Option.bind_eq_some_iff.1 h
    have hfirst : ∀ tx, e = .execute tx → tx.contract = address ∧ N.Cover tx :=
      fun tx he => htx tx (he ▸ List.mem_cons_self)
    have hmid := (lawful_step hbuiltin hsound hkept hfirst hstep).1
    obtain ⟨mint₁, hat₁, hnone₁, hle₁⟩ := closed_step hbuiltin hsound hkept hfirst hstep hat hnone
    obtain ⟨mint₂, hat₂, hnone₂, hle₂⟩ :=
      ih hmid (fun tx hmem => htx tx (List.mem_cons_of_mem _ hmem)) hrest hat₁ hnone₁
    exact ⟨mint₂, hat₂, hnone₂, UInt64.le_trans hle₂ hle₁⟩

end Lawful

/-- **Authorization over runs.** On a store whose accounts of the contract
were all written by it, take any run of transactions that invoke the
contract and of ends of blocks, and any step of it. The step moves coins
and changes mints only with the signatures that `Lawful` asks for, a mint
that had no authority before the step has none at the end of the run and
no more supply, and the accounts of the contract are still its own
writing. -/
theorem authorized_run (vm : Machine H) (fuel : ℕ) (N : Names)
    (hbuiltin : vm.builtin address = some (contract vm.crypto)) (hsound : Sound vm.crypto N)
    (store : PersistentState) (hwritten : Written vm.crypto N store.get)
    (before : List LedgerStep) (e : LedgerStep) (after : List LedgerStep)
    (htx : ∀ tx, .execute tx ∈ before ++ e :: after → tx.contract = address ∧ N.Cover tx)
    (l l₁ l₂ : Ledger H) (hbefore : Ledger.run vm fuel { store } before = some l)
    (hstep : l.step vm fuel e = some l₁) (hafter : Ledger.run vm fuel l₁ after = some l₂) :
    Lawful N vm l l₁ e ∧ Written vm.crypto N l₂.view ∧
      ∀ k mint, MintAt vm.crypto N l.view k mint → mint.authority = none →
        ∃ mint', MintAt vm.crypto N l₂.view k mint' ∧ mint'.authority = none ∧
          mint'.supply ≤ mint.supply := by
  have hstart : Kept vm.crypto N ({ store } : Ledger H) := by
    refine ⟨written_congr (fun k => ?_) hwritten, fun k hk => ?_⟩
    · rw [Ledger.view, overlayed_apply, StateDiff.get_empty, Option.none_or]
    · exact absurd hk StateDiff.not_mem_deletes_empty
  have hmem : ∀ tx, .execute tx ∈ e :: after → tx.contract = address ∧ N.Cover tx :=
    fun tx h => htx tx (List.mem_append_right _ h)
  have hkept := kept_run hbuiltin hsound hstart
    (fun tx h => htx tx (List.mem_append_left _ h)) hbefore
  obtain ⟨hkept₁, hlawful⟩ := lawful_step hbuiltin hsound hkept
    (fun tx he => hmem tx (he ▸ List.mem_cons_self)) hstep
  have hkept₂ := kept_run hbuiltin hsound hkept₁
    (fun tx h => hmem tx (List.mem_cons_of_mem _ h)) hafter
  refine ⟨hlawful, hkept₂.written, fun k mint hat hnone => ?_⟩
  have hrun : Ledger.run vm fuel l (e :: after) = some l₂ :=
    Option.bind_eq_some_iff.2 ⟨l₁, hstep, hafter⟩
  exact closed_run hbuiltin hsound hkept hmem hrun hat hnone

end Runs

/-! ## A mint that is closed -/

namespace Sample

open Machine.Sample (sign)

/-- The seed of the coin. -/
def seed : FixedBytes 32 := ⟨(1000 : Pubkey).bytes, Pubkey.length_bytes _⟩

/-- The address of its mint, under the sample `Crypto`. -/
def mintAddr : Pubkey := OfNat.ofNat (1000 * 2 ^ 64)

/-- A call of the contract that wallet 1 pays for, and signs wherever a
signature is asked for. -/
def call (nonce : ℕ) (i : Instruction) (accounts : List AccountRef) : Transaction :=
  let tx : Transaction :=
    { contract := address, nonce, payer := 1, params := Borsh.serialize i, accounts
      signatures := [] }
  { tx with signatures := sign 1 tx :: (accounts.filter AccountRef.signer).map fun _ => sign 1 tx }

/-- The addresses that the calls list. -/
def addresses : List Pubkey := [mintAddr, 1, 2, coinAt 1, coinAt 2]

/-- The coin is created, and wallet 1 gets 100 of it. -/
def issue : List LedgerStep :=
  [.execute (call 1 (.create seed 1 0 none none) [⟨mintAddr, true, false⟩]),
    .execute (call 2 (.mint 100)
      [⟨mintAddr, true, false⟩, ⟨1, false, true⟩, ⟨1, false, false⟩, ⟨coinAt 1, true, false⟩])]

/-- The authority gives up its right to make more. -/
def close : LedgerStep :=
  .execute (call 3 (.setAuthority none) [⟨mintAddr, true, false⟩, ⟨1, false, true⟩])

/-- Wallet 1 pays wallet 2, and the block ends. -/
def spend : List LedgerStep :=
  [.execute (call 4 (.transfer 30)
      [⟨mintAddr, false, false⟩, ⟨1, false, true⟩, ⟨coinAt 1, true, false⟩, ⟨2, false, false⟩,
        ⟨coinAt 2, true, false⟩]),
    .finalize]

/-- A store without accounts. -/
def store : PersistentState := ⟨fun _ => none⟩

/-- The names of the run. -/
def names : Names where
  seeds := {seed}
  addresses := {k | k ∈ addresses}
  signers := {1}

/-- Names with one mint, among their addresses. -/
theorem apart_of_all {N : Names} {addrs : List Pubkey} {mintAt : Pubkey}
    (haddrs : ∀ k, k ∈ N.addresses ↔ k ∈ addrs) (hmint : ∀ k, N.Mint sampleCrypto k ↔ k = mintAt)
    (hmem : mintAt ∈ addrs)
    (hall : (addrs.all fun m => addrs.all fun wallet =>
      coinAddress sampleCrypto m wallet != mintAt) = true) : N.Apart sampleCrypto := by
  intro m hm wallet hw
  have hm' : m ∈ addrs := by
    rcases hm with hm | hm
    · exact (haddrs m).1 hm
    · rw [(hmint m).1 hm]
      exact hmem
  rw [hmint]
  simpa using List.all_eq_true.1 (List.all_eq_true.1 hall m hm') wallet ((haddrs wallet).1 hw)

theorem mint_iff {k : Pubkey} : names.Mint sampleCrypto k ↔ k = mintAddr := by
  have hseed : mintAddress sampleCrypto seed = mintAddr := by decide +kernel
  simp [Names.Mint, names, hseed]

theorem sound : Sound sampleCrypto names where
  apart := apart_of_all (fun _ => Iff.rfl) (fun _ => mint_iff) List.mem_cons_self
    (by decide +kernel)
  unspelled := by
    rintro m hm key rfl
    rw [mint_iff.1 hm]
    decide

theorem cover_call {nonce : ℕ} {i : Instruction} {accounts : List AccountRef}
    (hi : ∀ s ∈ i.seed, s = seed)
    (hacc : ∀ r ∈ accounts, r.address ∈ addresses ∧ (r.signer = true → r.address = 1)) :
    (call nonce i accounts).contract = address ∧ names.Cover (call nonce i accounts) := by
  refine ⟨rfl, ?_, fun r hr => (hacc r hr).1, fun r hr => (hacc r hr).2⟩
  intro i' rest hparams s hs
  have hread : Borsh.deserialize (Borsh.serialize i) = some (i, []) := by
    have := Borsh.deserialize_serialize i []
    rwa [List.append_nil] at this
  obtain ⟨rfl, -⟩ := Prod.mk.inj (Option.some.inj (hread.symm.trans hparams))
  exact hi s hs

/-- The transactions of the run call the contract, with names of the
run. -/
theorem covered : ∀ tx, .execute tx ∈ issue ++ close :: spend →
    tx.contract = address ∧ names.Cover tx := by
  intro tx hmem
  simp only [issue, close, spend, List.cons_append, List.nil_append, List.mem_cons,
    LedgerStep.execute.injEq, List.not_mem_nil, or_false, reduceCtorEq] at hmem
  rcases hmem with rfl | rfl | rfl | rfl
  · exact cover_call (by simp [Instruction.seed]) (by decide)
  · exact cover_call (by simp [Instruction.seed]) (by decide)
  · exact cover_call (by simp [Instruction.seed]) (by decide)
  · exact cover_call (by simp [Instruction.seed]) (by decide)

theorem written : Written sampleCrypto names store.get := by
  intro k a hk
  simp [store, PersistentState.get] at hk

end Sample

/-- The run of the sample: what the theorem promises of the step that
closes the mint, and of the mint after it. -/
theorem authorized_close :
    ∃ l l₁ l₂, Ledger.run Sample.machine 1 { store := Sample.store } Sample.issue = some l ∧
      l.step Sample.machine 1 Sample.close = some l₁ ∧
      Ledger.run Sample.machine 1 l₁ Sample.spend = some l₂ ∧
      balanceOf Sample.mintAddr (l₂.view (Sample.coinAt 2)) = 30 ∧
      Lawful Sample.names Sample.machine l l₁ Sample.close ∧
      Written sampleCrypto Sample.names l₂.view := by
  have hsome : ((Ledger.run Sample.machine 1 { store := Sample.store } Sample.issue).bind fun l =>
      (l.step Sample.machine 1 Sample.close).bind fun l₁ =>
        (Ledger.run Sample.machine 1 l₁ Sample.spend)).any (fun l₂ =>
          balanceOf Sample.mintAddr (l₂.view (Sample.coinAt 2)) == 30) = true := by
    decide +kernel
  obtain ⟨l₂, hall, hpaid⟩ := (Option.any_eq_true _ _).1 hsome
  obtain ⟨l, hissue, hall⟩ := Option.bind_eq_some_iff.1 hall
  obtain ⟨l₁, hclose, hspend⟩ := Option.bind_eq_some_iff.1 hall
  obtain ⟨hlawful, hkept, -⟩ := authorized_run Sample.machine 1 Sample.names Sample.machine_builtin
    Sample.sound Sample.store Sample.written Sample.issue Sample.close Sample.spend Sample.covered
    l l₁ l₂ hissue hclose hspend
  exact ⟨l, l₁, l₂, hissue, hclose, hspend, by simpa using hpaid, hlawful, hkept⟩

end Currency

end Rensa
