import Rensa.Vm.Authorization
/-!
# Mints and coin accounts

The contract keeps two kinds of accounts and writes neither with a tag. A
mint is never read as a coin account, which has to be at the address of
its mint and wallet. A coin account is read as a mint exactly where its 72
bytes are laid out as those of one: they start with the mint's address, so
that a first byte of 0 or 1 is read as the tag of the authority
(`SpellsMint`). Apart from such coin accounts the kinds stay apart over
every run (`distinct_run_iff`).
-/

namespace Rensa

namespace Currency

open Borsh (FixedBytes Text)

/-- **The bytes of a coin account that are also those of a mint**: a tag, of
an authority that is absent or of the next 32 bytes, nine bytes for the
supply and the decimals, and then two optional texts to the end. -/
def SpellsMint (coin : CoinAccount) : Prop :=
  let bytes := coin.mint.bytes ++ coin.owner.bytes ++ leBytes 8 coin.balance.toNat
  ∃ name symbol : Option Text,
    (bytes.head? = some 0 ∧ bytes.drop 10 = Borsh.serialize (name, symbol)) ∨
    (bytes.head? = some 1 ∧ bytes.drop 42 = Borsh.serialize (name, symbol))

instance : Borsh.Canonical Mint := Borsh.canonical_ofEquiv Mint.fields

instance : Borsh.Canonical CoinAccount := Borsh.canonical_ofEquiv CoinAccount.fields

/-- The bytes of a mint, one field after another. -/
theorem serialize_mint (mint : Mint) :
    (Borsh.serialize mint : Bytes) = Borsh.serialize mint.authority ++
      (leBytes 8 mint.supply.toNat ++
        ([mint.decimals] ++ Borsh.serialize (mint.name, mint.symbol))) := rfl

theorem serialize_coin (coin : CoinAccount) :
    (Borsh.serialize coin : Bytes) =
      coin.mint.bytes ++ coin.owner.bytes ++ leBytes 8 coin.balance.toNat := by
  rw [List.append_assoc]
  rfl

/-- Nine bytes are a supply and decimals. -/
theorem exists_supply {bs : Bytes} (h : bs.length = 9) :
    ∃ (supply : UInt64) (decimals : UInt8), bs = leBytes 8 supply.toNat ++ [decimals] := by
  have htake : (bs.take 8).length = 8 := by
    rw [List.length_take]
    omega
  obtain ⟨decimals, hlast⟩ : ∃ decimals, bs.drop 8 = [decimals] := by
    rw [← List.length_eq_one_iff, List.length_drop]
    omega
  have hlt : leNat (bs.take 8) < 2 ^ 64 := by
    have := leNat_lt (bs.take 8)
    rwa [htake, show (256 : ℕ) ^ 8 = 2 ^ 64 by norm_num] at this
  refine ⟨UInt64.ofNat (leNat (bs.take 8)), decimals, ?_⟩
  rw [UInt64.toNat_ofNat_of_lt' hlt, leBytes_leNat htake, ← hlast, List.take_append_drop]

/-- A mint whose authority has been read. -/
theorem exists_mint {bs : Bytes} {name symbol : Option Text} (authority : Option Pubkey)
    (hlen : 9 ≤ bs.length) (h : bs.drop 9 = Borsh.serialize (name, symbol)) :
    ∃ mint : Mint, Borsh.serialize authority ++ bs = Borsh.serialize mint := by
  obtain ⟨supply, decimals, htake⟩ := exists_supply (List.length_take_of_le hlen)
  refine ⟨⟨authority, supply, decimals, name, symbol⟩, ?_⟩
  rw [serialize_mint, ← h, ← List.append_assoc (leBytes 8 _), ← htake, List.take_append_drop]

/-- **When a coin account decodes as a mint.** -/
theorem decodes_iff (coin : CoinAccount) :
    (∃ mint, Borsh.tryFromSlice Mint (Borsh.serialize coin) = some mint) ↔ SpellsMint coin := by
  have hlen :
      (coin.mint.bytes ++ coin.owner.bytes ++ leBytes 8 coin.balance.toNat).length = 72 := by
    simp
  simp only [Borsh.serialize_of_tryFromSlice, serialize_coin, SpellsMint]
  generalize coin.mint.bytes ++ coin.owner.bytes ++ leBytes 8 coin.balance.toNat = bytes at hlen
  constructor
  · rintro ⟨mint, rfl⟩
    refine ⟨mint.name, mint.symbol, ?_⟩
    rw [serialize_mint]
    cases mint.authority with
    | none =>
      refine .inl ⟨rfl, ?_⟩
      rw [← List.append_assoc, ← List.append_assoc]
      exact List.drop_left' (by simp [Borsh.serialize])
    | some authority =>
      refine .inr ⟨rfl, ?_⟩
      rw [← List.append_assoc, ← List.append_assoc]
      exact List.drop_left' (by simp [Borsh.serialize])
  · rintro ⟨name, symbol, ⟨hhead, htail⟩ | ⟨hhead, htail⟩⟩
    · obtain ⟨rest, rfl⟩ := List.head?_eq_some_iff.1 hhead
      rw [List.length_cons] at hlen
      exact exists_mint none (by omega) htail
    · obtain ⟨rest, rfl⟩ := List.head?_eq_some_iff.1 hhead
      rw [List.length_cons] at hlen
      -- the authority is the 32 bytes after the tag
      have hkey : (Pubkey.ofBytes (rest.take 32)).bytes = rest.take 32 :=
        Pubkey.bytes_ofBytes (List.length_take_of_le (by omega))
      have hfields : (rest.drop 32).drop 9 = Borsh.serialize (name, symbol) := by
        rw [List.drop_drop]
        exact htail
      obtain ⟨mint, hmint⟩ := exists_mint (some (Pubkey.ofBytes (rest.take 32)))
        (by rw [List.length_drop]; omega) hfields
      refine ⟨mint, hmint ▸ ?_⟩
      change 1 :: rest = 1 :: ((Pubkey.ofBytes (rest.take 32)).bytes ++ rest.drop 32)
      rw [hkey, List.take_append_drop]

/-! ## The kinds over a run -/

section Runs

variable {H : Type} (vm : Machine H) (N : Names)

/-- **The kinds are told apart**: in no environment that the machine builds
on this state, an account at the address of a coin account is read as a
mint, or one at the address of a mint as a coin account. The contract
creates its accounts at these addresses only. -/
structure Distinct (s : State) : Prop where
  coin : ∀ m wallet, m ∈ N.addresses ∨ N.Mint vm.crypto m → wallet ∈ N.addresses →
    ∀ (r : AccountRef) (env : Environment), r.address = coinAddress vm.crypto m wallet →
      env.address = address → ∀ mint,
        readCoinMint vm.crypto r.address (vm.createAccountView s address r).2 env ≠ .ok mint
  mint : ∀ (r : AccountRef) (env : Environment), N.Mint vm.crypto r.address →
    env.address = address → ∀ m ∈ N.addresses, ∀ wallet ∈ N.addresses, ∀ coin,
      readCoinAccount vm.crypto r.address (vm.createAccountView s address r).2 m wallet env ≠
        .ok coin

/-- No coin account of the state has the bytes of a mint. -/
def Plain (C : Crypto H) (N : Names) (s : State) : Prop :=
  ∀ k coin, CoinFor C N s k coin → ¬ SpellsMint coin

variable {vm N} {s : State}

/-- A coin account at an address, from the bytes of the account. -/
theorem coinOf_of_held {a : Option Account} {coin : CoinAccount}
    (h : held a = some (some (Borsh.serialize coin))) : coinOf a = some coin := by
  rw [coinOf_eq, h]
  exact Borsh.tryFromSlice_serialize coin

theorem held_of_coinOf {a : Option Account} {coin : CoinAccount} (h : coinOf a = some coin) :
    held a = some (some (Borsh.serialize coin)) := by
  rw [coinOf_eq] at h
  obtain ⟨data, hdata, hcoin⟩ := Option.bind_eq_some_iff.1 h
  obtain ⟨bytes, rfl, hread⟩ := Option.bind_eq_some_iff.1 hcoin
  rw [hdata, Borsh.serialize_of_tryFromSlice.1 hread]

/-- What `read_coin_mint` makes of an account of the ledger. -/
theorem readCoinMint_view {r : AccountRef} {env : Environment} (henv : env.address = address)
    (hcurve : vm.crypto.hasPrivateKey r.address = false) {mint : Mint} :
    readCoinMint vm.crypto r.address (vm.createAccountView s address r).2 env = .ok mint ↔
      mintOf (s r.address) = some mint := by
  constructor
  · intro h
    obtain ⟨howner, hdata⟩ := readCoinMint_ok h
    rw [henv] at howner
    cases hs : s r.address with
    | none => simp [Machine.createAccountView, hs] at howner
    | some a =>
      simp only [Machine.createAccountView, hs, Option.bind_some] at howner hdata
      rw [mintOf, if_pos howner]
      exact hdata
  · intro h
    rw [mintOf_eq] at h
    obtain ⟨data, hheld, h⟩ := Option.bind_eq_some_iff.1 h
    obtain ⟨bytes, rfl, hread⟩ := Option.bind_eq_some_iff.1 h
    obtain ⟨a, ha, howner, hdata⟩ := held_eq_some.1 hheld
    simp only [readCoinMint, hcurve, Machine.createAccountView, ha, Option.bind_some, howner,
      henv, hdata, hread, Bool.false_eq_true, if_false, ne_eq, not_true_eq_false]

/-- **One state**: where the accounts of the contract are its own writing,
the kinds are told apart exactly where no coin account has the bytes of a
mint. -/
theorem distinct_iff (hapart : N.Apart vm.crypto) (hwritten : Written vm.crypto N s) :
    Distinct vm N s ↔ Plain vm.crypto N s := by
  constructor
  · intro h k coin hfor hspells
    obtain ⟨mint, hmint⟩ := (decodes_iff coin).2 hspells
    have hderived : k = coinAddress vm.crypto coin.mint coin.owner := hfor.derived
    have hcurve : vm.crypto.hasPrivateKey k = false := by
      rw [hderived]
      exact Pubkey.hasPrivateKey_derive _ _ _
    have hread : mintOf (s k) = some mint := by
      rw [mintOf_eq, held_of_coinOf hfor.held]
      exact hmint
    exact h.coin _ _ (.inr hfor.mint) hfor.owner ⟨k, false, false⟩ ⟨none, address, []⟩ hderived
      rfl mint ((readCoinMint_view rfl hcurve).2 hread)
  · intro h
    refine ⟨?_, ?_⟩
    · intro m wallet hm hw r env hr henv mint hread
      have hcurve : vm.crypto.hasPrivateKey r.address = false := by
        rw [hr]
        exact Pubkey.hasPrivateKey_derive _ _ _
      rw [readCoinMint_view henv hcurve, mintOf_eq] at hread
      obtain ⟨data, hheld, hmint⟩ := Option.bind_eq_some_iff.1 hread
      -- the account is not at the address of a mint, so that it is a coin account
      rcases (written_iff _ _).1 hwritten _ data hheld with ⟨hmintAt, -⟩ | ⟨m', wallet', balance,
        hm', hw', hk, rfl⟩
      · rw [hr] at hmintAt
        exact hapart m hm wallet hw hmintAt
      · refine h _ ⟨m', wallet', balance⟩ ⟨⟨coinOf_of_held hheld, hk⟩, hm', hw'⟩ ?_
        exact (decodes_iff _).1 ⟨mint, hmint⟩
    · intro r env hmint henv m hm wallet hw coin hread
      simp only [readCoinAccount, henv] at hread
      split at hread
      · cases hread
      · rename_i haddr
        have hk : r.address = coinAddress vm.crypto m wallet := not_not.1 haddr
        rw [hk] at hmint
        exact hapart m (.inl hm) wallet hw hmint

/-- What governs a mint reads no coin account, where none has the bytes of
one. -/
theorem Plain.governs {env : Environment} (h : Plain vm.crypto N s)
    (hwritten : Written vm.crypto N s) : Governs vm.crypto N s env := by
  intro k mint authority hmint _ _
  rw [mintOf_eq] at hmint
  obtain ⟨data, hheld, hread⟩ := Option.bind_eq_some_iff.1 hmint
  rcases (written_iff _ _).1 hwritten k data hheld with ⟨hk, -⟩ | ⟨m, wallet, balance, hm, hw,
    hk, rfl⟩
  · exact hk
  · exact absurd ((decodes_iff _).1 ⟨mint, hread⟩)
      (h k ⟨m, wallet, balance⟩ ⟨⟨coinOf_of_held hheld, hk⟩, hm, hw⟩)

variable [DecidableEq H] {fuel : ℕ} {l l' : Ledger H}

/-- **A run whose states are plain**, as far as they are the contract's own
writing, keeps them so. -/
theorem written_run (hbuiltin : vm.builtin address = some (contract vm.crypto))
    (hapart : N.Apart vm.crypto) {steps : List LedgerStep}
    (htx : ∀ tx, .execute tx ∈ steps → tx.contract = address ∧ N.Cover tx)
    (hplain : ∀ pre m, pre <+: steps → Ledger.run vm fuel l pre = some m →
      Written vm.crypto N m.view → Plain vm.crypto N m.view)
    (hwritten : Written vm.crypto N l.view) (h : Ledger.run vm fuel l steps = some l') :
    Written vm.crypto N l'.view := by
  induction steps generalizing l with
  | nil =>
    obtain rfl := Option.some.inj h
    exact hwritten
  | cons e steps ih =>
    obtain ⟨mid, hstep, hrest⟩ := Option.bind_eq_some_iff.1 h
    have hmid : Written vm.crypto N mid.view := by
      cases e with
      | execute tx =>
        obtain ⟨hcontract, hcover⟩ := htx tx List.mem_cons_self
        have hfirst := hplain [] l List.nil_prefix rfl hwritten
        exact written_execute hbuiltin hapart hwritten (hfirst.governs hwritten) hcontract hcover
          hstep
      | finalize => exact written_finalize hwritten hstep
    refine ih (fun tx hmem => htx tx (List.mem_cons_of_mem _ hmem)) ?_ hmid hrest
    intro pre m hpre hrun
    exact hplain (e :: pre) m ((List.prefix_cons_inj e).2 hpre)
      (Option.bind_eq_some_iff.2 ⟨mid, hstep, hrun⟩)

/-- **The kinds over a run.** On a store whose accounts of the contract were
all written by it, take any run of transactions that invoke the contract
and of ends of blocks. In every state of the run the kinds are told apart
exactly when in every state of the run no coin account has the bytes of a
mint. -/
theorem distinct_run_iff (vm : Machine H) (fuel : ℕ) (N : Names)
    (hbuiltin : vm.builtin address = some (contract vm.crypto)) (hapart : N.Apart vm.crypto)
    (store : PersistentState) (hwritten : Written vm.crypto N store.get)
    (steps : List LedgerStep)
    (htx : ∀ tx, .execute tx ∈ steps → tx.contract = address ∧ N.Cover tx) :
    (∀ pre l, pre <+: steps → Ledger.run vm fuel { store } pre = some l →
      Distinct vm N l.view) ↔
    ∀ pre l, pre <+: steps → Ledger.run vm fuel { store } pre = some l →
      Plain vm.crypto N l.view := by
  have hstart : Written vm.crypto N ({ store } : Ledger H).view := by
    refine written_congr (fun k => ?_) hwritten
    rw [Ledger.view, overlayed_apply, StateDiff.get_empty, Option.none_or]
  have hpart : ∀ {pre : List LedgerStep}, pre <+: steps →
      ∀ tx, .execute tx ∈ pre → tx.contract = address ∧ N.Cover tx :=
    fun hpre tx hmem => htx tx (hpre.subset hmem)
  constructor
  · intro h pre l hpre hrun
    have hl := written_run hbuiltin hapart (hpart hpre) (fun pre' m hpre' hrun' hm =>
      (distinct_iff hapart hm).1 (h pre' m (hpre'.trans hpre) hrun')) hstart hrun
    exact (distinct_iff hapart hl).1 (h pre l hpre hrun)
  · intro h pre l hpre hrun
    have hl := written_run hbuiltin hapart (hpart hpre) (fun pre' m hpre' hrun' _ =>
      h pre' m (hpre'.trans hpre) hrun') hstart hrun
    exact (distinct_iff hapart hl).2 (h pre l hpre hrun)

end Runs

namespace Sample

/-- A seed whose mint has an address of the layout of a mint: the address
starts with ten zeros, then the tags of an absent name and of a symbol, and
56 as the length of the symbol. -/
def spelledSeed : FixedBytes 32 :=
  ⟨(OfNat.ofNat (256 ^ 12 + 56 * 256 ^ 11) : Pubkey).bytes, Pubkey.length_bytes _⟩

/-- The address of the mint. -/
def spelledAddr : Pubkey := OfNat.ofNat ((256 ^ 12 + 56 * 256 ^ 11) * 2 ^ 64)

/-- The coin is created, and wallet 1 gets 100 of it. -/
def spell : List LedgerStep :=
  [.execute (call 1 (.create spelledSeed 1 0 none none) [⟨spelledAddr, true, false⟩]),
    .execute (call 2 (.mint 100)
      [⟨spelledAddr, true, false⟩, ⟨1, false, true⟩, ⟨1, false, false⟩, ⟨coinAt 1, true, false⟩])]

/-- The names of the run. -/
def spelledNames : Names where
  seeds := {spelledSeed}
  addresses := {k | k ∈ [spelledAddr, 1, coinAt 1]}
  signers := {1}

theorem spelledNames_mint {k : Pubkey} :
    spelledNames.Mint sampleCrypto k ↔ k = spelledAddr := by
  have hseed : mintAddress sampleCrypto spelledSeed = spelledAddr := by decide +kernel
  simp [Names.Mint, spelledNames, hseed]

theorem spelledNames_apart : spelledNames.Apart sampleCrypto :=
  apart_of_all (fun _ => Iff.rfl) (fun _ => spelledNames_mint) List.mem_cons_self
    (by decide +kernel)

/-- The symbol that the address of the mint, of the wallet and the balance
spell: 47 zeros, the last byte of the wallet, and the balance. -/
def symbol : Text :=
  ⟨String.ofList (List.replicate 47 (Char.ofNat 0) ++ [Char.ofNat 1, Char.ofNat 100] ++
    List.replicate 7 (Char.ofNat 0)), by decide⟩

/-- The mint that the coin account is read as. -/
def spelled : Mint :=
  { authority := none, supply := 0, decimals := 0, name := none, symbol := some symbol }

theorem serialize_spelled : (Borsh.serialize spelled : Bytes) =
    Borsh.serialize (⟨spelledAddr, 1, 100⟩ : CoinAccount) := by
  decide

end Sample

/-- **A coin account that is a mint**: after a run of two transactions
whose addresses do not collide, the 100 coins of wallet 1 are accepted by
`read_coin_mint`. -/
theorem spelled_not_distinct :
    Sample.spelledNames.Apart sampleCrypto ∧
    ∃ l, Ledger.run Sample.machine 1 { store := Sample.store } Sample.spell = some l ∧
      coinOf (l.view (Sample.coinAt 1)) = some ⟨Sample.spelledAddr, 1, 100⟩ ∧
      ¬ Distinct Sample.machine Sample.spelledNames l.view := by
  have hsome : (Ledger.run Sample.machine 1 { store := Sample.store } Sample.spell).any (fun l =>
      held (l.view (Sample.coinAt 1)) ==
        some (some (Borsh.serialize (⟨Sample.spelledAddr, 1, 100⟩ : CoinAccount)))) = true := by
    decide +kernel
  obtain ⟨l, hrun, hheld⟩ := (Option.any_eq_true _ _).1 hsome
  have hheld := beq_iff_eq.1 hheld
  refine ⟨Sample.spelledNames_apart, l, hrun, coinOf_of_held hheld, fun h => ?_⟩
  let r : AccountRef := ⟨Sample.coinAt 1, false, false⟩
  have hmint : mintOf (l.view r.address) = some Sample.spelled := by
    rw [mintOf_eq, hheld, ← Sample.serialize_spelled]
    exact Borsh.tryFromSlice_serialize Sample.spelled
  have hcurve : Sample.machine.crypto.hasPrivateKey r.address = false := by decide
  refine h.coin Sample.spelledAddr 1 (.inl List.mem_cons_self) (List.mem_cons_of_mem _ ?_) r
    ⟨none, address, []⟩ (by decide +kernel) rfl _ ((readCoinMint_view rfl hcurve).2 hmint)
  exact List.mem_cons_self

/-- The run of the other sample, where a mint is created and its coins
move. -/
theorem distinct_issue_iff :
    (∀ pre l, pre <+: Sample.issue ++ Sample.close :: Sample.spend →
      Ledger.run Sample.machine 1 { store := Sample.store } pre = some l →
        Distinct Sample.machine Sample.names l.view) ↔
    ∀ pre l, pre <+: Sample.issue ++ Sample.close :: Sample.spend →
      Ledger.run Sample.machine 1 { store := Sample.store } pre = some l →
        Plain sampleCrypto Sample.names l.view :=
  distinct_run_iff Sample.machine 1 Sample.names Sample.machine_builtin Sample.sound.apart
    Sample.store Sample.written _ Sample.covered

end Currency

end Rensa
