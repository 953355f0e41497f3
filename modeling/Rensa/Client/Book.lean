import Rensa.Client.Calls
import Rensa.Common.Book
import Rensa.Vm.Conservation
/-!
# The coins of the client

What comes of the calls of the client is an account book: from the creation of
a mint on, through any calls and any ends of blocks, the client reads the
balances that the book has (`balance_run`).
-/

namespace Rensa

namespace Currency

open Borsh (FixedBytes Text)
open Client (TransactionCreationParams number)
open Rpc (Ready writeAccountRef)

/-- The amount of a call. -/
def Call.amount : Call → ℕ
  | .mint _ _ _ amount => amount
  | .transfer _ _ amount => amount
  | .burn _ amount => amount

/-- The entry that a call asks for. -/
def Call.wanted : Call → Entry Pubkey
  | .mint recipient authority _ amount => .mint authority.pubkey recipient amount
  | .transfer sender recipient amount => .transfer sender.pubkey recipient amount
  | .burn wallet amount => .burn wallet.pubkey amount

/-- The entry of a call, which the client throws out where its amount is no
exact number. -/
def Call.entry (c : Call) : Option (Entry Pubkey) :=
  if c.amount < 2 ^ 53 then some c.wanted else none

/-- The entry of what happens. -/
def Event.entry : Event → Option (Entry Pubkey)
  | .call c => c.entry
  | .finalize => none

/-- The coins that it mints. -/
def Event.minted (e : Event) : ℕ := (e.entry.map Entry.minted).getD 0

variable {H : Type}

/-! ## The book -/

section Booked

variable {vm : Machine H} {m : Pubkey} {S : Finset Pubkey} {l l' : Ledger H} {b b' : Book Pubkey}
variable {diff : StateDiff} {payer : Pubkey}

/-- An account that is the mint of the book. -/
def Minted (vm : Machine H) (a : Option Account) (b : Book Pubkey) : Prop :=
  ∃ mint : Mint, Has a (Borsh.serialize mint) ∧
    (Borsh.serialize mint : Bytes).length ≤ vm.limits.maxAccountSize ∧
    mint.authority = some b.authority ∧ mint.supply.toNat = b.supply

/-- **The ledger has the coins of the book**: its mint, and a coin account for
each wallet. What the block deletes holds nothing. -/
structure Represents (vm : Machine H) (m : Pubkey) (S : Finset Pubkey) (l : Ledger H)
    (b : Book Pubkey) : Prop where
  mint : Minted vm (l.view m) b
  kept : m ∉ l.block.state.deletes
  coins : ∀ w ∈ S, Coins (l.view (coinAddress vm.crypto m w)) m w (b.balance w)
  dust : ∀ w ∈ S, coinAddress vm.crypto m w ∈ l.block.state.deletes → b.balance w = 0
  balanced : b.Balanced S

namespace Represents

theorem supply_lt (h : Represents vm m S l b) : b.supply < 2 ^ 64 := by
  obtain ⟨mint, -, -, -, hsupply⟩ := h.mint
  exact hsupply ▸ mint.supply.toNat_lt

end Represents

/-- **A diff that makes one book of another** on the accounts of a ledger. -/
structure Enters (vm : Machine H) (m : Pubkey) (S : Finset Pubkey) (l : Ledger H)
    (b b' : Book Pubkey) (diff : StateDiff) : Prop where
  mint : Minted vm ((diff.get m).or (l.view m)) b'
  kept : m ∉ diff.deletes
  coins : ∀ w ∈ S,
    (∃ acc, diff.get (coinAddress vm.crypto m w) = some acc ∧
      Coins (some acc) m w (b'.balance w)) ∨
    diff.get (coinAddress vm.crypto m w) = none ∧ b'.balance w = b.balance w
  dust : ∀ w ∈ S, coinAddress vm.crypto m w ∈ diff.deletes → b'.balance w = 0

namespace Represents

theorem leaves (h : Represents vm m S l b) (hoff : vm.crypto.hasPrivateKey m = false)
    (hpayer : vm.crypto.hasPrivateKey payer = true) (hleaves : Leaves l payer diff l')
    (henters : Enters vm m S l b b' diff) (hbalanced : b'.Balanced S) :
    Represents vm m S l' b' := by
  refine ⟨?_, fun hdel => ?_, fun w hw => ?_, fun w hw hdel => ?_, hbalanced⟩
  · rw [hleaves.view (ne_of_offCurve hpayer hoff)]
    exact henters.mint
  · rcases hleaves.deletes hdel with hdel | ⟨hdel, -⟩
    · exact henters.kept hdel
    · exact h.kept hdel
  · rw [hleaves.view (ne_of_offCurve hpayer (hasPrivateKey_coinAddress _ _ _))]
    rcases henters.coins w hw with ⟨acc, hget, hacc⟩ | ⟨hget, hsame⟩
    · rwa [hget, Option.some_or]
    · rw [hget, Option.none_or, hsame]
      exact h.coins w hw
  · rcases hleaves.deletes hdel with hdel | ⟨hdel, hget⟩
    · exact henters.dust w hw hdel
    · rcases henters.coins w hw with ⟨acc, hset, -⟩ | ⟨-, hsame⟩
      · rw [hset] at hget
        cases hget
      · rw [hsame]
        exact h.dust w hw hdel

/-- A call that is refused leaves the coins as they are. -/
theorem enters_empty (h : Represents vm m S l b) : Enters vm m S l b b {} := by
  refine ⟨?_, StateDiff.not_mem_deletes_empty, fun w _ => .inr ⟨StateDiff.get_empty, rfl⟩,
    fun w _ hdel => absurd hdel StateDiff.not_mem_deletes_empty⟩
  rw [StateDiff.get_empty, Option.none_or]
  exact h.mint

end Represents

/-- The ledger after the end of a block. -/
def finalized (l : Ledger H) : Ledger H := { store := l.store.apply l.block.state }

theorem view_finalized (l : Ledger H) (k : Pubkey) : (finalized l).view k =
    if k ∈ l.block.state.deletes then none
    else ((l.block.state.get k).map Account.persisted).or (l.store.get k) := by
  change ((({} : StateDiff).get k).or ((l.store.apply l.block.state).get k)) = _
  rw [StateDiff.get_empty, Option.none_or, PersistentState.get_apply]
  split
  · rfl
  · cases l.block.state.get k <;> rfl

/-- An account of the contract is written to disk as it is. -/
theorem Has.finalized {k : Pubkey} {data : Bytes} (h : Has (l.view k) data)
    (hk : k ∉ l.block.state.deletes) : Has ((finalized l).view k) data := by
  rw [view_finalized, if_neg hk]
  rw [Ledger.view, overlayed_apply] at h
  cases hget : l.block.state.get k with
  | none =>
    rw [hget, Option.none_or] at h
    exact h
  | some acc =>
    rw [hget, Option.some_or] at h
    obtain ⟨acc', hacc, -, howner, hdata⟩ := h
    obtain rfl := Option.some.inj hacc
    exact ⟨acc.persisted, rfl, rfl, howner, hdata⟩

theorem view_finalized_of_none {k : Pubkey} (h : l.view k = none) :
    (finalized l).view k = none := by
  rw [Ledger.view, overlayed_apply, Option.or_eq_none_iff] at h
  rw [view_finalized, h.1, h.2]
  split <;> rfl

/-- **The end of a block** keeps the coins. -/
theorem Represents.finalize (h : Represents vm m S l b) : Represents vm m S (finalized l) b := by
  refine ⟨?_, StateDiff.not_mem_deletes_empty, fun w hw => ?_,
    fun w _ hdel => absurd hdel StateDiff.not_mem_deletes_empty, h.balanced⟩
  · obtain ⟨mint, hhas, hrest⟩ := h.mint
    exact ⟨mint, hhas.finalized h.kept, hrest⟩
  · by_cases hdel : coinAddress vm.crypto m w ∈ l.block.state.deletes
    · -- what is deleted held nothing
      rw [view_finalized, if_pos hdel, h.dust w hw hdel]
      exact Coins.of_none m w
    · obtain ⟨coin, hholds, hcoin, hbalance⟩ := h.coins w hw
      refine ⟨coin, ?_, hcoin, hbalance⟩
      cases coin with
      | none => exact view_finalized_of_none hholds
      | some c => exact Has.finalized hholds hdel

/-! ### Entries -/

section Entries

variable {sender recipient : Pubkey} {n : ℕ} {accS accR accM : Account}

theorem enters_transfer (h : Represents vm m S l b) (hapart : Apart vm.crypto m S)
    (hs : sender ∈ S) (hr : recipient ∈ S) (hne : sender ≠ recipient)
    (hcoinS : Coins (some accS) m sender (b.balance sender - n))
    (hcoinR : Coins (some accR) m recipient (b.balance recipient + n))
    (hget : ∀ k, diff.get k = if coinAddress vm.crypto m recipient = k then some accR
      else if coinAddress vm.crypto m sender = k then some accS else none)
    (hdel : ∀ k ∈ diff.deletes, k = coinAddress vm.crypto m sender ∧ b.balance sender - n = 0) :
    Enters vm m S l b (b.enter (.transfer sender recipient n)) diff := by
  have hsender : (b.enter (.transfer sender recipient n)).balance sender =
      b.balance sender - n := (Book.credit_of_ne _ hne).trans (Book.debit_self _ _ _)
  have hrecipient : (b.enter (.transfer sender recipient n)).balance recipient =
      b.balance recipient + n :=
    (Book.credit_self _ _ _).trans (congrArg (· + n) (Book.debit_of_ne _ hne.symm))
  refine ⟨?_, fun hm => ?_, fun w hw => ?_, fun w hw hm => ?_⟩
  · rw [hget, if_neg (hapart.coin_ne_mint _ hr), if_neg (hapart.coin_ne_mint _ hs),
      Option.none_or]
    exact h.mint
  · exact hapart.coin_ne_mint _ hs (hdel m hm).1.symm
  · by_cases hwr : w = recipient
    · subst hwr
      exact .inl ⟨accR, by rw [hget, if_pos rfl], hrecipient ▸ hcoinR⟩
    have hcr : coinAddress vm.crypto m recipient ≠ coinAddress vm.crypto m w :=
      fun heq => hwr (hapart.coin_inj _ hr _ hw heq).symm
    by_cases hws : w = sender
    · subst hws
      exact .inl ⟨accS, by rw [hget, if_neg hcr, if_pos rfl], hsender ▸ hcoinS⟩
    · refine .inr ⟨?_, (Book.credit_of_ne _ hwr).trans (Book.debit_of_ne _ hws)⟩
      rw [hget, if_neg hcr, if_neg fun heq => hws (hapart.coin_inj _ hs _ hw heq).symm]
  · obtain ⟨heq, hzero⟩ := hdel _ hm
    rw [hapart.coin_inj _ hw _ hs heq, hsender, hzero]

theorem enters_mint {authority : Pubkey} (hapart : Apart vm.crypto m S) (hr : recipient ∈ S)
    (hmint : Minted vm (some accM) (b.enter (.mint authority recipient n)))
    (hcoinR : Coins (some accR) m recipient (b.balance recipient + n))
    (hget : ∀ k, diff.get k = if m = k then some accM
      else if coinAddress vm.crypto m recipient = k then some accR else none)
    (hdel : ∀ k, k ∉ diff.deletes) :
    Enters vm m S l b (b.enter (.mint authority recipient n)) diff := by
  refine ⟨?_, hdel m, fun w hw => ?_, fun w _ hm => absurd hm (hdel _)⟩
  · rw [hget, if_pos rfl, Option.some_or]
    exact hmint
  · have hne := (hapart.coin_ne_mint w hw).symm
    by_cases hwr : w = recipient
    · subst hwr
      have hrecipient : (b.enter (.mint authority w n)).balance w = b.balance w + n :=
        Book.credit_self _ _ _
      exact .inl ⟨accR, by rw [hget, if_neg hne, if_pos rfl], hrecipient ▸ hcoinR⟩
    · refine .inr ⟨?_, Book.credit_of_ne _ hwr⟩
      rw [hget, if_neg hne, if_neg fun heq => hwr (hapart.coin_inj _ hr _ hw heq).symm]

theorem enters_burn (hapart : Apart vm.crypto m S) (hs : sender ∈ S)
    (hmint : Minted vm (some accM) (b.enter (.burn sender n)))
    (hcoinS : Coins (some accS) m sender (b.balance sender - n))
    (hget : ∀ k, diff.get k = if coinAddress vm.crypto m sender = k then some accS
      else if m = k then some accM else none)
    (hdel : ∀ k ∈ diff.deletes, k = coinAddress vm.crypto m sender ∧ b.balance sender - n = 0) :
    Enters vm m S l b (b.enter (.burn sender n)) diff := by
  have hsender : (b.enter (.burn sender n)).balance sender = b.balance sender - n :=
    Book.debit_self _ _ _
  refine ⟨?_, fun hm => ?_, fun w hw => ?_, fun w hw hm => ?_⟩
  · rw [hget, if_neg (hapart.coin_ne_mint _ hs), if_pos rfl, Option.some_or]
    exact hmint
  · exact hapart.coin_ne_mint _ hs (hdel m hm).1.symm
  · by_cases hws : w = sender
    · subst hws
      exact .inl ⟨accS, by rw [hget, if_pos rfl], hsender ▸ hcoinS⟩
    · refine .inr ⟨?_, Book.debit_of_ne _ hws⟩
      rw [hget, if_neg fun heq => hws (hapart.coin_inj _ hs _ hw heq).symm,
        if_neg (hapart.coin_ne_mint w hw).symm]
  · obtain ⟨heq, hzero⟩ := hdel _ hm
    rw [hapart.coin_inj _ hw _ hs heq, hsender, hzero]

end Entries

end Booked

/-! ## Calls -/

section Calls

variable [DecidableEq H] {vm : Machine H} {takes : Bytes → Bool} (fuel : ℕ)
variable {currency : Client.Currency} {S : Finset Pubkey} {l : Ledger H} {b : Book Pubkey}
variable {sender authority payer : Keypair} {recipient : Pubkey} {amount : ℕ}

/-- The amount of a call. -/
theorem toNat_amount (h : amount < 2 ^ 53) : (UInt64.ofNat amount).toNat = amount :=
  UInt64.toNat_ofNat_of_lt' (lt_trans h (by norm_num))

theorem amount_ne_zero (h : amount < 2 ^ 53) (hpos : 0 < amount) : UInt64.ofNat amount ≠ 0 := by
  intro hzero
  have hx := toNat_amount h
  rw [hzero] at hx
  exact absurd hx hpos.ne

theorem length_params (i : Instruction) {x : UInt64}
    (h : i = .mint x ∨ i = .transfer x ∨ i = .burn x) :
    (Borsh.serialize i : Bytes).length ≤ 256 := by
  rcases h with rfl | rfl | rfl <;> exact le_of_eq_of_le (congrArg (· + 1) (length_leBytes _ _))
    (by norm_num)

/-- **A call is entered or refused**: the contract refuses what the book does,
and what the machine makes of the rest enters it. -/
theorem Represents.call {input : TransactionCreationParams} {refs : List AccountRef}
    {i : Instruction} {e : Entry Pubkey} {m : Pubkey} (h : Represents vm m S l b)
    (hroom : Roomy vm) (hoff : vm.crypto.hasPrivateKey m = false) (hpayer : input.payer = payer)
    (hcontract : input.contract = address) (hparams : input.params = Borsh.serialize i)
    (hsize : (Borsh.serialize i : Bytes).length ≤ 256)
    (haccounts : input.accounts = refs.map writeAccountRef) (hrefs : refs.length ≤ 5)
    (hsigners : (refs.filter AccountRef.signer).map AccountRef.address =
      input.signers.map Keypair.pubkey)
    (hkeys : ∀ k ∈ payer :: input.signers, Signs vm.crypto takes k)
    (hnonce : nonceOf l.view payer.pubkey + 1 < 2 ^ 53) (he : e.Within S)
    (hrefuse : ¬ b.Allows e → ∃ error, contract vm.crypto
      (envOf vm (counted l payer.pubkey) refs) (Borsh.serialize i) = .error error)
    (haccept : b.Allows e → ∀ u, CallOf vm (counted l payer.pubkey) refs u → ∃ os out,
      contract vm.crypto (envOf vm (counted l payer.pubkey) refs) (Borsh.serialize i) = .ok os ∧
      vm.processOutputs u (vm.execute fuel) {} os = some (.ok out) ∧
      Enters vm m S l b (b.enter e) out.stateDiff) :
    ∃ l', submit vm takes (fuel + 1) l input = some l' ∧ Represents vm m S l' (b.post e) := by
  subst hpayer
  have hready : Ready vm.crypto takes vm.limits input refs :=
    ready_call hroom haccounts hsigners hkeys hrefs (hparams ▸ hsize)
  have hpayer := (hkeys _ List.mem_cons_self).hasPrivateKey
  have hbalanced := h.balanced.post he
  obtain ⟨u, hu, herror, hok⟩ := executed fuel hroom hready hcontract hrefs hnonce
  rw [hparams] at herror hok
  by_cases hallowed : b.Allows e
  case neg =>
    obtain ⟨error, herr⟩ := hrefuse hallowed
    obtain ⟨l', hl', hleaves⟩ := herror error herr
    rw [Book.post, if_neg hallowed] at hbalanced ⊢
    exact ⟨l', hl', h.leaves hoff hpayer hleaves h.enters_empty hbalanced⟩
  case pos =>
    obtain ⟨os, out, hos, hout, henters⟩ := haccept hallowed u hu
    obtain ⟨l', hl', hleaves⟩ := hok os out hos hout
    rw [Book.post, if_pos hallowed] at hbalanced ⊢
    exact ⟨l', hl', h.leaves hoff hpayer hleaves henters hbalanced⟩

omit [DecidableEq H] in
/-- What the machine sees of the accounts of the contract, when a key pays. -/
theorem counted_of_offCurve {k : Pubkey} (hsign : Signs vm.crypto takes payer)
    (hk : vm.crypto.hasPrivateKey k = false) : counted l payer.pubkey k = l.view k :=
  counted_of_ne (ne_of_offCurve hsign.hasPrivateKey hk)

/-- **A transfer of the client** is entered, or refused. -/
theorem Represents.transferred (h : Represents vm currency.mintAddress S l b) (hroom : Roomy vm)
    (hapart : Apart vm.crypto currency.mintAddress S) (hsign : Signs vm.crypto takes sender)
    (hs : sender.pubkey ∈ S) (hr : recipient ∈ S) (hne : sender.pubkey ≠ recipient)
    (hamount : amount < 2 ^ 53) (hnonce : nonceOf l.view sender.pubkey + 1 < 2 ^ 53) :
    ∃ input l', currency.transfer vm.crypto sender recipient amount = some input ∧
      submit vm takes (fuel + 1) l input = some l' ∧
      Represents vm currency.mintAddress S l'
        (b.post (.transfer sender.pubkey recipient amount)) := by
  obtain ⟨input, hinput, hcontract, hpayer, hsigners, hparams, haccounts⟩ :=
    transfer_some vm.crypto currency sender recipient hamount
  have hkeys : ∀ k ∈ sender :: input.signers, Signs vm.crypto takes k := by
    rw [hsigners]
    simpa using hsign
  obtain ⟨mint, hmint, -⟩ := h.mint
  obtain ⟨coin, hholds, hcoin, hbalance⟩ := h.coins _ hs
  obtain ⟨credited, hholds', hcredited, hbalance'⟩ := h.coins _ hr
  rw [← counted_of_offCurve hsign hapart.mint] at hmint
  rw [← counted_of_offCurve hsign (hasPrivateKey_coinAddress _ _ _)] at hholds hholds'
  have hx := toNat_amount hamount
  have hstep := h.call fuel (e := .transfer sender.pubkey recipient amount) hroom hapart.mint
    hpayer hcontract hparams (length_params _ (.inr (.inl rfl))) haccounts (by simp [transferRefs])
    (by rw [hsigners]; rfl) hkeys hnonce ⟨hs, hr⟩ (fun hnot => ?_) (fun hallowed u hu => ?_)
  · obtain ⟨l', hl', hrep⟩ := hstep
    exact ⟨input, l', hinput, hl', hrep⟩
  · rw [contract_serialize]
    exact transfer_refused hholds hcoin (by rw [hx, hbalance]; exact hnot)
  · rw [contract_serialize]
    obtain ⟨hpos, hle⟩ := hallowed
    cases coin with
    | none =>
      change 0 = _ at hbalance
      omega
    | some c =>
      change c.balance.toNat = _ at hbalance
      have hle' : UInt64.ofNat amount ≤ c.balance :=
        UInt64.le_iff_toNat_le.2 (by rw [hx, hbalance]; exact hle)
      have hfits : (credited.map fun c => c.balance.toNat).getD 0 +
          (UInt64.ofNat amount).toNat < 2 ^ 64 := by
        have hsum := h.balanced.add_le hs hr hne
        have hsupply := h.supply_lt
        rw [hx, hbalance']
        omega
      obtain ⟨out, accS, accR, hout, hcoinS, hcoinR, hget, hdel⟩ := hu.transfer (vm.execute fuel)
        hroom hapart hs hr hne hholds (hcoin c rfl) hholds' hcredited hle' hfits
        (logs_transfer hroom currency.mintAddress sender.pubkey recipient (UInt64.ofNat amount))
      rw [hx, hbalance] at hcoinS hdel
      rw [hx, hbalance'] at hcoinR
      exact ⟨_, out, processTransfer_of rfl (readCoinMint_of_has hapart.mint hmint)
        (readCoinAccount_of_holds rfl hholds hcoin)
        (readCoinAccount_of_holds rfl hholds' hcredited) rfl (amount_ne_zero hamount hpos) hle',
        hout,
        enters_transfer h hapart hs hr hne hcoinS hcoinR hget hdel⟩

/-- **New coins of the client** are entered, or refused. -/
theorem Represents.minted (h : Represents vm currency.mintAddress S l b) (hroom : Roomy vm)
    (hapart : Apart vm.crypto currency.mintAddress S) (hauth : Signs vm.crypto takes authority)
    (hsign : Signs vm.crypto takes payer) (hr : recipient ∈ S) (hamount : amount < 2 ^ 53)
    (hnonce : nonceOf l.view payer.pubkey + 1 < 2 ^ 53) (hsupply : b.supply + amount < 2 ^ 64) :
    ∃ input l', currency.mint vm.crypto recipient authority payer amount = some input ∧
      submit vm takes (fuel + 1) l input = some l' ∧
      Represents vm currency.mintAddress S l'
        (b.post (.mint authority.pubkey recipient amount)) := by
  obtain ⟨input, hinput, hcontract, hpayer, hsigners, hparams, haccounts⟩ :=
    mint_some vm.crypto currency recipient authority payer hamount
  have hkeys : ∀ k ∈ payer :: input.signers, Signs vm.crypto takes k := by
    rw [hsigners]
    simpa using ⟨hsign, hauth⟩
  obtain ⟨mint, hmint, hsize, hauthority, htotal⟩ := h.mint
  obtain ⟨credited, hholds, hcredited, hbalance⟩ := h.coins _ hr
  rw [← counted_of_offCurve hsign hapart.mint] at hmint
  rw [← counted_of_offCurve hsign (hasPrivateKey_coinAddress _ _ _)] at hholds
  have hx := toNat_amount hamount
  have hstep := h.call fuel (e := .mint authority.pubkey recipient amount) hroom hapart.mint
    hpayer hcontract hparams (length_params _ (.inl rfl)) haccounts (by simp [mintRefs])
    (by rw [hsigners]; rfl) hkeys hnonce hr (fun hnot => ?_) (fun hallowed u hu => ?_)
  · obtain ⟨l', hl', hrep⟩ := hstep
    exact ⟨input, l', hinput, hl', hrep⟩
  · rw [contract_serialize]
    refine mint_refused hapart.mint hmint fun hok => hnot ⟨hx ▸ hok.1, ?_⟩
    exact Option.some.inj (hok.2.symm.trans hauthority)
  · rw [contract_serialize]
    obtain ⟨hpos, hsame⟩ := hallowed
    have hfits : (credited.map fun c => c.balance.toNat).getD 0 +
        (UInt64.ofNat amount).toNat < 2 ^ 64 := by
      have hle := h.balanced.le hr
      rw [hx, hbalance]
      omega
    obtain ⟨out, accM, accR, hout, hhasM, hcoinR, hget, hdel⟩ := hu.mint (vm.execute fuel)
      hroom hapart hr hauth.hasPrivateKey hmint hsize hholds hcredited hfits
      (logs_mint hroom recipient (UInt64.ofNat amount))
    rw [hx, hbalance] at hcoinR
    have hmintNew : Minted vm (some accM)
        (b.enter (.mint authority.pubkey recipient amount)) := by
      refine ⟨_, hhasM, by rwa [length_mint] at hsize ⊢, hauthority, ?_⟩
      rw [toNat_saturatingAdd, hx, htotal]
      exact Nat.min_eq_left (by omega)
    exact ⟨_, out, processMint_of rfl (readCoinMint_of_has hapart.mint hmint)
      (hsame ▸ hauthority) (readCoinAccount_of_holds rfl hholds hcredited) rfl
      (amount_ne_zero hamount hpos), hout,
      enters_mint hapart hr hmintNew hcoinR hget hdel⟩

/-- **A burn of the client** is entered, or refused. -/
theorem Represents.burned (h : Represents vm currency.mintAddress S l b) (hroom : Roomy vm)
    (hapart : Apart vm.crypto currency.mintAddress S) (hsign : Signs vm.crypto takes sender)
    (hs : sender.pubkey ∈ S) (hamount : amount < 2 ^ 53)
    (hnonce : nonceOf l.view sender.pubkey + 1 < 2 ^ 53) :
    ∃ input l', currency.burn vm.crypto sender amount = some input ∧
      submit vm takes (fuel + 1) l input = some l' ∧
      Represents vm currency.mintAddress S l' (b.post (.burn sender.pubkey amount)) := by
  obtain ⟨input, hinput, hcontract, hpayer, hsigners, hparams, haccounts⟩ :=
    burn_some vm.crypto currency sender hamount
  have hkeys : ∀ k ∈ sender :: input.signers, Signs vm.crypto takes k := by
    rw [hsigners]
    simpa using hsign
  obtain ⟨mint, hmint, hsize, hauthority, htotal⟩ := h.mint
  obtain ⟨coin, hholds, hcoin, hbalance⟩ := h.coins _ hs
  rw [← counted_of_offCurve hsign hapart.mint] at hmint
  rw [← counted_of_offCurve hsign (hasPrivateKey_coinAddress _ _ _)] at hholds
  have hx := toNat_amount hamount
  have hstep := h.call fuel (e := .burn sender.pubkey amount) hroom hapart.mint
    hpayer hcontract hparams (length_params _ (.inr (.inr rfl))) haccounts (by simp [burnRefs])
    (by rw [hsigners]; rfl) hkeys hnonce hs (fun hnot => ?_) (fun hallowed u hu => ?_)
  · obtain ⟨l', hl', hrep⟩ := hstep
    exact ⟨input, l', hinput, hl', hrep⟩
  · rw [contract_serialize]
    exact burn_refused hholds hcoin (by rw [hx, hbalance]; exact hnot)
  · rw [contract_serialize]
    obtain ⟨hpos, hle⟩ := hallowed
    cases coin with
    | none =>
      change 0 = _ at hbalance
      omega
    | some c =>
      change c.balance.toNat = _ at hbalance
      have hle' : UInt64.ofNat amount ≤ c.balance :=
        UInt64.le_iff_toNat_le.2 (by rw [hx, hbalance]; exact hle)
      have hless : UInt64.ofNat amount ≤ mint.supply := by
        refine UInt64.le_iff_toNat_le.2 ?_
        rw [hx, htotal]
        exact hle.trans (h.balanced.le hs)
      obtain ⟨out, accM, accS, hout, hhasM, hcoinS, hget, hdel⟩ := hu.burn (vm.execute fuel)
        hroom hapart hs hmint hsize hholds (hcoin c rfl) hle'
        (logs_burn hroom currency.mintAddress sender.pubkey (UInt64.ofNat amount))
      rw [hx, hbalance] at hcoinS hdel
      have hmintNew : Minted vm (some accM) (b.enter (.burn sender.pubkey amount)) := by
        refine ⟨_, hhasM, by rwa [length_mint] at hsize ⊢, hauthority, ?_⟩
        rw [toNat_saturatingSub hless, hx, htotal]
        rfl
      exact ⟨_, out, processBurn_of rfl (readCoinMint_of_has hapart.mint hmint)
        (readCoinAccount_of_holds rfl hholds hcoin) rfl (amount_ne_zero hamount hpos) hle', hout,
        enters_burn hapart hs hmintNew hcoinS hget hdel⟩

end Calls

/-! ## A new mint -/

section Created

/-- What a mint is created with. -/
structure Creation where
  seed : FixedBytes 32
  authority : Keypair
  decimals : UInt8
  name : Option Text
  symbol : Option Text
  decimals_le : decimals ≤ 20
  name_fits : textFits 64 name = true
  symbol_fits : textFits 10 symbol = true

namespace Creation

/-- The coin that the client has of it. -/
def currency (C : Crypto H) (n : Creation) : Client.Currency := ⟨address.derive C [n.seed.1]⟩

/-- What the client builds of it. -/
def input (C : Crypto H) (n : Creation) : Option TransactionCreationParams :=
  Client.Currency.create C n.seed.1 n.authority n.decimals.toNat (n.name.map Subtype.val)
    (n.symbol.map Subtype.val)

/-- The mint that the contract makes of it. -/
def mint (n : Creation) : Mint where
  authority := some n.authority.pubkey
  supply := 0
  decimals := n.decimals
  name := n.name
  symbol := n.symbol

/-- The instruction that asks for it. -/
def instruction (n : Creation) : Instruction :=
  .create n.seed n.authority.pubkey n.decimals n.name n.symbol

end Creation

variable [DecidableEq H] {vm : Machine H} {takes : Bytes → Bool} (fuel : ℕ)
variable {n : Creation} {S : Finset Pubkey} {l : Ledger H}

/-- An optional text, as the client writes it. -/
theorem writeOptional_text (text : Option Text) :
    Client.writeOptional (text.map Subtype.val) = Borsh.serialize text := by
  cases text <;> rfl

theorem length_text_le {limit : ℕ} {text : Option Text} (h : textFits limit text = true) :
    (Borsh.serialize text : Bytes).length ≤ 5 + limit := by
  cases text with
  | none => exact (by decide : 1 ≤ 5).trans (Nat.le_add_right 5 limit)
  | some text =>
    have hle := of_decide_eq_true (Bool.and_eq_true_iff.1 h).2
    have hlen : (Borsh.serialize (some text) : Bytes).length = 1 + 4 + text.1.utf8ByteSize := by
      change (1 :: (leBytes 4 text.1.utf8ByteSize ++ text.1.toByteArray.data.toList)).length = _
      simp
      omega
    omega

namespace Creation

theorem length_mint (n : Creation) : (Borsh.serialize n.mint : Bytes).length ≤ 128 := by
  have hname := length_text_le n.name_fits
  have hsymbol := length_text_le n.symbol_fits
  change (1 :: n.authority.pubkey.bytes ++ (leBytes 8 0 ++ ([n.decimals] ++
    (Borsh.serialize n.name ++ Borsh.serialize n.symbol)))).length ≤ _
  simp only [List.length_append, List.length_cons, List.length_nil, Pubkey.length_bytes,
    length_leBytes]
  omega

theorem length_instruction (n : Creation) :
    (Borsh.serialize n.instruction : Bytes).length ≤ 256 := by
  have hname := length_text_le n.name_fits
  have hsymbol := length_text_le n.symbol_fits
  have hseed := n.seed.2
  change (0 :: (n.seed.1 ++ (n.authority.pubkey.bytes ++ ([n.decimals] ++
    (Borsh.serialize n.name ++ Borsh.serialize n.symbol))))).length ≤ _
  simp only [List.length_append, List.length_cons, List.length_nil, Pubkey.length_bytes]
  omega

omit [DecidableEq H] in
theorem input_some (C : Crypto H) (n : Creation) : ∃ input, n.input C = some input ∧
    input.contract = address ∧ input.payer = n.authority ∧ input.signers = [] ∧
      input.params = Borsh.serialize n.instruction ∧
      input.accounts =
        [(⟨(n.currency C).mintAddress, true, false⟩ : AccountRef)].map writeAccountRef := by
  unfold Creation.input Client.Currency.create
  rw [if_pos n.decimals.toNat_lt]
  refine ⟨_, rfl, rfl, rfl, rfl, ?_, rfl⟩
  simp only [writeOptional_text, UInt8.ofNat_toNat, List.append_assoc]
  rfl

end Creation

/-- **A mint that the client creates** starts an empty book. -/
theorem created (hroom : Roomy vm) (hapart : Apart vm.crypto (n.currency vm.crypto).mintAddress S)
    (hsign : Signs vm.crypto takes n.authority)
    (hmint : l.view (n.currency vm.crypto).mintAddress = none)
    (hcoins : ∀ w ∈ S, l.view (coinAddress vm.crypto (n.currency vm.crypto).mintAddress w) = none)
    (hnonce : nonceOf l.view n.authority.pubkey + 1 < 2 ^ 53) : ∃ input l',
    n.input vm.crypto = some input ∧ submit vm takes (fuel + 1) l input = some l' ∧
      Represents vm (n.currency vm.crypto).mintAddress S l'
        { authority := n.authority.pubkey } := by
  obtain ⟨input, hinput, hcontract, hpayer, hsigners, hparams, haccounts⟩ :=
    n.input_some vm.crypto
  rw [← hpayer] at hsign hnonce
  have hready : Ready vm.crypto takes vm.limits input
      [⟨(n.currency vm.crypto).mintAddress, true, false⟩] := by
    refine ready_call hroom haccounts (by rw [hsigners]; rfl) ?_ (by simp)
      (hparams ▸ n.length_instruction)
    rw [hsigners]
    simpa using hsign
  have hsize := n.length_mint.trans hroom.maxAccountSize
  have hcounted := counted_of_offCurve (l := l) hsign hapart.mint
  rw [hmint] at hcounted
  obtain ⟨u, hu, -, hok⟩ := executed fuel hroom hready hcontract (by simp) hnonce
  obtain ⟨out, accM, hout, hhasM, hget, hdel⟩ := hu.createMint (vm.execute fuel) hroom
    hapart.mint hcounted hsize (logs_create hroom _ n.name_fits n.symbol_fits n.decimals)
  obtain ⟨l', hl', hleaves⟩ := hok _ out (by
    rw [hparams, contract_serialize]
    refine processCreate_of rfl rfl ?_ ?_ n.symbol_fits n.name_fits n.decimals_le
    all_goals simp [hcounted]) hout
  have hkey := hsign.hasPrivateKey
  refine ⟨input, l', hinput, hl', ?_, fun hm => ?_, fun w hw => ?_, fun w _ _ => rfl, ?_⟩
  · rw [hleaves.view (ne_of_offCurve hkey hapart.mint), hget, if_pos rfl, Option.some_or]
    exact ⟨_, hhasM, hsize, rfl, rfl⟩
  · rcases hleaves.deletes hm with hm | ⟨-, hnone⟩
    · exact hdel _ hm
    · rw [hget, if_pos rfl] at hnone
      cases hnone
  · rw [hleaves.view (ne_of_offCurve hkey (hasPrivateKey_coinAddress _ _ _)), hget,
      if_neg (hapart.coin_ne_mint w hw).symm, Option.none_or, hcoins w hw]
    exact Coins.of_none _ _
  · exact Finset.sum_const_zero

end Created

/-! ## Runs -/

section Runs

variable [DecidableEq H] {vm : Machine H} {takes : Bytes → Bool} {fuel : ℕ}
variable {currency : Client.Currency} {S : Finset Pubkey} {l l' : Ledger H} {b : Book Pubkey}

/-- Keys that sign call for some wallets, and nobody pays himself. -/
def Call.Fair (C : Crypto H) (takes : Bytes → Bool) (S : Finset Pubkey) : Call → Prop
  | .mint recipient authority payer _ =>
    Signs C takes authority ∧ Signs C takes payer ∧ recipient ∈ S
  | .transfer sender recipient _ =>
    Signs C takes sender ∧ sender.pubkey ∈ S ∧ recipient ∈ S ∧ sender.pubkey ≠ recipient
  | .burn wallet _ => Signs C takes wallet ∧ wallet.pubkey ∈ S

/-- Only calls can be unfair. -/
def Event.Fair (C : Crypto H) (takes : Bytes → Bool) (S : Finset Pubkey) : Event → Prop
  | .call c => c.Fair C takes S
  | .finalize => True

/-! ### Nonces -/

theorem nonceOf_execute {tx : Transaction} (h : l.step vm fuel (.execute tx) = some l')
    (hnonce : nonceOf l.view tx.payer + 1 < 2 ^ 64) (k : Pubkey) :
    nonceOf l'.view k ≤ nonceOf l.view k + 1 := by
  obtain ⟨block, hblock, rfl⟩ := Option.map_eq_some_iff.1 h
  refine (Machine.nonceOf_next hblock k).trans_le ?_
  by_cases hk : tx.payer = k
  · subst hk
    exact (Machine.nonceOf_bumpNonce _ _ _ hnonce).le
  · have hsame := counted_of_ne (l := l) hk
    unfold counted at hsame
    rw [nonceOf, hsame]
    exact Nat.le_succ _

omit [DecidableEq H] in
theorem nonceOf_finalized (l : Ledger H) (k : Pubkey) :
    nonceOf (finalized l).view k ≤ nonceOf l.view k := by
  unfold nonceOf
  rw [view_finalized, Ledger.view, overlayed_apply]
  split
  · exact Nat.zero_le _
  · cases l.block.state.get k <;> exact le_rfl

theorem nonceOf_submit {input : TransactionCreationParams}
    (h : submit vm takes fuel l input = some l')
    (hnonce : ∀ k, nonceOf l.view k + 1 < 2 ^ 53) (k : Pubkey) :
    nonceOf l'.view k ≤ nonceOf l.view k + 1 := by
  unfold submit at h
  split at h
  · obtain rfl := Option.some.inj h
    exact Nat.le_succ _
  · exact nonceOf_execute h (lt_trans (hnonce _) (by norm_num)) k

theorem nonceOf_happen {e : Event} (h : happen vm takes fuel currency l e = some l')
    (hnonce : ∀ k, nonceOf l.view k + 1 < 2 ^ 53) (k : Pubkey) :
    nonceOf l'.view k ≤ nonceOf l.view k + 1 := by
  cases e with
  | call c =>
    unfold happen at h
    dsimp only at h
    split at h
    · obtain rfl := Option.some.inj h
      exact Nat.le_succ _
    · exact nonceOf_submit h hnonce k
  | finalize =>
    obtain rfl : finalized l = l' := Option.some.inj h
    exact (nonceOf_finalized l k).trans (Nat.le_succ _)

/-! ### Steps -/

omit [DecidableEq H] in
/-- The client throws where it cannot write the amount. -/
theorem Call.input_of_ge (C : Crypto H) (currency : Client.Currency) {c : Call}
    (h : 2 ^ 53 ≤ c.amount) : c.input C currency = none := by
  have hnone : number c.amount = none := if_neg (Nat.not_lt.2 h)
  cases c with
  | mint recipient authority payer amount =>
    exact Option.map_eq_none_iff.2 (Option.map_eq_none_iff.2 hnone)
  | transfer sender recipient amount =>
    exact Option.map_eq_none_iff.2 (Option.map_eq_none_iff.2 hnone)
  | burn wallet amount => exact Option.map_eq_none_iff.2 (Option.map_eq_none_iff.2 hnone)

/-- **A call is entered**, or refused. -/
theorem Represents.called (h : Represents vm currency.mintAddress S l b) (hroom : Roomy vm)
    (hapart : Apart vm.crypto currency.mintAddress S) {c : Call}
    (hfair : c.Fair vm.crypto takes S) (hamount : c.amount < 2 ^ 53)
    (hnonce : ∀ k, nonceOf l.view k + 1 < 2 ^ 53)
    (hsupply : b.supply + c.wanted.minted < 2 ^ 64) :
    ∃ input l', c.input vm.crypto currency = some input ∧
      submit vm takes (fuel + 1) l input = some l' ∧
      Represents vm currency.mintAddress S l' (b.post c.wanted) := by
  cases c with
  | mint recipient authority payer amount =>
    obtain ⟨hauth, hpayer, hr⟩ := hfair
    exact h.minted fuel hroom hapart hauth hpayer hr hamount (hnonce _) hsupply
  | transfer sender recipient amount =>
    obtain ⟨hsign, hs, hr, hne⟩ := hfair
    exact h.transferred fuel hroom hapart hsign hs hr hne hamount (hnonce _)
  | burn wallet amount =>
    obtain ⟨hsign, hs⟩ := hfair
    exact h.burned fuel hroom hapart hsign hs hamount (hnonce _)

variable (fuel) in
/-- **What happens is entered**, or refused, or thrown out by the client. -/
theorem Represents.happen (h : Represents vm currency.mintAddress S l b) (hroom : Roomy vm)
    (hapart : Apart vm.crypto currency.mintAddress S) {e : Event}
    (hfair : e.Fair vm.crypto takes S) (hnonce : ∀ k, nonceOf l.view k + 1 < 2 ^ 53)
    (hsupply : b.supply + e.minted < 2 ^ 64) :
    ∃ l', happen vm takes (fuel + 1) currency l e = some l' ∧
      Represents vm currency.mintAddress S l' (b.run e.entry.toList) := by
  cases e with
  | finalize => exact ⟨_, rfl, h.finalize⟩
  | call c =>
    simp only [Event.minted, Event.entry, Call.entry, Currency.happen] at hsupply ⊢
    by_cases hamount : c.amount < 2 ^ 53
    · rw [if_pos hamount] at hsupply ⊢
      obtain ⟨input, l', hinput, hl', hrep⟩ := h.called hroom hapart hfair hamount hnonce hsupply
      exact ⟨l', by rw [hinput]; exact hl', hrep⟩
    · rw [if_neg hamount, Call.input_of_ge _ _ (Nat.not_lt.1 hamount)]
      exact ⟨l, rfl, h⟩

theorem supply_run_le {e : Event} : (b.run e.entry.toList).supply ≤ b.supply + e.minted := by
  unfold Event.minted
  cases e.entry with
  | none => exact le_rfl
  | some entry => exact Book.supply_post_le

theorem run_filterMap_cons (b : Book Pubkey) (e : Event) (events : List Event) :
    b.run ((e :: events).filterMap Event.entry) =
      (b.run e.entry.toList).run (events.filterMap Event.entry) := by
  rw [List.filterMap_cons]
  cases e.entry <;> rfl

variable (fuel) in
/-- **A run keeps the books.** -/
theorem Represents.run (hroom : Roomy vm) (hapart : Apart vm.crypto currency.mintAddress S)
    {events : List Event} (h : Represents vm currency.mintAddress S l b)
    (hfair : ∀ e ∈ events, e.Fair vm.crypto takes S)
    (hnonce : ∀ k, nonceOf l.view k + events.length < 2 ^ 53)
    (hsupply : b.supply + (events.map Event.minted).sum < 2 ^ 64) :
    ∃ l', events.foldlM (Currency.happen vm takes (fuel + 1) currency) l = some l' ∧
      Represents vm currency.mintAddress S l' (b.run (events.filterMap Event.entry)) := by
  induction events generalizing l b with
  | nil => exact ⟨l, rfl, h⟩
  | cons e events ih =>
    rw [List.map_cons, List.sum_cons] at hsupply
    have hnext : ∀ k, nonceOf l.view k + 1 < 2 ^ 53 := fun k => by
      have := hnonce k
      rw [List.length_cons] at this
      omega
    obtain ⟨l₁, hl₁, h₁⟩ := h.happen fuel hroom hapart (hfair e List.mem_cons_self) hnext
      (by omega)
    have hgrown : ∀ k, nonceOf l₁.view k + events.length < 2 ^ 53 := fun k => by
      have hle := nonceOf_happen hl₁ hnext k
      have hlt := hnonce k
      rw [List.length_cons] at hlt
      omega
    have hminted := supply_run_le (b := b) (e := e)
    obtain ⟨l', hl', hrep⟩ := ih h₁ (fun e he => hfair e (List.mem_cons_of_mem _ he)) hgrown
      (by omega)
    refine ⟨l', ?_, ?_⟩
    · rw [List.foldlM_cons, hl₁]
      exact hl'
    · rwa [run_filterMap_cons]

end Runs

namespace Sample

open Rpc.Sample (key signatureFits)

/-- A mint whose address the seed spells. -/
def creation : Creation where
  seed := ⟨List.replicate 31 0 ++ [9], rfl⟩
  authority := key 1
  decimals := 2
  name := none
  symbol := none
  decimals_le := by decide
  name_fits := rfl
  symbol_fits := rfl

/-- Wallet 1 mints 100 coins to itself, pays wallet 2, which burns some of them
and then wants to pay more than it has. -/
def events : List Event :=
  [.call (.mint 1 (key 1) (key 1) 100), .finalize, .call (.transfer (key 1) 2 30),
    .call (.burn (key 2) 10), .call (.transfer (key 2) 1 1000)]

/-- The addresses that are derived from the coins of wallet 1 and 2. -/
theorem coinAddress_creation : (creation.currency sampleCrypto).mintAddress = coinAt 9 ∧
    coinAddress sampleCrypto (coinAt 9) 1 = coinAt 1 ∧
    coinAddress sampleCrypto (coinAt 9) 2 = coinAt 2 := by
  decide +kernel

theorem apart : Apart sampleCrypto (creation.currency sampleCrypto).mintAddress {1, 2} := by
  obtain ⟨hmint, hfirst, hsecond⟩ := coinAddress_creation
  rw [hmint]
  refine ⟨by decide, ?_, ?_, ?_⟩
  all_goals
    simp only [Finset.mem_insert, Finset.mem_singleton, forall_eq_or_imp, forall_eq, hfirst,
      hsecond]
    decide

end Sample

end Currency

end Rensa
