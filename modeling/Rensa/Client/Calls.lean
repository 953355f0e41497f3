import Rensa.Client.Transactions
import Rensa.Vm.Coins
import Rensa.Vm.Model.Ledger
import Rensa.Vm.Nonces
/-!
# Calls of the client

The client's `Currency` builds calls of the contract and reads balances. A
call of its own is read by the node as it is meant, and executed as the
transaction of the next nonce of its payer, as far as the contract and the
processing of its outputs go (`executed`).
-/

namespace Rensa

namespace Currency

open Client (TransactionCreationParams createTransaction getNextAccountNonce)
open Rpc (Ready readTransaction transactionOf writeAccountRef)

/-- A call that the client builds. -/
inductive Call
  | mint (recipient : Pubkey) (authority payer : Keypair) (amount : ℕ)
  | transfer (sender : Keypair) (recipient : Pubkey) (amount : ℕ)
  | burn (wallet : Keypair) (amount : ℕ)

/-- What happens: a call, or the end of a block. -/
inductive Event
  | call (c : Call)
  | finalize

variable {H : Type}

/-- What the client builds of a call. -/
def Call.input (C : Crypto H) (currency : Client.Currency) :
    Call → Option TransactionCreationParams
  | .mint recipient authority payer amount => currency.mint C recipient authority payer amount
  | .transfer sender recipient amount => currency.transfer C sender recipient amount
  | .burn wallet amount => currency.burn C wallet amount

section Run

variable [DecidableEq H] (vm : Machine H) (takes : Bytes → Bool) (fuel : ℕ)

/-- The client asks for the nonce of its payer, builds a transaction and posts
it; the node reads it and executes it. -/
def submit (l : Ledger H) (input : TransactionCreationParams) : Option (Ledger H) :=
  match (getNextAccountNonce (l.view input.payer.pubkey)).bind fun nonce =>
    (createTransaction vm.crypto nonce input).bind (readTransaction takes) with
  | none => some l
  | some tx => l.step vm fuel (.execute tx)

/-- One event on the ledger. -/
def happen (currency : Client.Currency) (l : Ledger H) : Event → Option (Ledger H)
  | .call c =>
    match c.input vm.crypto currency with
    | none => some l
    | some input => submit vm takes fuel l input
  | .finalize => l.step vm fuel .finalize

end Run

/-! ## Balances -/

section Submit

variable [DecidableEq H] {vm : Machine H} {takes : Bytes → Bool} {fuel : ℕ}
variable {l : Ledger H} {input : TransactionCreationParams} {refs : List AccountRef} {k : Pubkey}

/-- The state that the transaction of a payer is executed on. -/
def counted (l : Ledger H) (payer : Pubkey) : State :=
  overlayed l.store.get (Machine.bumpNonce l.store.get l.block.state payer).get

omit [DecidableEq H] in
theorem counted_of_ne {payer : Pubkey} (hne : payer ≠ k) : counted l payer k = l.view k := by
  unfold counted Ledger.view Machine.bumpNonce
  split <;> simp [overlayed_apply, StateDiff.get_set, hne]

/-- **What the client posts is executed**, as the transaction of the next nonce
of its payer. -/
theorem submit_eq (hready : Ready vm.crypto takes vm.limits input refs)
    (hnonce : nonceOf l.view input.payer.pubkey + 1 < 2 ^ 53) :
    submit vm takes fuel l input = l.step vm fuel (.execute
      (transactionOf vm.crypto input refs (nonceOf l.view input.payer.pubkey + 1))) := by
  have hnext : getNextAccountNonce (l.view input.payer.pubkey) =
      some (nonceOf l.view input.payer.pubkey + 1) := by
    unfold nonceOf at hnonce ⊢
    cases hk : l.view input.payer.pubkey with
    | none => rfl
    | some acc =>
      rw [hk] at hnonce
      exact Rpc.number_of_lt hnonce
  unfold submit
  rw [hnext, Option.bind_some, Rpc.createTransaction_eq hready.accounts, Option.bind_some,
    hready.readTransaction (by omega)]

/-- What a transaction leaves: its payer is counted, and a diff merged. -/
structure Leaves (l : Ledger H) (payer : Pubkey) (diff : StateDiff) (l' : Ledger H) : Prop where
  store : l'.store = l.store
  state : l'.block.state = (Machine.bumpNonce l.store.get l.block.state payer).merge diff

variable {l' : Ledger H} {diff : StateDiff} {payer : Pubkey}

omit [DecidableEq H] in
/-- What is seen of the accounts but that of the payer. -/
theorem Leaves.view (h : Leaves l payer diff l') (hne : payer ≠ k) :
    l'.view k = (diff.get k).or (l.view k) := by
  have hcounted := counted_of_ne (l := l) hne
  rw [counted, overlayed_apply] at hcounted
  rw [Ledger.view, h.store, h.state, overlayed_apply, StateDiff.get_merge, Option.or_assoc,
    hcounted]

omit [DecidableEq H] in
theorem Leaves.deletes (h : Leaves l payer diff l') (hk : k ∈ l'.block.state.deletes) :
    k ∈ diff.deletes ∨ k ∈ l.block.state.deletes ∧ diff.get k = none := by
  rw [h.state] at hk
  exact (StateDiff.mem_deletes_merge.1 hk).imp_right
    (And.imp_left Machine.mem_deletes_bumpNonce)

theorem step_of_error {tx : Transaction} {e : ContractError}
    (h : vm.executeTransaction fuel tx (counted l tx.payer) = some (.error e)) :
    ∃ l', l.step vm fuel (.execute tx) = some l' ∧ Leaves l tx.payer {} l' := by
  unfold counted at h
  simp only [Ledger.step, Machine.executeNext, h, Option.map_some]
  exact ⟨_, rfl, rfl, StateDiff.merge_empty.symm⟩

theorem step_of_ok {tx : Transaction} {out : TransactionOutput}
    (h : vm.executeTransaction fuel tx (counted l tx.payer) = some (.ok out)) :
    ∃ l', l.step vm fuel (.execute tx) = some l' ∧ Leaves l tx.payer out.stateDiff l' := by
  unfold counted at h
  simp only [Ledger.step, Machine.executeNext, h, Option.map_some]
  exact ⟨_, rfl, rfl, rfl⟩

/-- **A call of the contract is executed** as far as the contract and the
processing of its outputs go. -/
theorem executed (fuel : ℕ) (hroom : Roomy vm) (hready : Ready vm.crypto takes vm.limits input refs)
    (hcontract : input.contract = address) (hrefs : refs.length ≤ 5)
    (hnonce : nonceOf l.view input.payer.pubkey + 1 < 2 ^ 53) :
    ∃ u, CallOf vm (counted l input.payer.pubkey) refs u ∧
      (∀ e, contract vm.crypto (envOf vm (counted l input.payer.pubkey) refs) input.params =
          .error e →
        ∃ l', submit vm takes (fuel + 1) l input = some l' ∧
          Leaves l input.payer.pubkey {} l') ∧
      ∀ os out, contract vm.crypto (envOf vm (counted l input.payer.pubkey) refs) input.params =
          .ok os →
        vm.processOutputs u (vm.execute fuel) {} os = some (.ok out) →
        ∃ l', submit vm takes (fuel + 1) l input = some l' ∧
          Leaves l input.payer.pubkey out.stateDiff l' := by
  let tx := transactionOf vm.crypto input refs (nonceOf l.view input.payer.pubkey + 1)
  have hcounted : tx.nonce = nonceOf (counted l input.payer.pubkey) tx.payer :=
    (Machine.nonceOf_bumpNonce l.store.get l.block.state input.payer.pubkey
      (lt_trans hnonce (by norm_num))).symm
  obtain ⟨u, hu, hexec⟩ := executeTransaction_call hroom tx fuel hcontract hrefs
    hready.verifySignatures hcounted
  have hrun : contract vm.crypto (envOf vm (counted l input.payer.pubkey) tx.accounts) tx.params =
      contract vm.crypto (envOf vm (counted l input.payer.pubkey) refs) input.params := rfl
  refine ⟨u, hu, fun e he => ?_, fun os out hos hout => ?_⟩
  · rw [hrun, he] at hexec
    rw [submit_eq hready hnonce]
    exact step_of_error hexec
  · rw [hrun, hos] at hexec
    rw [submit_eq hready hnonce]
    exact step_of_ok (hexec.trans hout)

end Submit

/-! ## What the client posts -/

section Inputs

variable {C : Crypto H} {takes : Bytes → Bool} {vm : Machine H} {currency : Client.Currency}
variable {sender authority payer : Keypair} {recipient : Pubkey} {amount : ℕ} {env : Environment}

/-- A key that signs. -/
def Signs (C : Crypto H) (takes : Bytes → Bool) (k : Keypair) : Prop :=
  ∀ m, C.verifies k.pubkey m (k.sign m) = true ∧ takes (k.sign m) = true

theorem Signs.hasPrivateKey (h : Signs C takes sender) : C.hasPrivateKey sender.pubkey = true :=
  (Bool.and_eq_true_iff.1 (h []).1).1

/-- A key that signs has another address than an account that cannot. -/
theorem ne_of_offCurve {p k : Pubkey} (hp : C.hasPrivateKey p = true)
    (hk : C.hasPrivateKey k = false) : p ≠ k := by
  rintro rfl
  rw [hp] at hk
  cases hk

/-- The bytes of an amount. -/
theorem leBytes_amount (h : amount < 2 ^ 53) :
    leBytes 8 amount = Borsh.serialize (UInt64.ofNat amount) := by
  have hlt : amount < 2 ^ 64 := by omega
  change leBytes 8 amount = leBytes 8 (UInt64.ofNat amount).toNat
  rw [UInt64.toNat_ofNat_of_lt' hlt]

/-- What the contract does with an instruction. -/
theorem contract_serialize (i : Instruction) : contract C env (Borsh.serialize i) =
    match i with
    | .create seed authority decimals name symbol =>
      processCreate C env seed authority decimals name symbol
    | .mint amount => processMint C env amount
    | .transfer amount => processTransfer C env amount
    | .burn amount => processBurn C env amount
    | .setAuthority authority => processSetAuthority C env authority := by
  have hread := Borsh.deserialize_serialize i []
  rw [List.append_nil] at hread
  unfold contract
  rw [hread]
  cases i <;> rfl

/-- The keys of a call, and its size. -/
theorem ready_call (hroom : Roomy vm) {input : TransactionCreationParams}
    {refs : List AccountRef} (haccounts : input.accounts = refs.map writeAccountRef)
    (hsigners : (refs.filter AccountRef.signer).map AccountRef.address =
      input.signers.map Keypair.pubkey)
    (hkeys : ∀ k ∈ input.payer :: input.signers, Signs vm.crypto takes k)
    (hrefs : refs.length ≤ 5) (hparams : input.params.length ≤ 256) :
    Ready vm.crypto takes vm.limits input refs where
  accounts := haccounts
  signers := hsigners ▸ List.prefix_rfl
  verifies k hk m := (hkeys k hk m).1
  takes k hk m := (hkeys k hk m).2
  maxInputAccounts := hrefs.trans hroom.maxInputAccounts
  maxTransactionParamsSize := hparams.trans hroom.maxTransactionParamsSize

variable (C currency) in
theorem transfer_some (sender : Keypair) (recipient : Pubkey) (h : amount < 2 ^ 53) : ∃ input,
    currency.transfer C sender recipient amount = some input ∧ input.contract = address ∧
      input.payer = sender ∧ input.signers = [sender] ∧
      input.params = Borsh.serialize (Instruction.transfer (UInt64.ofNat amount)) ∧
      input.accounts =
        (transferRefs C currency.mintAddress sender.pubkey recipient).map writeAccountRef := by
  unfold Client.Currency.transfer Client.writeU64
  rw [Rpc.number_of_lt h, Option.map_some, leBytes_amount h]
  exact ⟨_, rfl, rfl, rfl, rfl, rfl, rfl⟩

variable (C currency) in
theorem mint_some (recipient : Pubkey) (authority payer : Keypair) (h : amount < 2 ^ 53) :
    ∃ input,
    currency.mint C recipient authority payer amount = some input ∧ input.contract = address ∧
      input.payer = payer ∧ input.signers = [authority] ∧
      input.params = Borsh.serialize (Instruction.mint (UInt64.ofNat amount)) ∧
      input.accounts =
        (mintRefs C currency.mintAddress authority.pubkey recipient).map writeAccountRef := by
  unfold Client.Currency.mint Client.writeU64
  rw [Rpc.number_of_lt h, Option.map_some, leBytes_amount h]
  exact ⟨_, rfl, rfl, rfl, rfl, rfl, rfl⟩

variable (C currency) in
theorem burn_some (sender : Keypair) (h : amount < 2 ^ 53) : ∃ input,
    currency.burn C sender amount = some input ∧ input.contract = address ∧
      input.payer = sender ∧ input.signers = [sender] ∧
      input.params = Borsh.serialize (Instruction.burn (UInt64.ofNat amount)) ∧
      input.accounts =
        (burnRefs C currency.mintAddress sender.pubkey).map writeAccountRef := by
  unfold Client.Currency.burn Client.writeU64
  rw [Rpc.number_of_lt h, Option.map_some, leBytes_amount h]
  exact ⟨_, rfl, rfl, rfl, rfl, rfl, rfl⟩

end Inputs

end Currency

end Rensa
