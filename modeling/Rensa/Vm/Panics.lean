import Rensa.Vm.Model.Builtin
import Rensa.Vm.Unit
/-!
# The builtin contracts do not panic

Every index of the Currency contract is below the number of accounts it
has counted, so that it is the total contract of the model
(`Currency.native_eq`). The WasmVM contract compares the length of its own
address with a number of accounts, and an address has 32 bytes: it refuses
every allocation and upload, and an installation takes its third account
only after it was shown a writable bytecode account of another owner,
which `create_environment` never builds (`WasmVM.processInstall_refuses`).
-/

namespace Rensa

/-- The elements of a list, by index. -/
theorem mapM_getElem?_range {α : Type} (l : List α) :
    (List.range l.length).mapM (fun i => l[i]?) = some l := by
  induction l with
  | nil => rfl
  | cons a l ih =>
    rw [List.length_cons, List.range_succ_eq_map, List.mapM_cons, List.mapM_map]
    simp only [Function.comp_def, List.getElem?_cons_zero, List.getElem?_cons_succ, ih]
    rfl

namespace Currency

variable {H : Type} (C : Crypto H) {env : Environment}

/-- Accounts that were counted are taken without a panic. -/
theorem taking_eq {n : ℕ} {early : Option ContractError} {process : Environment → ContractResult}
    (hlen : env.accounts.length ≠ n → process env = .error .invalidInputAccounts)
    (hearly : ∀ e, early = some e → env.accounts.length = n → process env = .error e) :
    taking n early env process = some (process env) := by
  unfold taking
  by_cases h : env.accounts.length = n
  · rw [if_neg (not_not.2 h)]
    cases early with
    | some e => exact congrArg some (hearly e rfl h).symm
    | none =>
      subst h
      simp only [indexed, mapM_getElem?_range, Option.map_some]
  · rw [if_pos h, hlen h]

theorem amountCheck_eq_some {amount : UInt64} {e : ContractError}
    (h : amountCheck amount = some e) : amount = 0 ∧ e = .invalidInputParameters := by
  unfold amountCheck at h
  split at h
  · exact ⟨‹_›, (Option.some.inj h).symm⟩
  · cases h

/-- **The indices of the Currency contract are in bounds**: it answers what
the contract without them does. -/
theorem native_eq (env : Environment) (params : Bytes) :
    native C env params = some (contract C env params) := by
  unfold native contract
  cases (Borsh.deserialize params : Option (Instruction × Bytes)) with
  | none => rfl
  | some p =>
    obtain ⟨i, rest⟩ := p
    cases i with
    | create seed authority decimals name symbol =>
      refine taking_eq (fun hlen => ?_) (fun e he => by cases he)
      unfold processCreate
      split
      · rename_i heq
        exact absurd (by rw [heq]; rfl) hlen
      · rfl
    | mint amount =>
      refine taking_eq (fun hlen => ?_) (fun e he hlen => ?_)
      · unfold processMint
        split
        · rename_i heq
          exact absurd (by rw [heq]; rfl) hlen
        · rfl
      · obtain ⟨rfl, rfl⟩ := amountCheck_eq_some he
        obtain ⟨caller, address, accounts⟩ := env
        match accounts, hlen with
        | [_, _, _, _], _ => rfl
    | transfer amount =>
      refine taking_eq (fun hlen => ?_) (fun e he hlen => ?_)
      · unfold processTransfer
        split
        · rename_i heq
          exact absurd (by rw [heq]; rfl) hlen
        · rfl
      · obtain ⟨rfl, rfl⟩ := amountCheck_eq_some he
        obtain ⟨caller, address, accounts⟩ := env
        match accounts, hlen with
        | [_, _, _, _, _], _ => rfl
    | burn amount =>
      refine taking_eq (fun hlen => ?_) (fun e he hlen => ?_)
      · unfold processBurn
        split
        · rename_i heq
          exact absurd (by rw [heq]; rfl) hlen
        · rfl
      · obtain ⟨rfl, rfl⟩ := amountCheck_eq_some he
        obtain ⟨caller, address, accounts⟩ := env
        match accounts, hlen with
        | [_, _, _], _ => rfl
    | setAuthority authority =>
      refine taking_eq (fun hlen => ?_) (fun e he => by cases he)
      unfold processSetAuthority
      split
      · rename_i heq
        exact absurd (by rw [heq]; rfl) hlen
      · rfl

end Currency

namespace Sha3

variable {H : Type} (C : Crypto H)

/-- The index of the Sha3 contract is in bounds. -/
theorem contract_isSome (env : Environment) (params : Bytes) :
    (contract C env params).isSome = true := by
  unfold contract
  split
  · rfl
  · rename_i hlen
    obtain ⟨p, hp⟩ := List.length_eq_one_iff.1 (not_not.1 hlen)
    rw [hp]
    simp only [List.getElem?_cons_zero]
    split <;> rfl

end Sha3

namespace WasmVM

variable {H : Type} {vm : Machine H} {state : State} {accounts : List AccountRef}
  {address : Pubkey} {caller : Option Pubkey}

/-- **What `create_environment` shows as writable**: an account off the
curve that holds data belongs to the contract that is called. -/
theorem owner_of_writable {p : Pubkey × AccountView}
    (hp : p ∈ (vm.createEnvironment state accounts address caller).accounts)
    (hcurve : vm.crypto.hasPrivateKey p.1 = false) (hw : p.2.writable = true)
    (hdata : p.2.data ≠ none) : p.2.owner = some address := by
  obtain ⟨r, -, rfl⟩ := List.mem_map.1 hp
  simp only [Machine.createAccountView, Machine.grantsWrite, Bool.and_eq_true] at hcurve hw hdata ⊢
  rw [hcurve] at hw
  cases hs : state r.address with
  | none => simp [hs] at hdata
  | some existing =>
    simp only [hs, Bool.and_eq_true, beq_iff_eq, Bool.false_eq_true, if_false] at hw
    exact hw.2.2

/-- An account that has to have some address. -/
theorem withAddress_eq_ok {o : Option (Pubkey × AccountView)} {addr : Pubkey}
    {p : Pubkey × AccountView} :
    (match o with
      | none => .error .invalidInputAccounts
      | some (k, acc) => if k ≠ addr then .error .invalidInputAccounts else .ok (k, acc) :
        Except ContractError (Pubkey × AccountView)) = .ok p ↔ o = some p ∧ p.1 = addr := by
  constructor
  · intro h
    split at h
    · cases h
    · split at h
      · cases h
      · rename_i haddr
        obtain rfl := Except.ok.inj h
        exact ⟨rfl, not_not.1 haddr⟩
  · rintro ⟨rfl, haddr⟩
    exact if_neg (not_not.2 haddr)

theorem contractAccount_eq_ok {C : Crypto H} {seed : Borsh.FixedBytes 32} {env : Environment}
    {p : Pubkey × AccountView} : contractAccount C seed env = .ok p ↔
      env.accounts[0]? = some p ∧ p.1 = env.address.derive C [seed.1] := by
  rw [contractAccount, List.head?_eq_getElem?]
  exact withAddress_eq_ok

theorem bytecodeAccount_eq_ok {C : Crypto H} {seed : Borsh.FixedBytes 32} {env : Environment}
    {p : Pubkey × AccountView} : bytecodeAccount C seed env = .ok p ↔
      env.accounts[1]? = some p ∧ p.1 = env.address.derive C [seed.1, textBytes "bytecode"] :=
  withAddress_eq_ok

theorem bytecodeAccount_ok {C : Crypto H} {seed : Borsh.FixedBytes 32} {env : Environment}
    {p : Pubkey × AccountView} (h : bytecodeAccount C seed env = .ok p) :
    p ∈ env.accounts ∧ C.hasPrivateKey p.1 = false := by
  obtain ⟨hsecond, haddr⟩ := bytecodeAccount_eq_ok.1 h
  refine ⟨List.mem_of_getElem? hsecond, ?_⟩
  rw [haddr]
  exact Pubkey.hasPrivateKey_derive _ _ _

theorem data_of_readBytecode {acc : AccountView} {content : BytecodeAccount}
    (h : readBytecode acc = .ok content) : acc.data ≠ none := by
  intro hnone
  simp only [readBytecode, hnone] at h
  cases h

/-- **An installation does not reach its third account**: the bytecode
account it reads would have to be writable, off the curve, and of another
contract. It is refused before that. -/
theorem processInstall_refuses (seed : Borsh.FixedBytes 32)
    (init : Option (Borsh.Vec UInt8)) :
    ∃ e, processInstall vm.crypto (vm.createEnvironment state accounts address caller) seed
      init = some (.error e) := by
  unfold processInstall
  split
  · exact ⟨_, rfl⟩
  · split
    · exact ⟨_, rfl⟩
    · split
      · exact ⟨_, rfl⟩
      · split
        · exact ⟨_, rfl⟩
        · rename_i hbytecode
          split
          · exact ⟨_, rfl⟩
          · rename_i hw
            split
            · exact ⟨_, rfl⟩
            · rename_i howner
              split
              · exact ⟨_, rfl⟩
              · rename_i hread
                obtain ⟨hmem, hcurve⟩ := bytecodeAccount_ok hbytecode
                have := owner_of_writable hmem hcurve (by simpa using hw)
                  (data_of_readBytecode hread)
                exact absurd (beq_iff_eq.2 this) howner

/-- An upload is refused: an address does not have three bytes. -/
theorem processUpload_eq {C : Crypto H} (env : Environment) (seed : Borsh.FixedBytes 32)
    (index : UInt16) (bytes : Borsh.Vec UInt8) :
    processUpload C env seed index bytes = some (.error .invalidInputAccounts) := by
  unfold processUpload
  rw [if_pos (by rw [Pubkey.length_bytes]; decide)]

/-- An allocation is refused in the same way. -/
theorem processAllocate_eq {C : Crypto H} {limits : Limits} (env : Environment)
    (seed checksum : Borsh.FixedBytes 32) (authority : Pubkey) (size : UInt32) :
    processAllocate C limits env seed checksum authority size =
      .error .invalidInputAccounts := by
  unfold processAllocate
  rw [if_pos (by rw [Pubkey.length_bytes]; decide)]

/-- **The contract refuses every instruction**, in every environment a
machine builds for it. -/
theorem contract_refuses {limits : Limits} (params : Bytes) :
    ∃ e, contract vm.crypto limits (vm.createEnvironment state accounts address caller) params =
      some (.error e) := by
  unfold contract
  split
  · exact ⟨_, rfl⟩
  · rw [processAllocate_eq]
    exact ⟨_, rfl⟩
  · rw [processUpload_eq]
    exact ⟨_, rfl⟩
  · exact processInstall_refuses _ _

theorem contract_isSome {limits : Limits} (params : Bytes) :
    (contract vm.crypto limits (vm.createEnvironment state accounts address caller)
      params).isSome = true := by
  obtain ⟨e, he⟩ : ∃ e, contract vm.crypto limits
      (vm.createEnvironment state accounts address caller) params = some (.error e) :=
    contract_refuses params
  rw [he]
  rfl

end WasmVM

/-- **The builtin contracts never panic**: in every environment that
`create_environment` builds, for a transaction or for a nested call, the
Currency, Sha3 and WasmVM contracts return for all parameters. -/
theorem Machine.builtins_return {H : Type} (vm : Machine H) (state : State)
    (accounts : List AccountRef) (address : Pubkey) (caller : Option Pubkey) (params : Bytes) :
    let env := vm.createEnvironment state accounts address caller
    (Currency.native vm.crypto env params).isSome = true ∧
      (Sha3.contract vm.crypto env params).isSome = true ∧
      (WasmVM.contract vm.crypto vm.limits env params).isSome = true := by
  refine ⟨?_, Sha3.contract_isSome _ _ _, WasmVM.contract_isSome _⟩
  rw [Currency.native_eq]
  rfl

end Rensa
