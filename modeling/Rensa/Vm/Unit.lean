import Rensa.Vm.Model.Unit
import Rensa.Vm.State
/-!
# Call trees of a transaction

`Calls` says that a unit, while it executes, starts a nested one;
`Starts` forgets with what. `execute_rule` is the induction every result
about the outcome of a transaction goes through: what holds of each
output by itself and is kept by merging holds of the whole execution,
at any nesting depth.
-/

namespace Rensa

/-! ## The direct outputs -/

namespace ExecutionUnit

variable {u : ExecutionUnit} {k : Pubkey} {a : Account} {d : StateDiff}

/-- The first listed account of that address is writable. -/
def Grants (u : ExecutionUnit) (k : Pubkey) : Prop :=
  ∃ p, u.env.accounts.find? (fun p => p.1 == k) = some p ∧ p.2.writable = true

theorem setAccount_ok (h : u.setAccount k a = .ok d) :
    u.Grants k ∧ d = ({} : StateDiff).set k a := by
  simp only [setAccount] at h
  split at h
  · cases h
  · rename_i hfind
    split at h
    · rename_i hw
      exact ⟨⟨_, hfind, hw⟩, (Except.ok.inj h).symm⟩
    · cases h

theorem deleteAccount_ok (h : u.deleteAccount k = .ok d) : d = ({} : StateDiff).remove k := by
  simp only [deleteAccount] at h
  split at h
  · cases h
  · split at h
    · cases h
    · split at h
      · exact (Except.ok.inj h).symm
      · cases h

theorem createAccount_ok {data : Option Bytes} (h : u.createAccount k data = .ok d) :
    u.Grants k ∧ u.state k = none ∧
      d = ({} : StateDiff).set k { nonce := 0, owner := some u.contract, data := data } := by
  simp only [createAccount] at h
  split at h
  · rename_i hk
    exact ⟨(setAccount_ok h).1, hk, (setAccount_ok h).2⟩
  · cases h

theorem createExecutableAccount_ok {bytecode : Bytes}
    (h : u.createExecutableAccount k bytecode = .ok d) :
    u.env.address = wasmVmBuiltinAddr ∧ u.Grants k ∧ u.state k = none ∧
      d = ({} : StateDiff).set k
        { executable := true, owner := some wasmVmBuiltinAddr, data := some bytecode } := by
  simp only [createExecutableAccount] at h
  split at h
  · cases h
  · rename_i haddr
    split at h
    · rename_i hk
      exact ⟨not_not.1 haddr, (setAccount_ok h).1, hk, (setAccount_ok h).2⟩
    · cases h

theorem modifyAccount_ok {data : Option Bytes} (h : u.modifyAccount k data = .ok d) :
    u.Grants k ∧ ∃ acc, u.state k = some acc ∧
      d = ({} : StateDiff).set k { acc with data := data } := by
  simp only [modifyAccount] at h
  split at h
  · rename_i acc hk
    exact ⟨(setAccount_ok h).1, acc, hk, (setAccount_ok h).2⟩
  · cases h

end ExecutionUnit

theorem TransactionOutput.ofDiff_ok {r : Except ContractError StateDiff} {out : TransactionOutput}
    (h : TransactionOutput.ofDiff r = .ok out) : ∃ d, r = .ok d ∧ out = { stateDiff := d } := by
  cases r with
  | error e => cases h
  | ok d => exact ⟨d, rfl, (Except.ok.inj h).symm⟩

/-- An output other than a call. -/
def Output.IsDirect : Output → Prop
  | .contractInvoke _ _ _ => False
  | _ => True

namespace Machine

variable {H : Type} {vm : Machine H} {u v : ExecutionUnit}

/-- What a direct output can do, when it succeeds: `out` is its result. -/
inductive DirectEffect (u : ExecutionUnit) : Output → TransactionOutput → Prop
  /-- One log entry. -/
  | log (key value : String) :
      DirectEffect u (.logEntry key value) { logEntries := [(key, value)] }
  /-- A new account of the executing contract. -/
  | create {k : Pubkey} (data : Option Bytes) : u.Grants k → u.state k = none →
      DirectEffect u (.createOwnedAccount k data)
        { stateDiff := ({} : StateDiff).set k
            { nonce := 0, owner := some u.contract, data := data } }
  /-- New data in an account that exists. -/
  | write {k : Pubkey} (data : Option Bytes) {acc : Account} : u.Grants k →
      u.state k = some acc →
      DirectEffect u (.writeAccountData k data)
        { stateDiff := ({} : StateDiff).set k { acc with data := data } }
  /-- A deletion. -/
  | delete {k : Pubkey} {d : StateDiff} : u.deleteAccount k = .ok d →
      DirectEffect u (.deleteOwnedAccount k) { stateDiff := ({} : StateDiff).remove k }
  /-- A new executable account. -/
  | createExecutable {k : Pubkey} (bytecode : Bytes) :
      u.env.address = wasmVmBuiltinAddr → u.Grants k → u.state k = none →
      DirectEffect u (.createExecutableAccount k bytecode)
        { stateDiff := ({} : StateDiff).set k
            { executable := true, owner := some wasmVmBuiltinAddr, data := some bytecode } }

/-- **A direct output that succeeds has one of five effects.** -/
theorem directEffect_of_ok {invoke : ExecutionUnit → Run TransactionOutput} {o : Output}
    {r : TransactionOutput} (hdir : o.IsDirect) (h : vm.processOutput u invoke o = some (.ok r)) :
    DirectEffect u o r := by
  cases o with
  | contractInvoke => exact hdir.elim
  | logEntry key value =>
    simp only [processOutput] at h
    split at h
    · simp at h
    · obtain rfl : _ = r := by simpa using h
      exact .log key value
  | createOwnedAccount k data =>
    simp only [processOutput] at h
    split at h
    · obtain ⟨d, hd, rfl⟩ := TransactionOutput.ofDiff_ok (Option.some.inj h)
      obtain ⟨hw, hk, rfl⟩ := ExecutionUnit.createAccount_ok hd
      exact .create data hw hk
    · simp at h
  | writeAccountData k data =>
    simp only [processOutput] at h
    split at h
    · obtain ⟨d, hd, rfl⟩ := TransactionOutput.ofDiff_ok (Option.some.inj h)
      obtain ⟨hw, acc, hk, rfl⟩ := ExecutionUnit.modifyAccount_ok hd
      exact .write data hw hk
    · simp at h
  | deleteOwnedAccount k =>
    obtain ⟨d, hd, rfl⟩ := TransactionOutput.ofDiff_ok (Option.some.inj h)
    rw [ExecutionUnit.deleteAccount_ok hd]
    exact .delete hd
  | createExecutableAccount k bytecode =>
    simp only [processOutput] at h
    split at h
    · obtain ⟨d, hd, rfl⟩ := TransactionOutput.ofDiff_ok (Option.some.inj h)
      obtain ⟨haddr, hw, hk, rfl⟩ := ExecutionUnit.createExecutableAccount_ok hd
      exact .createExecutable bytecode haddr hw hk
    · simp at h

/-! ## The loop over the outputs -/

/-- The outcome of the loop, read after the outputs `pre`. -/
theorem processOutputs_append (invoke : ExecutionUnit → Run TransactionOutput)
    (acc : TransactionOutput) (pre post : List Output) :
    vm.processOutputs u invoke acc (pre ++ post) =
      match vm.processOutputs u invoke acc pre with
      | some (.ok acc') => vm.processOutputs u invoke acc' post
      | r => r := by
  induction pre generalizing acc with
  | nil => rfl
  | cons o os ih =>
    simp only [List.cons_append, processOutputs]
    rcases vm.processOutput u invoke o with _ | _ | out
    · rfl
    · rfl
    · simp only
      split
      · rfl
      · exact ih _

/-- A loop that succeeds on one more output succeeded before it, and on
it. -/
theorem processOutputs_cons_ok {invoke : ExecutionUnit → Run TransactionOutput}
    {acc out : TransactionOutput} {o : Output} {os : List Output}
    (h : vm.processOutputs u invoke acc (o :: os) = some (.ok out)) :
    ∃ r, vm.processOutput u invoke o = some (.ok r) ∧
      (acc.merge r).logEntries.length ≤ vm.limits.maxLogsCount ∧
      vm.processOutputs u invoke (acc.merge r) os = some (.ok out) := by
  simp only [processOutputs] at h
  rcases hr : vm.processOutput u invoke o with _ | _ | r
  · simp [hr] at h
  · simp [hr] at h
  · simp only [hr] at h
    split at h
    · simp at h
    · rename_i hlen
      exact ⟨r, rfl, Nat.le_of_not_lt hlen, h⟩

/-- What a direct output does to a state, where it succeeds. -/
def effect (u : ExecutionUnit) : Output → State → State
  | .logEntry _ _, s => s
  | .createOwnedAccount k data, s =>
    Function.update s k (some { nonce := 0, owner := some u.contract, data := data })
  | .writeAccountData k data, s =>
    Function.update s k ((u.state k).map fun acc => { acc with data := data })
  | .deleteOwnedAccount k, s => Function.update s k none
  | .contractInvoke _ _ _, s => s
  | .createExecutableAccount k bytecode, s =>
    Function.update s k
      (some { executable := true, owner := some wasmVmBuiltinAddr, data := some bytecode })

theorem DirectEffect.layOver {o : Output} {r : TransactionOutput} (h : DirectEffect u o r)
    (s : State) : r.stateDiff.layOver s = effect u o s := by
  cases h with
  | log => exact StateDiff.layOver_empty
  | create data _ _ => exact StateDiff.layOver_set _ _ _
  | write data _ hk =>
    rw [StateDiff.layOver_set, effect, hk]
    rfl
  | delete _ => exact StateDiff.layOver_remove _ _
  | createExecutable bytecode _ _ _ => exact StateDiff.layOver_set _ _ _

/-- **A loop over direct outputs**: each of them succeeded, and the diff is
their effects one after another. -/
theorem processOutputs_direct {invoke : ExecutionUnit → Run TransactionOutput} {os : List Output}
    {acc out : TransactionOutput} (hdir : ∀ o ∈ os, o.IsDirect)
    (h : vm.processOutputs u invoke acc os = some (.ok out)) :
    (∀ o ∈ os, ∃ r, DirectEffect u o r) ∧
      ∀ s, out.stateDiff.layOver s =
        os.foldl (fun s o => effect u o s) (acc.stateDiff.layOver s) := by
  induction os generalizing acc with
  | nil =>
    obtain rfl : acc = out := by simpa [processOutputs] using h
    exact ⟨by simp, fun s => rfl⟩
  | cons o os ih =>
    obtain ⟨r, hr, -, hrest⟩ := processOutputs_cons_ok h
    have heff : DirectEffect u o r := directEffect_of_ok (hdir o List.mem_cons_self) hr
    obtain ⟨hall, hlay⟩ := ih (fun o' ho' => hdir o' (List.mem_cons_of_mem _ ho')) hrest
    refine ⟨List.forall_mem_cons.2 ⟨⟨r, heff⟩, hall⟩, fun s => ?_⟩
    rw [hlay, TransactionOutput.merge, StateDiff.layOver_merge, heff.layOver]
    rfl

/-- An account that a loop of direct outputs set was set by one of
them. -/
theorem processOutputs_set {invoke : ExecutionUnit → Run TransactionOutput}
    {os : List Output} {acc out : TransactionOutput} (hdir : ∀ o ∈ os, o.IsDirect)
    (h : vm.processOutputs u invoke acc os = some (.ok out)) {k : Pubkey} {a : Account}
    (hset : out.stateDiff.get k = some a) :
    acc.stateDiff.get k = some a ∨
      ∃ o ∈ os, ∃ r, DirectEffect u o r ∧ r.stateDiff.get k = some a := by
  induction os generalizing acc with
  | nil =>
    obtain rfl : acc = out := by simpa [processOutputs] using h
    exact .inl hset
  | cons o os ih =>
    obtain ⟨r, hr, -, hrest⟩ := processOutputs_cons_ok h
    have heff := directEffect_of_ok (hdir o List.mem_cons_self) hr
    rcases ih (fun o ho => hdir o (List.mem_cons_of_mem _ ho)) hrest with hget | ⟨o', ho', hrest⟩
    · rw [TransactionOutput.merge, StateDiff.get_merge] at hget
      cases hro : r.stateDiff.get k with
      | none =>
        rw [hro, Option.none_or] at hget
        exact .inl hget
      | some b =>
        rw [hro, Option.some_or] at hget
        exact .inr ⟨o, List.mem_cons_self, r, heff, hro.trans hget⟩
    · exact .inr ⟨o', List.mem_cons_of_mem _ ho', hrest⟩

/-! ## The call tree -/

/-- While it executes, `u` reaches a call of `contract` with `accounts`
and `params`, and the call builds the unit `v`: the outputs before it
were processed without error. -/
def Calls (vm : Machine H) (u : ExecutionUnit) (contract : Pubkey) (accounts : List AccountRef)
    (params : Bytes) (v : ExecutionUnit) : Prop :=
  ∃ pre post fuel acc,
    u.entrypoint u.env u.params = .ok (pre ++ .contractInvoke contract accounts params :: post) ∧
    vm.processOutputs u (vm.execute fuel) {} pre = some (.ok acc) ∧
    vm.newNested u contract accounts params = .ok v

/-- `u` starts the nested unit `v`. -/
def Starts (vm : Machine H) (u v : ExecutionUnit) : Prop :=
  ∃ contract accounts params, vm.Calls u contract accounts params v

/-- What a call hands to the unit it builds. -/
theorem newNested_ok {c : Pubkey} {accounts : List AccountRef} {params : Bytes}
    (h : vm.newNested u c accounts params = .ok v) :
    v.state = u.state ∧ v.contract = c ∧
      v.env = vm.createEnvironment u.state accounts c (some u.contract) := by
  simp only [newNested] at h
  split at h
  · cases h
  · split at h
    · cases h
    · obtain rfl := Except.ok.inj h
      exact ⟨rfl, rfl, rfl⟩

/-- The unit of a top-level transaction, and the checks it passed. -/
theorem newUnit_ok {tx : Transaction} {state : State} (h : vm.newUnit tx state = .ok u) :
    tx.accounts.length ≤ vm.limits.maxInputAccounts ∧
      tx.verifySignatures vm.crypto = .ok () ∧
      tx.nonce = ((state tx.payer).map Account.nonce).getD 0 ∧
      vm.entrypoint tx.contract state = .ok u.entrypoint ∧
      u.state = state ∧ u.contract = tx.contract ∧ u.params = tx.params ∧
      u.env = vm.createEnvironment state tx.accounts tx.contract none := by
  simp only [newUnit] at h
  split at h
  · cases h
  · rename_i hlen
    split at h
    · cases h
    · rename_i hsig
      split at h
      · cases h
      · rename_i hnonce
        split at h
        · cases h
        · rename_i e he
          obtain rfl := Except.ok.inj h
          exact ⟨Nat.le_of_not_lt hlen, hsig, not_not.1 hnonce, he, rfl, rfl, rfl, rfl⟩

theorem executeTransaction_ok {fuel : ℕ} {tx : Transaction} {state : State}
    {out : TransactionOutput} (h : vm.executeTransaction fuel tx state = some (.ok out)) :
    ∃ u, vm.newUnit tx state = .ok u ∧ vm.execute fuel u = some (.ok out) := by
  simp only [executeTransaction] at h
  split at h
  · simp at h
  · rename_i u hu
    exact ⟨u, hu, h⟩

/-- **All units of a call tree run on one state.** -/
theorem state_eq_of_reaches (h : Relation.ReflTransGen vm.Starts u v) : v.state = u.state := by
  induction h with
  | refl => rfl
  | tail _ hs ih =>
    obtain ⟨_, _, _, _, _, _, _, _, _, hn⟩ := hs
    rw [(newNested_ok hn).1, ih]

/-- **Write access to an account off the curve** is given to the contract
that owns it, or for an address nobody uses. -/
theorem grants_ofEnvironment {state : State} {accounts : List AccountRef} {address : Pubkey}
    {caller : Option Pubkey} {k : Pubkey}
    (henv : u.env = vm.createEnvironment state accounts address caller) (hw : u.Grants k)
    (hk : vm.crypto.hasPrivateKey k = false) {a : Account} (ha : state k = some a) :
    a.executable = false ∧ a.owner = some address := by
  obtain ⟨p, hfind, hwrite⟩ := hw
  have hmem : p ∈ accounts.map (vm.createAccountView state address) := by
    have := List.mem_of_find?_eq_some hfind
    rwa [henv] at this
  obtain ⟨r, -, rfl⟩ := List.mem_map.1 hmem
  obtain rfl : r.address = k := by simpa [createAccountView] using List.find?_some hfind
  simp only [createAccountView, grantsWrite, hk, ha, Bool.and_eq_true] at hwrite
  simpa using hwrite.2

/-! ## The induction over an execution -/

/-- **The rule for whole executions.** `Q` holds of the unit and of every
unit it starts; `P` holds of nothing done, of each direct output of such
a unit, and of a merge of two results it holds of. Then `P` holds of what
the execution returns. -/
theorem execute_rule {Q : ExecutionUnit → Prop} {P : TransactionOutput → Prop}
    (hstart : ∀ u v, Q u → vm.Starts u v → Q v)
    (hempty : P {}) (hmerge : ∀ a b, P a → P b → P (a.merge b))
    (hdirect : ∀ u, Q u → ∀ os, u.entrypoint u.env u.params = .ok os → ∀ o ∈ os,
      o.IsDirect → ∀ invoke r, vm.processOutput u invoke o = some (.ok r) → P r)
    {fuel : ℕ} {out : TransactionOutput} (hu : Q u)
    (h : vm.execute fuel u = some (.ok out)) : P out := by
  induction fuel generalizing u out with
  | zero => cases h
  | succ fuel ih =>
    simp only [execute] at h
    split at h
    · simp at h
    · rename_i os hos
      -- the loop, from any point of the outputs on
      have hloop : ∀ post pre acc, os = pre ++ post →
          vm.processOutputs u (vm.execute fuel) {} pre = some (.ok acc) → P acc →
          vm.processOutputs u (vm.execute fuel) acc post = some (.ok out) → P out := by
        intro post
        induction post with
        | nil =>
          intro pre acc _ _ hacc hout
          simp only [processOutputs, Option.some.injEq, Except.ok.injEq] at hout
          exact hout ▸ hacc
        | cons o post ihpost =>
          intro pre acc hsplit hpre hacc hout
          obtain ⟨r, hr, hlen, hrest⟩ := processOutputs_cons_ok hout
          have hPr : P r := by
            cases o with
            | contractInvoke c accounts params =>
              simp only [processOutput] at hr
              split at hr
              · simp at hr
              · rename_i nested hn
                exact ih (hstart u nested hu ⟨c, accounts, params, pre, post, fuel, acc,
                  hsplit ▸ hos, hpre, hn⟩) hr
            | _ => refine hdirect u hu os hos _ ?_ ?_ _ r hr <;> simp [hsplit, Output.IsDirect]
          have hpre' : vm.processOutputs u (vm.execute fuel) {} (pre ++ [o]) =
              some (.ok (acc.merge r)) := by
            rw [processOutputs_append, hpre]
            simp only [processOutputs, hr]
            rw [if_neg (Nat.not_lt.2 hlen)]
          exact ihpost (pre ++ [o]) (acc.merge r) (by simp [hsplit]) hpre'
            (hmerge _ _ hacc hPr) hrest
      exact hloop os [] {} rfl rfl hempty h

end Machine

end Rensa
