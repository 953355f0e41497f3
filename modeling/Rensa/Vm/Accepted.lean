import Rensa.Vm.Unit
/-!
# Outputs that are accepted

The other direction of `directEffect_of_ok`: an output that meets the checks
of its kind is processed without an error, and so is a list of such outputs
with no more log entries than the limit. The diff is then what the outputs
record one after another (`processOutputs_accepts`).
-/

namespace Rensa

namespace StateDiff

variable {d : StateDiff} {k : Pubkey} {a : Account}

theorem merge_set : d.merge (({} : StateDiff).set k a) = d.set k a := by
  refine StateDiff.ext (Std.ExtTreeMap.ext_getElem? fun k' => ?_)
    (Std.ExtTreeSet.ext_mem fun k' => ?_)
  · change (d.merge (({} : StateDiff).set k a)).get k' = (d.set k a).get k'
    rw [get_merge, get_set, get_set, get_empty]
    split <;> rfl
  · rw [mem_deletes_merge, mem_deletes_set, mem_deletes_set, get_set, get_empty]
    by_cases h : k = k' <;> simp [h]

theorem merge_remove : d.merge (({} : StateDiff).remove k) = d.remove k := by
  refine StateDiff.ext (Std.ExtTreeMap.ext_getElem? fun k' => ?_)
    (Std.ExtTreeSet.ext_mem fun k' => ?_)
  · change (d.merge (({} : StateDiff).remove k)).get k' = (d.remove k).get k'
    rw [get_merge, get_remove, get_remove, get_empty, Option.none_or]
  · rw [mem_deletes_merge, mem_deletes_remove, mem_deletes_remove, get_remove, get_empty]
    simp

end StateDiff

namespace Machine

variable {H : Type} {vm : Machine H} {u : ExecutionUnit}
variable {invoke : ExecutionUnit → Run TransactionOutput}

variable (vm u) in
/-- What is checked of an output that is no call. -/
def Accepts : Output → Prop
  | .logEntry key value => key.utf8ByteSize + value.utf8ByteSize ≤ vm.limits.maxLogSize
  | .createOwnedAccount k data =>
    fits vm.limits.maxAccountSize data = true ∧ u.state k = none ∧ u.Grants k
  | .writeAccountData k data =>
    fits vm.limits.maxAccountSize data = true ∧ (u.state k).isSome = true ∧ u.Grants k
  | .deleteOwnedAccount k => ∃ p, u.env.accounts.find? (fun p => p.1 == k) = some p ∧
    p.2.owner = some u.env.address ∧ p.2.writable = true
  | .contractInvoke _ _ _ => False
  | .createExecutableAccount k bytecode => bytecode.length ≤ vm.limits.maxContractSize ∧
    u.env.address = wasmVmBuiltinAddr ∧ u.state k = none ∧ u.Grants k

/-- What an output adds to a diff. -/
def record (u : ExecutionUnit) (d : StateDiff) : Output → StateDiff
  | .createOwnedAccount k data => d.set k { nonce := 0, owner := some u.contract, data := data }
  | .writeAccountData k data =>
    ((u.state k).map fun acc => d.set k { acc with data := data }).getD d
  | .deleteOwnedAccount k => d.remove k
  | .createExecutableAccount k bytecode =>
    d.set k { executable := true, owner := some wasmVmBuiltinAddr, data := some bytecode }
  | .logEntry _ _ => d
  | .contractInvoke _ _ _ => d

/-- The log entry an output is. -/
def entries : Output → List (String × String)
  | .logEntry key value => [(key, value)]
  | _ => []

theorem setAccount_of_grants {k : Pubkey} {a : Account} (h : u.Grants k) :
    u.setAccount k a = .ok (({} : StateDiff).set k a) := by
  obtain ⟨p, hfind, hwritable⟩ := h
  simp only [ExecutionUnit.setAccount, hfind, hwritable, if_true]

/-- **An output that is accepted** is processed without an error. -/
theorem processOutput_accepts (invoke : ExecutionUnit → Run TransactionOutput) {o : Output}
    (h : Accepts vm u o) :
    ∃ r, vm.processOutput u invoke o = some (.ok r) ∧ r.logEntries = entries o ∧
      ∀ d : StateDiff, d.merge r.stateDiff = record u d o := by
  cases o with
  | logEntry key value =>
    exact ⟨_, if_neg (Nat.not_lt.2 h), rfl, fun d => StateDiff.merge_empty⟩
  | createOwnedAccount k data =>
    obtain ⟨hfits, hnone, hgrants⟩ := h
    let acc : Account := { nonce := 0, owner := some u.contract, data := data }
    refine ⟨{ stateDiff := ({} : StateDiff).set k acc }, ?_, rfl, fun d => StateDiff.merge_set⟩
    simp only [processOutput, hfits, if_true, ExecutionUnit.createAccount, hnone,
      setAccount_of_grants hgrants]
    rfl
  | writeAccountData k data =>
    obtain ⟨hfits, hsome, hgrants⟩ := h
    obtain ⟨acc, hacc⟩ := Option.isSome_iff_exists.1 hsome
    refine ⟨{ stateDiff := ({} : StateDiff).set k { acc with data := data } }, ?_, rfl,
      fun d => ?_⟩
    · simp only [processOutput, hfits, if_true, ExecutionUnit.modifyAccount, hacc,
        setAccount_of_grants hgrants]
      rfl
    · rw [StateDiff.merge_set, record, hacc]
      rfl
  | deleteOwnedAccount k =>
    obtain ⟨p, hfind, howner, hwritable⟩ := h
    refine ⟨{ stateDiff := ({} : StateDiff).remove k }, ?_, rfl, fun d => StateDiff.merge_remove⟩
    simp only [processOutput, ExecutionUnit.deleteAccount, hfind, howner, hwritable, ne_eq,
      not_true_eq_false, if_false, if_true]
    rfl
  | contractInvoke => exact h.elim
  | createExecutableAccount k bytecode =>
    obtain ⟨hsize, haddress, hnone, hgrants⟩ := h
    let acc : Account :=
      { executable := true, owner := some wasmVmBuiltinAddr, data := some bytecode }
    refine ⟨{ stateDiff := ({} : StateDiff).set k acc }, ?_, rfl, fun d => StateDiff.merge_set⟩
    simp only [processOutput, hsize, if_true, ExecutionUnit.createExecutableAccount, haddress,
      ne_eq, not_true_eq_false, if_false, hnone, setAccount_of_grants hgrants]
    rfl

/-- **Outputs that are accepted** are all processed, and their diff is what
they record. -/
theorem processOutputs_accepts {os : List Output} {acc : TransactionOutput}
    (h : ∀ o ∈ os, Accepts vm u o)
    (hlogs : (acc.logEntries ++ os.flatMap entries).length ≤ vm.limits.maxLogsCount) :
    vm.processOutputs u invoke acc os = some (.ok
      { stateDiff := os.foldl (record u) acc.stateDiff
        logEntries := acc.logEntries ++ os.flatMap entries }) := by
  induction os generalizing acc with
  | nil => simp [processOutputs]
  | cons o os ih =>
    obtain ⟨r, hr, hentries, hmerge⟩ := processOutput_accepts invoke
      (h o List.mem_cons_self)
    have hacc : acc.merge r = { stateDiff := record u acc.stateDiff o
                                logEntries := acc.logEntries ++ entries o } := by
      rw [TransactionOutput.merge, hmerge, hentries]
    rw [List.flatMap_cons, ← List.append_assoc] at hlogs ⊢
    have hcount : (acc.merge r).logEntries.length ≤ vm.limits.maxLogsCount := by
      rw [hacc]
      exact le_trans (by simp) hlogs
    simp only [processOutputs, hr, if_neg (Nat.not_lt.2 hcount)]
    rw [hacc, ih (fun o ho => h o (List.mem_cons_of_mem _ ho)) hlogs]
    rfl

end Machine

end Rensa
