import Rensa.Vm.State
import Rensa.Vm.Model.Unit
/-!
# What the store of finalized accounts gives back

A diff is applied to the store as one batch, the accounts it sets first
and its deletions after them, and an account is encoded without its
executable flag. The store then reads as the diff says at every address
but those where the diff leaves an executable account: a contract that
was deployed stops being one when its block is finalized.
-/

namespace Rensa

/-- The diff leaves an executable account at the address. -/
def StateDiff.LeavesExecutable (d : StateDiff) (k : Pubkey) : Prop :=
  k ∉ d.deletes ∧ ∃ a, d.get k = some a ∧ a.executable = true

namespace PersistentState

variable {H : Type} {s : PersistentState} {d : StateDiff} {k : Pubkey}

/-- Where no executable account is left, the store reads as the diff
says. -/
theorem get_apply_eq_layOver (h : ¬ d.LeavesExecutable k) :
    (s.apply d).get k = d.layOver s.get k := by
  rw [get_apply, StateDiff.layOver]
  by_cases hdel : k ∈ d.deletes
  · rw [if_pos hdel, if_pos hdel]
  · rw [if_neg hdel, if_neg hdel]
    cases ha : d.get k with
    | none => rfl
    | some a =>
      have hex : a.executable = false := by
        by_contra hne
        exact h ⟨hdel, a, ha, by simpa using hne⟩
      rw [Option.some_or]
      exact congrArg some (Account.persisted_eq_iff.2 hex)

/-- An executable account comes back as one that is not. -/
theorem get_apply_of_leavesExecutable (h : d.LeavesExecutable k) :
    ∃ a, (s.apply d).get k = some a.persisted ∧ d.layOver s.get k = some a ∧
      a.executable = true := by
  obtain ⟨hdel, a, ha, hex⟩ := h
  refine ⟨a, ?_, ?_, hex⟩
  · rw [get_apply, if_neg hdel, ha]
  · rw [StateDiff.layOver, if_neg hdel, ha, Option.some_or]

/-- No contract runs at an account that is not executable. -/
theorem contract_of_not_executable (vm : Machine H) {state : State} {a : Account}
    (ha : state k = some a) (hex : a.executable = false) :
    vm.contract k state = .error .accountIsNotExecutable := by
  simp only [Machine.contract, ha]
  split
  · rw [if_neg (by simp [hex])]
  · rfl

/-- **Persistence keeps everything but executable accounts.** The store,
after a diff was applied, returns at an address what the diff sets there,
nothing where the diff deletes and the previous account elsewhere, and
the machine finds the same contract there, exactly where the diff leaves
no executable account; where it leaves one, the machine refuses it from
then on. -/
theorem get_apply_eq_iff (vm : Machine H) (s : PersistentState) (d : StateDiff) (k : Pubkey) :
    (((s.apply d).get k = d.layOver s.get k ∧
        vm.contract k (s.apply d).get = vm.contract k (d.layOver s.get)) ↔
      ¬ d.LeavesExecutable k) ∧
    (d.LeavesExecutable k →
      vm.contract k (s.apply d).get = .error .accountIsNotExecutable) := by
  refine ⟨⟨?_, ?_⟩, ?_⟩
  · rintro ⟨hget, -⟩ hleaves
    obtain ⟨a, hafter, hbefore, hex⟩ := get_apply_of_leavesExecutable (s := s) hleaves
    rw [hafter, hbefore, Option.some_inj, Account.persisted_eq_iff, hex] at hget
    cases hget
  · intro h
    have hget := get_apply_eq_layOver (s := s) h
    refine ⟨hget, ?_⟩
    simp only [Machine.contract, hget]
  · intro h
    obtain ⟨a, hafter, -, -⟩ := get_apply_of_leavesExecutable (s := s) h
    exact contract_of_not_executable vm hafter rfl

namespace Sample

/-- A machine whose runtime accepts every bytecode. -/
def vm : Machine Bytes where
  crypto := sampleCrypto
  limits := Machine.Sample.limits
  builtin _ := none
  runtime _ := .ok fun _ _ => .ok []

/-- A contract as the builtin that deploys contracts writes it. -/
def contract : Account :=
  { executable := true, owner := some wasmVmBuiltinAddr, data := some [0] }

/-- The diff of a block that deploys it at address 200. -/
def deploy : StateDiff := ({} : StateDiff).set 200 contract

end Sample

/-- The deployed contract comes back from an empty store without its flag,
and can no longer be invoked. -/
theorem get_apply_deploy :
    ((⟨fun _ => none⟩ : PersistentState).apply Sample.deploy).get 200 ≠
        Sample.deploy.layOver (fun _ => none) 200 ∧
      (Sample.vm.contract 200 (Sample.deploy.layOver fun _ => none)).isOk = true ∧
      (Sample.vm.contract 200
        ((⟨fun _ => none⟩ : PersistentState).apply Sample.deploy).get).isOk = false := by
  decide

end PersistentState

end Rensa
