import Mathlib.Logic.Function.Basic
import Mathlib.Data.List.Basic
import Mathlib.Tactic.Common
/-!
# Batches of writes

A batch gives for each of its keys a value, or takes away what is under
it; of two writes to one key the later one counts. Keys that are not in a
batch keep what they have.
-/

namespace Rensa

variable {κ ν : Type} [DecidableEq κ]

/-- A map after the writes of a batch. -/
def applyBatch (m : κ → Option ν) (batch : List (κ × Option ν)) : κ → Option ν :=
  batch.foldl (fun m e => Function.update m e.1 e.2) m

variable {m : κ → Option ν} {batch : List (κ × Option ν)} {k : κ}

/-- What is under a key was there, or comes from the batch. -/
theorem applyBatch_cases (m : κ → Option ν) (batch : List (κ × Option ν)) (k : κ) :
    (k ∉ batch.map Prod.fst ∧ applyBatch m batch k = m k) ∨
      (k, applyBatch m batch k) ∈ batch := by
  induction batch generalizing m with
  | nil => exact Or.inl ⟨List.not_mem_nil, rfl⟩
  | cons e batch ih =>
    rcases ih (Function.update m e.1 e.2) with ⟨hk, heq⟩ | hmem
    · by_cases hke : k = e.1
      · refine Or.inr (List.mem_cons.2 (Or.inl ?_))
        subst hke
        exact Prod.ext rfl (heq.trans (Function.update_self ..))
      · refine Or.inl ⟨?_, heq.trans (Function.update_of_ne hke ..)⟩
        simp [hke, hk]
    · exact Or.inr (List.mem_cons_of_mem _ hmem)

/-- A key that is not in the batch. -/
theorem applyBatch_of_not_mem (hk : k ∉ batch.map Prod.fst) : applyBatch m batch k = m k := by
  rcases applyBatch_cases m batch k with ⟨-, heq⟩ | hmem
  · exact heq
  · exact absurd (List.mem_map_of_mem hmem) hk

/-- A key that is in the batch. -/
theorem applyBatch_of_mem (hk : k ∈ batch.map Prod.fst) :
    (k, applyBatch m batch k) ∈ batch := by
  rcases applyBatch_cases m batch k with ⟨hnot, -⟩ | hmem
  · exact absurd hk hnot
  · exact hmem

/-- **What is left after some keys are removed.** -/
theorem applyBatch_remove {α : Type} (key : α → κ) (l : List α) :
    applyBatch m (l.map fun a => (key a, none)) k = if k ∈ l.map key then none else m k := by
  have hkeys : (l.map fun a => (key a, (none : Option ν))).map Prod.fst = l.map key := by
    rw [List.map_map]
    rfl
  split
  · rename_i hk
    have hmem : (k, applyBatch m (l.map fun a => (key a, none)) k) ∈
        l.map fun a => (key a, (none : Option ν)) := applyBatch_of_mem (hkeys ▸ hk)
    obtain ⟨a, -, ha⟩ := List.mem_map.1 hmem
    exact (congrArg Prod.snd ha).symm
  · rename_i hk
    exact applyBatch_of_not_mem (by rwa [hkeys])

/-- One batch after another. -/
theorem applyBatch_flatMap {α : Type} (f : α → List (κ × Option ν)) (l : List α) :
    l.foldl (fun m a => applyBatch m (f a)) m = applyBatch m (l.flatMap f) :=
  List.foldl_flatMap.symm

end Rensa
