import Mathlib
/-!
# Steps that count once

Where steps commute and a step taken again changes nothing, a fold depends
on which steps are taken and on nothing else (`foldl_eq_of_mem_iff`). What
happens on the way can still depend on the order: `Rises` says that some
step makes a condition true.
-/

namespace Rensa

variable {σ α : Type*} {f : σ → α → σ} {s : σ} {l l' : List α}

section OrderFree

variable (hcomm : ∀ s a b, f (f s a) b = f (f s b) a) (hidem : ∀ s a, f (f s a) a = f s a)

include hcomm hidem

/-- A step that is taken later may be taken now as well. -/
theorem foldl_step_of_mem {a : α} (ha : a ∈ l) : l.foldl f (f s a) = l.foldl f s := by
  induction l generalizing s with
  | nil => exact absurd ha List.not_mem_nil
  | cons b l ih =>
    rw [List.foldl_cons, List.foldl_cons]
    rcases List.mem_cons.1 ha with rfl | ha
    · rw [hidem]
    · rw [hcomm, ih ha]

theorem foldl_dedup [DecidableEq α] : l.dedup.foldl f s = l.foldl f s := by
  induction l generalizing s with
  | nil => rfl
  | cons a l ih =>
    by_cases ha : a ∈ l
    · rw [List.dedup_cons_of_mem ha, List.foldl_cons, foldl_step_of_mem hcomm hidem ha, ih]
    · rw [List.dedup_cons_of_notMem ha, List.foldl_cons, List.foldl_cons, ih]

/-- **The same steps, in any order and any number of times.** -/
theorem foldl_eq_of_mem_iff [DecidableEq α] (h : ∀ a, a ∈ l ↔ a ∈ l') :
    l.foldl f s = l'.foldl f s := by
  have hperm : l.dedup.Perm l'.dedup := by
    rw [List.perm_ext_iff_of_nodup l.nodup_dedup l'.nodup_dedup]
    intro a
    rw [List.mem_dedup, List.mem_dedup, h]
  rw [← foldl_dedup hcomm hidem, ← foldl_dedup hcomm hidem (l := l')]
  exact hperm.foldl_eq' (fun a _ b _ s => hcomm s a b) s

end OrderFree

/-- Some step makes `P` true. -/
def Rises (f : σ → α → σ) (P : σ → Prop) : σ → List α → Prop
  | _, [] => False
  | s, a :: l => ¬ P s ∧ P (f s a) ∨ Rises f P (f s a) l

instance decidableRises {P : σ → Prop} [DecidablePred P] :
    (s : σ) → (l : List α) → Decidable (Rises f P s l)
  | _, [] => .isFalse id
  | s, a :: l =>
    have : Decidable (Rises f P (f s a) l) := decidableRises (f s a) l
    inferInstanceAs (Decidable (¬ P s ∧ P (f s a) ∨ Rises f P (f s a) l))

variable {P : σ → Prop}

/-- A step that changes nothing makes nothing true. -/
theorem rises_cons_of_eq {a : α} (h : f s a = s) : Rises f P s (a :: l) ↔ Rises f P s l := by
  rw [Rises, h]
  tauto

end Rensa
