import Mathlib.Data.List.Basic
import Mathlib.Tactic.Common
/-!
# Conditions along a run

A run handles a list of inputs, one after another. `Along` says that every
input meets a condition in the state it finds. `Along.rule` is the
induction over such a run, and `along_iff` is for a condition that is
exact: where a good state stays good precisely when the input meets the
condition, all states of a run are good precisely when all inputs do.
-/

namespace Rensa

variable {σ α : Type} {f : σ → α → σ} {q : σ → α → Prop} {s : σ} {l : List α}

/-- Every input meets a condition, in the state it is handled in. -/
def Along (f : σ → α → σ) (q : σ → α → Prop) : σ → List α → Prop
  | _, [] => True
  | s, a :: l => q s a ∧ Along f q (f s a) l

instance Along.decidable [∀ s a, Decidable (q s a)] : (s : σ) → (l : List α) →
    Decidable (Along f q s l)
  | _, [] => inferInstanceAs (Decidable True)
  | s, a :: l => haveI := Along.decidable (f s a) l
    inferInstanceAs (Decidable (q s a ∧ Along f q (f s a) l))

/-- **The rule for such runs.** -/
theorem Along.rule {I : σ → Prop} (h : Along f q s l) (hstart : I s)
    (hstep : ∀ s a, I s → q s a → I (f s a)) : I (l.foldl f s) := by
  induction l generalizing s with
  | nil => exact hstart
  | cons a l ih => exact ih h.2 (hstep s a hstart h.1)

/-- Every input, after those before it. -/
theorem along_iff_forall :
    Along f q s l ↔ ∀ l' a, l' ++ [a] <+: l → q (l'.foldl f s) a := by
  induction l generalizing s with
  | nil => exact iff_of_true trivial fun l' a hl' => by simp at hl'
  | cons a l ih =>
    constructor
    · rintro ⟨hq, hrest⟩ l' b hl'
      cases l' with
      | nil =>
        obtain ⟨rfl, -⟩ := List.cons_prefix_cons.1 hl'
        exact hq
      | cons c l' =>
        obtain ⟨rfl, hl''⟩ := List.cons_prefix_cons.1 hl'
        exact ih.1 hrest l' b hl''
    · intro h
      refine ⟨h [] a (List.prefix_append [a] l), ih.2 fun l' b hl' => ?_⟩
      exact h (a :: l') b (List.prefix_cons_inj a |>.2 hl')

/-- The first inputs of a run meet the condition too. -/
theorem Along.take (h : Along f q s l) {l' : List α} (hl' : l' <+: l) : Along f q s l' :=
  along_iff_forall.2 fun k a hk => along_iff_forall.1 h k a (hk.trans hl')

/-- **An exact condition.** `I` is what every step keeps, and `B` what a
step keeps just when its input meets the condition. -/
theorem along_iff {I B : σ → Prop} (hI : I s) (hB : B s) (hkeep : ∀ s a, I s → I (f s a))
    (hexact : ∀ s a, I s → B s → (B (f s a) ↔ q s a)) (l : List α) :
    (∀ l', l' <+: l → B (l'.foldl f s)) ↔ Along f q s l := by
  induction l generalizing s with
  | nil =>
    refine ⟨fun _ => trivial, fun _ l' hl' => ?_⟩
    rw [List.prefix_nil.1 hl']
    exact hB
  | cons a l ih =>
    constructor
    · intro h
      have hBa : B (f s a) := h [a] (List.prefix_append [a] l)
      refine ⟨(hexact s a hI hB).1 hBa, (ih (hkeep s a hI) hBa).1 fun l' hl' => ?_⟩
      exact h (a :: l') (List.prefix_cons_inj a |>.2 hl')
    · rintro ⟨hq, hrest⟩ l' hl'
      have hBa : B (f s a) := (hexact s a hI hB).2 hq
      cases l' with
      | nil => exact hB
      | cons b l' =>
        obtain ⟨rfl, hrest'⟩ := List.cons_prefix_cons.1 hl'
        exact (ih (hkeep s b hI) hBa).2 hrest l' hrest'

end Rensa
