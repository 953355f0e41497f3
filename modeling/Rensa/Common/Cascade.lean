import Mathlib.Logic.Hydra
import Mathlib.Order.WellFounded
import Mathlib.Data.Prod.Lex
/-!
# Cascades

A cascade works off a multiset of tasks. Handling a task takes it out and
may put in any number of new ones, each below the one that was handled.
Between two of them the cascade may do other things that leave the tasks
alone, as long as a number goes down. No cascade goes on forever
(`cascade_ends`), however many tasks one of them turns into.
-/

namespace Rensa

open Relation (CutExpand)

variable {σ ι : Type*} {r : ι → ι → Prop} {step : σ → σ → Prop}
variable {tasks : σ → Multiset ι} {rest : σ → ℕ}

/-- What a step of a cascade does: one task is replaced by lower ones, or no
task changes and the number goes down. -/
def Cascades (r : ι → ι → Prop) (tasks : σ → Multiset ι) (rest : σ → ℕ) (s s' : σ) : Prop :=
  CutExpand r (tasks s') (tasks s) ∨ tasks s' = tasks s ∧ rest s' < rest s

/-- **The rule for cascades**: where the order of the tasks is well-founded,
so is that of the states. -/
theorem wellFounded_of_cascades (hr : WellFounded r)
    (hstep : ∀ s s', step s s' → Cascades r tasks rest s s') :
    WellFounded fun s' s => step s s' := by
  have hlex := (hr.cutExpand).prod_lex (wellFounded_lt (α := ℕ))
  refine Subrelation.wf ?_ (InvImage.wf (fun s => (tasks s, rest s)) hlex)
  intro s' s hs
  rcases hstep s s' hs with hcut | ⟨htasks, hrest⟩
  · exact .left _ _ hcut
  · show Prod.Lex _ _ (tasks s', rest s') (tasks s, rest s)
    rw [htasks]
    exact .right _ hrest

/-- **No cascade goes on forever.** -/
theorem cascade_ends (hr : WellFounded r)
    (hstep : ∀ s s', step s s' → Cascades r tasks rest s s') (s : ℕ → σ) :
    ∃ n, ¬ step (s n) (s (n + 1)) :=
  haveI : IsWellFounded σ fun s' s => step s s' := ⟨wellFounded_of_cascades hr hstep⟩
  WellFounded.not_rel_apply_succ (r := fun s' s => step s s') s

/-- One task out, lower ones in. -/
theorem Cascades.cut {s s' : σ} {a : ι} (others new : Multiset ι)
    (hs : tasks s = {a} + others) (hs' : tasks s' = others + new) (hnew : ∀ b ∈ new, r b a) :
    Cascades r tasks rest s s' := by
  refine .inl ⟨new, a, hnew, ?_⟩
  rw [hs, hs', add_comm, add_assoc]

end Rensa
