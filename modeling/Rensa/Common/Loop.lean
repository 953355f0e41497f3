import Mathlib.Tactic.Common
/-!
# Loops

`loop body` runs a body over and over: the body either goes round again
with a new state (`.inl`) or leaves the loop with a result (`.inr`). A
number that goes down in every round bounds the rounds, so that the loop is
computed in that many of them; `loop_eq` is its equation, and `loop_rule`
the rule for its invariants.
-/

namespace Rensa

variable {σ β : Type} {body : σ → σ ⊕ β} {μ : σ → ℕ}

/-- A loop, for a number of rounds at most. -/
def rounds (body : σ → σ ⊕ β) : ℕ → σ → Option β
  | 0, _ => none
  | n + 1, s => match body s with
    | .inl s' => rounds body n s'
    | .inr b => some b

/-- The body makes a number smaller whenever it goes round again. -/
def Shrinks (body : σ → σ ⊕ β) (μ : σ → ℕ) : Prop := ∀ s s', body s = .inl s' → μ s' < μ s

theorem rounds_isSome (hμ : Shrinks body μ) {n : ℕ} {s : σ} (hn : μ s < n) :
    (rounds body n s).isSome := by
  induction n generalizing s with
  | zero => exact absurd hn (Nat.not_lt_zero _)
  | succ n ih =>
    unfold rounds
    split
    next s' hs' =>
      have hlt := hμ s s' hs'
      exact ih (by omega)
    · rfl

/-- More rounds than are needed change nothing. -/
theorem rounds_succ (hμ : Shrinks body μ) {n m : ℕ} {s : σ} (hn : μ s < n) (hm : μ s < m) :
    rounds body n s = rounds body m s := by
  induction n generalizing s m with
  | zero => exact absurd hn (Nat.not_lt_zero _)
  | succ n ih =>
    obtain - | m := m
    · exact absurd hm (Nat.not_lt_zero _)
    unfold rounds
    split
    next s' hs' =>
      have hlt := hμ s s' hs'
      exact ih (by omega) (by omega)
    · rfl

/-- A loop whose rounds a number bounds. -/
def loop (body : σ → σ ⊕ β) (μ : σ → ℕ) (hμ : Shrinks body μ) (s : σ) : β :=
  (rounds body (μ s + 1) s).get (rounds_isSome hμ (Nat.lt_succ_self _))

/-- **One round of a loop.** -/
theorem loop_eq (hμ : Shrinks body μ) (s : σ) : loop body μ hμ s = match body s with
    | .inl s' => loop body μ hμ s'
    | .inr b => b := by
  cases hs : body s with
  | inl s' =>
    have hlt := hμ s s' hs
    have hrounds : rounds body (μ s + 1) s = rounds body (μ s' + 1) s' := by
      rw [rounds, hs]
      exact rounds_succ hμ hlt (Nat.lt_succ_self _)
    unfold loop
    simp only [hrounds]
  | inr b =>
    have hrounds : rounds body (μ s + 1) s = some b := by rw [rounds, hs]
    unfold loop
    simp only [hrounds, Option.get_some]

theorem loop_inl {hμ : Shrinks body μ} {s s' : σ} (h : body s = .inl s') :
    loop body μ hμ s = loop body μ hμ s' := by rw [loop_eq, h]

theorem loop_inr {hμ : Shrinks body μ} {s : σ} {b : β} (h : body s = .inr b) :
    loop body μ hμ s = b := by rw [loop_eq, h]

/-- **The rule for loops**: `I` is kept by the rounds, and gives `Q` where
one of them leaves the loop. -/
theorem loop_rule {hμ : Shrinks body μ} {I : σ → Prop} {Q : β → Prop} {s : σ} (hstart : I s)
    (hround : ∀ s s', I s → body s = .inl s' → I s')
    (hleave : ∀ s b, I s → body s = .inr b → Q b) : Q (loop body μ hμ s) := by
  induction hn : μ s using Nat.strongRecOn generalizing s with
  | ind n ih =>
    cases hs : body s with
    | inl s' =>
      rw [loop_inl hs]
      exact ih (μ s') (hn ▸ hμ s s' hs) (hround s s' hstart hs) rfl
    | inr b =>
      rw [loop_inr hs]
      exact hleave s b hstart hs

end Rensa
