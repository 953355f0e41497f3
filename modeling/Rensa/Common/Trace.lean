import Mathlib
/-!
# Runs that put things out

`Trace step s es s'` is a sequence of steps from `s` to `s'` that put out
the list `es`, in order. `Trace.rule` is the induction over a run: what
holds at the start, and is kept by every step together with what the
step puts out, holds at the end. `logged` records along a loop what each
of its rounds has to report about the state it starts from.
-/

namespace Rensa

variable {σ ε α β : Type*}

/-- A run from a state to another, with what it puts out. -/
inductive Trace (step : σ → List ε → σ → Prop) : σ → List ε → σ → Prop
  /-- Nothing done. -/
  | refl (s : σ) : Trace step s [] s
  /-- One more step. -/
  | tail {s s' s'' : σ} {es e : List ε} : Trace step s es s' → step s' e s'' →
      Trace step s (es ++ e) s''

namespace Trace

variable {step step' : σ → List ε → σ → Prop} {s s' s'' : σ} {es es' : List ε}

theorem single (h : step s es s') : Trace step s es s' := by
  have htrace := (Trace.refl s).tail h
  rwa [List.nil_append] at htrace

theorem trans (h : Trace step s es s') (h' : Trace step s' es' s'') :
    Trace step s (es ++ es') s'' := by
  induction h' with
  | refl => rwa [List.append_nil]
  | tail _ hstep ih =>
    rw [← List.append_assoc]
    exact ih.tail hstep

/-- Two runs, of which only the second puts something out. -/
theorem trans_silent (h : Trace step s [] s') (h' : Trace step s' es s'') :
    Trace step s es s'' := by
  have htrace := h.trans h'
  rwa [List.nil_append] at htrace

/-- **The rule for runs.** -/
theorem rule {P : List ε → σ → Prop} (h : Trace step s es s') (hstart : P [] s)
    (hstep : ∀ es s e s', step s e s' → P es s → P (es ++ e) s') : P es s' := by
  induction h with
  | refl => exact hstart
  | tail _ hone ih => exact hstep _ _ _ _ hone ih

/-- A fact about states that every step keeps. -/
theorem invariant {I : σ → Prop} (h : Trace step s es s') (hstart : I s)
    (hstep : ∀ s e s', step s e s' → I s → I s') : I s' :=
  h.rule (P := fun _ s => I s) hstart fun _ s e s' => hstep s e s'

theorem mono (h : Trace step s es s') (hstep : ∀ s e s', step s e s' → step' s e s') :
    Trace step' s es s' := by
  induction h with
  | refl => exact .refl _
  | tail _ hone ih => exact ih.tail (hstep _ _ _ hone)

end Trace

/-- What the rounds of a loop report, each about the state it starts
from. -/
def logged (f : σ → α → σ) (log : σ → α → List β) : σ → List α → List β
  | _, [] => []
  | s, a :: l => log s a ++ logged f log (f s a) l

theorem logged_append (f : σ → α → σ) (log : σ → α → List β) (s : σ) (l l' : List α) :
    logged f log s (l ++ l') = logged f log s l ++ logged f log (l.foldl f s) l' := by
  induction l generalizing s with
  | nil => rfl
  | cons a l ih => rw [List.cons_append, logged, ih, logged, List.append_assoc, List.foldl_cons]

/-- A fact about everything a loop reports. -/
theorem logged_forall {f : σ → α → σ} {log : σ → α → List β} {q : β → Prop}
    (h : ∀ s a, ∀ b ∈ log s a, q b) (s : σ) (l : List α) : ∀ b ∈ logged f log s l, q b := by
  induction l generalizing s with
  | nil => simp [logged]
  | cons a l ih =>
    intro b hb
    rcases List.mem_append.1 hb with hb | hb
    · exact h s a b hb
    · exact ih _ b hb

/-- What a loop reports, one of its rounds does. -/
theorem exists_of_mem_logged {f : σ → α → σ} {log : σ → α → List β} {s : σ} {l : List α} {b : β}
    (hb : b ∈ logged f log s l) :
    ∃ pre a post, l = pre ++ a :: post ∧ b ∈ log (pre.foldl f s) a := by
  induction l generalizing s with
  | nil => cases hb
  | cons a l ih =>
    rcases List.mem_append.1 hb with hb | hb
    · exact ⟨[], a, l, rfl, hb⟩
    · obtain ⟨pre, a', post, rfl, hlog⟩ := ih hb
      exact ⟨a :: pre, a', post, rfl, hlog⟩

/-- **A loop is a run where its rounds are**: `I` is what the rounds keep,
and `q` what has to hold of everything they report. -/
theorem Trace.foldl {step : σ → List ε → σ → Prop} {I : σ → Prop} {q : β → Prop}
    {f : σ → α → σ} {log : σ → α → List β} {l : List α} {s : σ} (hI : I s)
    (hq : ∀ b ∈ logged f log s l, q b)
    (hround : ∀ s, I s → ∀ a ∈ l, (∀ b ∈ log s a, q b) →
      Trace step s [] (f s a) ∧ I (f s a)) :
    Trace step s [] (l.foldl f s) ∧ I (l.foldl f s) := by
  induction l generalizing s with
  | nil => exact ⟨.refl s, hI⟩
  | cons a l ih =>
    obtain ⟨hstep, hI'⟩ := hround s hI a List.mem_cons_self fun b hb =>
      hq b (List.mem_append_left _ hb)
    obtain ⟨hrest, hend⟩ := ih hI' (fun b hb => hq b (List.mem_append_right _ hb))
      fun s hs a ha => hround s hs a (List.mem_cons_of_mem _ ha)
    exact ⟨hstep.trans_silent hrest, hend⟩

/-- A loop is a run up to each of the rounds that report something. -/
theorem Trace.of_mem_logged {step : σ → List ε → σ → Prop} {I : σ → Prop} {q : β → Prop}
    {f : σ → α → σ} {log : σ → α → List β} {l : List α} {s : σ} (hI : I s)
    (hq : ∀ b ∈ logged f log s l, q b)
    (hround : ∀ s, I s → ∀ a ∈ l, (∀ b ∈ log s a, q b) →
      Trace step s [] (f s a) ∧ I (f s a)) {b : β} (hb : b ∈ logged f log s l) :
    ∃ s' a, (Trace step s [] s' ∧ I s') ∧ a ∈ l ∧ (∀ b ∈ log s' a, q b) ∧ b ∈ log s' a := by
  obtain ⟨pre, a, post, rfl, hlog⟩ := exists_of_mem_logged hb
  rw [logged_append] at hq
  refine ⟨pre.foldl f s, a, ?_, by simp, fun b hb => hq b ?_, hlog⟩
  · exact Trace.foldl hI (fun b hb => hq b (List.mem_append_left _ hb)) fun s hs a ha =>
      hround s hs a (List.mem_append_left _ ha)
  · exact List.mem_append_right _ (List.mem_append_left _ hb)

end Rensa
