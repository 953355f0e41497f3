import Mathlib
/-!
# Filtering by position

A filter that compares the entry at each position of a list with what is
expected at that position keeps the hits (`kept`). It also expects
something new after a miss, so what it keeps need not begin where the
expectations do. It keeps them from the first on, without gaps, and keeps
each entry that is the next one, exactly where the list has no later hit
after its first miss, and not the entry that was missed (`inStep_iff`).
-/

namespace Rensa

variable {α : Type*} {e : ℕ → α} {l : List α} {i : ℕ}

/-- The entry at a position is the expected one. -/
def Hit (e : ℕ → α) (l : List α) (i : ℕ) : Prop := l[i]? = some (e i)

/-- After the first miss no entry is a hit, nor the entry that was
missed. -/
def InStep (e : ℕ → α) (l : List α) : Prop :=
  ∀ k, (∀ i < k, Hit e l i) → ¬ Hit e l k → ∀ i, k < i → ¬ Hit e l i ∧ l[i]? ≠ some (e k)

theorem Hit.lt_length (h : Hit e l i) : i < l.length := (List.getElem?_eq_some_iff.1 h).1

theorem hit_append {r : List α} (hi : i < l.length) : Hit e (l ++ r) i ↔ Hit e l i := by
  rw [Hit, Hit, List.getElem?_append_left hi]

theorem length_filter_range {p : ℕ → Prop} [DecidablePred p] (n : ℕ) :
    ((List.range n).filter fun i => p i).length = Nat.count p n := by
  induction n with
  | zero => rfl
  | succ n ih =>
    rw [List.range_succ, List.filter_append, List.length_append, ih, Nat.count_succ]
    by_cases hp : p n <;> simp [hp]

/-- The numbers with a property go with the first ones exactly where each
goes with the number of those before it. -/
theorem map_filter_range_eq_iff {p : ℕ → Prop} [DecidablePred p] (n : ℕ) :
    ((List.range n).filter fun i => p i).map e = (List.range (Nat.count p n)).map e ↔
      ∀ i < n, p i → e i = e (Nat.count p i) := by
  induction n with
  | zero => simp
  | succ n ih =>
    have hsplit : (∀ i < n + 1, p i → e i = e (Nat.count p i)) ↔
        (∀ i < n, p i → e i = e (Nat.count p i)) ∧ (p n → e n = e (Nat.count p n)) :=
      Nat.forall_lt_succ_right
    rw [hsplit, ← ih, List.range_succ, List.filter_append, List.map_append, Nat.count_succ]
    by_cases hp : p n
    · rw [List.filter_singleton, decide_eq_true hp, cond_true, if_pos hp, List.range_succ,
        List.map_append, List.map_singleton, List.map_singleton]
      constructor
      · intro h
        obtain ⟨hinit, hlast⟩ := List.append_inj' h rfl
        exact ⟨hinit, fun _ => List.singleton_inj.1 hlast⟩
      · rintro ⟨hinit, hlast⟩
        rw [hinit, hlast hp]
    · simp [hp]

variable [DecidableEq α]

instance : DecidablePred (Hit e l) := fun i => inferInstanceAs (Decidable (l[i]? = some (e i)))

/-- What the filter keeps. -/
def kept (e : ℕ → α) (l : List α) : List α :=
  ((List.range l.length).filter fun i => Hit e l i).map e

theorem filter_hit_append (r : List α) :
    (List.range l.length).filter (fun i => decide (Hit e (l ++ r) i)) =
      (List.range l.length).filter fun i => decide (Hit e l i) :=
  List.filter_congr fun i hi => by rw [decide_eq_decide, hit_append (List.mem_range.1 hi)]

theorem kept_concat {a : α} :
    kept e (l ++ [a]) = if a = e l.length then kept e l ++ [a] else kept e l := by
  have hlast : Hit e (l ++ [a]) l.length ↔ a = e l.length := by simp [Hit]
  rw [kept, List.length_append, List.length_singleton, List.range_succ, List.filter_append,
    filter_hit_append,
    List.map_append, List.filter_singleton]
  by_cases ha : a = e l.length
  · rw [decide_eq_true (hlast.2 ha), if_pos ha, cond_true, List.map_singleton, ← ha, kept]
  · rw [decide_eq_false (mt hlast.1 ha), if_neg ha, cond_false, List.map_nil, List.append_nil,
      kept]

theorem length_kept : (kept e l).length = Nat.count (Hit e l) l.length := by
  rw [kept, List.length_map, length_filter_range]

/-- The hits before a position are those of the entries before it. -/
theorem count_hit_append (r : List α) :
    Nat.count (Hit e (l ++ r)) l.length = (kept e l).length := by
  rw [← length_filter_range, filter_hit_append, kept, List.length_map]

/-- What is kept is the first expectations, without gaps. -/
theorem kept_eq_iff : kept e l = (List.range (kept e l).length).map e ↔
    ∀ i, Hit e l i → e i = e (Nat.count (Hit e l) i) := by
  rw [length_kept, kept, map_filter_range_eq_iff]
  constructor
  · intro h i hi
    exact h i hi.lt_length hi
  · intro h i _ hi
    exact h i hi

/-- Hits up to a miss, and none after it: their number stays. -/
theorem count_hit_of_miss {k : ℕ} (hbefore : ∀ i < k, Hit e l i) (hmiss : ¬ Hit e l k)
    (hafter : ∀ j, k < j → j < i → ¬ Hit e l j) (hi : k ≤ i) : Nat.count (Hit e l) i = k := by
  induction i, hi using Nat.le_induction with
  | base => exact Nat.count_iff_forall.2 hbefore
  | succ i hi ih =>
    have hnot : ¬ Hit e l i := by
      rcases Nat.eq_or_lt_of_le hi with rfl | hlt
      · exact hmiss
      · exact hafter i hlt (by omega)
    rw [Nat.count_succ, if_neg hnot, Nat.add_zero]
    exact ih fun j hj hji => hafter j hj (by omega)

/-- **A filter by position keeps the next entries and only these** exactly
where the list is in step. -/
theorem inStep_iff (hinj : ∀ i j, i < l.length → j < l.length → e i = e j → i = j) :
    (kept e l = (List.range (kept e l).length).map e ∧
      ∀ i, l[i]? = some (e (Nat.count (Hit e l) i)) → Hit e l i) ↔ InStep e l := by
  rw [kept_eq_iff]
  constructor
  · rintro ⟨hkept, hnext⟩ k hbefore hmiss
    have hnone : ∀ i, k < i → ¬ Hit e l i := by
      intro i
      induction i using Nat.strong_induction_on with
      | h i ih =>
        intro hki hhit
        -- the first hit after the miss is not the next one
        have hcount : Nat.count (Hit e l) i = k :=
          count_hit_of_miss hbefore hmiss (fun j hj hji => ih j hji hj) hki.le
        have heq := hkept i hhit
        rw [hcount] at heq
        have := hinj i k hhit.lt_length (hki.trans hhit.lt_length) heq
        omega
    intro i hki
    refine ⟨hnone i hki, fun hmissed => hnone i hki (hnext i ?_)⟩
    rw [hmissed, count_hit_of_miss hbefore hmiss (fun j hj _ => hnone j hj) hki.le]
  · intro hstep
    -- a position has hits before it only, or a first miss
    have hcases : ∀ i, Nat.count (Hit e l) i = i ∨
        (¬ Hit e l i ∧ l[i]? ≠ some (e (Nat.count (Hit e l) i))) := by
      intro i
      by_cases hall : ∀ j < i, Hit e l j
      · exact .inl (Nat.count_iff_forall.2 hall)
      · push Not at hall
        obtain ⟨k, ⟨hki, hmiss⟩, hleast⟩ := Nat.findX hall
        have hbefore : ∀ j < k, Hit e l j := by
          intro j hj
          by_contra hnot
          exact hleast j hj ⟨hj.trans hki, hnot⟩
        have hafter := hstep k hbefore hmiss
        rw [count_hit_of_miss hbefore hmiss (fun j hj _ => (hafter j hj).1) hki.le]
        exact .inr (hafter i hki)
    constructor
    · intro i hhit
      rcases hcases i with hcount | ⟨hmiss, -⟩
      · rw [hcount]
      · exact absurd hhit hmiss
    · intro i hnext
      rcases hcases i with hcount | ⟨-, hne⟩
      · rwa [hcount] at hnext
      · exact absurd hnext hne

end Rensa
