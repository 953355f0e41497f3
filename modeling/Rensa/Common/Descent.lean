import Mathlib.Data.List.MinMax
import Mathlib.Data.List.Sort
import Rensa.Common.Rose
/-!
# Maxima of lists, and descents

`argmax` is the first element with the greatest key, and the last element
of a stable sort is the last one with the greatest key.

A descent goes from a tree down to one of its leaves, at each node to a
child that a rule allows among its siblings. In a tree without repetition
a leaf is below one child of each node on the way, so two descents to it
are the same (`Descent.and`); a rule that allows one child leads to one
leaf (`Descent.eq`).
-/

namespace Rensa

/-- The first maximum of a list that is mapped. -/
theorem argmax_map {α β γ : Type*} [LinearOrder γ] (g : α → β) (k : β → γ) (l : List α) :
    (l.map g).argmax k = (l.argmax (k ∘ g)).map g := by
  induction l using List.reverseRecOn with
  | nil => rfl
  | append_singleton l a ih =>
    rw [List.map_append, List.map_singleton, List.argmax_concat, List.argmax_concat, ih]
    cases l.argmax (k ∘ g) with
    | none => rfl
    | some c =>
      show (if k (g c) < k (g a) then some (g a) else some (g c)) = _
      by_cases hlt : k (g c) < k (g a)
      · simp [hlt]
      · simp [hlt]

/-- The first maximum is above what is before it. -/
theorem argmax_eq_some_iff_append {α γ : Type*} [LinearOrder γ] {k : α → γ} {l : List α} {a : α} :
    l.argmax k = some a ↔ ∃ before after, l = before ++ a :: after ∧
      (∀ b ∈ before, k b < k a) ∧ ∀ b ∈ after, k b ≤ k a := by
  constructor
  · induction l using List.reverseRecOn with
    | nil =>
      intro h
      cases h
    | append_singleton l b ih =>
      intro h
      rw [List.argmax_concat] at h
      cases hl : l.argmax k with
      | none =>
        rw [hl] at h
        obtain rfl := Option.some.inj h
        exact ⟨l, [], rfl, by simp [List.argmax_eq_none.1 hl], by simp⟩
      | some c =>
        rw [hl] at h
        dsimp only at h
        split at h
        · rename_i hlt
          obtain rfl := Option.some.inj h
          exact ⟨l, [], rfl, fun d hd => (List.le_of_mem_argmax hd hl).trans_lt hlt, by simp⟩
        · rename_i hlt
          obtain rfl := Option.some.inj h
          obtain ⟨before, after, rfl, hbefore, hafter⟩ := ih hl
          refine ⟨before, after ++ [b], by simp, hbefore, fun d hd => ?_⟩
          rcases List.mem_append.1 hd with hd | hd
          · exact hafter d hd
          · rw [List.mem_singleton.1 hd]
            exact not_lt.1 hlt
  · rintro ⟨before, after, rfl, hbefore, hafter⟩
    induction after using List.reverseRecOn with
    | nil =>
      rw [List.argmax_concat]
      cases hl : before.argmax k with
      | none => rfl
      | some c => exact if_pos (hbefore c (List.argmax_mem hl))
    | append_singleton after b ih =>
      have hle : ¬ k a < k b := not_lt.2 (hafter b (by simp))
      rw [← List.cons_append, ← List.append_assoc, List.argmax_concat,
        ih fun d hd => hafter d (List.mem_append_left _ hd)]
      exact if_neg hle

section Sorted

variable {α γ : Type*} [LinearOrder γ] {k : α → γ} {r : α → α → Prop} [DecidableRel r]

/-- What is last once an element is put into a sorted list. -/
theorem getLast?_orderedInsert (hr : ∀ a b, r a b ↔ k a ≤ k b) (a : α) {l : List α}
    (hl : l.Pairwise r) : (l.orderedInsert r a).getLast? =
      match l.getLast? with
      | none => some a
      | some b => if k b < k a then some a else some b := by
  induction l with
  | nil => rfl
  | cons b l ih =>
    rw [List.orderedInsert_cons]
    split
    · -- the element goes to the front, below all others
      rename_i hab
      rw [List.getLast?_cons_cons]
      cases hlast : (b :: l).getLast? with
      | none => simp at hlast
      | some c =>
        have hle : k a ≤ k c := by
          rcases List.mem_cons.1 (List.mem_of_getLast? hlast) with rfl | hc
          · exact (hr a c).1 hab
          · exact ((hr a b).1 hab).trans ((hr b c).1 ((List.pairwise_cons.1 hl).1 c hc))
        exact (if_neg (not_lt.2 hle)).symm
    · rename_i hab
      have hlt : k b < k a := not_le.1 fun hle => hab ((hr a b).2 hle)
      rw [List.getLast?_cons, ih (List.pairwise_cons.1 hl).2, List.getLast?_cons]
      cases l.getLast? with
      | none => simp [hlt]
      | some c =>
        dsimp only [Option.getD_some]
        split <;> rfl

/-- **The last element of a stable sort** is the last one with the greatest
key. -/
theorem getLast?_insertionSort (hr : ∀ a b, r a b ↔ k a ≤ k b) (l : List α) :
    (l.insertionSort r).getLast? = l.reverse.argmax k := by
  have htrans : IsTrans α r := ⟨fun a b c hab hbc =>
    (hr a c).2 (((hr a b).1 hab).trans ((hr b c).1 hbc))⟩
  have htotal : Std.Total r := ⟨fun a b => (le_total (k a) (k b)).imp (hr a b).2 (hr b a).2⟩
  induction l with
  | nil => rfl
  | cons a l ih =>
    rw [List.insertionSort_cons, getLast?_orderedInsert hr a (List.pairwise_insertionSort r l), ih,
      List.reverse_cons, List.argmax_concat]
    cases l.reverse.argmax k <;> rfl

end Sorted

namespace Rose

variable {α : Type*}

mutual
/-- How far the tree reaches below its root. -/
def height : Rose α → ℕ
  | node _ cs => heightL cs
/-- How far a node with these children reaches. -/
def heightL : List (Rose α) → ℕ
  | [] => 0
  | t :: ts => max (height t + 1) (heightL ts)
end

/-- **A way down** to a leaf, by children that `rule` allows among their
siblings. -/
inductive Descent (rule : List (Rose α) → Rose α → Prop) : Rose α → Rose α → Prop
  | leaf (a : α) : Descent rule (node a []) (node a [])
  | down {a : α} {cs : List (Rose α)} {t l : Rose α} (ht : t ∈ cs) (hrule : rule cs t)
      (hl : Descent rule t l) : Descent rule (node a cs) l

namespace Descent

variable {p q : List (Rose α) → Rose α → Prop} {t l l' : Rose α}

theorem mono (h : Descent p t l) (hpq : ∀ cs t, p cs t → q cs t) : Descent q t l := by
  induction h with
  | leaf a => exact .leaf a
  | down ht hrule _ ih => exact .down ht (hpq _ _ hrule) ih

/-- The end of a descent is a leaf of the tree. -/
theorem mem_nodes (h : Descent p t l) : l ∈ nodes t ∧ l.children = [] := by
  induction h with
  | leaf a => exact ⟨mem_nodes_self _, rfl⟩
  | @down a cs t l ht _ _ ih =>
    rw [nodes_node]
    exact ⟨List.mem_cons_of_mem _ (mem_nodesL.2 ⟨t, ht, ih.1⟩), ih.2⟩

/-- The first step of a descent. -/
theorem exists_child (h : Descent p t l) (ht : t.children ≠ []) :
    ∃ u ∈ t.children, p t.children u ∧ l ∈ nodes u := by
  cases h with
  | leaf => exact absurd rfl ht
  | down hu hrule hl => exact ⟨_, hu, hrule, hl.mem_nodes.1⟩

/-- **There is one way to a leaf**: where two rules allow it, both do at
every node. -/
theorem and (hnodup : (nodesL t.children).Nodup) (hp : Descent p t l) (hq : Descent q t l) :
    Descent (fun cs t => p cs t ∧ q cs t) t l := by
  induction hp with
  | leaf a => exact .leaf a
  | @down a cs t l ht hrule hl ih =>
    cases hq with
    | leaf => cases ht
    | @down _ _ u _ hu hrule' hl' =>
      obtain rfl : t = u :=
        eq_of_mem_nodes_of_nodup hnodup ht hu hl.mem_nodes.1 hl'.mem_nodes.1
      exact .down ht ⟨hrule, hrule'⟩ (ih (nodup_nodes_of_mem hnodup ht) hl')

/-- **A rule that allows one child leads to one leaf.** -/
theorem eq (hone : ∀ cs t u, p cs t → p cs u → t = u) (h : Descent p t l)
    (h' : Descent p t l') : l = l' := by
  induction h with
  | leaf a =>
    cases h' with
    | leaf => rfl
    | down ht => cases ht
  | down ht hrule _ ih =>
    cases h' with
    | leaf => cases ht
    | down _ hrule' hl' =>
      obtain rfl := hone _ _ _ hrule hrule'
      exact ih hl'

/-- **When a descent keeps to a second rule**: there is one that keeps to
both. -/
theorem iff_and (hone : ∀ cs t u, p cs t → p cs u → t = u) (hnodup : (nodesL t.children).Nodup)
    (h : Descent p t l) :
    Descent q t l ↔ ∃ l', Descent (fun cs t => p cs t ∧ q cs t) t l' := by
  constructor
  · exact fun hq => ⟨l, h.and hnodup hq⟩
  · rintro ⟨l', hl'⟩
    obtain rfl := eq hone h (hl'.mono fun _ _ => And.left)
    exact hl'.mono fun _ _ => And.right

end Descent

end Rose

end Rensa
