import Rensa.Common.Rose
/-!
# Forests that do not branch

`line` hangs a list of labels under each other. The nodes of such a forest
are its suffixes, the last of them is the only leaf, and the way up from a
node is what comes before it.
-/

namespace Rensa

namespace Rose

variable {α β : Type*}

/-- The labels, each hung under the one before it. -/
def line : List α → List (Rose α)
  | [] => []
  | a :: as => [.node a (line as)]

variable {a b : α} {as : List α} {n m : Rose α} {p : α → Bool}

@[simp] theorem line_nil : line ([] : List α) = [] := rfl

theorem line_cons (a : α) (as : List α) : line (a :: as) = [.node a (line as)] := rfl

theorem nodesL_line_cons (a : α) (as : List α) :
    nodesL (line (a :: as)) = .node a (line as) :: nodesL (line as) := by
  rw [line_cons, nodesL_cons, nodes_node, nodesL_nil, List.append_nil]

@[simp] theorem labels_line (as : List α) : labels (line as) = as := by
  induction as with
  | nil => rfl
  | cons a as ih => rw [labels, nodesL_line_cons, List.map_cons, ← labels, ih, label_node]

/-- The nodes of the end of a line are the last nodes of it. -/
theorem suffix_nodesL_line (as bs : List α) : nodesL (line bs) <:+ nodesL (line (as ++ bs)) := by
  induction as with
  | nil => exact List.suffix_rfl
  | cons a as ih =>
    rw [List.cons_append, nodesL_line_cons]
    exact ih.trans (List.suffix_cons _ _)

theorem map_line (g : α → β) (as : List α) : (line as).map (map g) = line (as.map g) := by
  induction as with
  | nil => rfl
  | cons a as ih => rw [line_cons, List.map_singleton, map, mapL_eq, ih, List.map_cons, line_cons]

/-- **A node hung under the last one** makes the line longer. -/
theorem graft_line (h : ∀ a ∈ as, p a = false) (hb : p b = true) (c : α) :
    (line (as ++ [b])).map (graft p (.node c [])) = line (as ++ [b, c]) := by
  induction as with
  | nil =>
    simp only [List.nil_append, line_cons, line_nil, List.map_singleton, graft, graftL_eq,
      List.map_nil, hb, if_true]
  | cons a as ih =>
    obtain ⟨ha, has⟩ := List.forall_mem_cons.1 h
    rw [List.cons_append, List.cons_append, line_cons, line_cons, List.map_singleton, graft,
      graftL_eq, ih has, ha]
    simp

/-- The last node is the leaf. -/
theorem getLast?_nodesL_line (as : List α) (a : α) :
    (nodesL (line (as ++ [a]))).getLast? = some (.node a []) := by
  induction as with
  | nil => rfl
  | cons b as ih =>
    rw [List.cons_append, nodesL_line_cons, List.getLast?_cons, ih]
    rfl

theorem eq_of_leaf (hn : n ∈ nodesL (line (as ++ [a]))) (hleaf : n.children = []) :
    n = .node a [] := by
  induction as with
  | nil =>
    rw [List.nil_append, nodesL_line_cons] at hn
    simpa using hn
  | cons b as ih =>
    rw [List.cons_append, nodesL_line_cons, List.mem_cons] at hn
    rcases hn with rfl | hn
    · cases as <;> cases hleaf
    · exact ih hn

/-- A node with children is not the last one. -/
theorem label_mem_of_line (hn : n ∈ nodesL (line (as ++ [a]))) (hchild : n.children ≠ []) :
    n.label ∈ as := by
  induction as with
  | nil =>
    rw [List.nil_append, nodesL_line_cons, line_nil, nodesL_nil, List.mem_singleton] at hn
    exact absurd (congrArg children hn) hchild
  | cons b as ih =>
    rw [List.cons_append, nodesL_line_cons, List.mem_cons] at hn
    rcases hn with rfl | hn
    · exact List.mem_cons_self
    · exact List.mem_cons_of_mem _ (ih hn)

/-- A path below a root ends with it. -/
theorem Path.onto {r : Rose α} {l : List (Rose α)} (h : Path r.children l) :
    Path [r] (l ++ [r]) := by
  induction h with
  | root hc => exact .step (.root (List.mem_singleton_self r)) hc
  | step _ hc ih => exact .step ih hc

/-- **The way up** from the leaf. -/
theorem path_line (hne : as ≠ []) : Path (line as) (nodesL (line as)).reverse := by
  induction as with
  | nil => exact absurd rfl hne
  | cons a as ih =>
    rw [nodesL_line_cons, List.reverse_cons, line_cons]
    by_cases has : as = []
    · subst has
      exact .root (List.mem_singleton_self _)
    · exact Path.onto (r := .node a (line as)) (ih has)

end Rose

end Rensa
