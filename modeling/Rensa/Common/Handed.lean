import Rensa.Common.Rose
/-!
# What is handed down a tree

A state goes down a tree: a node is given the state its parent leaves, and
leaves one itself. `Handed` says that every node meets a condition in the
state it is given. It is kept by relabelling (`Handed.map`) and, where the
new child meets the condition below the nodes it hangs under, by a graft
(`handed_graft`); `handed_path` reads it along a path.
-/

namespace Rensa

namespace Rose

variable {σ α β : Type*} {f : σ → α → σ} {q : σ → α → Prop} {s : σ} {t : Rose α}

/-- **Every node of a tree meets `q`** in the state it is given, which is
`s` at the root, and `f` of that and of the label for the children. -/
inductive Handed (f : σ → α → σ) (q : σ → α → Prop) : σ → Rose α → Prop
  | node {s : σ} {a : α} {cs : List (Rose α)} : q s a → (∀ t ∈ cs, Handed f q (f s a) t) →
      Handed f q s (node a cs)

namespace Handed

theorem label (h : Handed f q s t) : q s t.label := by
  cases h with
  | node hq _ => exact hq

theorem children (h : Handed f q s t) : ∀ c ∈ t.children, Handed f q (f s t.label) c := by
  cases h with
  | node _ hcs => exact hcs

theorem leaf {a : α} (h : q s a) : Handed f q s (.node a []) := by
  refine .node h ?_
  intro t ht
  cases ht

/-- Another label that does the same. -/
theorem relabel {a b : α} {cs : List (Rose α)} (h : Handed f q s (.node a cs)) (hf : f s b = f s a)
    (hq : q s a → q s b) : Handed f q s (.node b cs) :=
  .node (hq h.label) (hf.symm ▸ h.children)

/-- **Relabelling.** -/
theorem map {f' : σ → β → σ} {q' : σ → β → Prop} {g : α → β} (hf : ∀ s a, f' s (g a) = f s a)
    (hq : ∀ s a, q s a → q' s (g a)) (h : Handed f q s t) : Handed f' q' s (Rose.map g t) := by
  induction h with
  | @node s a cs ha _ ih =>
    rw [Rose.map, mapL_eq]
    refine .node (hq s a ha) fun u hu => ?_
    obtain ⟨t, ht, rfl⟩ := List.mem_map.1 hu
    rw [hf]
    exact ih t ht

end Handed

/-! ## Paths -/

variable {F : List (Rose α)} {n : Rose α} {l : List (Rose α)}

/-- The state that the nodes of a path leave, its root being first. -/
def handed (f : σ → α → σ) (s : σ) (l : List (Rose α)) : σ := l.foldr (fun n s => f s n.label) s

@[simp] theorem handed_nil : handed f s [] = s := rfl

@[simp] theorem handed_cons : handed f s (n :: l) = f (handed f s l) n.label := rfl

/-- **Along a path** a node is given what those above it leave. -/
theorem handed_path (h : ∀ t ∈ F, Handed f q s t) (hpath : Path F (n :: l)) :
    Handed f q (handed f s l) n := by
  generalize hl : n :: l = k at hpath
  induction hpath generalizing n l with
  | root hr =>
    obtain ⟨rfl, rfl⟩ := List.cons.inj hl
    exact h _ hr
  | step _ hc ih =>
    obtain ⟨rfl, rfl⟩ := List.cons.inj hl
    exact (ih rfl).children _ hc

/-- **A graft**, of a child that meets the condition below every node it
hangs under. -/
theorem handed_graft {p : α → Bool} {c : Rose α} (h : ∀ t ∈ F, Handed f q s t)
    (hc : ∀ n l, Path F (n :: l) → p n.label → Handed f q (handed f s (n :: l)) c) :
    ∀ t ∈ F.map (graft p c), Handed f q s t := by
  have hnode : ∀ n l, Path F (n :: l) → Handed f q (handed f s l) (graft p c n) := by
    intro n
    induction n with
    | node a cs ih =>
      intro l hpath
      have hn := handed_path h hpath
      rw [graft, graftL_eq]
      refine .node hn.label fun u hu => ?_
      rcases List.mem_append.1 hu with hu | hu
      · obtain ⟨t, ht, rfl⟩ := List.mem_map.1 hu
        exact ih t ht (node a cs :: l) (.step hpath ht)
      · by_cases ha : p a = true
        · rw [if_pos ha, List.mem_singleton] at hu
          rw [hu]
          exact hc (node a cs) l hpath ha
        · rw [if_neg ha] at hu
          cases hu
  intro u hu
  obtain ⟨t, ht, rfl⟩ := List.mem_map.1 hu
  exact hnode t [] (.root ht)

end Rose

end Rensa
