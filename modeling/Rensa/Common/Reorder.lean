import Rensa.Common.Rose
/-!
# Trees up to the order of children

Two trees are reorderings of each other where every node has the same
children, in any order. They have the same labels, each as often, and the
same label under another one.
-/

namespace Rensa

namespace Rose

variable {α : Type*}

/-- The same tree, with the children of every node in some other order. -/
inductive Reorder : Rose α → Rose α → Prop
  | node {a : α} {cs ds es : List (Rose α)} (hchildren : List.Forall₂ Reorder cs ds)
      (hperm : ds.Perm es) : Reorder (node a cs) (node a es)

namespace Reorder

variable {t t' : Rose α}

theorem label_eq (h : t.Reorder t') : t'.label = t.label := by
  cases h with
  | node => rfl

private theorem labels_perm_of {cs ds : List (Rose α)} (h : List.Forall₂ Reorder cs ds)
    (hlabels : ∀ c ∈ cs, ∀ d, c.Reorder d → (labels [d]).Perm (labels [c])) :
    (labels ds).Perm (labels cs) := by
  induction h with
  | nil => exact List.Perm.refl _
  | @cons c d cs ds hcd _ ih =>
    rw [← List.singleton_append, labels_append, ← List.singleton_append (l := cs), labels_append]
    exact (hlabels c List.mem_cons_self d hcd).append
      (ih fun c hc => hlabels c (List.mem_cons_of_mem _ hc))

/-- **A reordering has the same labels.** -/
theorem labels_perm (h : t.Reorder t') : (labels [t']).Perm (labels [t]) := by
  induction t generalizing t' with
  | node a cs ih =>
    cases h with
    | node hchildren hperm =>
      rw [labels_cons, labels_cons, labels_nil, List.append_nil, List.append_nil]
      exact List.Perm.cons a ((Rose.labels_perm hperm.symm).trans
        (labels_perm_of hchildren fun c hc d hcd => ih c hc hcd))

/-- **A reordering has the same edges**: what holds of every label and those
under it does so in any order. -/
theorem edges {P : α → α → Prop} (h : t.Reorder t')
    (hedge : ∀ n ∈ nodes t, ∀ m ∈ n.children, P n.label m.label) :
    ∀ n ∈ nodes t', ∀ m ∈ n.children, P n.label m.label := by
  induction t generalizing t' with
  | node a cs ih =>
    cases h with
    | @node _ _ ds es hchildren hperm =>
      -- every child of the reordering is one of a child
      have hchild : ∀ e ∈ es, ∃ c ∈ cs, c.Reorder e := by
        intro e he
        obtain ⟨i, hi, rfl⟩ := List.mem_iff_getElem.1 (hperm.mem_iff.2 he)
        have hlength := hchildren.length_eq
        exact ⟨cs[i], List.getElem_mem _, hchildren.get (by omega) hi⟩
      intro n hn
      rw [nodes_node] at hn
      rcases List.mem_cons.1 hn with rfl | hn
      · intro m hm
        obtain ⟨c, hc, hcm⟩ := hchild m hm
        rw [hcm.label_eq]
        exact hedge _ (mem_nodes_self _) c hc
      · obtain ⟨e, he, hne⟩ := mem_nodesL.1 hn
        obtain ⟨c, hc, hce⟩ := hchild e he
        refine ih c hc hce (fun k hk => hedge k ?_) n hne
        exact mem_nodes_trans hk (mem_nodes_of_mem_children (t := .node a cs) hc)

end Reorder

end Rose

end Rensa
