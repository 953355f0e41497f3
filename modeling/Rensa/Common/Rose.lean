import Mathlib
/-!
# Rose trees and forests

Finitely branching trees with ordered children, and lists of them. A
forest is read through the list of its subtrees in preorder (`nodes`,
`nodesL`), so that "every node of the forest" is a list quantifier, and
through the paths from a node up to its root (`Path`). The two
operations a tree is changed by are relabelling every node (`map`) and
hanging a new child under the nodes a predicate selects (`graft`).
-/

namespace Rensa

/-- A finitely branching tree, its children in order. -/
inductive Rose (α : Type*) where
  | node (label : α) (children : List (Rose α))

namespace Rose

variable {α β κ : Type*}

/-- The label at the root. -/
def label : Rose α → α
  | node a _ => a

/-- The immediate subtrees. -/
def children : Rose α → List (Rose α)
  | node _ cs => cs

@[simp] theorem label_node (a : α) (cs : List (Rose α)) : (node a cs).label = a := rfl

@[simp] theorem children_node (a : α) (cs : List (Rose α)) : (node a cs).children = cs := rfl

@[simp] theorem node_eta (t : Rose α) : node t.label t.children = t := by
  cases t; rfl

/-- **Induction over a tree**, the hypothesis being about every child. -/
@[elab_as_elim, induction_eliminator]
theorem induction {P : Rose α → Prop}
    (node : ∀ a cs, (∀ c ∈ cs, P c) → P (node a cs)) (t : Rose α) : P t := by
  refine @Rose.rec α P (fun cs => ∀ c ∈ cs, P c) (fun a cs ih => node a cs ih) ?_ ?_ t
  · intro c hc
    cases hc
  · intro t ts iht ihts c hc
    rcases List.mem_cons.1 hc with rfl | hc
    · exact iht
    · exact ihts c hc

/-! ## The subtrees, in preorder -/

mutual
/-- Every subtree, the tree itself first. -/
def nodes : Rose α → List (Rose α)
  | node a cs => node a cs :: nodesL cs
/-- Every subtree of every tree of a forest. -/
def nodesL : List (Rose α) → List (Rose α)
  | [] => []
  | t :: ts => nodes t ++ nodesL ts
end

@[simp] theorem nodesL_nil : nodesL ([] : List (Rose α)) = [] := rfl

@[simp] theorem nodesL_cons (t : Rose α) (ts : List (Rose α)) :
    nodesL (t :: ts) = nodes t ++ nodesL ts := rfl

theorem nodes_node (a : α) (cs : List (Rose α)) :
    nodes (node a cs) = node a cs :: nodesL cs := rfl

theorem nodes_eq (t : Rose α) : nodes t = t :: nodesL t.children := by
  cases t; rfl

@[simp] theorem nodesL_append (f g : List (Rose α)) : nodesL (f ++ g) = nodesL f ++ nodesL g := by
  induction f with
  | nil => rfl
  | cons t ts ih => simp [ih]

/-- The nodes of a forest, with one tree of it in front. -/
theorem perm_nodesL_middle (f g : List (Rose α)) (t : Rose α) :
    (nodesL (f ++ t :: g)).Perm (t :: (nodesL t.children ++ nodesL (f ++ g))) := by
  rw [nodesL_append, nodesL_cons, nodesL_append, ← List.cons_append, ← nodes_eq]
  exact List.perm_append_comm_assoc _ _ _

/-- A node of a forest is a node of one of its trees. -/
theorem mem_nodesL {f : List (Rose α)} {n : Rose α} : n ∈ nodesL f ↔ ∃ t ∈ f, n ∈ nodes t := by
  induction f with
  | nil => simp
  | cons t ts ih => simp [ih]

theorem mem_nodes_self (t : Rose α) : t ∈ nodes t := by
  rw [nodes_eq]; exact List.mem_cons_self

theorem mem_nodesL_of_mem {f : List (Rose α)} {t : Rose α} (h : t ∈ f) : t ∈ nodesL f :=
  mem_nodesL.2 ⟨t, h, mem_nodes_self t⟩

/-- What is below a tree is in it. -/
theorem mem_nodes_of_mem_below {t m : Rose α} (h : m ∈ nodesL t.children) : m ∈ nodes t := by
  rw [nodes_eq]
  exact List.mem_cons_of_mem _ h

theorem mem_nodes_of_mem_children {t c : Rose α} (h : c ∈ t.children) : c ∈ nodes t :=
  mem_nodes_of_mem_below (mem_nodesL_of_mem h)

/-- Being a subtree is transitive. -/
theorem mem_nodes_trans {t m : Rose α} :
    ∀ {n : Rose α}, m ∈ nodes n → n ∈ nodes t → m ∈ nodes t := by
  induction t with
  | node a cs ih =>
    intro n hm hn
    rw [nodes_node] at hn ⊢
    rcases List.mem_cons.1 hn with rfl | hn
    · rwa [nodes_node] at hm
    · obtain ⟨c, hc, hnc⟩ := mem_nodesL.1 hn
      exact List.mem_cons_of_mem _ (mem_nodesL.2 ⟨c, hc, ih c hc hm hnc⟩)

theorem mem_nodesL_trans {f : List (Rose α)} {n m : Rose α} (hm : m ∈ nodes n)
    (hn : n ∈ nodesL f) : m ∈ nodesL f := by
  obtain ⟨t, ht, hnt⟩ := mem_nodesL.1 hn
  exact mem_nodesL.2 ⟨t, ht, mem_nodes_trans hm hnt⟩

theorem mem_nodesL_of_mem_below {f : List (Rose α)} {n m : Rose α} (hn : n ∈ nodesL f)
    (hm : m ∈ nodesL n.children) : m ∈ nodesL f :=
  mem_nodesL_trans (mem_nodes_of_mem_below hm) hn

theorem mem_nodesL_of_mem_children {f : List (Rose α)} {n c : Rose α} (hn : n ∈ nodesL f)
    (hc : c ∈ n.children) : c ∈ nodesL f :=
  mem_nodesL_trans (mem_nodes_of_mem_children hc) hn

/-- A node other than the root hangs under a node of the tree. -/
theorem exists_parent_of_mem_nodes {t m : Rose α} (h : m ∈ nodes t) :
    m = t ∨ ∃ n ∈ nodes t, m ∈ n.children := by
  induction t with
  | node a cs ih =>
    rw [nodes_node] at h
    rcases List.mem_cons.1 h with rfl | h
    · exact Or.inl rfl
    · obtain ⟨c, hc, hmc⟩ := mem_nodesL.1 h
      right
      rcases ih c hc hmc with rfl | ⟨n, hn, hmn⟩
      · exact ⟨_, mem_nodes_self _, hc⟩
      · exact ⟨n, mem_nodes_trans hn (mem_nodes_of_mem_children hc), hmn⟩

/-- A node of a forest is a root or hangs under a node. -/
theorem exists_parent_of_mem_nodesL {f : List (Rose α)} {m : Rose α} (h : m ∈ nodesL f) :
    m ∈ f ∨ ∃ n ∈ nodesL f, m ∈ n.children := by
  obtain ⟨t, ht, hm⟩ := mem_nodesL.1 h
  rcases exists_parent_of_mem_nodes hm with rfl | ⟨n, hn, hmn⟩
  · exact Or.inl ht
  · exact Or.inr ⟨n, mem_nodesL.2 ⟨t, ht, hn⟩, hmn⟩

/-- A tree with an inner node below it has a child. -/
theorem exists_child_of_mem_nodes {t n c : Rose α} (hn : n ∈ nodes t) (hc : c ∈ n.children) :
    ∃ d, d ∈ t.children := by
  rw [nodes_eq] at hn
  rcases List.mem_cons.1 hn with rfl | hn
  · exact ⟨c, hc⟩
  · obtain ⟨d, hd, -⟩ := mem_nodesL.1 hn
    exact ⟨d, hd⟩

/-- The labels of a forest, in preorder. -/
def labels (f : List (Rose α)) : List α := (nodesL f).map label

@[simp] theorem labels_nil : labels ([] : List (Rose α)) = [] := rfl

theorem labels_cons (t : Rose α) (ts : List (Rose α)) :
    labels (t :: ts) = t.label :: (labels t.children ++ labels ts) := by
  simp [labels, nodes_eq]

@[simp] theorem labels_append (f g : List (Rose α)) : labels (f ++ g) = labels f ++ labels g := by
  simp [labels]

theorem mem_labels {f : List (Rose α)} {a : α} : a ∈ labels f ↔ ∃ n ∈ nodesL f, n.label = a := by
  simp [labels]

/-! ## Relabelling -/

mutual
/-- Relabel every node. -/
def map (g : α → β) : Rose α → Rose β
  | node a cs => node (g a) (mapL g cs)
/-- Relabel every node of a forest. -/
def mapL (g : α → β) : List (Rose α) → List (Rose β)
  | [] => []
  | t :: ts => map g t :: mapL g ts
end

theorem mapL_eq (g : α → β) (f : List (Rose α)) : mapL g f = f.map (map g) := by
  induction f with
  | nil => rfl
  | cons t ts ih => simp [mapL, ih]

@[simp] theorem label_map (g : α → β) (t : Rose α) : (map g t).label = g t.label := by
  cases t; rfl

@[simp] theorem children_map (g : α → β) (t : Rose α) :
    (map g t).children = t.children.map (map g) := by
  cases t; exact mapL_eq g _

theorem map_map {γ : Type*} (g : α → β) (g' : β → γ) (t : Rose α) :
    map g' (map g t) = map (fun a => g' (g a)) t := by
  induction t with
  | node a cs ih =>
    rw [map, map, map, mapL_eq, mapL_eq, mapL_eq, List.map_map]
    exact congrArg _ (List.map_congr_left ih)

/-- Labels that stay as they are leave the tree as it is. -/
theorem map_eq_self {g : α → α} (h : ∀ a, g a = a) (t : Rose α) : map g t = t := by
  induction t with
  | node a cs ih =>
    rw [map, mapL_eq, h, List.map_congr_left ih, List.map_id']

/-- The nodes of the relabelled tree are the nodes, relabelled. -/
theorem nodes_map (g : α → β) (t : Rose α) : nodes (map g t) = (nodes t).map (map g) := by
  induction t with
  | node a cs ih =>
    have hcs : nodesL (cs.map (map g)) = (nodesL cs).map (map g) := by
      clear * - ih
      induction cs with
      | nil => rfl
      | cons c cs ihc =>
        rw [List.map_cons, nodesL_cons, nodesL_cons, List.map_append,
          ih c List.mem_cons_self, ihc fun d hd => ih d (List.mem_cons_of_mem _ hd)]
    rw [nodes_node, List.map_cons, ← hcs, ← mapL_eq]
    rfl

theorem nodesL_map (g : α → β) (f : List (Rose α)) :
    nodesL (f.map (map g)) = (nodesL f).map (map g) := by
  induction f with
  | nil => rfl
  | cons t ts ih => simp [nodes_map, ih]

@[simp] theorem labels_map (g : α → β) (f : List (Rose α)) :
    labels (f.map (map g)) = (labels f).map g := by
  simp [labels, nodesL_map, Function.comp_def]

theorem mem_nodesL_map {g : α → β} {f : List (Rose α)} {n : Rose β} :
    n ∈ nodesL (f.map (map g)) ↔ ∃ m ∈ nodesL f, map g m = n := by
  rw [nodesL_map, List.mem_map]

/-! ## Hanging a new child -/

mutual
/-- Append `c` to the children of every node whose label `p` selects. -/
def graft (p : α → Bool) (c : Rose α) : Rose α → Rose α
  | node a cs => node a (graftL p c cs ++ if p a then [c] else [])
/-- `graft`, in every tree of a forest. -/
def graftL (p : α → Bool) (c : Rose α) : List (Rose α) → List (Rose α)
  | [] => []
  | t :: ts => graft p c t :: graftL p c ts
end

variable {p : α → Bool} {c : Rose α}

theorem graftL_eq (f : List (Rose α)) : graftL p c f = f.map (graft p c) := by
  induction f with
  | nil => rfl
  | cons t ts ih => simp [graftL, ih]

@[simp] theorem label_graft (t : Rose α) : (graft p c t).label = t.label := by
  cases t; rfl

theorem children_graft (t : Rose α) :
    (graft p c t).children = t.children.map (graft p c) ++ if p t.label then [c] else [] := by
  cases t; exact congrArg (· ++ _) (graftL_eq _)

/-- **The nodes after a graft**: the old nodes, each with the graft done
in it, and the nodes of the new child if some node was selected. -/
theorem mem_nodes_graft {t m : Rose α} :
    m ∈ nodes (graft p c t) ↔
      (∃ n ∈ nodes t, graft p c n = m) ∨ (m ∈ nodes c ∧ ∃ n ∈ nodes t, p n.label = true) := by
  induction t with
  | node a cs ih =>
    rw [nodes_eq, children_graft, List.mem_cons, nodesL_append, List.mem_append, mem_nodesL]
    simp only [List.mem_map, children_node, label_node, nodes_node, List.mem_cons]
    constructor
    · rintro (rfl | ⟨s, ⟨d, hd, rfl⟩, hm⟩ | hm)
      · exact Or.inl ⟨_, Or.inl rfl, rfl⟩
      · rcases (ih d hd).1 hm with ⟨n, hn, rfl⟩ | ⟨hmc, n, hn, hp⟩
        · exact Or.inl ⟨n, Or.inr (mem_nodesL.2 ⟨d, hd, hn⟩), rfl⟩
        · exact Or.inr ⟨hmc, n, Or.inr (mem_nodesL.2 ⟨d, hd, hn⟩), hp⟩
      · by_cases ha : p a = true
        · simp only [ha, if_true, nodesL_cons, nodesL_nil, List.append_nil] at hm
          exact Or.inr ⟨hm, _, Or.inl rfl, ha⟩
        · simp [ha] at hm
    · rintro (⟨n, rfl | hn, rfl⟩ | ⟨hm, n, rfl | hn, hp⟩)
      · exact Or.inl rfl
      · obtain ⟨d, hd, hnd⟩ := mem_nodesL.1 hn
        exact Or.inr (Or.inl ⟨_, ⟨d, hd, rfl⟩, (ih d hd).2 (Or.inl ⟨n, hnd, rfl⟩)⟩)
      · refine Or.inr (Or.inr ?_)
        rw [label_node] at hp
        simpa [hp] using hm
      · obtain ⟨d, hd, hnd⟩ := mem_nodesL.1 hn
        exact Or.inr (Or.inl ⟨_, ⟨d, hd, rfl⟩, (ih d hd).2 (Or.inr ⟨hm, n, hnd, hp⟩)⟩)

theorem mem_nodesL_graft {f : List (Rose α)} {m : Rose α} :
    m ∈ nodesL (f.map (graft p c)) ↔
      (∃ n ∈ nodesL f, graft p c n = m) ∨ (m ∈ nodes c ∧ ∃ n ∈ nodesL f, p n.label = true) := by
  simp only [mem_nodesL, List.mem_map]
  constructor
  · rintro ⟨s, ⟨t, ht, rfl⟩, hm⟩
    rcases mem_nodes_graft.1 hm with ⟨n, hn, rfl⟩ | ⟨hmc, n, hn, hp⟩
    · exact Or.inl ⟨n, ⟨t, ht, hn⟩, rfl⟩
    · exact Or.inr ⟨hmc, n, ⟨t, ht, hn⟩, hp⟩
  · rintro (⟨n, ⟨t, ht, hn⟩, rfl⟩ | ⟨hm, n, ⟨t, ht, hn⟩, hp⟩)
    · exact ⟨_, ⟨t, ht, rfl⟩, mem_nodes_graft.2 (Or.inl ⟨n, hn, rfl⟩)⟩
    · exact ⟨_, ⟨t, ht, rfl⟩, mem_nodes_graft.2 (Or.inr ⟨hm, n, hn, hp⟩)⟩

private theorem perm_append_shuffle (A B X Y : List α) :
    ((A ++ X) ++ (B ++ Y)).Perm ((A ++ B) ++ (X ++ Y)) := by
  rw [List.append_assoc, List.append_assoc]
  refine List.Perm.append_left A ?_
  rw [← List.append_assoc, ← List.append_assoc]
  exact List.Perm.append_right Y List.perm_append_comm

/-- Labels after a graft in a forest, from the same of its trees. -/
private theorem labels_graft_perm_of {f : List (Rose α)}
    (h : ∀ t ∈ f, (labels [graft p c t]).Perm
      (labels [t] ++ ((labels [t]).filter p).flatMap fun _ => labels [c])) :
    (labels (f.map (graft p c))).Perm
      (labels f ++ ((labels f).filter p).flatMap fun _ => labels [c]) := by
  induction f with
  | nil => simp
  | cons t ts ih =>
    rw [List.map_cons, ← List.singleton_append, labels_append,
      ← List.singleton_append (l := ts), labels_append, List.filter_append, List.flatMap_append]
    exact ((h t List.mem_cons_self).append
      (ih fun s hs => h s (List.mem_cons_of_mem _ hs))).trans (perm_append_shuffle _ _ _ _)

private theorem labels_graft_perm_tree (t : Rose α) : (labels [graft p c t]).Perm
    (labels [t] ++ ((labels [t]).filter p).flatMap fun _ => labels [c]) := by
  induction t with
  | node a cs ih =>
    have hcs := labels_graft_perm_of ih
    rw [labels_cons, label_graft, children_graft, labels_cons]
    simp only [label_node, children_node, labels_append, labels_nil, List.append_nil,
      List.filter_cons]
    by_cases ha : p a = true
    · simp only [ha, if_true, List.flatMap_cons, List.cons_append]
      refine List.Perm.cons _ ((hcs.append_right _).trans ?_)
      rw [List.append_assoc]
      exact List.Perm.append_left _ List.perm_append_comm
    · simp only [ha, List.cons_append, Bool.false_eq_true, if_false, labels_nil, List.append_nil]
      exact List.Perm.cons _ hcs

/-- **The labels after a graft**, up to order: one copy of the new
child's labels for every selected node. -/
theorem labels_graft_perm (f : List (Rose α)) :
    (labels (f.map (graft p c))).Perm
      (labels f ++ ((labels f).filter p).flatMap fun _ => labels [c]) :=
  labels_graft_perm_of fun t _ => labels_graft_perm_tree t

/-! ## Paths to the root -/

/-- A node of the forest followed by its ancestors, up to its root. -/
inductive Path (f : List (Rose α)) : List (Rose α) → Prop
  /-- A root is a path by itself. -/
  | root {r : Rose α} : r ∈ f → Path f [r]
  /-- A child goes in front of its parent's path. -/
  | step {c n : Rose α} {l : List (Rose α)} : Path f (n :: l) → c ∈ n.children →
      Path f (c :: n :: l)

namespace Path

variable {f : List (Rose α)} {n m : Rose α} {l l' : List (Rose α)}

/-- A path runs inside the forest. -/
theorem mem_nodesL (h : Path f l) : ∀ m ∈ l, m ∈ nodesL f := by
  induction h with
  | root hr =>
    intro m hm
    rw [List.mem_singleton.1 hm]
    exact mem_nodesL_of_mem hr
  | step _ hc ih =>
    intro m hm
    rcases List.mem_cons.1 hm with rfl | hm
    · exact mem_nodesL_of_mem_children (ih _ List.mem_cons_self) hc
    · exact ih m hm

/-- A path lies above the node it starts from. -/
theorem mem_nodes (h : Path f (n :: l)) : ∀ m ∈ n :: l, n ∈ nodes m := by
  generalize hl : n :: l = l' at h
  induction h generalizing n l with
  | root hr =>
    obtain ⟨rfl, rfl⟩ := List.cons.inj hl
    intro m hm
    rw [List.mem_singleton.1 hm]
    exact mem_nodes_self _
  | step _ hc ih =>
    obtain ⟨rfl, rfl⟩ := List.cons.inj hl
    intro m hm
    rcases List.mem_cons.1 hm with rfl | hm
    · exact mem_nodes_self _
    · exact mem_nodes_trans (mem_nodes_of_mem_children hc) (ih rfl m hm)

/-- The rest of a path is a path. -/
theorem tail (h : Path f (n :: m :: l)) : Path f (m :: l) := by
  cases h with
  | step h _ => exact h

/-- The next node of a path is the parent. -/
theorem mem_children (h : Path f (n :: m :: l)) : n ∈ m.children := by
  cases h with
  | step _ h => exact h

/-- Every suffix of a path is a path. -/
theorem suffix (h : Path f l) (hs : l' <:+ l) (hne : l' ≠ []) : Path f l' := by
  induction h with
  | root hr =>
    rcases List.suffix_cons_iff.1 hs with rfl | hs
    · exact root hr
    · exact absurd (List.suffix_nil.1 hs) hne
  | step h hc ih =>
    rcases List.suffix_cons_iff.1 hs with rfl | hs
    · exact step h hc
    · exact ih hs

/-- A path is no longer than the forest has nodes. -/
theorem length_le (h : Path f (n :: l)) : l.length + (nodes n).length ≤ (nodesL f).length := by
  generalize hk : n :: l = k at h
  induction h generalizing n l with
  | root hr =>
    obtain ⟨rfl, rfl⟩ := List.cons.inj hk
    obtain ⟨before, after, rfl⟩ := List.append_of_mem hr
    simp only [nodesL_append, nodesL_cons, List.length_append, List.length_nil]
    omega
  | step _ hc ih =>
    obtain ⟨rfl, rfl⟩ := List.cons.inj hk
    have hup := ih rfl
    obtain ⟨before, after, hcs⟩ := List.append_of_mem hc
    rw [nodes_eq, hcs] at hup
    simp only [nodesL_append, nodesL_cons, List.length_append, List.length_cons] at hup ⊢
    omega

/-- Paths extend downward to every node of the subtree they start at. -/
theorem extend (h : Path f (n :: l)) :
    ∀ {m : Rose α}, m ∈ nodes n → ∃ k, Path f (m :: k) ∧ (n :: l) <:+ (m :: k) := by
  induction n generalizing l with
  | node a cs ih =>
    intro m hm
    rw [nodes_node] at hm
    rcases List.mem_cons.1 hm with rfl | hm
    · exact ⟨l, h, List.suffix_rfl⟩
    · obtain ⟨c, hc, hmc⟩ := Rose.mem_nodesL.1 hm
      obtain ⟨k, hk, hs⟩ := ih c hc (step h hc) hmc
      exact ⟨k, hk, (List.suffix_cons c _).trans hs⟩

end Path

/-- Every node of a forest has a path. -/
theorem exists_path {f : List (Rose α)} {n : Rose α} (h : n ∈ nodesL f) :
    ∃ l, Path f (n :: l) := by
  obtain ⟨t, ht, hn⟩ := mem_nodesL.1 h
  obtain ⟨k, hk, -⟩ := (Path.root ht).extend hn
  exact ⟨k, hk⟩

/-! ## Forests without repetition

Where no subtree occurs twice, a node has one parent at most and a root
none, so the path of a node is unique. -/

section Nodup

variable {f : List (Rose α)} {n m a b : Rose α} {l l' : List (Rose α)}

/-- A child is smaller than its parent. -/
theorem sizeOf_lt_of_mem_children (h : n ∈ m.children) : sizeOf n < sizeOf m := by
  obtain ⟨x, cs⟩ := m
  have := List.sizeOf_lt_of_mem h
  simp only [node.sizeOf_spec, children_node] at this ⊢
  omega

theorem sizeOf_le_of_mem_nodes (h : n ∈ nodes m) : sizeOf n ≤ sizeOf m := by
  induction m with
  | node x cs ih =>
    rw [nodes_node] at h
    rcases List.mem_cons.1 h with rfl | h
    · exact le_rfl
    · obtain ⟨c, hc, hn⟩ := mem_nodesL.1 h
      exact (ih c hc hn).trans (sizeOf_lt_of_mem_children (m := node x cs) hc).le

theorem nodesL_eq_flatMap (f : List (Rose α)) : nodesL f = f.flatMap nodes := by
  induction f with
  | nil => rfl
  | cons t ts ih => simp [ih]

/-- A forest has its labels in any order of the trees. -/
theorem labels_perm {f g : List (Rose α)} (h : f.Perm g) : (labels f).Perm (labels g) := by
  unfold labels
  rw [nodesL_eq_flatMap, nodesL_eq_flatMap]
  exact (h.flatMap_right _).map _

/-- Two trees of a forest without repetition share no node. -/
theorem eq_of_mem_nodes_of_nodup (h : (nodesL f).Nodup) (ha : a ∈ f) (hb : b ∈ f)
    (hna : n ∈ nodes a) (hnb : n ∈ nodes b) : a = b := by
  rw [nodesL_eq_flatMap, List.nodup_flatMap] at h
  have hsymm : Std.Symm (Function.onFun List.Disjoint (@nodes α)) :=
    ⟨fun _ _ hd => List.Disjoint.symm hd⟩
  by_contra hne
  exact h.2.forall ha hb hne hna hnb

theorem nodup_nodes_of_mem (h : (nodesL f).Nodup) (ha : a ∈ f) : (nodesL a.children).Nodup := by
  rw [nodesL_eq_flatMap, List.nodup_flatMap] at h
  have := h.1 a ha
  rw [nodes_eq] at this
  exact (List.nodup_cons.1 this).2

/-- Nor is a subtree twice below a node. -/
theorem nodup_of_mem_nodesL (h : (nodesL f).Nodup) (hn : n ∈ nodesL f) :
    (nodesL n.children).Nodup := by
  obtain ⟨t, ht, hnt⟩ := mem_nodesL.1 hn
  induction t generalizing f with
  | node x cs ih =>
    rw [nodes_node] at hnt
    rcases List.mem_cons.1 hnt with rfl | hnt
    · exact nodup_nodes_of_mem h ht
    · obtain ⟨c, hc, hnc⟩ := mem_nodesL.1 hnt
      exact ih c hc (nodup_nodes_of_mem h ht) hnt hc hnc

/-- A root is below no node. -/
theorem not_mem_below_of_root (h : (nodesL f).Nodup) (hn : n ∈ f) (hm : m ∈ nodesL f) :
    n ∉ nodesL m.children := by
  intro hbelow
  obtain ⟨t, ht, hmt⟩ := mem_nodesL.1 hm
  have hnt : n ∈ nodes t := mem_nodes_trans (mem_nodes_of_mem_below hbelow) hmt
  obtain rfl : n = t := eq_of_mem_nodes_of_nodup h hn ht (mem_nodes_self n) hnt
  obtain ⟨c, hc, hnc⟩ := mem_nodesL.1 hbelow
  have h₁ := sizeOf_le_of_mem_nodes hnc
  have h₂ := sizeOf_lt_of_mem_children hc
  have h₃ := sizeOf_le_of_mem_nodes hmt
  omega

/-- A root has no parent. -/
theorem not_mem_children_of_root (h : (nodesL f).Nodup) (hn : n ∈ f) (hm : m ∈ nodesL f) :
    n ∉ m.children :=
  fun hc => not_mem_below_of_root h hn hm (mem_nodesL_of_mem hc)

/-- Two parents of a node are in one tree. -/
private theorem exists_tree (h : (nodesL f).Nodup) (ha : a ∈ nodesL f) (hb : b ∈ nodesL f)
    (hna : n ∈ a.children) (hnb : n ∈ b.children) : ∃ c ∈ f, a ∈ nodes c ∧ b ∈ nodes c := by
  obtain ⟨c, hc, hac⟩ := mem_nodesL.1 ha
  obtain ⟨d, hd, hbd⟩ := mem_nodesL.1 hb
  obtain rfl : c = d := eq_of_mem_nodes_of_nodup h hc hd
    (mem_nodes_trans (mem_nodes_of_mem_children hna) hac)
    (mem_nodes_trans (mem_nodes_of_mem_children hnb) hbd)
  exact ⟨c, hc, hac, hbd⟩

private theorem parent_unique_tree {t : Rose α} (h : (nodesL t.children).Nodup)
    (ha : a ∈ nodes t) (hb : b ∈ nodes t) (hna : n ∈ a.children) (hnb : n ∈ b.children) :
    a = b := by
  induction t with
  | node x cs ih =>
    rw [children_node] at h
    rw [nodes_node, List.mem_cons] at ha hb
    rcases ha with rfl | ha <;> rcases hb with rfl | hb
    · rfl
    · exact absurd hnb (not_mem_children_of_root h hna hb)
    · exact absurd hna (not_mem_children_of_root h hnb ha)
    · obtain ⟨c, hc, hac, hbc⟩ := exists_tree h ha hb hna hnb
      exact ih c hc (nodup_nodes_of_mem h hc) hac hbc

/-- **A node has one parent at most.** -/
theorem parent_unique (h : (nodesL f).Nodup) (ha : a ∈ nodesL f) (hb : b ∈ nodesL f)
    (hna : n ∈ a.children) (hnb : n ∈ b.children) : a = b := by
  obtain ⟨c, hc, hac, hbc⟩ := exists_tree h ha hb hna hnb
  exact parent_unique_tree (nodup_nodes_of_mem h hc) hac hbc hna hnb

/-- **The path of a node is unique.** -/
theorem Path.unique (h : (nodesL f).Nodup) (hl : Path f (n :: l)) (hl' : Path f (n :: l')) :
    l = l' := by
  generalize hk : n :: l = k at hl
  induction hl generalizing n l l' with
  | root hr =>
    obtain ⟨rfl, rfl⟩ := List.cons.inj hk
    cases hl' with
    | root => rfl
    | step hp hc =>
      exact absurd hc (not_mem_children_of_root h hr (hp.mem_nodesL _ List.mem_cons_self))
  | step hp hc ih =>
    obtain ⟨rfl, rfl⟩ := List.cons.inj hk
    cases hl' with
    | root hr =>
      exact absurd hc (not_mem_children_of_root h hr (hp.mem_nodesL _ List.mem_cons_self))
    | step hp' hc' =>
      obtain rfl := parent_unique h (hp.mem_nodesL _ List.mem_cons_self)
        (hp'.mem_nodesL _ List.mem_cons_self) hc hc'
      rw [ih hp' rfl]

/-- **The nodes above `n` are the nodes of its path.** -/
theorem Path.mem_iff (h : (nodesL f).Nodup) (hl : Path f (n :: l)) (hm : m ∈ nodesL f) :
    m ∈ n :: l ↔ n ∈ nodes m := by
  refine ⟨fun hm => hl.mem_nodes m hm, fun hn => ?_⟩
  obtain ⟨k, hk⟩ := exists_path hm
  obtain ⟨k', hk', hs⟩ := hk.extend hn
  rw [hl.unique h hk']
  exact hs.subset List.mem_cons_self

end Nodup

/-! ## Forests whose labels carry a unique key -/

section Keyed

variable {key : α → κ} {f : List (Rose α)} {n m : Rose α} {l l' : List (Rose α)}

/-- No key occurs twice in the forest. -/
def Keyed (key : α → κ) (f : List (Rose α)) : Prop := ((labels f).map key).Nodup

theorem Keyed.eq (h : Keyed key f) (hn : n ∈ nodesL f) (hm : m ∈ nodesL f)
    (heq : key n.label = key m.label) : n = m := by
  unfold Keyed labels at h
  rw [List.map_map] at h
  exact List.inj_on_of_nodup_map h hn hm heq

/-- A key names at most one position: the list of nodes has no
repetition either. -/
theorem Keyed.nodup (h : Keyed key f) : (nodesL f).Nodup := by
  unfold Keyed labels at h
  rw [List.map_map] at h
  exact List.Nodup.of_map _ h

theorem Keyed.sub (h : Keyed key (n :: l)) : Keyed key n.children ∧ Keyed key l := by
  unfold Keyed at h ⊢
  rw [labels_cons, List.map_cons, List.map_append] at h
  have := (List.nodup_cons.1 h).2
  exact ⟨(List.nodup_append.1 this).1, (List.nodup_append.1 this).2.1⟩

end Keyed

end Rose

end Rensa
