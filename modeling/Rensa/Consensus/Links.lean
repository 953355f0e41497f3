import Rensa.Common.SelfDelimiting
import Rensa.Consensus.WellFormed
/-!
# Parent links

A node looks for its parent at the location the parent had when the node
was hung under it. `Links dead` allows for links to locations that are
`dead`: with none of them every link leads to the parent (`Linked`) and
the walk of the source is the path of the tree (`path_eq`); with those no
node is at any more, which is what every run keeps whatever happens to
moved nodes, the walk stops early at worst (`prefix_path`).

Where a moved node stays in place all links keep leading to the parents.
Where it does not, `finalize_root` moves the children of the final root
and leaves the links of their children behind, so the links are in order
in every state of a run exactly where no call of it finalizes a root
(`linked_run_iff`).
-/

open Relation (ReflTransGen)

namespace Rensa

namespace Consensus

open Rose (nodes nodesL labels Keyed Path)
open TreeNode (deref path pathFrom)

variable {H D : Type}

/-- A root has no link, and a child one to its parent or to a dead
location. -/
structure Links (dead : ℕ → Prop) (f : List (TreeNode H D)) : Prop where
  roots : ∀ r ∈ f, r.label.parent = none
  children : ∀ n ∈ nodesL f, ∀ m ∈ n.children, ∃ l, m.label.parent = some l ∧
    (l = n.label.loc ∨ dead l)

/-- **Every link leads to the parent.** -/
structure Linked (f : List (TreeNode H D)) : Prop where
  roots : ∀ r ∈ f, r.label.parent = none
  children : ∀ n ∈ nodesL f, ∀ m ∈ n.children, m.label.parent = some n.label.loc

instance (f : List (TreeNode H D)) : Decidable (Linked f) :=
  decidable_of_iff ((∀ r ∈ f, r.label.parent = none) ∧
    ∀ n ∈ nodesL f, ∀ m ∈ n.children, m.label.parent = some n.label.loc)
    ⟨fun h => ⟨h.1, h.2⟩, fun h => ⟨h.roots, h.children⟩⟩

/-- **The walk up from a node gives the node and its ancestors.** -/
def Walks (f : List (TreeNode H D)) : Prop :=
  ∀ n l, Path f (n :: l) → path f n = n :: l

/-- The location is used no more, and will not be used again. -/
def Dead (f : List (TreeNode H D)) (next l : ℕ) : Prop :=
  l < next ∧ ∀ a ∈ labels f, a.loc ≠ l

variable {dead dead' : ℕ → Prop} {f : List (TreeNode H D)} {n p : TreeNode H D}
  {l : List (TreeNode H D)} {loc next : ℕ} {b : Executed H D}

theorem linked_iff : Linked f ↔ Links (fun _ => False) f := by
  constructor
  · intro h
    exact ⟨h.roots, fun n hn m hm => ⟨_, h.children n hn m hm, Or.inl rfl⟩⟩
  · intro h
    refine ⟨h.roots, fun n hn m hm => ?_⟩
    obtain ⟨l, hl, rfl | hdead⟩ := h.children n hn m hm
    · exact hl
    · exact hdead.elim

theorem Links.mono (h : Links dead f) (hdead : ∀ l, dead l → dead' l) : Links dead' f := by
  refine ⟨h.roots, fun n hn m hm => ?_⟩
  obtain ⟨l, hl, hl'⟩ := h.children n hn m hm
  exact ⟨l, hl, hl'.imp id (hdead l)⟩

/-! ## Walks -/

theorem prefix_pathFrom (hloc : Located f) (h : Links (Dead f next) f) (fuel : ℕ)
    (hpath : Path f (n :: l)) : pathFrom f fuel n <+: n :: l := by
  induction fuel generalizing n l with
  | zero => exact List.prefix_iff_eq_append.2 rfl
  | succ fuel ih =>
    cases hpath with
    | root hr =>
      simp [pathFrom, h.roots n hr]
    | @step _ q l hq hc =>
      have hmem := hq.mem_nodesL q List.mem_cons_self
      obtain ⟨a, ha, rfl | ⟨-, hdead⟩⟩ := h.children q hmem n hc
      · simp only [pathFrom, ha, Option.bind_some, TreeNode.deref_of_mem hloc hmem]
        exact List.prefix_cons_inj n |>.2 (ih hq)
      · have hnone : deref f a = none := TreeNode.deref_none.2 fun m hm =>
          hdead m.label (Rose.mem_labels.2 ⟨m, hm, rfl⟩)
        simp [pathFrom, ha, hnone]

/-- **The walk never leaves the path of the tree.** -/
theorem prefix_path (hloc : Located f) (h : Links (Dead f next) f) (hpath : Path f (n :: l)) :
    path f n <+: n :: l :=
  prefix_pathFrom hloc h _ hpath

/-- The nodes of the walk are above the node. -/
theorem mem_nodes_of_mem_path (hloc : Located f) (h : Links (Dead f next) f)
    (hn : n ∈ nodesL f) {m : TreeNode H D} (hm : m ∈ path f n) : m ∈ nodesL f ∧ n ∈ nodes m := by
  obtain ⟨l, hl⟩ := Rose.exists_path hn
  have hm := (prefix_path hloc h hl).subset hm
  exact ⟨hl.mem_nodesL m hm, hl.mem_nodes m hm⟩

/-- The second node of the walk is the parent. -/
theorem mem_children_of_path (hloc : Located f) (h : Links (Dead f next) f)
    (hn : n ∈ nodesL f) {m : TreeNode H D} (hm : (path f n)[1]? = some m) :
    m ∈ nodesL f ∧ n ∈ m.children := by
  obtain ⟨l, hl⟩ := Rose.exists_path hn
  obtain ⟨r, hr⟩ := prefix_path hloc h hl
  have hm' : (n :: l)[1]? = some m := by
    rw [← hr, List.getElem?_append_left (List.getElem?_eq_some_iff.1 hm).1]
    exact hm
  cases l with
  | nil => cases hm'
  | cons q l =>
    obtain rfl : q = m := by simpa using hm'
    exact ⟨hl.mem_nodesL q (by simp), hl.mem_children⟩

theorem pathFrom_eq (hloc : Located f) (h : Linked f) {fuel : ℕ} (hfuel : l.length ≤ fuel)
    (hpath : Path f (n :: l)) : pathFrom f fuel n = n :: l := by
  induction fuel generalizing n l with
  | zero =>
    obtain rfl : l = [] := List.length_eq_zero_iff.1 (Nat.le_zero.1 hfuel)
    rfl
  | succ fuel ih =>
    cases hpath with
    | root hr => simp [pathFrom, h.roots n hr]
    | @step _ q l hq hc =>
      have hmem := hq.mem_nodesL q List.mem_cons_self
      simp only [pathFrom, h.children q hmem n hc, Option.bind_some,
        TreeNode.deref_of_mem hloc hmem]
      rw [ih (Nat.le_of_succ_le_succ hfuel) hq]

/-- **Where every link leads to the parent, the walk is the path of the
tree.** -/
theorem path_eq (hloc : Located f) (h : Linked f) : Walks f := fun _ _ hpath =>
  pathFrom_eq hloc h ((Nat.le_add_right _ _).trans hpath.length_le) hpath

/-! ## Links after each operation -/

theorem links_addRoot (h : Links dead f) :
    Links dead (f ++ [TreeNode.leaf loc b none]) := by
  refine ⟨fun r hr => ?_, fun n hn m hm => ?_⟩
  · rcases List.mem_append.1 hr with hr | hr
    · exact h.roots r hr
    · rw [List.mem_singleton.1 hr]
      rfl
  · rw [Rose.nodesL_append, List.mem_append] at hn
    rcases hn with hn | hn
    · exact h.children n hn m hm
    · obtain rfl : n = TreeNode.leaf loc b none := by
        simpa [TreeNode.leaf, Rose.nodes_node] using hn
      cases hm

theorem links_addChild (hp : p ∈ nodesL f) (h : Links dead f) :
    Links dead (f.map (TreeNode.grown loc b p)) := by
  refine ⟨fun r hr => ?_, fun n hn m hm => ?_⟩
  · obtain ⟨r', hr', rfl⟩ := List.mem_map.1 hr
    rw [TreeNode.label_grown]
    exact h.roots r' hr'
  · rcases (TreeNode.mem_addChild hp).1 hn with ⟨n', hn', rfl⟩ | rfl
    · rw [TreeNode.label_grown]
      rcases TreeNode.mem_children_grown.1 hm with ⟨m', hm', rfl⟩ | ⟨hnp, rfl⟩
      · rw [TreeNode.label_grown]
        exact h.children n' hn' m' hm'
      · exact ⟨_, rfl, Or.inl hnp.symm⟩
    · cases hm

theorem links_addVotes {stake : ℕ} {voter : Pubkey} {t : TreeNode H D} (h : Links dead f) :
    Links dead (f.map (Rose.map (TreeNode.voted f stake voter t))) := by
  refine ⟨fun r hr => ?_, fun n hn m hm => ?_⟩
  · obtain ⟨r', hr', rfl⟩ := List.mem_map.1 hr
    rw [Rose.label_map, (TreeNode.voted_fixed _).2.2]
    exact h.roots r' hr'
  · obtain ⟨n', hn', rfl⟩ := Rose.mem_nodesL_map.1 hn
    rw [Rose.children_map] at hm
    obtain ⟨m', hm', rfl⟩ := List.mem_map.1 hm
    rw [Rose.label_map, Rose.label_map, (TreeNode.voted_fixed _).2.2, (TreeNode.voted_fixed _).2.1]
    exact h.children n' hn' m' hm'

/-- The children of a root as roots: what is new is that the links to
those of them that were moved are dead. -/
theorem links_moveRoots {alloc : Alloc} {root : TreeNode H D} (hroot : root ∈ f)
    (h : Links dead f) :
    Links (fun l => dead l ∨ alloc = .fresh ∧ ∃ t ∈ root.children, l = t.label.loc)
      (Chain.moveRoots alloc next root.children) := by
  have hin : root ∈ nodesL f := Rose.mem_nodesL_of_mem hroot
  refine ⟨fun r hr => ?_, fun n hn m hm => ?_⟩
  · obtain ⟨t, ht, a, rfl⟩ := TreeNode.mem_of_mem_moveRoots hr
    rfl
  · rcases TreeNode.mem_moveRoots hn with ⟨t, ht, a, ha, rfl⟩ | ⟨t, ht, hnt⟩
    · have ht' : t ∈ nodesL f := Rose.mem_nodesL_of_mem_children hin ht
      obtain ⟨k, hk, rfl | hdead⟩ := h.children t ht' m hm
      · refine ⟨_, hk, ?_⟩
        cases alloc
        · exact Or.inr (Or.inr ⟨rfl, t, ht, rfl⟩)
        · exact Or.inl ha.symm
      · exact ⟨k, hk, Or.inr (Or.inl hdead)⟩
    · have hn' : n ∈ nodesL f :=
        Rose.mem_nodesL_of_mem_below (Rose.mem_nodesL_of_mem_children hin ht) hnt
      obtain ⟨k, hk, hk'⟩ := h.children n hn' m hm
      exact ⟨k, hk, hk'.imp id Or.inl⟩

/-! ## What every run keeps -/

namespace Chain

variable [DecidableEq H] {K : Config H D} {B : Set (Produced H D)} {q : Prop} {c c' : Chain H D}

omit [DecidableEq H] in
/-- Every link leads to the parent or to a location that is used no more. -/
abbrev HalfLinked (c : Chain H D) : Prop := Links (Dead c.forktrees c.nextLoc) c.forktrees

omit [DecidableEq H] in
private theorem dead_cons {g : List (TreeNode H D)} {m : TreeNode H D}
    (hperm : (labels g).Perm (m.label :: labels c.forktrees)) (hm : m.label.loc = c.nextLoc) {l : ℕ}
    (h : Dead c.forktrees c.nextLoc l) : Dead g (c.nextLoc + 1) l := by
  refine ⟨h.1.trans (Nat.lt_succ_self _), fun a ha => ?_⟩
  rcases List.mem_cons.1 (hperm.mem_iff.1 ha) with rfl | ha
  · have := h.1
    omega
  · exact h.2 a ha

omit [DecidableEq H] in
/-- After a finalization no node is at a location that was dead before it,
nor at one that a child of the root was moved away from. -/
private theorem dead_moveRoots (hc : Allocated c) {root : TreeNode H D}
    (hsub : (labels root.children).Sublist (labels c.forktrees)) {l : ℕ}
    (hl : Dead c.forktrees c.nextLoc l ∨
      K.alloc = .fresh ∧ ∃ t ∈ root.children, l = t.label.loc) :
    Dead (moveRoots K.alloc c.nextLoc root.children) (c.nextLoc + root.children.length) l := by
  have hchildren : Located root.children := hc.located.sublist (hsub.map _)
  have hlive : ∀ m ∈ nodesL root.children, m.label ∈ labels c.forktrees :=
    fun m hm => hsub.subset (Rose.mem_labels.2 ⟨m, hm, rfl⟩)
  have hl' : l < c.nextLoc := by
    rcases hl with hl | ⟨-, t, ht, rfl⟩
    · exact hl.1
    · exact hc.below _ (hlive t (Rose.mem_nodesL_of_mem ht))
  refine ⟨hl'.trans_le (Nat.le_add_right _ _), fun a ha heq => ?_⟩
  obtain ⟨m, hm, rfl⟩ := Rose.mem_labels.1 ha
  rcases TreeNode.mem_moveRoots hm with ⟨t, ht, k, hk, rfl⟩ | ⟨t, ht, hmt⟩
  · -- a moved node is at a new location, or at the one of a live node
    change k = l at heq
    cases halloc : K.alloc with
    | fresh =>
      rw [halloc] at hk
      change c.nextLoc ≤ k at hk
      omega
    | inPlace =>
      rw [halloc] at hk
      rcases hl with hl | ⟨hfresh, -⟩
      · exact hl.2 _ (hlive t (Rose.mem_nodesL_of_mem ht)) (hk.symm.trans heq)
      · rw [halloc] at hfresh
        cases hfresh
  · have hmr := Rose.mem_nodesL_of_mem_below (Rose.mem_nodesL_of_mem ht) hmt
    rcases hl with hl | ⟨-, s, hs, rfl⟩
    · exact hl.2 _ (hlive m hmr) heq
    · -- a child of the root is not below another one
      obtain rfl := hchildren.eq hmr (Rose.mem_nodesL_of_mem hs) heq
      exact Rose.not_mem_below_of_root hchildren.nodup hs (Rose.mem_nodesL_of_mem ht) hmt

/-- **Every move keeps the links half in order**, wherever moved nodes end
up. -/
theorem halfLinked_of_move (hm : Move K B q c c') (hc : Allocated c) (h : HalfLinked c) :
    HalfLinked c' := by
  cases hm with
  | idle hsame =>
    unfold HalfLinked
    rw [hsame.forktrees, hsame.nextLoc]
    exact h
  | @root b x _ _ _ _ _ _ =>
    exact (links_addRoot h).mono fun l hl =>
      dead_cons (m := TreeNode.leaf c.nextLoc x none) (labels_addRoot c.forktrees _ rfl) rfl hl
  | child _ _ _ hparent _ _ =>
    have hp := (TreeNode.get_some hparent).1
    exact (links_addChild hp h).mono fun l hl =>
      dead_cons (TreeNode.labels_addChild hc.located hp) rfl hl
  | @vote v stake target _ _ _ _ _ _ =>
    refine (links_addVotes h).mono fun l hl => ⟨hl.1, fun a ha => ?_⟩
    rw [forktrees_count, Rose.labels_map] at ha
    obtain ⟨a', ha', rfl⟩ := List.mem_map.1 ha
    rw [(TreeNode.voted_fixed a').2.1]
    exact hl.2 a' ha'
  | @finalize _ _ root _ hsplit =>
    obtain ⟨hroot, hsub⟩ := sublist_splitRoots hsplit
    exact (links_moveRoots hroot h).mono fun l hl => dead_moveRoots hc hsub hl

omit [DecidableEq H] in
theorem halfLinked_new (fin : Finalized H D) : HalfLinked (Chain.new fin) :=
  ⟨fun _ hr => absurd hr List.not_mem_nil, fun _ hn => absurd hn List.not_mem_nil⟩

omit [DecidableEq H] in
theorem linked_new (fin : Finalized H D) : Linked (Chain.new fin).forktrees :=
  ⟨fun _ hr => absurd hr List.not_mem_nil, fun _ hn => absurd hn List.not_mem_nil⟩

/-- What every run keeps of locations and links. -/
theorem run_links (K : Config H D) (fin : Finalized H D) (inputs : List (Input H D)) :
    Allocated ((Chain.new fin).run K inputs) ∧ HalfLinked ((Chain.new fin).run K inputs) :=
  run_induction (P := fun c => Allocated c ∧ HalfLinked c)
    ⟨allocated_new fin, halfLinked_new fin⟩
    fun _ _ hm h => ⟨allocated_of_move hm h.1, halfLinked_of_move hm h.1 h.2⟩

/-! ## Links in order -/

omit [DecidableEq H] in
/-- A forest that holds every cell of another, children under the same
parents, has its links in order only where the other has. -/
private theorem linked_of_embeds {f g : List (TreeNode H D)} (e : TreeNode H D → TreeNode H D)
    (hroots : ∀ r ∈ f, e r ∈ g) (hnodes : ∀ n ∈ nodesL f, e n ∈ nodesL g)
    (hchildren : ∀ n, ∀ m ∈ n.children, e m ∈ (e n).children)
    (hcell : ∀ n, (e n).label.loc = n.label.loc ∧ (e n).label.parent = n.label.parent)
    (h : Linked g) : Linked f := by
  refine ⟨fun r hr => ?_, fun n hn m hm => ?_⟩
  · rw [← (hcell r).2]
    exact h.roots _ (hroots r hr)
  · rw [← (hcell m).2, ← (hcell n).1]
    exact h.children _ (hnodes n hn) _ (hchildren n m hm)

/-- **A move that finalizes nothing keeps links in order, and puts none in
order.** -/
theorem linked_iff_of_move (hm : Move K B False c c') :
    Linked c'.forktrees ↔ Linked c.forktrees := by
  cases hm with
  | idle hsame => rw [hsame.forktrees]
  | @root b x _ _ _ _ _ _ =>
    refine ⟨fun h => linked_of_embeds id ?_ ?_ (fun _ _ hm => hm) (fun _ => ⟨rfl, rfl⟩) h,
      fun h => linked_iff.2 (links_addRoot (linked_iff.1 h))⟩
    · intro r hr
      exact List.mem_append_left _ hr
    · intro n hn
      change n ∈ nodesL (c.forktrees ++ _)
      rw [Rose.nodesL_append]
      exact List.mem_append_left _ hn
  | @child b x p _ _ _ hparent _ _ =>
    have hp := (TreeNode.get_some hparent).1
    refine ⟨fun h => linked_of_embeds (TreeNode.grown c.nextLoc x p) ?_ ?_ ?_ ?_ h,
      fun h => linked_iff.2 (links_addChild hp (linked_iff.1 h))⟩
    · intro r hr
      exact List.mem_map_of_mem hr
    · intro n hn
      exact (TreeNode.mem_addChild hp).2 (Or.inl ⟨n, hn, rfl⟩)
    · intro n m hm
      exact TreeNode.mem_children_grown.2 (Or.inl ⟨m, hm, rfl⟩)
    · intro n
      rw [TreeNode.label_grown]
      exact ⟨rfl, rfl⟩
  | @vote v stake target _ _ _ _ _ _ =>
    refine ⟨fun h => linked_of_embeds
      (Rose.map (TreeNode.voted c.forktrees stake v.validator target)) ?_ ?_ ?_ ?_ h,
      fun h => linked_iff.2 (links_addVotes (linked_iff.1 h))⟩
    · intro r hr
      exact List.mem_map_of_mem hr
    · intro n hn
      exact Rose.mem_nodesL_map.2 ⟨n, hn, rfl⟩
    · intro n m hm
      rw [Rose.children_map]
      exact List.mem_map_of_mem hm
    · intro n
      rw [Rose.label_map]
      exact (TreeNode.voted_fixed _).2
  | finalize hq => exact hq.elim

/-! ## A finalized root has grandchildren -/

omit [DecidableEq H] in
private theorem topSubtree_mem {f : List (TreeNode H D)} (p : TreeNode H D × TreeNode H D)
    (ps : List (TreeNode H D × TreeNode H D)) : TreeNode.topSubtree f p ps ∈ p :: ps := by
  unfold TreeNode.topSubtree
  have hmem : ∀ (l : List (TreeNode H D × TreeNode H D)) (best : ℕ × TreeNode H D × TreeNode H D),
      best.2 ∈ p :: ps → l ⊆ p :: ps → (l.foldl (fun best q =>
        if q.1.votes < best.1 then best
        else if q.1.votes = best.1 then
          if TreeNode.depth f best.2.1 < TreeNode.depth f q.1 then (best.1, q) else best
        else (q.1.votes, q)) best).2 ∈ p :: ps := by
    intro l
    induction l with
    | nil => exact fun best hbest _ => hbest
    | cons q l ih =>
      intro best hbest hl
      have hq : q ∈ p :: ps := hl List.mem_cons_self
      refine ih _ ?_ fun x hx => hl (List.mem_cons_of_mem _ hx)
      dsimp only
      split_ifs <;> assumption
  exact hmem _ _ List.mem_cons_self (List.Subset.refl _)

omit [DecidableEq H] in
theorem withHeads_eq {f : List (TreeNode H D)} (ts : List (TreeNode H D)) :
    TreeNode.withHeads f ts = ts.map fun t => (t, TreeNode.head f t) := by
  induction ts with
  | nil => rfl
  | cons t ts ih => rw [TreeNode.withHeads, ih, List.map_cons]

omit [DecidableEq H] in
/-- The head of a tree is in it. -/
theorem head_mem_nodes {f : List (TreeNode H D)} (t : TreeNode H D) :
    TreeNode.head f t ∈ nodes t := by
  induction t using Rose.induction with
  | node a cs ih =>
    rw [TreeNode.head]
    split
    · exact Rose.mem_nodes_self _
    · rename_i p ps hps
      have hmem := topSubtree_mem (f := f) p ps
      rw [← hps, withHeads_eq] at hmem
      obtain ⟨t, ht, heq⟩ := List.mem_map.1 hmem
      rw [← heq, Rose.nodes_node]
      exact List.mem_cons_of_mem _ (Rose.mem_nodesL.2 ⟨t, ht, ih t ht⟩)

omit [DecidableEq H] in
/-- The head of a tree has no children. -/
theorem children_head {f : List (TreeNode H D)} (t : TreeNode H D) :
    (TreeNode.head f t).children = [] := by
  induction t using Rose.induction with
  | node a cs ih =>
    rw [TreeNode.head]
    split
    · rename_i hnil
      rw [withHeads_eq, List.map_eq_nil_iff] at hnil
      exact hnil
    · rename_i p ps hps
      have hmem := topSubtree_mem (f := f) p ps
      rw [← hps, withHeads_eq] at hmem
      obtain ⟨t, ht, heq⟩ := List.mem_map.1 hmem
      rw [← heq]
      exact ih t ht

/-- The first node of an epoch is on the walk. -/
theorem epochStart_mem_path {f : List (TreeNode H D)} (n : TreeNode H D) :
    TreeNode.epochStart K f n ∈ path f n := by
  have hself : n ∈ path f n := by
    unfold path
    cases (nodesL f).length <;> simp [pathFrom]
  unfold TreeNode.epochStart
  dsimp only
  split
  · cases hlast : ((path f n).tail.takeWhile fun m =>
        K.epoch m.block.height = K.epoch n.block.height).getLast? with
    | none => simpa using hself
    | some m =>
      have hm := (List.takeWhile_sublist _).subset (List.mem_of_getLast? hlast)
      simpa using List.mem_of_mem_tail hm
  · exact hself

/-- **Three epochs are too many for a root and its children.** -/
theorem exists_grandchild_of_finalizable (hc : Allocated c) (h : HalfLinked c)
    {root : TreeNode H D} (hroot : root ∈ c.forktrees) (hfin : c.finalizable K root = true) :
    ∃ t ∈ root.children, ∃ m, m ∈ t.children := by
  obtain ⟨-, n, m, hn, hm, -, -⟩ := finalizable_some hfin
  -- the walk goes from the head to `first`, its parent `n`, `second` and its parent `m`
  have hhead := Rose.mem_nodesL.2 ⟨root, hroot, head_mem_nodes (f := c.forktrees) root⟩
  obtain ⟨hfirst, hheadFirst⟩ := mem_nodes_of_mem_path hc.located h hhead
    (epochStart_mem_path (K := K) _)
  obtain ⟨hn', hfirstN⟩ := mem_children_of_path hc.located h hfirst hn
  obtain ⟨hsecond, hnSecond⟩ := mem_nodes_of_mem_path hc.located h hn'
    (epochStart_mem_path (K := K) n)
  obtain ⟨hm', hsecondM⟩ := mem_children_of_path hc.located h hsecond hm
  have hheadM : TreeNode.head c.forktrees root ∈ nodes m :=
    Rose.mem_nodes_trans (Rose.mem_nodes_trans (Rose.mem_nodes_trans hheadFirst
      (Rose.mem_nodes_of_mem_children hfirstN)) hnSecond) (Rose.mem_nodes_of_mem_children hsecondM)
  obtain ⟨r, hr, hmr⟩ := Rose.mem_nodesL.1 hm'
  obtain rfl : r = root := Rose.eq_of_mem_nodes_of_nodup hc.located.nodup hr hroot
    (Rose.mem_nodes_trans hheadM hmr) (head_mem_nodes root)
  rw [Rose.nodes_eq] at hmr
  rcases List.mem_cons.1 hmr with rfl | hmr
  · exact ⟨_, hsecondM, Rose.exists_child_of_mem_nodes hnSecond hfirstN⟩
  · obtain ⟨t, ht, hmt⟩ := Rose.mem_nodesL.1 hmr
    exact ⟨t, ht, Rose.exists_child_of_mem_nodes hmt hsecondM⟩

/-- **Where moved nodes change place, a finalization leaves links behind.** -/
theorem not_linked_finalizeRoot (hK : K.alloc = .fresh) (hc : Allocated c) (h : HalfLinked c)
    {before after : List (TreeNode H D)} {root : TreeNode H D}
    (hsplit : splitRoots (c.finalizable K) c.forktrees = some (before, root, after)) :
    ¬ Linked (c.finalizeRoot K (before ++ after) root).forktrees := by
  intro hlinked
  obtain ⟨hroot, -⟩ := sublist_splitRoots hsplit
  obtain ⟨t, ht, m, hm⟩ := exists_grandchild_of_finalizable hc h hroot (splitRoots_some hsplit).2
  have ht' : t ∈ nodesL c.forktrees :=
    Rose.mem_nodesL_of_mem_children (Rose.mem_nodesL_of_mem hroot) ht
  obtain ⟨l, hl, hmoved⟩ : ∃ l, TreeNode.Placed c.nextLoc t.label.loc l K.alloc ∧
      asRoot l t ∈ moveRoots K.alloc c.nextLoc root.children := TreeNode.exists_mem_moveRoots ht
  have hnew := hlinked.children _ (Rose.mem_nodesL_of_mem hmoved) m hm
  obtain ⟨k, hk, hk'⟩ := h.children t ht' m hm
  -- the link is older than the place of the moved node
  have hlt : k < c.nextLoc := by
    rcases hk' with rfl | hdead
    · exact hc.below _ (Rose.mem_labels.2 ⟨t, ht', rfl⟩)
    · exact hdead.1
  rw [hK] at hl
  change c.nextLoc ≤ l at hl
  have heq : some k = some l := hk.symm.trans hnew
  have := Option.some.inj heq
  omega

/-- Where moved nodes stay in place, every move keeps links in order. -/
theorem linked_of_move_inPlace (hK : K.alloc = .inPlace) (hm : Move K B q c c')
    (h : Linked c.forktrees) : Linked c'.forktrees := by
  rcases hm.calm_or_finalize with hm | ⟨before, after, root, -, hsplit, rfl⟩
  · exact (linked_iff_of_move hm).2 h
  · refine linked_iff.2 ((links_moveRoots (sublist_splitRoots hsplit).1
      (linked_iff.1 h)).mono fun l hl => ?_)
    rcases hl with hl | ⟨hfresh, -⟩
    · exact hl
    · rw [hK] at hfresh
      cases hfresh

/-- Where moved nodes change place, no move puts links back in order. -/
theorem linked_of_move_fresh (hK : K.alloc = .fresh) (hm : Move K B q c c') (hc : Allocated c)
    (h : HalfLinked c) (hlinked : Linked c'.forktrees) : Linked c.forktrees := by
  rcases hm.calm_or_finalize with hm | ⟨before, after, root, -, hsplit, rfl⟩
  · exact (linked_iff_of_move hm).1 hlinked
  · exact absurd hlinked (not_linked_finalizeRoot hK hc h hsplit)

/-! ## Links over a run -/

/-- What the proofs below need of a state. -/
private def Ready (c : Chain H D) : Prop := Allocated c ∧ HalfLinked c

private theorem ready_moves (hm : ReflTransGen (Move K B q) c c') (h : Ready c) : Ready c' := by
  induction hm with
  | refl => exact h
  | tail _ hm ih => exact ⟨allocated_of_move hm ih.1, halfLinked_of_move hm ih.1 ih.2⟩

private theorem linked_moves_fresh (hK : K.alloc = .fresh) (hm : ReflTransGen (Move K B q) c c')
    (h : Ready c) (hlinked : Linked c'.forktrees) : Linked c.forktrees := by
  induction hm with
  | refl => exact hlinked
  | tail hsteps hm ih =>
    have hready := ready_moves hsteps h
    exact ih (linked_of_move_fresh hK hm hready.1 hready.2 hlinked)

/-- A call that finalizes nothing keeps links in order. -/
theorem linked_step (h : Within B c) {i : Input H D} (hi : ∀ now b, i = .include now b → b ∈ B)
    (hcalm : ¬ c.finalizes K i) (hlinked : Linked c.forktrees) : Linked (c.step K i).forktrees := by
  have hmoves := (step_moves (K := K) (q := False) h hi hcalm).1
  generalize c.step K i = c' at hmoves ⊢
  induction hmoves with
  | refl => exact hlinked
  | tail _ hm ih => exact (linked_iff_of_move hm).2 ih

/-- A call that finalizes a root leaves links behind. -/
theorem not_linked_step (hK : K.alloc = .fresh) (h : Within B c) (hc : Allocated c)
    (hlinks : HalfLinked c) {i : Input H D} (hfin : c.finalizes K i) :
    ¬ Linked (c.step K i).forktrees := by
  cases i with
  | «include» now b => exact hfin.elim
  | pollNext now =>
    obtain ⟨x, hevent, hroot⟩ := hfin
    have hpop : Moves K B True c c.pop := .idle ⟨rfl, rfl, rfl, rfl, rfl⟩
      ⟨h.orphans, h.votes, fun x hx => h.events x (List.dropLast_subset _ hx)⟩
    have hx : x.underlying ∈ B := h.events x (List.mem_of_getLast? hevent)
    have hcount := hpop.trans (countAll_moves (K := K) hpop.2 hx)
    have hready : Ready (c.pop.countAll K x.underlying) := ready_moves hcount.1 ⟨hc, hlinks⟩
    obtain ⟨d, hd⟩ := Option.isSome_iff_exists.1 (tryFinalizeRoots_isSome.2 hroot)
    obtain ⟨before, after, root, hsplit, rfl⟩ := tryFinalizeRoots_some hd
    have hfinal : Moves K B True _ _ := (finalizeNext_acts hcount.2 trivial hsplit).moves
    have hbroken : ¬ Linked ((c.pop.countAll K x.underlying).finalizeNext K (before ++ after)
        root).forktrees := not_linked_finalizeRoot hK hready.1 hready.2 hsplit
    -- the loop goes on from there, and only finalizes more
    obtain ⟨fuel, hfuel⟩ : ∃ fuel,
        (nodesL (c.pop.countAll K x.underlying).forktrees).length = fuel + 1 := by
      obtain ⟨root, hmem, -⟩ := hroot
      exact Nat.exists_eq_succ_of_ne_zero
        (List.length_pos_of_mem (Rose.mem_nodesL_of_mem hmem)).ne'
    have hstep : (c.step K (.pollNext now)).forktrees = (finalizeLoop K fuel
        ((c.pop.countAll K x.underlying).finalizeNext K (before ++ after) root)).forktrees := by
      simp only [step, pollNext, hevent]
      change (finalizeLoop K (nodesL (c.pop.countAll K x.underlying).forktrees).length
        (c.pop.countAll K x.underlying)).forktrees = _
      rw [hfuel, finalizeLoop, hd]
    rw [hstep]
    have hloop := finalizeLoop_moves (K := K) fuel hfinal.2
    exact fun hlinked => hbroken
      (linked_moves_fresh hK hloop.1 (ready_moves hfinal.1 hready) hlinked)

omit [DecidableEq H] in
/-- The blocks of the first calls of a run are blocks of the run. -/
private theorem inputBlocks_mono {inputs pre : List (Input H D)} (h : pre <+: inputs) :
    ∀ b ∈ inputBlocks pre, b ∈ inputBlocks inputs := by
  rintro b ⟨now, hb⟩
  exact ⟨now, h.subset hb⟩

/-- **Links are in order in every state of a run, and every walk gives a
node and its ancestors, if and only if no call of the run finalizes a
root.** -/
theorem linked_run_iff (K : Config H D) (hK : K.alloc = .fresh) (fin : Finalized H D)
    (inputs : List (Input H D)) :
    (∀ pre, pre <+: inputs → Linked ((Chain.new fin).run K pre).forktrees ∧
      Walks ((Chain.new fin).run K pre).forktrees) ↔
      ∀ pre i, pre ++ [i] <+: inputs → ¬ ((Chain.new fin).run K pre).finalizes K i := by
  have hrun : ∀ pre i, (Chain.new fin).run K (pre ++ [i]) =
      ((Chain.new fin).run K pre).step K i := by
    intro pre i
    simp [run]
  have hwithin : ∀ pre, pre <+: inputs → Within (inputBlocks inputs) ((Chain.new fin).run K pre) :=
    fun pre hpre => (run_moves (within_new fin) (inputBlocks_mono hpre)).2
  constructor
  · intro h pre i hpre hfin
    have hpre' : pre <+: inputs := (List.prefix_append pre [i]).trans hpre
    obtain ⟨hc, hlinks⟩ := run_links K fin pre
    refine not_linked_step hK (hwithin pre hpre') hc hlinks hfin ?_
    rw [← hrun]
    exact (h _ hpre).1
  · intro h pre hpre
    suffices hlinked : Linked ((Chain.new fin).run K pre).forktrees from
      ⟨hlinked, path_eq (run_links K fin pre).1.located hlinked⟩
    induction pre using List.reverseRecOn with
    | nil => exact linked_new fin
    | append_singleton pre i ih =>
      have hpre' : pre <+: inputs := (List.prefix_append pre [i]).trans hpre
      rw [hrun]
      refine linked_step (hwithin pre hpre') (fun now b hib => ⟨now, ?_⟩) (h pre i hpre) (ih hpre')
      exact hpre.subset (by simp [hib])

/-! ## A run that finalizes a root -/

namespace Sample

/-- A hash to run the model with. -/
def sha3 (bs : Bytes) : ℕ := bs.foldl (fun a b => (a * 257 + b.toNat + 1) % (2 ^ 61 - 1)) 0

/-- The cryptography of the samples: the addresses below 100 are keys, and
sign by putting themselves in front. -/
def crypto : Crypto ℕ where
  sha3 := sha3
  digest _ := List.replicate 32 255
  hasPrivateKey k := decide (k.val.val < 100)
  verify k message signature := signature == k.bytes ++ message
  toBase58 k := toString k.val.val
  bump_ends _ _ := ⟨0, by norm_num, by decide⟩

/-- The setting of the samples: every block is an epoch. -/
def config {D : Type} (alloc : Alloc) (validators : List (Pubkey × ℕ))
    (execute : State → D → Except MachineError (BlockOutput ℕ)) : Config ℕ D where
  crypto := crypto
  toBytes := uvarint
  hashData _ := 0
  execute := execute
  hashOutput _ := 0
  genesis :=
    { hash := 1, epochBlocks := 1, slotInterval := 1, limits := Machine.Sample.limits, validators }
  alloc := alloc
  order := id
  order_perm _ := .refl _

/-- The chain before the first block. -/
def genesis {D : Type} : Finalized ℕ D := { underlying := none, store := { db := fun _ => none } }

/-- A vote of `key` justified by the genesis block. -/
def vote (key : Pubkey) (target : ℕ) : Vote ℕ :=
  { validator := key, target, justification := 1,
    signature := key.bytes ++ (uvarint target ++ uvarint 1) }

/-- A block of `key`, signed. -/
def produce {D : Type} (K : Config ℕ D) (key : Pubkey) (parent height : ℕ) (data : D)
    (votes : List (Vote ℕ)) : Produced ℕ D :=
  let b : Produced ℕ D :=
    { parent, stateHash := 0, height, signature := (key, []), data, votes }
  { b with signature := (key, key.bytes ++ uvarint (K.hash b)) }

/-- One validator, and blocks without a payload. -/
def single (alloc : Alloc) : Config ℕ Unit := config alloc [(7, 1000)] fun _ _ => .ok {}

def first : Produced ℕ Unit := produce (single .inPlace) 7 1 1 () []

def second : Produced ℕ Unit :=
  produce (single .inPlace) 7 ((single .inPlace).hash first) 2 () []

def third : Produced ℕ Unit :=
  produce (single .inPlace) 7 ((single .inPlace).hash second) 3 ()
    [vote 7 ((single .inPlace).hash second)]

/-- Three blocks arrive, the last with a vote for the second, and the
events up to the inclusion of the last are taken. -/
def threeBlocks : List (Input ℕ Unit) :=
  [.include 0 first, .include 0 second, .include 0 third] ++ List.replicate 5 (.pollNext 0)

end Sample

/-- With the first of three blocks final, the third looks for the second
where it no longer is. -/
theorem not_linked_threeBlocks :
    ¬ Linked ((Chain.new Sample.genesis).run (Sample.single .fresh)
      Sample.threeBlocks).forktrees := by
  decide +kernel

/-- Before anything is final the links are in order. -/
theorem linked_twoBlocks : Linked ((Chain.new Sample.genesis).run (Sample.single .fresh)
    [.include 0 Sample.first, .include 0 Sample.second]).forktrees := by
  refine ((linked_run_iff (Sample.single .fresh) rfl Sample.genesis _).2 ?_ _
    (List.prefix_refl _)).1
  intro pre i hpre hfin
  have hi : i ∈ [Input.include 0 Sample.first, .include 0 Sample.second] := hpre.subset (by simp)
  simp only [List.mem_cons, List.not_mem_nil, or_false] at hi
  rcases hi with rfl | rfl
  · exact hfin
  · exact hfin

end Chain

end Consensus

end Rensa
