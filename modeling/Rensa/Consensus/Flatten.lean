import Rensa.Common.Loop
import Rensa.Common.Reorder
import Rensa.Consensus.Links
/-!
# Flattening a tree of orphans

A tree that insertions built hangs together: every block is under the
block it names, and none is there twice (`Built.nodup`). `flatten` pops the
nodes of a queue one by one, so it ends when all nodes were popped, and gives
every block once, the root first and each other one after its parent. The
nested maximum of `max_height` is the one over all blocks. None of this
depends on the order in which the maps of children are walked
(`flatten_built`).
-/

namespace Rensa

namespace Consensus

open Rose (nodes nodesL)

namespace OrphanNode

variable {H D : Type} {t t' : OrphanNode H D}

/-! ## The loop -/

/-- One round of the loop of `flatten`, on the queue and the output. -/
def flattenRound : List (OrphanNode H D) × List (Produced H D) →
    (List (OrphanNode H D) × List (Produced H D)) ⊕ List (Produced H D)
  | ([], output) => .inr output
  | (t :: queue, output) => .inl (queue ++ t.children, output ++ [t.block])

/-- As many rounds as there are nodes empty the queue. -/
theorem rounds_flattenRound {fuel : ℕ} {queue : List (OrphanNode H D)}
    {output : List (Produced H D)} (h : (nodesL queue).length ≤ fuel) :
    rounds flattenRound (fuel + 1) (queue, output) = some (output ++ flattenFrom fuel queue) := by
  induction fuel generalizing queue output with
  | zero =>
    cases queue with
    | nil => simp [rounds, flattenRound, flattenFrom]
    | cons t queue =>
      rw [Rose.nodesL_cons, Rose.nodes_eq] at h
      simp at h
  | succ fuel ih =>
    cases queue with
    | nil => simp [rounds, flattenRound, flattenFrom]
    | cons t queue =>
      have hlen : (nodesL (queue ++ t.children)).length ≤ fuel := by
        rw [Rose.nodesL_cons, Rose.nodes_eq] at h
        rw [Rose.nodesL_append]
        simp only [List.length_append, List.length_cons] at h ⊢
        omega
      have hround : rounds flattenRound (fuel + 1 + 1) (t :: queue, output) =
          rounds flattenRound (fuel + 1) (queue ++ t.children, output ++ [t.block]) := rfl
      rw [hround, ih hlen, flattenFrom, List.append_assoc, List.singleton_append]

/-- The root comes first. -/
theorem flatten_eq (t : OrphanNode H D) :
    t.flatten = t.block :: flattenFrom (nodesL t.children).length t.children := by
  unfold flatten
  rw [Rose.nodes_eq, List.length_cons, flattenFrom, List.nil_append]

/-! ## The maximum -/

private theorem traverseL_le_iff_of {ts : List (OrphanNode H D)}
    (htraverse : ∀ t ∈ ts, ∀ sofar height : ℕ, t.traverse sofar ≤ height ↔
      sofar ≤ height ∧ ∀ b ∈ orphanBlocks [t], b.height ≤ height) (sofar height : ℕ) :
    traverseL ts sofar ≤ height ↔
      sofar ≤ height ∧ ∀ b ∈ orphanBlocks ts, b.height ≤ height := by
  induction ts generalizing sofar with
  | nil => simp [traverseL]
  | cons t ts ih =>
    have hblocks : orphanBlocks (t :: ts) = orphanBlocks [t] ++ orphanBlocks ts :=
      orphanBlocks_append [t] ts
    rw [traverseL, ih fun s hs => htraverse s (List.mem_cons_of_mem _ hs), max_le_iff,
      htraverse t List.mem_cons_self, hblocks]
    simp only [List.mem_append, or_imp, forall_and]
    tauto

/-- The running maximum is bounded where what it started from and all
blocks of the tree are. -/
theorem traverse_le_iff (t : OrphanNode H D) (sofar height : ℕ) : t.traverse sofar ≤ height ↔
    sofar ≤ height ∧ ∀ b ∈ orphanBlocks [t], b.height ≤ height := by
  induction t using Rose.induction generalizing sofar height with
  | node c cs ih =>
    rw [traverse, max_le_iff, traverseL_le_iff_of fun t ht => ih t ht, orphanBlocks_cons]
    simp only [orphanBlocks_nil, List.append_nil, List.mem_cons, forall_eq_or_imp,
      Rose.children_node, block, Rose.label_node]
    tauto

theorem maxHeight_le_iff (t : OrphanNode H D) (height : ℕ) :
    t.maxHeight ≤ height ↔ ∀ b ∈ orphanBlocks [t], b.height ≤ height := by
  unfold maxHeight
  rw [traverseL_le_iff_of fun t _ => traverse_le_iff t, orphanBlocks_cons]
  simp

/-- **`max_height` is the greatest height of a block of the tree.** -/
theorem isGreatest_maxHeight (t : OrphanNode H D) :
    IsGreatest {height | ∃ b ∈ orphanBlocks [t], b.height = height} t.maxHeight := by
  have hle := (maxHeight_le_iff t t.maxHeight).1 (le_refl _)
  constructor
  · by_contra hnone
    -- otherwise the maximum could be smaller
    have hlt : ∀ b ∈ orphanBlocks [t], b.height < t.maxHeight := fun b hb =>
      lt_of_le_of_ne (hle b hb) fun heq => hnone ⟨b, hb, heq⟩
    have hroot := hlt t.block (by rw [orphanBlocks_cons]; exact List.mem_cons_self)
    have hsmaller : t.maxHeight ≤ t.maxHeight - 1 :=
      (maxHeight_le_iff t _).2 fun b hb => Nat.le_sub_one_of_lt (hlt b hb)
    omega
  · rintro height ⟨b, hb, rfl⟩
    exact hle b hb

/-! ## Trees that insertions built -/

variable {K : Config H D}

/-- Every block that is ready follows its parent. -/
theorem Ready.exists_parent {S : Set H} {pre post : List (Produced H D)} {b : Produced H D}
    (h : Ready K S (pre ++ b :: post)) : b.parent ∈ S ∨ ∃ p ∈ pre, b.parent = K.hash p := by
  induction pre generalizing S with
  | nil =>
    cases h with
    | cons hparent _ => exact .inl hparent
  | cons p pre ih =>
    cases h with
    | cons _ hrest =>
      rcases ih hrest with (hS | hp) | ⟨q, hq, hparent⟩
      · exact .inl hS
      · exact .inr ⟨p, List.mem_cons_self, hp⟩
      · exact .inr ⟨q, List.mem_cons_of_mem _ hq, hparent⟩

variable [DecidableEq H]

/-- A tree that was built from one block by `Node::insert`, the maps of its
children in any order at any time. -/
inductive Built (K : Config H D) : OrphanNode H D → Prop
  | new (now : ℕ) (b : Produced H D) : Built K (.node { arrived := now, block := b } [])
  | insert {now : ℕ} {b : Produced H D} {t t' : OrphanNode H D} (h : Built K t)
      (hinsert : insert K now b t = some t') : Built K t'
  | reorder {t t' : OrphanNode H D} (h : Built K t) (horder : t.Reorder t') : Built K t'

/-- **A tree that was built hangs together.** -/
theorem Built.hung (h : Built K t) : Hung K [t] := by
  induction h with
  | new now b =>
    intro n hn m hm
    obtain rfl : n = .node { arrived := now, block := b } [] := by
      simpa [Rose.nodes_node] using hn
    cases hm
  | insert _ hinsert ih => exact hung_insert _ _ hinsert ih
  | reorder _ horder ih =>
    intro n hn m hm
    refine horder.edges (P := fun a b => b.block.parent = K.hash a.block) (fun n hn m hm => ?_) n ?_
      m hm
    · exact ih n (by simpa using hn) m hm
    · simpa using hn

/-- A node takes a block as a child: it is the parent, and none of its
children has the hash. -/
def Takes (K : Config H D) (new : Produced H D) (c : OrphanNode H D) : Prop :=
  new.parent = K.hash (block c) ∧ ∀ s ∈ c.children, K.hash (block s) ≠ K.hash new

section Insert

variable {now : ℕ} {new : Produced H D}

private theorem insertL_takes_of {ts ts' : List (OrphanNode H D)}
    (htakes : ∀ t ∈ ts, ∀ t', insert K now new t = some t' → t' = t ∨ ∃ c ∈ nodes t, Takes K new c)
    (h : insertL K now new ts = some ts') : ts' = ts ∨ ∃ c ∈ nodesL ts, Takes K new c := by
  induction ts generalizing ts' with
  | nil => cases h
  | cons t ts ih =>
    simp only [insertL] at h
    split at h
    next t' ht' =>
      cases h
      rcases htakes t List.mem_cons_self t' ht' with rfl | ⟨c, hc, hnew⟩
      · exact .inl rfl
      · exact .inr ⟨c, Rose.mem_nodesL.2 ⟨t, List.mem_cons_self, hc⟩, hnew⟩
    next =>
      obtain ⟨us, hus, rfl⟩ := Option.map_eq_some_iff.1 h
      rcases ih (fun s hs => htakes s (List.mem_cons_of_mem _ hs)) hus with rfl | ⟨c, hc, hnew⟩
      · exact .inl rfl
      · obtain ⟨s, hs, hcs⟩ := Rose.mem_nodesL.1 hc
        exact .inr ⟨c, Rose.mem_nodesL.2 ⟨s, List.mem_cons_of_mem _ hs, hcs⟩, hnew⟩

/-- Where a tree changes, a node of it takes the block. -/
theorem insert_takes (t : OrphanNode H D) : ∀ t', insert K now new t = some t' →
    t' = t ∨ ∃ c ∈ nodes t, Takes K new c := by
  induction t using Rose.induction with
  | node c cs ih =>
    intro t' h
    simp only [insert] at h
    split at h
    · cases h
    split at h
    next hparent =>
      split at h
      · cases h
        exact .inl rfl
      next hnone =>
        refine .inr ⟨_, Rose.mem_nodes_self _, hparent, fun s hs heq => hnone ?_⟩
        exact List.any_eq_true.2 ⟨s, hs, decide_eq_true heq⟩
    next =>
      obtain ⟨ds, hds, rfl⟩ := Option.map_eq_some_iff.1 h
      rcases insertL_takes_of ih hds with rfl | ⟨n, hn, hnew⟩
      · exact .inl rfl
      · refine .inr ⟨n, ?_, hnew⟩
        rw [Rose.nodes_node]
        exact List.mem_cons_of_mem _ hn

/-- A block that is taken is higher than the root. -/
theorem height_lt_of_insert (h : insert K now new t = some t') : t.block.height < new.height := by
  cases t with
  | node c cs =>
    simp only [insert] at h
    split at h
    · cases h
    next hlt => exact Nat.not_le.1 hlt

omit [DecidableEq H] in
/-- **A tree takes no block twice**, where no two of its blocks share a
hash: the nodes that take the block would be one. -/
theorem not_mem_of_takes (hung : Hung K [t]) (hnodup : (orphanBlocks [t]).Nodup)
    (hinj : Set.InjOn K.hash {b | b ∈ orphanBlocks [t]}) (hheight : t.block.height < new.height)
    {c : OrphanNode H D} (hc : c ∈ nodes t) (htakes : Takes K new c) :
    new ∉ orphanBlocks [t] := by
  intro hmem
  have hblocks : ∀ {n : OrphanNode H D}, n ∈ nodesL [t] → n.block ∈ orphanBlocks [t] := fun hn =>
    mem_orphanBlocks_iff.2 ⟨_, hn, rfl⟩
  have hc' : c ∈ nodesL [t] := by simpa using hc
  obtain ⟨m, hm, rfl⟩ := mem_orphanBlocks_iff.1 hmem
  rcases Rose.exists_parent_of_mem_nodesL hm with hroot | ⟨p, hp, hmp⟩
  · rw [List.mem_singleton.1 hroot] at hheight
    exact lt_irrefl _ hheight
  · have hblock : block p = block c :=
      hinj (hblocks hp) (hblocks hc') ((hung p hp m hmp).symm.trans htakes.1)
    have hsame : p = c := by
      have hmap : ((nodesL [t]).map block).Nodup := by
        rwa [orphanBlocks, Rose.labels, List.map_map] at hnodup
      exact List.inj_on_of_nodup_map hmap hp hc' hblock
    exact htakes.2 m (hsame ▸ hmp) rfl

end Insert

/-- **A tree that was built has no block twice**, where no two of its blocks
share a hash. -/
theorem Built.nodup (h : Built K t) (hinj : Set.InjOn K.hash {b | b ∈ orphanBlocks [t]}) :
    (orphanBlocks [t]).Nodup := by
  induction h with
  | new now b => simp [orphanBlocks_cons]
  | insert hbuilt hinsert ih =>
    rcases insert_takes _ _ hinsert with rfl | ⟨c, hc, htakes⟩
    · exact ih hinj
    rcases (insert_spec _ _ hinsert).2 with hperm | ⟨rfl, -⟩
    · have hold := hinj.mono fun b hb => hperm.mem_iff.2 (List.mem_cons_of_mem _ hb)
      rw [hperm.nodup_iff, List.nodup_cons]
      refine ⟨?_, ih hold⟩
      exact not_mem_of_takes hbuilt.hung (ih hold) hold (height_lt_of_insert hinsert) hc htakes
    · exact ih hinj
  | reorder _ horder ih =>
    have hperm := horder.labels_perm.map OrphanCell.block
    exact hperm.nodup_iff.2 (ih (hinj.mono fun b hb => hperm.mem_iff.2 hb))

/-- **A list of the blocks of a tree, in an order to include them.**
- Every block of the tree is in it, as often as in the tree, which is once
  where no two of them share a hash.
- Each follows its parent, but for the root, which comes first.
- Each finds its parent in any chain that has the parent of the root and
  the blocks before it. -/
structure Flattened (K : Config H D) (t : OrphanNode H D) (bs : List (Produced H D)) : Prop where
  perm : bs.Perm (orphanBlocks [t])
  once : Set.InjOn K.hash {b | b ∈ bs} → bs.Nodup
  parents : ∀ pre b post, bs = pre ++ b :: post →
    (pre = [] ∧ b = t.block) ∨ ∃ p ∈ pre, b.parent = K.hash p
  found : ∀ (c : Chain H D) pre b post, bs = pre ++ b :: post → c.knows K t.block.parent →
    (∀ p ∈ pre, c.knows K (K.hash p)) → c.tryInclude K b ≠ .ok none

/-- A block whose parent is known is not an orphan. -/
theorem tryInclude_ne_none {c : Chain H D} {b : Produced H D} (h : c.knows K b.parent) :
    c.tryInclude K b ≠ .ok none := by
  intro hnew
  unfold Chain.tryInclude at hnew
  split at hnew
  · cases hnew
  split at hnew
  · split at hnew
    · cases hnew
    · split at hnew
      · cases hnew
      · cases hnew
  next hroot =>
    split at hnew
    next hnone =>
      have hfinal : c.finalized.hash K = b.parent := by simpa [Chain.knows, hnone] using h
      exact hroot hfinal.symm
    · split at hnew
      · cases hnew
      · split at hnew
        · cases hnew
        · cases hnew

/-- **Flattening a tree that was built**: the loop ends with every block of
the tree, each once and after its parent, and `max_height` is the greatest
height of them. -/
theorem flatten_built (K : Config H D) (t : OrphanNode H D) (hbuilt : Built K t) :
    rounds flattenRound (t.nodes.length + 1) ([t], []) = some t.flatten ∧
      Flattened K t t.flatten ∧
      IsGreatest {height | ∃ b ∈ orphanBlocks [t], b.height = height} t.maxHeight := by
  have hung := hbuilt.hung
  have hparents : ∀ pre b post, t.flatten = pre ++ b :: post →
      (pre = [] ∧ b = t.block) ∨ ∃ p ∈ pre, b.parent = K.hash p := by
    intro pre b post heq
    rw [flatten_eq] at heq
    rcases List.cons_eq_append_iff.1 heq with ⟨rfl, hb⟩ | ⟨pre, rfl, hrest⟩
    · exact .inl ⟨rfl, (List.cons.inj hb).1⟩
    · -- the children name the root
      have hready : Ready K {K.hash t.block}
          (flattenFrom (nodesL t.children).length t.children) :=
        ready_flattenFrom
          (fun n hn => hung n (by simpa using Rose.mem_nodes_of_mem_below hn))
          fun s hs => hung t (Rose.mem_nodesL_of_mem List.mem_cons_self) s hs
      rw [hrest] at hready
      rcases hready.exists_parent with hroot | ⟨p, hp, hparent⟩
      · exact .inr ⟨t.block, List.mem_cons_self, hroot⟩
      · exact .inr ⟨p, List.mem_cons_of_mem _ hp, hparent⟩
  have honce : Set.InjOn K.hash {b | b ∈ t.flatten} → t.flatten.Nodup := fun hinj =>
    (flatten_perm t).nodup_iff.2 (hbuilt.nodup (hinj.mono fun b hb =>
      (flatten_perm t).mem_iff.2 hb))
  refine ⟨?_, ⟨flatten_perm t, honce, hparents, fun c pre b post heq hparent hpre => ?_⟩,
    isGreatest_maxHeight t⟩
  · have hlength : (nodesL [t]).length ≤ t.nodes.length := by simp
    rw [rounds_flattenRound hlength, List.nil_append]
    rfl
  · refine tryInclude_ne_none ?_
    rcases hparents pre b post heq with ⟨-, rfl⟩ | ⟨p, hp, hp'⟩
    · exact hparent
    · rw [hp']
      exact hpre p hp

/-! ## A tree with two branches -/

namespace Sample

open Chain.Sample (single second third produce)

/-- Another block on the second one. -/
def rival : Produced ℕ Unit := produce (single .inPlace) 7 ((single .inPlace).hash second) 3 () []

/-- A block on the rival. -/
def onRival : Produced ℕ Unit := produce (single .inPlace) 7 ((single .inPlace).hash rival) 4 () []

/-- A block that waits, and one that arrives after it. -/
def twoWaiting : OrphanNode ℕ Unit :=
  .node { arrived := 0, block := second } [.node { arrived := 1, block := third } []]

/-- The rival arrives. -/
def forked : OrphanNode ℕ Unit :=
  .node { arrived := 0, block := second }
    [.node { arrived := 1, block := third } [], .node { arrived := 2, block := rival } []]

/-- The block on the rival arrives. -/
def branching : OrphanNode ℕ Unit :=
  .node { arrived := 0, block := second }
    [.node { arrived := 1, block := third } [],
      .node { arrived := 2, block := rival } [.node { arrived := 3, block := onRival } []]]

theorem built_branching : Built (single .inPlace) branching := by
  have hthird : third.parent = (single .inPlace).hash second := by decide +kernel
  have hrival : rival.parent = (single .inPlace).hash second := by decide +kernel
  have hne : (single .inPlace).hash third ≠ (single .inPlace).hash rival := by decide +kernel
  have hon : onRival.parent = (single .inPlace).hash rival := by decide +kernel
  have honSecond : onRival.parent ≠ (single .inPlace).hash second := by decide +kernel
  have htwo : insert (single .inPlace) 1 third (.node { arrived := 0, block := second } []) =
      some twoWaiting := by
    rw [insert, if_neg (by decide), if_pos hthird, if_neg (by decide)]
    rfl
  have hforked : insert (single .inPlace) 2 rival twoWaiting = some forked := by
    have hnew : ([.node { arrived := 1, block := third } []] : List (OrphanNode ℕ Unit)).any
        (fun t => (single .inPlace).hash t.label.block = (single .inPlace).hash rival) ≠ true := by
      decide +kernel
    rw [twoWaiting, insert, if_neg (by decide), if_pos hrival, if_neg hnew]
    rfl
  have hbranching : insert (single .inPlace) 3 onRival forked = some branching := by
    -- the sibling is as high as the rival, but no parent of the block
    have hleaf : insert (single .inPlace) 3 onRival (.node { arrived := 1, block := third } []) =
        none := by
      rw [insert, if_neg (by decide), if_neg (fun h => hne (h.symm.trans hon)), insertL]
      rfl
    have hunder : insert (single .inPlace) 3 onRival (.node { arrived := 2, block := rival } []) =
        some (.node { arrived := 2, block := rival }
          [.node { arrived := 3, block := onRival } []]) := by
      rw [insert, if_neg (by decide), if_pos hon, if_neg (by decide)]
      rfl
    rw [forked, insert, if_neg (by decide), if_neg honSecond, insertL, hleaf, insertL, hunder]
    rfl
  exact .insert (.insert (.insert (.new 0 second) htwo) hforked) hbranching

end Sample

theorem flatten_built_branching :
    Sample.branching.flatten =
        [Chain.Sample.second, Chain.Sample.third, Sample.rival, Sample.onRival] ∧
      Flattened (Chain.Sample.single .inPlace) Sample.branching Sample.branching.flatten ∧
      IsGreatest {height | ∃ b ∈ orphanBlocks [Sample.branching], b.height = height} 4 := by
  obtain ⟨-, hflat, hmax⟩ := flatten_built (Chain.Sample.single .inPlace) Sample.branching
    Sample.built_branching
  exact ⟨rfl, hflat, hmax⟩

end OrphanNode

end Consensus

end Rensa
