import Rensa.Consensus.Transparency
/-!
# The order in which blocks arrive

A tree of valid blocks on top of the final block (`BlockTree`) arrives
block by block, in any order, and nothing is taken from the event queue.
Blocks whose parent is known are included, with all that waited for them
(`includeFrom_known`); the others wait, unless another block waits for the
same parent already, which is how a block is lost. All blocks are in the
forest at the end exactly where no two children of a block arrive before
it (`include_all_iff`).
-/

namespace Rensa

namespace Consensus

open Rose (nodes nodesL labels Path)
open TreeNode (block hash)

namespace Chain

variable {H D : Type}

section BlockTree

variable (K : Config H D) (fin : Finalized H D) (bs : List (Produced H D))

/-- A block of `bs` and its ancestors, up to a child of the final block. -/
inductive Lineage : Produced H D → List (Produced H D) → Prop
  | root {b : Produced H D} (hb : b ∈ bs) (hparent : b.parent = fin.hash K)
      (hheight : b.height = fin.height + 1) : Lineage b []
  | child {b p : Produced H D} {l : List (Produced H D)} (hb : b ∈ bs) (hp : Lineage p l)
      (hparent : b.parent = K.hash p) (hheight : b.height = p.height + 1) : Lineage b (p :: l)

variable [DecidableEq H]

/-- **Valid blocks that form a tree on the final block.** `out` is what
each of them gives, executed on the state its ancestors leave. -/
structure BlockTree (out : Produced H D → BlockOutput H) : Prop where
  lineage : ∀ b ∈ bs, ∃ l, Lineage K fin bs b l
  hashes : (bs.map K.hash).Nodup
  unfinal : ∀ b ∈ bs, K.hash b ≠ fin.hash K
  signed : ∀ b ∈ bs, ValidlySigned K b
  valid : ∀ b l, Lineage K fin bs b l →
    K.execute (overlayed fin.store.get (cascade (l.map fun p => (out p).state))) b.data =
      .ok (out b) ∧ K.hashOutput (out b) = b.stateHash

end BlockTree

variable {K : Config H D} {fin : Finalized H D} {bs : List (Produced H D)} {b p : Produced H D}
  {l : List (Produced H D)}

theorem Lineage.mem (h : Lineage K fin bs b l) : b ∈ bs := by
  cases h with
  | root hb => exact hb
  | child hb => exact hb

theorem Lineage.height_lt (h : Lineage K fin bs b l) : fin.height < b.height := by
  induction h with
  | root _ _ hheight => omega
  | child _ _ _ hheight ih => omega

variable [DecidableEq H] {out : Produced H D → BlockOutput H} {c c' : Chain H D}

namespace BlockTree

variable (T : BlockTree K fin bs out)

include T

omit [DecidableEq H] in
theorem eq_of_hash (hb : b ∈ bs) (hp : p ∈ bs) (h : K.hash b = K.hash p) : b = p :=
  List.inj_on_of_nodup_map T.hashes hb hp h

omit [DecidableEq H] in
/-- The block that is named as parent is one height below. -/
theorem height_eq (hb : b ∈ bs) (hp : p ∈ bs) (h : b.parent = K.hash p) :
    b.height = p.height + 1 := by
  obtain ⟨l, hl⟩ := T.lineage b hb
  cases hl with
  | root _ hparent _ => exact absurd (h.symm.trans hparent) (T.unfinal p hp)
  | child _ hq hparent hheight =>
    rwa [← T.eq_of_hash hq.mem hp (hparent.symm.trans h)]

omit [DecidableEq H] in
/-- A parent is the final block or a block of the tree. -/
theorem parent_cases (hb : b ∈ bs) : (b.parent = fin.hash K ∧ b.height = fin.height + 1) ∨
    ∃ p ∈ bs, b.parent = K.hash p := by
  obtain ⟨l, hl⟩ := T.lineage b hb
  cases hl with
  | root _ hparent hheight => exact Or.inl ⟨hparent, hheight⟩
  | child _ hp hparent _ => exact Or.inr ⟨_, hp.mem, hparent⟩

end BlockTree

/-! ## Chains in between -/

/-- The blocks a chain holds, in the forest or waiting. -/
def held (c : Chain H D) : List (Produced H D) :=
  (nodesL c.forktrees).map block ++ orphanBlocks c.orphans.blocks

/-- The hashes a chain knows a block for. -/
def known (K : Config H D) (c : Chain H D) : Set H := {h | c.knows K h = true}

/-- **A chain on its way**: the forest is in order and holds blocks of the
tree with their outputs, and trees of orphans wait for different
parents. -/
structure Growing (K : Config H D) (fin : Finalized H D) (bs : List (Produced H D))
    (out : Produced H D → BlockOutput H) (c : Chain H D) : Prop where
  allocated : Allocated c
  wellFormed : WellFormed K c
  linked : Linked c.forktrees
  final : c.finalized = fin
  forest : ∀ n ∈ nodesL c.forktrees, block n ∈ bs ∧ n.label.value.block.output = out (block n)
  orphans : ∀ b ∈ orphanBlocks c.orphans.blocks, b ∈ bs
  hung : OrphanNode.Hung K c.orphans.blocks
  keys : (c.orphans.blocks.map fun t => (OrphanNode.block t).parent).Nodup

/-- No tree of orphans waits for a parent that is known. -/
def Waiting (K : Config H D) (c : Chain H D) : Prop :=
  ∀ t ∈ c.orphans.blocks, (OrphanNode.block t).parent ∉ known K c

theorem mem_known {h : H} :
    h ∈ known K c ↔ (∃ n ∈ nodesL c.forktrees, hash K n = h) ∨ c.finalized.hash K = h := by
  change c.knows K h = true ↔ _
  unfold knows
  rw [Bool.or_eq_true, decide_eq_true_iff, TreeNode.get, List.find?_isSome]
  simp

theorem mem_known_iff_hashes {h : H} : h ∈ known K c ↔
    h ∈ ((nodesL c.forktrees).map block).map K.hash ∨ c.finalized.hash K = h := by
  rw [mem_known, List.map_map, List.mem_map]
  rfl

/-- One more block in the forest is one more hash that is known. -/
theorem mem_known_of_perm (hfinal : c'.finalized = c.finalized)
    (hforest : ((nodesL c'.forktrees).map block).Perm (b :: (nodesL c.forktrees).map block))
    (y : H) : y ∈ known K c' ↔ y ∈ known K c ∨ y = K.hash b := by
  rw [mem_known_iff_hashes, mem_known_iff_hashes, hfinal, (hforest.map K.hash).mem_iff,
    List.map_cons, List.mem_cons]
  tauto

/-- What is known depends on the forest and the final block only. -/
theorem known_congr (hsame : SameForest c c') : known K c' = known K c := by
  ext h
  rw [mem_known, mem_known, hsame.forktrees, hsame.finalized]

/-- A move that leaves the final block and the orphans keeps the chain on
its way, if the forest keeps to the tree. -/
theorem Growing.move (h : Growing K fin bs out c) (hm : Move K Set.univ False c c')
    (hfinal : c'.finalized = c.finalized) (horphans : c'.orphans = c.orphans)
    (hforest : ∀ n ∈ nodesL c'.forktrees,
      block n ∈ bs ∧ n.label.value.block.output = out (block n)) :
    Growing K fin bs out c' where
  allocated := allocated_of_move hm h.allocated
  wellFormed := wellFormed_of_move hm h.allocated h.wellFormed
  linked := (linked_iff_of_move hm).2 h.linked
  final := hfinal.trans h.final
  forest := hforest
  orphans := horphans ▸ h.orphans
  hung := horphans ▸ h.hung
  keys := horphans ▸ h.keys

theorem Growing.congr (h : Growing K fin bs out c) (hsame : SameForest c c')
    (horphans : c'.orphans = c.orphans) : Growing K fin bs out c' :=
  h.move (.idle hsame) hsame.finalized horphans (hsame.forktrees ▸ h.forest)

/-- Other orphans, of the tree as well. -/
theorem Growing.withOrphans (h : Growing K fin bs out c) {o : Orphans H D}
    (horphans : ∀ b ∈ orphanBlocks o.blocks, b ∈ bs) (hung : OrphanNode.Hung K o.blocks)
    (hkeys : (o.blocks.map fun t => (OrphanNode.block t).parent).Nodup) :
    Growing K fin bs out (c.withOrphans o) := by
  have hm : Move K Set.univ False c (c.withOrphans o) := .idle ⟨rfl, rfl, rfl, rfl, rfl⟩
  exact ⟨allocated_of_move hm h.allocated, wellFormed_of_move hm h.allocated h.wellFormed,
    h.linked, h.final, h.forest, horphans, hung, hkeys⟩

omit [DecidableEq H] in
theorem growing_new : Growing K fin bs out (Chain.new fin) where
  allocated := allocated_new fin
  wellFormed := wellFormed_new fin
  linked := linked_new fin
  final := rfl
  forest := fun _ hn => absurd hn List.not_mem_nil
  orphans := fun _ hb => absurd hb List.not_mem_nil
  hung := fun _ hn => absurd hn List.not_mem_nil
  keys := List.nodup_nil

/-! ## A block whose parent is known -/

omit [DecidableEq H] in
/-- The path above a node is the lineage of its block. -/
theorem Growing.lineage (h : Growing K fin bs out c) {n : TreeNode H D} {l : List (TreeNode H D)}
    (hpath : Path c.forktrees (n :: l)) : Lineage K fin bs (block n) (l.map block) := by
  generalize hk : n :: l = k at hpath
  induction hpath generalizing n l with
  | root hr =>
    obtain ⟨rfl, rfl⟩ := List.cons.inj hk
    obtain ⟨hparent, hheight⟩ := h.wellFormed.roots n hr
    rw [h.final] at hparent hheight
    exact .root (h.forest n (Rose.mem_nodesL_of_mem hr)).1 hparent hheight
  | @step m q k hq hc ih =>
    obtain ⟨rfl, rfl⟩ := List.cons.inj hk
    have hmem := hq.mem_nodesL q List.mem_cons_self
    obtain ⟨hparent, hheight⟩ := h.wellFormed.children q hmem n hc
    exact .child (h.forest n (Rose.mem_nodesL_of_mem_children hmem hc)).1 (ih rfl) hparent hheight

omit [DecidableEq H] in
/-- The state of a node is what its lineage leaves. -/
theorem Growing.state_eq (h : Growing K fin bs out c) {n : TreeNode H D}
    {l : List (TreeNode H D)} (hpath : Path c.forktrees (n :: l)) :
    TreeNode.state c.forktrees n =
      cascade ((block n :: l.map block).map fun p => (out p).state) := by
  have hout : ∀ m ∈ n :: l, TreeNode.diff m = (out (block m)).state := by
    intro m hm
    rw [TreeNode.diff, (h.forest m (hpath.mem_nodesL m hm)).2]
  have hmap : (n :: l).map TreeNode.diff =
      (block n :: l.map block).map fun p => (out p).state := by
    rw [← List.map_cons (f := block), List.map_map]
    exact List.map_congr_left hout
  rw [state_eq_cascade, path_eq h.allocated.located h.linked n l hpath, hmap]

omit [DecidableEq H] in
private theorem map_block_eq (f : List (TreeNode H D)) :
    (nodesL f).map block = (labels f).map fun a => a.value.block.underlying := by
  rw [labels, List.map_map]
  rfl

omit [DecidableEq H] in
/-- A block of the tree passes the checks of `include`. -/
theorem Growing.admits (T : BlockTree K fin bs out) (h : Growing K fin bs out c) (hb : b ∈ bs) :
    c.admits K b = true := by
  obtain ⟨l, hl⟩ := T.lineage b hb
  obtain ⟨hsign, stake, hstake, hmin⟩ := T.signed b hb
  have hlt := hl.height_lt
  unfold Chain.admits
  rw [hstake]
  simp [hmin, h.final, hlt, hsign]

/-- A block executes on the node of its parent as it does in the tree. -/
theorem Growing.newExecuted_eq (T : BlockTree K fin bs out) (h : Growing K fin bs out c)
    (hb : b ∈ bs) {n : TreeNode H D} (hn : n ∈ nodesL c.forktrees)
    (hparent : b.parent = hash K n) :
    K.newExecuted (overlayed c.finalized.store.get (TreeNode.state c.forktrees n)) b =
      .ok { underlying := b, output := out b } := by
  obtain ⟨l, hl⟩ := Rose.exists_path hn
  have hlineage : Lineage K fin bs b (block n :: l.map block) :=
    .child hb (h.lineage hl) hparent (T.height_eq hb (h.forest n hn).1 hparent)
  obtain ⟨hexec, houtput⟩ := T.valid b _ hlineage
  rw [Config.newExecuted, h.final, h.state_eq hl, hexec]
  simp [houtput]

/-- A block on top of the final one executes there as it does in the
tree. -/
theorem Growing.newExecuted_root (T : BlockTree K fin bs out) (h : Growing K fin bs out c)
    (hb : b ∈ bs) (hroot : b.parent = c.finalized.hash K) :
    b.height = c.finalized.height + 1 ∧
      K.newExecuted c.finalized.store.get b = .ok { underlying := b, output := out b } := by
  rw [h.final] at hroot
  rcases T.parent_cases hb with ⟨hparent, hheight⟩ | ⟨p, hp, hparent⟩
  · obtain ⟨hexec, houtput⟩ := T.valid b [] (.root hb hparent hheight)
    have hstore : overlayed fin.store.get (cascade []) = fin.store.get := rfl
    rw [List.map_nil, hstore] at hexec
    rw [h.final, Config.newExecuted, hexec]
    exact ⟨hheight, by simp [houtput]⟩
  · exact absurd (hparent.symm.trans hroot) (T.unfinal p hp)

/-- **A block whose parent is known is included.** -/
theorem tryInclude_known (T : BlockTree K fin bs out) (h : Growing K fin bs out c) (hb : b ∈ bs)
    (hparent : b.parent ∈ known K c) (hnew : K.hash b ∉ known K c) :
    ∃ c', c.tryInclude K b = .ok (some c') ∧ Growing K fin bs out c' ∧ c'.orphans = c.orphans ∧
      ((nodesL c'.forktrees).map block).Perm (b :: (nodesL c.forktrees).map block) := by
  have hfresh : c.knows K (K.hash b) = false := by
    simpa [known] using hnew
  have hadm := h.admits T hb
  unfold tryInclude
  rw [if_neg (by simp [hfresh])]
  by_cases hroot : b.parent = c.finalized.hash K
  · obtain ⟨hheight, hx⟩ := h.newExecuted_root T hb hroot
    rw [if_pos hroot, if_neg (not_not.2 hheight), hx]
    refine ⟨_, rfl, h.move (.root (Set.mem_univ b) hadm hfresh hroot hheight hx) rfl rfl ?_, rfl,
      ?_⟩
    · intro n hn
      change n ∈ nodesL (c.forktrees ++ [TreeNode.leaf c.nextLoc _ none]) at hn
      rw [Rose.nodesL_append, List.mem_append] at hn
      rcases hn with hn | hn
      · exact h.forest n hn
      · obtain rfl : n = TreeNode.leaf c.nextLoc { underlying := b, output := out b } none := by
          simpa [TreeNode.leaf, Rose.nodes_node] using hn
        exact ⟨hb, rfl⟩
    · change ((nodesL (c.forktrees ++ [TreeNode.leaf c.nextLoc _ none])).map block).Perm _
      rw [Rose.nodesL_append, List.map_append]
      exact List.perm_append_comm
  · obtain ⟨n, hget⟩ : ∃ n, TreeNode.get K c.forktrees b.parent = some n := by
      rcases mem_known.1 hparent with ⟨n, hn, hhash⟩ | hfinal
      · exact ⟨n, hhash ▸ TreeNode.get_of_mem h.wellFormed.hashed hn⟩
      · exact absurd hfinal.symm hroot
    obtain ⟨hn, hhash⟩ := TreeNode.get_some hget
    have hheight := T.height_eq hb (h.forest n hn).1 hhash.symm
    have hx := h.newExecuted_eq T hb hn hhash.symm
    simp only [if_neg hroot, hget, if_neg (not_not.2 hheight), hx]
    refine ⟨_, rfl, h.move (.child (Set.mem_univ b) hadm hfresh hget hheight hx) rfl rfl ?_, rfl,
      ?_⟩
    · intro m hm
      rcases (TreeNode.mem_addChild hn).1 hm with ⟨m', hm', rfl⟩ | rfl
      · rw [TreeNode.block_grown, TreeNode.label_grown]
        exact h.forest m' hm'
      · exact ⟨hb, rfl⟩
    · rw [map_block_eq, map_block_eq]
      exact (TreeNode.labels_addChild h.allocated.located hn).map _

/-! ## What waited for it -/

/-- From `c` to `c'` the blocks `xs` came in, and none was lost. -/
structure Grows (K : Config H D) (fin : Finalized H D) (bs : List (Produced H D))
    (out : Produced H D → BlockOutput H) (xs : List (Produced H D)) (c c' : Chain H D) : Prop where
  growing : Growing K fin bs out c'
  waiting : Waiting K c'
  held : (held c').Perm (xs ++ Chain.held c)
  size : c'.orphans.size ≤ c.orphans.size
  known : ∀ h, h ∈ Chain.known K c ∨ h ∈ xs.map K.hash → h ∈ Chain.known K c'

/-- The tree of orphans that waits for `h` is taken out; what is left waits
for other parents. -/
theorem consumeBlocks_growing (h : Growing K fin bs out c) {x : H}
    (hwait : ∀ t ∈ c.orphans.blocks, (OrphanNode.block t).parent ∈ known K c →
      (OrphanNode.block t).parent = x) (hx : x ∈ known K c) :
    let r := c.orphans.consumeBlocks x
    Growing K fin bs out (c.withOrphans r.2) ∧ Waiting K (c.withOrphans r.2) ∧
      OrphanNode.Ready K (known K c) r.1 ∧
      (r.1 ++ orphanBlocks r.2.blocks).Perm (orphanBlocks c.orphans.blocks) ∧
      (r.1 ≠ [] → r.2.size < c.orphans.size) := by
  dsimp only
  have hsame : SameForest c (c.withOrphans (c.orphans.consumeBlocks x).2) :=
    ⟨rfl, rfl, rfl, rfl, rfl⟩
  cases hfind : c.orphans.blocks.find? fun t => t.block.parent = x with
  | none =>
    have hnone : c.orphans.consumeBlocks x = ([], c.orphans) := by
      unfold Orphans.consumeBlocks
      rw [hfind]
    rw [hnone] at hsame ⊢
    refine ⟨h.congr hsame rfl, fun t ht hknown => ?_, .nil, List.Perm.refl _,
      fun hne => absurd rfl hne⟩
    rw [known_congr hsame] at hknown
    have hne := List.find?_eq_none.1 hfind t ht
    exact hne (by simpa using hwait t ht hknown)
  | some t =>
    obtain ⟨hflat, hperm⟩ := Orphans.consumeBlocks_perm h.keys hfind
    have hkey : t.block.parent = x := by simpa using List.find?_some hfind
    have hleft : (c.orphans.consumeBlocks x).2.blocks =
        c.orphans.blocks.filter fun t => t.block.parent ≠ x := by
      unfold Orphans.consumeBlocks
      rw [hfind]
    have hsub : ∀ s ∈ (c.orphans.consumeBlocks x).2.blocks, s ∈ c.orphans.blocks := by
      intro s hs
      exact hperm.mem_iff.2 (List.mem_cons_of_mem _ hs)
    have hblocks : (t.flatten ++ orphanBlocks (c.orphans.consumeBlocks x).2.blocks).Perm
        (orphanBlocks c.orphans.blocks) := by
      refine List.Perm.trans ?_ (OrphanNode.orphanBlocks_perm hperm).symm
      rw [← List.singleton_append, OrphanNode.orphanBlocks_append]
      exact t.flatten_perm.append_right _
    refine ⟨h.withOrphans (fun b hb => ?_) (fun s hs => ?_) ?_, fun s hs hknown => ?_, ?_,
      hflat ▸ hblocks, fun _ => ?_⟩
    · exact h.orphans b (Orphans.mem_consumeBlocks.2 b hb)
    · obtain ⟨u, hu, hsu⟩ := Rose.mem_nodesL.1 hs
      exact h.hung s (Rose.mem_nodesL.2 ⟨u, hsub u hu, hsu⟩)
    · have hkeys := (hperm.map fun t => (OrphanNode.block t).parent).nodup_iff.1 h.keys
      exact (List.nodup_cons.1 hkeys).2
    · rw [known_congr hsame] at hknown
      have hmem : s ∈ c.orphans.blocks.filter fun t => t.block.parent ≠ x := hleft ▸ hs
      have hne : (OrphanNode.block s).parent ≠ x := by simpa using (List.mem_filter.1 hmem).2
      exact hne (hwait s (hsub s hs) hknown)
    · rw [hflat]
      refine (OrphanNode.ready_flatten fun s hs => h.hung s ?_).mono ?_
      · refine Rose.mem_nodesL.2 ⟨t, List.mem_of_find?_eq_some hfind, ?_⟩
        simpa using hs
      · rw [hkey]
        exact Set.singleton_subset_iff.2 hx
    · have hlen := (OrphanNode.orphanBlocks_perm hperm).length_eq
      rw [OrphanNode.orphanBlocks_cons, OrphanNode.length_orphanBlocks, List.length_cons,
        List.length_append, OrphanNode.length_orphanBlocks, OrphanNode.length_orphanBlocks] at hlen
      unfold Orphans.size
      omega

/-- A list of blocks, each with its parent before it or known, one after
the other. -/
theorem foldl_known {now fuel : ℕ}
    (hone : ∀ (c : Chain H D) (b : Produced H D), Growing K fin bs out c → Waiting K c → b ∈ bs →
      b.parent ∈ known K c → ((b :: held c).map K.hash).Nodup → c.orphans.size < fuel →
      Grows K fin bs out [b] c (includeFrom K now fuel c b))
    {xs : List (Produced H D)} (h : Growing K fin bs out c) (hwait : Waiting K c)
    (hxs : ∀ x ∈ xs, x ∈ bs) (hready : OrphanNode.Ready K (known K c) xs)
    (hnodup : ((xs ++ held c).map K.hash).Nodup) (hsize : c.orphans.size < fuel) :
    Grows K fin bs out xs c (xs.foldl (includeFrom K now fuel) c) := by
  induction xs generalizing c with
  | nil => exact ⟨h, hwait, List.Perm.refl _, le_rfl, fun y hy => by simpa using hy⟩
  | cons x xs ih =>
    cases hready with
    | cons hparent hrest =>
      have hfirst : ((x :: held c).map K.hash).Nodup := by
        refine hnodup.sublist (List.Sublist.map _ ?_)
        exact (List.sublist_append_right xs (held c)).cons_cons x
      have hx := hone c x h hwait (hxs x List.mem_cons_self) hparent hfirst hsize
      have hready' : OrphanNode.Ready K (known K (includeFrom K now fuel c x)) xs := by
        refine hrest.mono ?_
        rintro y (hy | rfl)
        · exact hx.known y (Or.inl hy)
        · exact hx.known _ (Or.inr (by simp))
      have hmiddle : (xs ++ held (includeFrom K now fuel c x)).Perm (x :: xs ++ held c) :=
        (hx.held.append_left xs).trans List.perm_middle
      have hnodup' := ((hmiddle.map K.hash).nodup_iff).2 hnodup
      have hgrows := ih hx.growing hx.waiting (fun y hy => hxs y (List.mem_cons_of_mem _ hy))
        hready' hnodup' (hx.size.trans_lt hsize)
      refine ⟨hgrows.growing, hgrows.waiting, hgrows.held.trans hmiddle,
        hgrows.size.trans hx.size, fun y hy => ?_⟩
      rcases hy with hy | hy
      · exact hgrows.known y (Or.inl (hx.known y (Or.inl hy)))
      · rcases List.mem_cons.1 hy with rfl | hy
        · exact hgrows.known _ (Or.inl (hx.known _ (Or.inr (by simp))))
        · exact hgrows.known y (Or.inr hy)

omit [DecidableEq H] in
private theorem hash_notMem_known (T : BlockTree K fin bs out) [DecidableEq H]
    (h : Growing K fin bs out c) (hb : b ∈ bs) (hnodup : ((b :: held c).map K.hash).Nodup) :
    K.hash b ∉ known K c := by
  intro hknown
  rcases mem_known.1 hknown with ⟨n, hn, hhash⟩ | hfinal
  · rw [List.map_cons, List.nodup_cons] at hnodup
    refine hnodup.1 (hhash ▸ List.mem_map.2 ⟨block n, ?_, rfl⟩)
    exact List.mem_append_left _ (List.mem_map_of_mem hn)
  · rw [h.final] at hfinal
    exact T.unfinal b hb hfinal.symm

/-- **A block whose parent is known comes in, with all that waited for it.** -/
theorem includeFrom_known (T : BlockTree K fin bs out) {now fuel : ℕ} :
    ∀ (c : Chain H D) (b : Produced H D), Growing K fin bs out c → Waiting K c → b ∈ bs →
      b.parent ∈ known K c → ((b :: held c).map K.hash).Nodup → c.orphans.size < fuel →
      Grows K fin bs out [b] c (includeFrom K now fuel c b) := by
  induction fuel with
  | zero =>
    intro c b _ _ _ _ _ hsize
    omega
  | succ fuel ih =>
    intro c b h hwait hb hparent hnodup hsize
    have hfresh := hash_notMem_known T h hb hnodup
    obtain ⟨c₁, htry, h₁, horphans₁, hforest₁⟩ := tryInclude_known T h hb hparent hfresh
    obtain ⟨hsame, horphans⟩ := sameForest_voteIfHead (K := K) (c := c₁) (K.hash b)
    have h₂ := h₁.congr hsame horphans
    -- what is known now is what was known, and the block
    have hknown : ∀ y, y ∈ known K (c₁.voteIfHead K (K.hash b)) ↔ y ∈ known K c ∨ y = K.hash b := by
      intro y
      rw [known_congr hsame]
      exact mem_known_of_perm (h₁.final.trans h.final.symm) hforest₁ y
    obtain ⟨h₃, hwait₃, hready, hblocks, hless⟩ := consumeBlocks_growing h₂ (x := K.hash b)
      (fun t ht htknown => by
        rw [horphans, horphans₁] at ht
        exact ((hknown _).1 htknown).resolve_left (hwait t ht)) ((hknown _).2 (Or.inr rfl))
    have hsize₂ : (c₁.voteIfHead K (K.hash b)).orphans.size = c.orphans.size := by
      rw [horphans, horphans₁]
    have hheld : (((c₁.voteIfHead K (K.hash b)).orphans.consumeBlocks (K.hash b)).1 ++
        held ((c₁.voteIfHead K (K.hash b)).withOrphans
          ((c₁.voteIfHead K (K.hash b)).orphans.consumeBlocks (K.hash b)).2)).Perm
        ([b] ++ held c) := by
      refine List.perm_append_comm_assoc _ _ _ |>.trans ?_
      rw [horphans, horphans₁] at hblocks
      rw [horphans, horphans₁]
      refine (hblocks.append_left _).trans ?_
      change (((nodesL (c₁.voteIfHead K (K.hash b)).forktrees).map block) ++ _).Perm _
      rw [hsame.forktrees]
      exact hforest₁.append_right _
    simp only [includeFrom, if_pos (h.admits T hb), htry]
    revert hblocks hready hheld hless hwait₃ h₃
    generalize (c₁.voteIfHead K (K.hash b)).orphans.consumeBlocks (K.hash b) = r
    intro h₃ hwait₃ hready hblocks hless hheld
    have hknown₃ : known K ((c₁.voteIfHead K (K.hash b)).withOrphans r.2) =
        known K (c₁.voteIfHead K (K.hash b)) := known_congr ⟨rfl, rfl, rfl, rfl, rfl⟩
    by_cases hnil : r.1 = []
    · rw [hnil] at hheld ⊢
      refine ⟨h₃, hwait₃, hheld, ?_, fun y hy => ?_⟩
      · have hlen := hblocks.length_eq
        rw [hnil, List.nil_append, OrphanNode.length_orphanBlocks,
          OrphanNode.length_orphanBlocks] at hlen
        exact (hlen.trans hsize₂).le
      · rw [List.foldl_nil, hknown₃, hknown]
        simpa using hy
    · have hless := hless hnil
      have hgrows := foldl_known ih h₃ hwait₃ (fun x hx => ?_) (hknown₃ ▸ hready)
        ((hheld.map K.hash).nodup_iff.2 hnodup) (show r.2.size < fuel by omega)
      · refine ⟨hgrows.growing, hgrows.waiting, hgrows.held.trans hheld,
          hgrows.size.trans (show r.2.size ≤ c.orphans.size by omega), fun y hy => ?_⟩
        refine hgrows.known y (Or.inl ?_)
        rw [hknown₃, hknown]
        simpa using hy
      · exact h₂.orphans x (hblocks.mem_iff.1 (List.mem_append_left _ hx))

/-! ## A block whose parent is not known -/

theorem include_unknown (T : BlockTree K fin bs out) (now : ℕ) (h : Growing K fin bs out c)
    (hb : b ∈ bs) (hnew : K.hash b ∉ known K c) (hparent : b.parent ∉ known K c) :
    c.include K now b = c.withOrphans (c.orphans.addBlock K now b) := by
  have hknows : c.knows K (K.hash b) = false := by simpa [known] using hnew
  have hroot : b.parent ≠ c.finalized.hash K := fun heq =>
    hparent (mem_known.2 (Or.inr heq.symm))
  have hget : TreeNode.get K c.forktrees b.parent = none := by
    rw [TreeNode.get_none]
    intro n hn hhash
    exact hparent (mem_known.2 (Or.inl ⟨n, hn, hhash⟩))
  have htry : c.tryInclude K b = .ok none := by
    unfold tryInclude
    rw [hknows, if_neg Bool.false_ne_true, if_neg hroot, hget]
  unfold «include»
  simp only [includeFrom, if_pos (h.admits T hb), htry]

private theorem waiting_withOrphans {o : Orphans H D}
    (hroots : ∀ t ∈ o.blocks, (OrphanNode.block t).parent ∉ known K c) :
    Waiting K (c.withOrphans o) := by
  intro t ht
  have hsame : SameForest c (c.withOrphans o) := ⟨rfl, rfl, rfl, rfl, rfl⟩
  rw [known_congr hsame]
  exact hroots t ht

/-- **A block goes under its parent where that waits already.** -/
theorem include_waiting_parent (T : BlockTree K fin bs out) (now : ℕ)
    (h : Growing K fin bs out c) (hwait : Waiting K c) (hb : b ∈ bs)
    (hnodup : ((b :: held c).map K.hash).Nodup) (hparent : b.parent ∉ known K c)
    (hp : p ∈ orphanBlocks c.orphans.blocks) (hbp : b.parent = K.hash p) :
    Growing K fin bs out (c.include K now b) ∧ Waiting K (c.include K now b) ∧
      (held (c.include K now b)).Perm (b :: held c) := by
  rw [include_unknown T now h hb (hash_notMem_known T h hb hnodup) hparent]
  have hsome : (OrphanNode.insertL K now b c.orphans.blocks).isSome = true := by
    refine OrphanNode.insertL_isSome (fun n hn m hm => ?_) (fun n hn hbn => ?_) ?_
    · have hn' := h.orphans _ (OrphanNode.mem_orphanBlocks_iff.2 ⟨n, hn, rfl⟩)
      have hm' := h.orphans _ (OrphanNode.mem_orphanBlocks_iff.2
        ⟨m, Rose.mem_nodesL_of_mem_children hn hm, rfl⟩)
      have := T.height_eq hm' hn' (h.hung n hn m hm)
      omega
    · have hn' := h.orphans _ (OrphanNode.mem_orphanBlocks_iff.2 ⟨n, hn, rfl⟩)
      have := T.height_eq hb hn' hbn
      omega
    · obtain ⟨t, ht, rfl⟩ := OrphanNode.mem_orphanBlocks_iff.1 hp
      exact ⟨t, ht, hbp⟩
  obtain ⟨blocks, hins⟩ := Option.isSome_iff_exists.1 hsome
  have hadd : c.orphans.addBlock K now b = { c.orphans with blocks := blocks } := by
    unfold Orphans.addBlock
    rw [hins]
  obtain ⟨hlabels, hspec⟩ := OrphanNode.insertL_spec hins
  have hperm : (orphanBlocks blocks).Perm (b :: orphanBlocks c.orphans.blocks) := by
    rcases hspec with hperm | ⟨-, hdup⟩
    · exact hperm
    · rw [List.map_cons, List.nodup_cons, held, List.map_append] at hnodup
      exact absurd (List.mem_append_right _ hdup) hnodup.1
  have hparents : (blocks.map fun t => (OrphanNode.block t).parent) =
      c.orphans.blocks.map fun t => (OrphanNode.block t).parent := by
    have hmap := congrArg (List.map fun a : OrphanCell H D => a.block.parent) hlabels
    rwa [List.map_map, List.map_map] at hmap
  rw [hadd]
  refine ⟨h.withOrphans (fun x hx => ?_) (OrphanNode.hung_insertL hins h.hung) ?_,
    waiting_withOrphans fun t ht => ?_, ?_⟩
  · rcases List.mem_cons.1 (hperm.mem_iff.1 hx) with rfl | hx
    · exact hb
    · exact h.orphans x hx
  · rw [hparents]
    exact h.keys
  · have hmem : (OrphanNode.block t).parent ∈
        c.orphans.blocks.map fun t => (OrphanNode.block t).parent := by
      rw [← hparents]
      exact List.mem_map_of_mem (f := fun t => (OrphanNode.block t).parent) ht
    obtain ⟨s, hs, heq⟩ := List.mem_map.1 hmem
    rw [← heq]
    exact hwait s hs
  · exact (hperm.append_left _).trans List.perm_middle

/-- **The first to wait for its parent becomes a tree of orphans.** -/
theorem include_first_waiting (T : BlockTree K fin bs out) (now : ℕ)
    (h : Growing K fin bs out c) (hwait : Waiting K c) (hb : b ∈ bs)
    (hnodup : ((b :: held c).map K.hash).Nodup) (hparent : b.parent ∉ known K c)
    (habsent : ∀ t ∈ nodesL c.orphans.blocks, b.parent ≠ K.hash (OrphanNode.block t))
    (hfirst : ∀ t ∈ c.orphans.blocks, (OrphanNode.block t).parent ≠ b.parent) :
    Growing K fin bs out (c.include K now b) ∧ Waiting K (c.include K now b) ∧
      (held (c.include K now b)).Perm (b :: held c) := by
  rw [include_unknown T now h hb (hash_notMem_known T h hb hnodup) hparent]
  have hadd : c.orphans.addBlock K now b = { c.orphans with
      blocks := K.order (c.orphans.blocks ++ [.node { arrived := now, block := b } []]) } := by
    unfold Orphans.addBlock
    rw [OrphanNode.insertL_none habsent]
    refine if_neg fun hany => ?_
    obtain ⟨t, ht, heq⟩ := List.any_eq_true.1 hany
    exact hfirst t ht (by simpa using heq)
  have hperm := K.order_perm (c.orphans.blocks ++ [.node { arrived := now, block := b } []])
  have hblocks : (orphanBlocks (K.order (c.orphans.blocks ++
      [.node { arrived := now, block := b } []]))).Perm (b :: orphanBlocks c.orphans.blocks) := by
    refine (OrphanNode.orphanBlocks_perm hperm).trans ?_
    rw [OrphanNode.orphanBlocks_append]
    exact List.perm_append_comm
  have hmem : ∀ t ∈ K.order (c.orphans.blocks ++ [.node { arrived := now, block := b } []]),
      t ∈ c.orphans.blocks ∨ t = .node { arrived := now, block := b } [] := by
    intro t ht
    simpa using hperm.mem_iff.1 ht
  rw [hadd]
  refine ⟨h.withOrphans (fun x hx => ?_) (fun s hs m hm => ?_) ?_,
    waiting_withOrphans fun t ht => ?_, (hblocks.append_left _).trans List.perm_middle⟩
  · rcases List.mem_cons.1 (hblocks.mem_iff.1 hx) with rfl | hx
    · exact hb
    · exact h.orphans x hx
  · obtain ⟨t, ht, hst⟩ := Rose.mem_nodesL.1 hs
    rcases hmem t ht with ht | rfl
    · exact h.hung s (Rose.mem_nodesL.2 ⟨t, ht, hst⟩) m hm
    · obtain rfl : s = .node { arrived := now, block := b } [] := by
        simpa [Rose.nodes_node] using hst
      cases hm
  · rw [(hperm.map _).nodup_iff, List.map_append, List.nodup_append]
    refine ⟨h.keys, by simp, fun x hx y hy => ?_⟩
    obtain ⟨t, ht, rfl⟩ := List.mem_map.1 hx
    obtain rfl : y = b.parent := by simpa [OrphanNode.block] using hy
    exact hfirst t ht
  · rcases hmem t ht with ht | rfl
    · exact hwait t ht
    · exact hparent

/-- **A second block that waits for the same parent is lost.** -/
theorem include_second_waiting (T : BlockTree K fin bs out) (now : ℕ)
    (h : Growing K fin bs out c) (hb : b ∈ bs) (hnew : K.hash b ∉ known K c)
    (hparent : b.parent ∉ known K c)
    (habsent : ∀ t ∈ nodesL c.orphans.blocks, b.parent ≠ K.hash (OrphanNode.block t))
    (hsecond : ∃ t ∈ c.orphans.blocks, (OrphanNode.block t).parent = b.parent) :
    c.include K now b = c := by
  rw [include_unknown T now h hb hnew hparent]
  unfold Orphans.addBlock
  obtain ⟨t, ht, heq⟩ := hsecond
  have hany : (c.orphans.blocks.any fun t => t.block.parent = b.parent) = true :=
    List.any_eq_true.2 ⟨t, ht, by simpa using heq⟩
  rw [OrphanNode.insertL_none habsent, hany]
  rfl

/-! ## All of them -/

/-- Blocks that arrive one after the other, each at some time. -/
def arrivals (order : List (ℕ × Produced H D)) : List (Input H D) :=
  order.map fun a => .include a.1 a.2

/-- Another child of its parent arrived before the block, and the parent
comes after it. -/
def Crowded (K : Config H D) (before : List (Produced H D)) (b : Produced H D)
    (after : List (Produced H D)) : Prop :=
  ∃ x ∈ before, ∃ p ∈ after, x.parent = K.hash p ∧ b.parent = K.hash p

section Arrive

variable {before after : List (Produced H D)}

omit [DecidableEq H] in
/-- What has not arrived is not held. -/
private theorem hash_ne_of_held (hnodup : ((before ++ b :: after).map K.hash).Nodup)
    (hheld : (held c).Perm before) (hp : p ∈ b :: after) : ∀ x ∈ held c, K.hash x ≠ K.hash p := by
  intro x hx heq
  rw [List.map_append, List.nodup_append] at hnodup
  exact hnodup.2.2 (K.hash x) (List.mem_map_of_mem (hheld.mem_iff.1 hx)) (K.hash p)
    (List.mem_map_of_mem hp) heq

omit [DecidableEq H] in
private theorem nodup_cons_held (hnodup : ((before ++ b :: after).map K.hash).Nodup)
    (hheld : (held c).Perm before) : ((b :: held c).map K.hash).Nodup := by
  rw [List.map_cons, List.nodup_cons]
  constructor
  · intro hmem
    obtain ⟨x, hx, heq⟩ := List.mem_map.1 hmem
    exact hash_ne_of_held hnodup hheld List.mem_cons_self x hx heq
  · rw [(hheld.map K.hash).nodup_iff]
    rw [List.map_append, List.nodup_append] at hnodup
    exact hnodup.1

/-- A parent that has not arrived is neither known nor waiting. -/
private theorem later_unknown (T : BlockTree K fin (before ++ b :: after) out)
    (h : Growing K fin (before ++ b :: after) out c) (hheld : (held c).Perm before)
    (hp : p ∈ after) : K.hash p ∉ known K c ∧
      ∀ t ∈ nodesL c.orphans.blocks, K.hash p ≠ K.hash (OrphanNode.block t) := by
  have hne := hash_ne_of_held T.hashes hheld (List.mem_cons_of_mem b hp)
  constructor
  · intro hknown
    rcases mem_known.1 hknown with ⟨n, hn, hhash⟩ | hfinal
    · exact hne (block n) (List.mem_append_left _ (List.mem_map_of_mem hn)) hhash
    · rw [h.final] at hfinal
      exact T.unfinal p (by simp [hp]) hfinal.symm
  · intro t ht heq
    exact hne (OrphanNode.block t)
      (List.mem_append_right _ (OrphanNode.mem_orphanBlocks_iff.2 ⟨t, ht, rfl⟩)) heq.symm

/-- **A block that is not crowded out is kept.** -/
theorem include_kept (T : BlockTree K fin (before ++ b :: after) out) (now : ℕ)
    (h : Growing K fin (before ++ b :: after) out c) (hwait : Waiting K c)
    (hheld : (held c).Perm before) (hfree : ¬ Crowded K before b after) :
    Growing K fin (before ++ b :: after) out (c.include K now b) ∧
      Waiting K (c.include K now b) ∧ (held (c.include K now b)).Perm (before ++ [b]) := by
  have hb : b ∈ before ++ b :: after := by simp
  have hnodup := nodup_cons_held T.hashes hheld
  have hlast : (b :: held c).Perm (before ++ [b]) :=
    (hheld.cons b).trans (List.perm_append_singleton b before).symm
  by_cases hparent : b.parent ∈ known K c
  · have hgrows : Grows K fin (before ++ b :: after) out [b] c (c.include K now b) :=
      includeFrom_known T c b h hwait hb hparent hnodup (Nat.lt_succ_self c.orphans.size)
    exact ⟨hgrows.growing, hgrows.waiting, hgrows.held.trans hlast⟩
  · obtain ⟨p, hp, hbp⟩ : ∃ p ∈ before ++ b :: after, b.parent = K.hash p := by
      rcases T.parent_cases hb with ⟨hfinal, -⟩ | hex
      · rw [← h.final] at hfinal
        exact absurd (mem_known.2 (Or.inr hfinal.symm)) hparent
      · exact hex
    have hheight := T.height_eq hb hp hbp
    rcases List.mem_append.1 hp with hp | hp
    · -- the parent arrived, so it waits as well
      rcases List.mem_append.1 (hheld.mem_iff.2 hp) with hp | hp
      · obtain ⟨n, hn, rfl⟩ := List.mem_map.1 hp
        exact absurd (mem_known.2 (Or.inl ⟨n, hn, hbp.symm⟩)) hparent
      · obtain ⟨hgrow, hwait', hheld'⟩ :=
          include_waiting_parent T now h hwait hb hnodup hparent hp hbp
        exact ⟨hgrow, hwait', hheld'.trans hlast⟩
    · rcases List.mem_cons.1 hp with rfl | hp
      · omega
      · obtain ⟨-, habsent⟩ := later_unknown T h hheld hp
        have hfirst : ∀ t ∈ c.orphans.blocks, (OrphanNode.block t).parent ≠ b.parent := by
          intro t ht heq
          refine hfree ⟨OrphanNode.block t, hheld.mem_iff.1 (List.mem_append_right _ ?_), p, hp,
            heq.trans hbp, hbp⟩
          exact OrphanNode.mem_orphanBlocks_iff.2 ⟨t, Rose.mem_nodesL_of_mem ht, rfl⟩
        obtain ⟨hgrow, hwait', hheld'⟩ := include_first_waiting T now h hwait hb hnodup
          hparent (fun t ht => hbp ▸ habsent t ht) hfirst
        exact ⟨hgrow, hwait', hheld'.trans hlast⟩

/-- **A block that is crowded out is lost.** -/
theorem include_lost (T : BlockTree K fin (before ++ b :: after) out) (now : ℕ)
    (h : Growing K fin (before ++ b :: after) out c) (hheld : (held c).Perm before)
    (hcrowded : Crowded K before b after) : c.include K now b = c := by
  obtain ⟨x, hx, p, hp, hxp, hbp⟩ := hcrowded
  obtain ⟨hunknown, habsent⟩ := later_unknown T h hheld hp
  have hnew := hash_notMem_known T h (by simp) (nodup_cons_held T.hashes hheld)
  refine include_second_waiting T now h (by simp) hnew (hbp ▸ hunknown)
    (fun t ht => hbp ▸ habsent t ht) ?_
  -- the other child waits at the root of a tree, since its parent is not there
  rcases List.mem_append.1 (hheld.mem_iff.2 hx) with hx | hx
  · obtain ⟨n, hn, rfl⟩ := List.mem_map.1 hx
    refine absurd (mem_known.2 ?_) hunknown
    rcases Rose.exists_parent_of_mem_nodesL hn with hroot | ⟨m, hm, hnm⟩
    · exact Or.inr ((h.wellFormed.roots n hroot).1.symm.trans hxp)
    · exact Or.inl ⟨m, hm, (h.wellFormed.children m hm n hnm).1.symm.trans hxp⟩
  · obtain ⟨t, ht, rfl⟩ := OrphanNode.mem_orphanBlocks_iff.1 hx
    rcases Rose.exists_parent_of_mem_nodesL ht with hroot | ⟨s, hs, hts⟩
    · exact ⟨t, hroot, hxp.trans hbp.symm⟩
    · exact absurd (hxp.symm.trans (h.hung s hs t hts)) (habsent s hs)

end Arrive

/-- While nothing is crowded out, all blocks that arrived are held. -/
theorem run_arrivals {before after : List (ℕ × Produced H D)}
    (T : BlockTree K fin ((before ++ after).map Prod.snd) out)
    (hfree : ∀ pre a mid, before = pre ++ a :: mid →
      ¬ Crowded K (pre.map Prod.snd) a.2 ((mid ++ after).map Prod.snd)) :
    Growing K fin ((before ++ after).map Prod.snd) out
        ((Chain.new fin).run K (arrivals before)) ∧
      Waiting K ((Chain.new fin).run K (arrivals before)) ∧
      (held ((Chain.new fin).run K (arrivals before))).Perm (before.map Prod.snd) := by
  induction before using List.reverseRecOn generalizing after with
  | nil => exact ⟨growing_new, fun t ht => absurd ht List.not_mem_nil, List.Perm.refl _⟩
  | append_singleton before a ih =>
    have hsplit : (before ++ [a] ++ after).map Prod.snd =
        before.map Prod.snd ++ a.2 :: after.map Prod.snd := by simp
    have hrun : (Chain.new fin).run K (arrivals (before ++ [a])) =
        ((Chain.new fin).run K (arrivals before)).include K a.1 a.2 := by
      simp [run, arrivals, step]
    have T' : BlockTree K fin ((before ++ a :: after).map Prod.snd) out := by simpa using T
    have hearlier : ∀ pre x mid, before = pre ++ x :: mid →
        ¬ Crowded K (pre.map Prod.snd) x.2 ((mid ++ a :: after).map Prod.snd) := by
      intro pre x mid heq
      have hmid := hfree pre x (mid ++ [a]) (by simp [heq])
      rwa [List.append_assoc, List.singleton_append] at hmid
    obtain ⟨hgrow, hwait, hheld⟩ := ih T' hearlier
    have hfree' := hfree before a [] (by simp)
    rw [hsplit] at T ⊢
    rw [hrun, List.map_append]
    rw [List.map_append, List.map_cons] at hgrow
    exact include_kept T a.1 hgrow hwait hheld hfree'

/-- Where every block that arrived is held and all have arrived, none waits. -/
theorem Growing.orphans_nil (T : BlockTree K fin bs out) (h : Growing K fin bs out c)
    (hwait : Waiting K c) (hheld : (held c).Perm bs) : orphanBlocks c.orphans.blocks = [] := by
  have hnone : ∀ height, ∀ b ∈ orphanBlocks c.orphans.blocks, b.height = height → False := by
    intro height
    induction height using Nat.strong_induction_on with
    | _ height ih =>
      rintro b hb rfl
      have hb' := h.orphans b hb
      obtain ⟨t, ht, rfl⟩ := OrphanNode.mem_orphanBlocks_iff.1 hb
      rcases Rose.exists_parent_of_mem_nodesL ht with hroot | ⟨s, hs, hts⟩
      · -- the root of a tree waits for a block that is held, so for an orphan
        have hunknown := hwait t hroot
        rcases T.parent_cases hb' with ⟨hfinal, -⟩ | ⟨p, hp, hbp⟩
        · rw [← h.final] at hfinal
          exact hunknown (mem_known.2 (Or.inr hfinal.symm))
        · rcases List.mem_append.1 (hheld.mem_iff.2 hp) with hp' | hp'
          · obtain ⟨n, hn, rfl⟩ := List.mem_map.1 hp'
            exact hunknown (mem_known.2 (Or.inl ⟨n, hn, hbp.symm⟩))
          · have := T.height_eq hb' hp hbp
            exact ih p.height (by omega) p hp' rfl
      · have hs' := OrphanNode.mem_orphanBlocks_iff.2 ⟨s, hs, rfl⟩
        have := T.height_eq hb' (h.orphans _ hs') (h.hung s hs t hts)
        exact ih (OrphanNode.block s).height (by omega) _ hs' rfl
  exact List.eq_nil_iff_forall_not_mem.2 fun b hb => hnone _ b hb rfl

omit [DecidableEq H] in
private theorem exists_crowded {order : List (ℕ × Produced H D)} {x y p : Produced H D}
    (hsub : [x, y, p].Sublist (order.map Prod.snd)) (hx : x.parent = K.hash p)
    (hy : y.parent = K.hash p) : ∃ pre a post, order = pre ++ a :: post ∧
      Crowded K (pre.map Prod.snd) a.2 (post.map Prod.snd) := by
  obtain ⟨l₁, l₂, hl, hxl, hrest⟩ := List.cons_sublist_iff.1 hsub
  obtain ⟨l₃, l₄, rfl, hyl, hp⟩ := List.cons_sublist_iff.1 hrest
  obtain ⟨u, v, rfl⟩ := List.append_of_mem hyl
  have hl' : order.map Prod.snd = (l₁ ++ u) ++ y :: (v ++ l₄) := by simpa using hl
  obtain ⟨pre, rest, rfl, hpre, hmap⟩ := List.map_eq_append_iff.1 hl'
  obtain ⟨a, post, rfl, rfl, hpost⟩ := List.map_eq_cons_iff.1 hmap
  refine ⟨pre, a, post, rfl, x, ?_, p, ?_, hx, hy⟩
  · rw [hpre]
    exact List.mem_append_left _ hxl
  · rw [hpost]
    exact List.mem_append_right _ (List.singleton_sublist.1 hp)

/-- **The order of arrival.** The forest ends up with all blocks of a tree,
whatever the order in which they arrive and the times they arrive at, if
and only if no two children of a block arrive before it. -/
theorem include_all_iff (K : Config H D) (fin : Finalized H D) (order : List (ℕ × Produced H D))
    (out : Produced H D → BlockOutput H) (T : BlockTree K fin (order.map Prod.snd) out) :
    (∀ b, b ∈ (nodesL ((Chain.new fin).run K (arrivals order)).forktrees).map block ↔
      b ∈ order.map Prod.snd) ↔
    ¬ ∃ x y p, [x, y, p].Sublist (order.map Prod.snd) ∧ x.parent = K.hash p ∧
      y.parent = K.hash p := by
  constructor
  · rintro hall ⟨x, y, p, hsub, hx, hy⟩
    -- nothing is crowded out at any point, since what is lost does not come back
    have hfree : ∀ pre a post, order = pre ++ a :: post →
        ¬ Crowded K (pre.map Prod.snd) a.2 (post.map Prod.snd) := by
      intro pre
      induction hlen : pre.length using Nat.strong_induction_on generalizing pre with
      | _ len ih =>
        rintro a post rfl hcrowded
        have hearlier : ∀ pre' x mid, pre = pre' ++ x :: mid →
            ¬ Crowded K (pre'.map Prod.snd) x.2 ((mid ++ a :: post).map Prod.snd) := by
          rintro pre' x mid rfl
          refine ih pre'.length ?_ pre' rfl x (mid ++ a :: post) (by simp)
          rw [← hlen, List.length_append, List.length_cons]
          omega
        obtain ⟨hgrow, -, hheld⟩ := run_arrivals T hearlier
        rw [List.map_append, List.map_cons] at T hgrow
        have hlost := include_lost T a.1 hgrow hheld hcrowded
        have hrun : (Chain.new fin).run K (arrivals (pre ++ a :: post)) =
            (Chain.new fin).run K (arrivals (pre ++ post)) := by
          have hstep : ((Chain.new fin).run K (arrivals pre)).step K (.include a.1 a.2) =
              (Chain.new fin).run K (arrivals pre) := hlost
          simp only [run, arrivals, List.map_append, List.map_cons, List.foldl_append,
            List.foldl_cons] at hstep ⊢
          rw [hstep]
        have hin := (hall a.2).2 (by simp)
        rw [hrun] at hin
        obtain ⟨n, hn, hna⟩ := List.mem_map.1 hin
        obtain ⟨now, hinput⟩ := forest_inputs K fin _ n hn
        have hmem : a.2 ∈ (pre ++ post).map Prod.snd := by
          obtain ⟨e, he, heq⟩ := List.mem_map.1 hinput
          obtain ⟨-, hblock⟩ : e.1 = now ∧ e.2 = block n := by simpa using heq
          exact List.mem_map.2 ⟨e, he, hblock.trans hna⟩
        have hnodup := T.hashes.of_map
        rw [List.perm_middle.nodup_iff, List.nodup_cons] at hnodup
        exact hnodup.1 (List.map_append ▸ hmem)
    obtain ⟨pre, a, post, heq, hcrowded⟩ := exists_crowded hsub hx hy
    exact hfree pre a post heq hcrowded
  · intro hnone
    have hfree : ∀ pre a mid, order = pre ++ a :: mid →
        ¬ Crowded K (pre.map Prod.snd) a.2 ((mid ++ []).map Prod.snd) := by
      rintro pre a mid rfl ⟨x, hx, p, hp, hxp, hap⟩
      refine hnone ⟨x, a.2, p, ?_, hxp, hap⟩
      rw [List.append_nil] at hp
      rw [List.map_append, List.map_cons]
      exact (List.singleton_sublist.2 hx).append
        ((List.singleton_sublist.2 hp).cons_cons a.2)
    have T' : BlockTree K fin ((order ++ []).map Prod.snd) out := by simpa using T
    obtain ⟨hgrow, hwait, hheld⟩ := run_arrivals T' hfree
    rw [List.append_nil] at hgrow
    have hnil := hgrow.orphans_nil T hwait hheld
    intro b
    rw [← hheld.mem_iff, held, hnil, List.append_nil]

namespace Sample

/-- Another block on top of the first. -/
def sibling : Produced ℕ Unit :=
  produce (single .inPlace) 7 ((single .inPlace).hash first) 2 ()
    [vote 7 ((single .inPlace).hash first)]

/-- Three blocks, two of them on the third, in any order. -/
theorem blockTree {l : List (Produced ℕ Unit)} (hl : l.Perm [first, second, sibling]) :
    BlockTree (single .inPlace) genesis l fun _ => {} := by
  have hmem : ∀ {b}, b ∈ l ↔ b = first ∨ b = second ∨ b = sibling := by
    intro b
    rw [hl.mem_iff]
    simp
  have hfirst : Lineage (single .inPlace) genesis l first [] :=
    .root (hmem.2 (Or.inl rfl)) (by decide) rfl
  have hsecond : Lineage (single .inPlace) genesis l second [first] :=
    .child (hmem.2 (Or.inr (Or.inl rfl))) hfirst (by decide +kernel) rfl
  have hsibling : Lineage (single .inPlace) genesis l sibling [first] :=
    .child (hmem.2 (Or.inr (Or.inr rfl))) hfirst (by decide +kernel) rfl
  have hall : ∀ P : Produced ℕ Unit → Prop, P first → P second → P sibling → ∀ b ∈ l, P b := by
    intro P h₁ h₂ h₃ b hb
    rcases hmem.1 hb with rfl | rfl | rfl
    · exact h₁
    · exact h₂
    · exact h₃
  have heligible : (single .inPlace).stakeOf 7 = some 1000 ∧
      (single .inPlace).genesis.limits.minimumStake ≤ 1000 := by decide
  have hsigned : ∀ b, b.signature.1 = 7 → (single .inPlace).verifySignature b = true →
      ValidlySigned (single .inPlace) b := by
    intro b hkey hverify
    exact ⟨hverify, 1000, hkey ▸ heligible.1, heligible.2⟩
  refine ⟨hall _ ⟨_, hfirst⟩ ⟨_, hsecond⟩ ⟨_, hsibling⟩, ?_, ?_, ?_, fun b l hb => ⟨rfl, ?_⟩⟩
  · rw [(hl.map _).nodup_iff]
    decide +kernel
  · exact hall _ (by decide +kernel) (by decide +kernel) (by decide +kernel)
  · exact hall _ (hsigned _ rfl (by decide +kernel)) (hsigned _ rfl (by decide +kernel))
      (hsigned _ rfl (by decide +kernel))
  · exact hall (fun b => 0 = b.stateHash) rfl rfl rfl b hb.mem

end Sample

/-- One child before its parent, and one after it. -/
theorem include_all_sibling_last :
    Sample.second ≠ Sample.sibling ∧
    ∀ b, b ∈ (nodesL ((Chain.new Sample.genesis).run (Sample.single .inPlace)
        (arrivals [(0, Sample.second), (0, Sample.first), (0, Sample.sibling)])).forktrees).map
          block ↔ b ∈ [Sample.second, Sample.first, Sample.sibling] := by
  refine ⟨by decide +kernel, (include_all_iff (Sample.single .inPlace) Sample.genesis
    [(0, Sample.second), (0, Sample.first), (0, Sample.sibling)] (fun _ => {})
    (Sample.blockTree (List.Perm.swap _ _ _))).2 ?_⟩
  rintro ⟨x, y, p, hsub, hx, -⟩
  obtain ⟨rfl, rfl, rfl⟩ : x = Sample.second ∧ y = Sample.first ∧ p = Sample.sibling := by
    have heq := hsub.eq_of_length (by simp)
    simpa only [List.map_cons, List.map_nil, List.cons.injEq, and_true] using heq
  revert hx
  decide +kernel

/-- **Of two children that arrive before their parent one is lost.** -/
theorem sibling_lost :
    BlockTree (Sample.single .inPlace) Sample.genesis
        [Sample.second, Sample.sibling, Sample.first] (fun _ => {}) ∧
      Sample.sibling ∉ (nodesL ((Chain.new Sample.genesis).run (Sample.single .inPlace)
        (arrivals [(0, Sample.second), (0, Sample.sibling), (0, Sample.first)])).forktrees).map
          block := by
  refine ⟨Sample.blockTree ?_, by decide +kernel⟩
  have hperm : ([Sample.second, Sample.sibling] ++ [Sample.first]).Perm
      ([Sample.first] ++ [Sample.second, Sample.sibling]) := List.perm_append_comm
  exact hperm

end Chain

end Consensus

end Rensa
