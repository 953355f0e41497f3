import Rensa.Consensus.Arrival
import Rensa.Consensus.VoteOrder
/-!
# A block that is included again

No block waits whose parent is known (`Apart`): a block that is included
takes along what waits for it, and nothing is put aside that has its
parent. So a block that is included again takes nothing along. It is not
voted for again either: where it is still the head nothing was included on
top of it, and it is not above itself, as a second vote of the epoch would
have to be (`voteIfHead_twice`).
-/

namespace Rensa

namespace Consensus

open Rose (nodes nodesL)
open TreeNode (block hash votes path)
open OrphanNode (Hung)

variable {H D : Type}

namespace Chain

variable [DecidableEq H] {K : Config H D} {B : Set (Produced H D)} {fin : Finalized H D}
  {c c' : Chain H D} {b : Produced H D} {h : H}

/-! ## What waits and what is known -/

/-- **What waits is apart from what is known**: no block waits whose parent
is known. -/
structure Apart (K : Config H D) (B : Set (Produced H D)) (c : Chain H D) : Prop where
  source : ∀ x ∈ orphanBlocks c.orphans.blocks, x ∈ B
  hung : Hung K c.orphans.blocks
  parent : ∀ x ∈ orphanBlocks c.orphans.blocks, x.parent ∉ known K c

theorem apart_new (fin : Finalized H D) : Apart K B (Chain.new fin) where
  source := fun _ hx => absurd hx List.not_mem_nil
  hung := fun _ hn => absurd hn List.not_mem_nil
  parent := fun _ hx => absurd hx List.not_mem_nil

/-- Less is known, and less waits. -/
theorem Apart.of_less (ha : Apart K B c) (hknown : known K c' ⊆ known K c)
    (hung : Hung K c'.orphans.blocks)
    (horphans : ∀ x ∈ orphanBlocks c'.orphans.blocks, x ∈ orphanBlocks c.orphans.blocks) :
    Apart K B c' where
  source := fun x hx => ha.source x (horphans x hx)
  hung := hung
  parent := fun x hx h => ha.parent x (horphans x hx) (hknown h)

/-- A block is put aside whose parent is not known. -/
theorem Apart.addBlock (ha : Apart K B c) (hb : b ∈ B) (hparent : b.parent ∉ known K c)
    (now : ℕ) :
    Apart K B (c.withOrphans (c.orphans.addBlock K now b)) where
  source := fun x hx => (Orphans.mem_addBlock hx).elim (fun h => h ▸ hb) (ha.source x)
  hung := Orphans.hung_addBlock ha.hung
  parent := fun x hx => (Orphans.mem_addBlock hx).elim (fun h => h ▸ hparent) (ha.parent x)

/-- What waits for a block is taken out when the block becomes known. -/
theorem Apart.consumeBlocks (hbind : Binding K fin B) (ha : Apart K B c) (hb : b ∈ B)
    (hparent : b.parent ∈ known K c) (hknown : known K c' = known K c ∪ {K.hash b})
    (horphans : c'.orphans = c.orphans) :
    Apart K B (c'.withOrphans (c'.orphans.consumeBlocks (K.hash b)).2) := by
  have hleft : ∀ x ∈ orphanBlocks (c.orphans.consumeBlocks (K.hash b)).2.blocks,
      x ∈ orphanBlocks c.orphans.blocks := Orphans.mem_consumeBlocks.2
  have hung : Hung K (c.orphans.consumeBlocks (K.hash b)).2.blocks :=
    ha.hung.subset fun t ht => (Orphans.mem_left_consumeBlocks.1 ht).1
  -- the block that came in did not wait: its parent was known
  have hne : ∀ x ∈ orphanBlocks c.orphans.blocks, K.hash x ≠ K.hash b := fun x hx heq =>
    ha.parent x hx (hbind.parent x (ha.source x hx) b hb heq ▸ hparent)
  rw [horphans]
  refine ⟨fun x hx => ha.source x (hleft x hx), hung, fun x hx hmem => ?_⟩
  change x.parent ∈ known K c' at hmem
  rw [hknown] at hmem
  refine hmem.elim (ha.parent x (hleft x hx)) fun heq => ?_
  rcases hung.root_or_parent hx with ⟨t, ht, rfl⟩ | ⟨z, hz, hz'⟩
  · exact (Orphans.mem_left_consumeBlocks.1 ht).2 heq
  · exact hne z (hleft z hz) (hz'.symm.trans heq)

/-- Nothing waits for a block that is known. -/
theorem Apart.consumeBlocks_eq (ha : Apart K B c) (hmem : h ∈ known K c) :
    c.orphans.consumeBlocks h = ([], c.orphans) := by
  unfold Orphans.consumeBlocks
  have hnone : c.orphans.blocks.find? (fun t => t.block.parent = h) = none := by
    rw [List.find?_eq_none]
    intro t ht heq
    have heq : (OrphanNode.block t).parent = h := by simpa using heq
    refine ha.parent (OrphanNode.block t) ?_ (heq ▸ hmem)
    exact OrphanNode.mem_orphanBlocks_iff.2 ⟨t, Rose.mem_nodesL_of_mem ht, rfl⟩
  rw [hnone]

/-! ## What a block that is taken makes known -/

/-- What is known, block by block. -/
theorem mem_known_iff : h ∈ known K c ↔ (∃ x ∈ c.forest, K.hash x = h) ∨
    c.finalized.hash K = h := by
  rw [mem_known, forest]
  simp only [List.mem_map, exists_exists_and_eq_and]
  rfl

omit [DecidableEq H] in
/-- The chain has every block of the forest it had, and the same final
block. -/
structure Grown (c c' : Chain H D) : Prop where
  finalized : c'.finalized = c.finalized
  forest : c.forest ⊆ c'.forest

omit [DecidableEq H] in
theorem Grown.refl (c : Chain H D) : Grown c c := ⟨rfl, List.Subset.refl _⟩

omit [DecidableEq H] in
theorem Grown.trans {c'' : Chain H D} (hg : Grown c c') (hg' : Grown c' c'') : Grown c c'' :=
  ⟨hg'.finalized.trans hg.finalized, List.Subset.trans hg.forest hg'.forest⟩

omit [DecidableEq H] in
theorem SameForest.grown (hs : SameForest c c') : Grown c c' := by
  refine ⟨hs.finalized, ?_⟩
  rw [Chain.forest, Chain.forest, hs.forktrees]
  exact List.Subset.refl _

theorem Grown.known_subset (hg : Grown c c') : known K c ⊆ known K c' := by
  intro h hmem
  rw [mem_known_iff] at hmem ⊢
  rw [hg.finalized]
  exact hmem.imp_left fun ⟨x, hx, hhash⟩ => ⟨x, hg.forest hx, hhash⟩

/-- The blocks after one was taken: one more. -/
theorem mem_forest_tryInclude (htry : c.tryInclude K b = .ok (some c'))
    (hnew : K.hash b ∉ known K c) : b.parent ∈ known K c ∧ c'.finalized = c.finalized ∧
      c'.orphans = c.orphans ∧ ∀ x, x ∈ c'.forest ↔ x ∈ c.forest ∨ x = b := by
  rcases tryInclude_ok htry with ⟨-, hknows⟩ | ⟨-, ⟨y, hparent, -, hy, rfl⟩ |
    ⟨p, y, -, hget, -, hy, rfl⟩⟩
  · exact absurd hknows hnew
  · refine ⟨mem_known.2 (Or.inr hparent.symm), rfl, rfl, fun x => ?_⟩
    obtain rfl := (newExecuted_ok hy).1
    change x ∈ (nodesL (c.forktrees ++ [TreeNode.leaf c.nextLoc y none])).map block ↔ _
    rw [Rose.nodesL_append, List.map_append, List.mem_append]
    simp [TreeNode.leaf, Rose.nodes_node, block, forest]
  · obtain ⟨hp, hphash⟩ := TreeNode.get_some hget
    refine ⟨mem_known.2 (Or.inl ⟨p, hp, hphash⟩), rfl, rfl, fun x => ?_⟩
    obtain rfl := (newExecuted_ok hy).1
    simp only [forest, List.mem_map, addUnder, TreeNode.mem_addChild hp, or_and_right, exists_or,
      exists_eq_left, exists_exists_and_eq_and, TreeNode.block_grown]
    exact or_congr Iff.rfl eq_comm

/-- A block that is known is taken as it is. -/
theorem tryInclude_eq_of_known (htry : c.tryInclude K b = .ok (some c'))
    (hknown : K.hash b ∈ known K c) : c' = c := by
  rcases tryInclude_ok htry with ⟨heq, -⟩ | ⟨hnot, -⟩
  · exact heq
  · exact absurd hknown (by simpa [known] using hnot)

/-- **A block that is taken and was not known**: its parent was, and with it
the chain knows one block more. -/
theorem tryInclude_new (htry : c.tryInclude K b = .ok (some c')) (hnew : K.hash b ∉ known K c) :
    b.parent ∈ known K c ∧ Grown c c' ∧ known K c' = known K c ∪ {K.hash b} ∧
      c'.orphans = c.orphans ∧ b ∈ c'.forest := by
  obtain ⟨hparent, hfinal, horphans, hmem⟩ := mem_forest_tryInclude htry hnew
  refine ⟨hparent, ⟨hfinal, fun x hx => (hmem x).2 (Or.inl hx)⟩, ?_, horphans,
    (hmem b).2 (Or.inr rfl)⟩
  ext h
  rw [Set.mem_union, mem_known_iff, mem_known_iff, hfinal]
  simp only [hmem, or_and_right, exists_or, exists_eq_left, Set.mem_singleton_iff,
    eq_comm (a := h)]
  exact or_right_comm

/-- **A block is given back** exactly where neither it nor its parent is
known. -/
theorem tryInclude_none_iff :
    c.tryInclude K b = .ok none ↔ K.hash b ∉ known K c ∧ b.parent ∉ known K c := by
  constructor
  · intro htry
    unfold tryInclude at htry
    split at htry
    · cases htry
    rename_i hknows
    split at htry
    · split at htry
      · cases htry
      · split at htry
        · cases htry
        · cases htry
    rename_i hroot
    split at htry
    · rename_i hget
      refine ⟨hknows, fun hmem => ?_⟩
      rcases mem_known.1 hmem with ⟨n, hn, hhash⟩ | hfinal
      · exact TreeNode.get_none.1 hget n hn hhash
      · exact hroot hfinal.symm
    · split at htry
      · cases htry
      · split at htry
        · cases htry
        · cases htry
  · rintro ⟨hblock, hparent⟩
    have hget : TreeNode.get K c.forktrees b.parent = none :=
      TreeNode.get_none.2 fun n hn hhash => hparent (mem_known.2 (Or.inl ⟨n, hn, hhash⟩))
    have hroot : b.parent ≠ c.finalized.hash K := fun heq =>
      hparent (mem_known.2 (Or.inr heq.symm))
    have hknows : ¬ c.knows K (K.hash b) = true := hblock
    unfold tryInclude
    rw [if_neg hknows, if_neg hroot, hget]

/-! ## Through a call of `include` -/

/-- A block that is taken, the vote for it and what waited for it taken
out: nothing that waits is known. -/
theorem Apart.taken (hbind : Binding K fin B) (ha : Apart K B c) (hb : b ∈ B)
    (htry : c.tryInclude K b = .ok (some c')) :
    let d := c'.voteIfHead K (K.hash b)
    Apart K B (d.withOrphans (d.orphans.consumeBlocks (K.hash b)).2) ∧
      Grown c (d.withOrphans (d.orphans.consumeBlocks (K.hash b)).2) ∧
      ∀ x ∈ (d.orphans.consumeBlocks (K.hash b)).1, x ∈ orphanBlocks c.orphans.blocks := by
  dsimp only
  obtain ⟨hsame, hkept⟩ := sameForest_voteIfHead (K := K) (c := c') (K.hash b)
  have hsame' : ∀ o : Orphans H D, SameForest c' ((c'.voteIfHead K (K.hash b)).withOrphans o) :=
    fun _ => ⟨hsame.finalized, hsame.forktrees, hsame.nextLoc, hsame.panicked, hsame.counted⟩
  by_cases hnew : K.hash b ∈ known K c
  · -- nothing waits for a block that is known
    obtain rfl := tryInclude_eq_of_known htry hnew
    rw [hkept, ha.consumeBlocks_eq hnew]
    refine ⟨ha.of_less ?_ ha.hung fun _ hx => hx, (hsame' _).grown,
      fun x hx => absurd hx List.not_mem_nil⟩
    exact (known_congr (hsame' _)).subset
  · obtain ⟨hparent, hgrown, hknown, horphans, -⟩ := tryInclude_new htry hnew
    rw [hkept, horphans]
    refine ⟨?_, hgrown.trans (hsame' _).grown, Orphans.mem_consumeBlocks.1⟩
    have hknown' : known K (c'.voteIfHead K (K.hash b)) = known K c ∪ {K.hash b} :=
      (known_congr hsame).trans hknown
    have hout := ha.consumeBlocks hbind hb hparent hknown' (hkept.trans horphans)
    rwa [hkept, horphans] at hout

private theorem apart_foldl_of {now fuel : ℕ}
    (hone : ∀ (c : Chain H D) (b : Produced H D), Apart K B c → b ∈ B →
      Apart K B (includeFrom K now fuel c b) ∧ Grown c (includeFrom K now fuel c b))
    {xs : List (Produced H D)} (ha : Apart K B c) (hxs : ∀ x ∈ xs, x ∈ B) :
    Apart K B (xs.foldl (includeFrom K now fuel) c) ∧
      Grown c (xs.foldl (includeFrom K now fuel) c) := by
  induction xs generalizing c with
  | nil => exact ⟨ha, .refl c⟩
  | cons x xs ih =>
    obtain ⟨ha', hgrown⟩ := hone c x ha (hxs x List.mem_cons_self)
    obtain ⟨ha'', hgrown'⟩ := ih ha' fun y hy => hxs y (List.mem_cons_of_mem _ hy)
    exact ⟨ha'', hgrown.trans hgrown'⟩

/-- **`include` keeps what waits apart from what is known**, and loses no
block of the forest. -/
theorem Apart.includeFrom (hbind : Binding K fin B) (now fuel : ℕ) (ha : Apart K B c)
    (hb : b ∈ B) : Apart K B (includeFrom K now fuel c b) ∧
      Grown c (Chain.includeFrom K now fuel c b) := by
  induction fuel generalizing c b with
  | zero => exact ⟨ha, .refl c⟩
  | succ fuel ih =>
    simp only [Chain.includeFrom]
    split
    · split
      · exact ⟨ha, .refl c⟩
      · rename_i htry
        obtain ⟨-, hparent⟩ := tryInclude_none_iff.1 htry
        exact ⟨ha.addBlock hb hparent now, SameForest.grown ⟨rfl, rfl, rfl, rfl, rfl⟩⟩
      · rename_i c' htry
        obtain ⟨ha', hgrown, hwaiting⟩ := ha.taken hbind hb htry
        obtain ⟨hout, hgrown'⟩ := apart_foldl_of (fun _ _ => ih) ha'
          fun x hx => ha.source x (hwaiting x hx)
        exact ⟨hout, hgrown.trans hgrown'⟩
    · exact ⟨ha, .refl c⟩

/-- The blocks that waited, one after another. -/
theorem Apart.foldl (hbind : Binding K fin B) (now fuel : ℕ) (ha : Apart K B c)
    {xs : List (Produced H D)} (hxs : ∀ x ∈ xs, x ∈ B) :
    Apart K B (xs.foldl (Chain.includeFrom K now fuel) c) ∧
      Grown c (xs.foldl (Chain.includeFrom K now fuel) c) :=
  apart_foldl_of (fun _ _ ha hb => ha.includeFrom hbind now fuel hb) ha hxs

/-! ## Through a run -/

theorem apart_injestVote (v : Vote H) (ha : Apart K B c) : Apart K B (c.injestVote K v) := by
  obtain ⟨hfinal, -, horphans, -⟩ := injestVote_keeps (K := K) (c := c) v
  have hforest : (c.injestVote K v).forest = c.forest := by
    rw [forest_eq, forest_eq, forktrees_injestVote, Rose.labels_map, List.map_map, List.map_map,
      List.map_map]
    exact List.map_congr_left fun cell _ => congrArg Executed.underlying (fixes_tally v cell).1
  refine ha.of_less (fun h hmem => ?_) (horphans ▸ ha.hung) fun x hx => horphans ▸ hx
  rw [mem_known_iff, hforest, hfinal] at hmem
  exact mem_known_iff.2 hmem

theorem apart_countVotes (l : List (Vote H)) (ha : Apart K B c) : Apart K B (c.countVotes K l) := by
  unfold countVotes
  induction l generalizing c with
  | nil => exact ha
  | cons v l ih => exact ih (apart_injestVote v ha)

/-- A root that is finalized stays known, and of the forest less is. -/
theorem apart_finalizeLoop (fuel : ℕ) (ha : Apart K B c) : Apart K B (finalizeLoop K fuel c) := by
  induction fuel generalizing c with
  | zero => exact ha
  | succ fuel ih =>
    rw [finalizeLoop]
    split
    · exact ha
    · rename_i d hd
      obtain ⟨before, after, root, hsplit, rfl⟩ := tryFinalizeRoots_some hd
      have hroot := Rose.mem_nodesL_of_mem (sublist_splitRoots hsplit).1
      refine ih (ha.of_less (fun h hmem => ?_) ha.hung fun x hx => hx)
      rcases mem_known.1 hmem with ⟨n, hn, hhash⟩ | hfinal
      · obtain ⟨m, hm, hvalue, -, -⟩ := TreeNode.exists_of_mem_moveRoots hn
        refine mem_known.2 (Or.inl ⟨m, Rose.mem_nodesL_of_mem_below hroot hm, ?_⟩)
        rw [← hhash, TreeNode.hash, TreeNode.block, ← hvalue]
        rfl
      · exact mem_known.2 (Or.inl ⟨root, hroot, hfinal⟩)

/-- **Every call keeps what waits apart from what is known.** -/
theorem apart_step (hbind : Binding K fin B) {i : Input H D}
    (hi : ∀ now b, i = .include now b → b ∈ B) (ha : Apart K B c) : Apart K B (c.step K i) := by
  cases i with
  | «include» now b => exact (ha.includeFrom hbind now _ (hi now b rfl)).1
  | pollNext now =>
    have hsame : ∀ {d : Chain H D}, d.finalized = c.finalized → d.forktrees = c.forktrees →
        d.orphans = c.orphans → Apart K B d := by
      intro d hfinal hforest horphans
      refine ha.of_less (fun h hmem => ?_) (horphans ▸ ha.hung) fun x hx => horphans ▸ hx
      rw [mem_known, hfinal, hforest] at hmem
      exact mem_known.2 hmem
    rw [step, pollNext]
    split
    · exact ha
    · split
      · rename_i b _
        have hpop : Apart K B { c with events := c.events.dropLast } := hsame rfl rfl rfl
        have hcount : Apart K B (countAll K { c with events := c.events.dropLast }
            b.underlying) := by
          refine apart_countVotes _ ?_
          have hvotes := apart_countVotes b.underlying.votes hpop
          exact hvotes.of_less subset_rfl hvotes.hung fun x hx => hx
        have hloop := apart_finalizeLoop (nodesL (countAll K { c with events := c.events.dropLast }
          b.underlying).forktrees).length hcount
        exact hloop.of_less subset_rfl (Orphans.hung_missingBlocks hloop.hung)
          fun x hx => Orphans.mem_missingBlocks hx
      · exact hsame rfl rfl rfl
      · exact hsame rfl rfl rfl

/-- **In every state of a run**, what waits is apart from what is known. -/
theorem apart_run {inputs : List (Input H D)} (hbind : Binding K fin B)
    (hB : ∀ b ∈ inputBlocks inputs, b ∈ B) : Apart K B ((Chain.new fin).run K inputs) := by
  induction inputs using List.reverseRecOn with
  | nil => exact apart_new fin
  | append_singleton pre i ih =>
    have hrun : (Chain.new fin).run K (pre ++ [i]) = ((Chain.new fin).run K pre).step K i := by
      simp [run]
    rw [hrun]
    refine apart_step hbind (fun now b hib => hB b ⟨now, ?_⟩)
      (ih fun b hb => hB b (hb.imp fun now => List.mem_append_left _))
    exact List.mem_append_right _ (hib ▸ List.mem_singleton_self _)

/-! ## The vote for a block that is included again -/

omit [DecidableEq H] in
theorem headHash_congr (hs : SameForest c c') : c'.headHash K = c.headHash K := by
  have hle : c'.headLe = c.headLe := by
    funext a b
    rw [headLe, headLe, hs.forktrees]
  rw [headHash, headHash, headNode, headNode, hle, hs.forktrees, hs.finalized]

theorem voteIfHead_withOrphans (o : Orphans H D) :
    (c.withOrphans o).voteIfHead K h = (c.voteIfHead K h).withOrphans o := by
  have hhead : (c.withOrphans o).headHash K = c.headHash K :=
    headHash_congr ⟨rfl, rfl, rfl, rfl, rfl⟩
  unfold voteIfHead
  rw [hhead]
  split
  · have hget : TreeNode.get K (c.withOrphans o).forktrees h = TreeNode.get K c.forktrees h := rfl
    unfold commitAndVote
    rw [hget]
    cases TreeNode.get K c.forktrees h with
    | none => rfl
    | some n =>
      have hmay : (c.withOrphans o).mayVote K n = c.mayVote K n := rfl
      dsimp only
      rw [hmay]
      split
      · rfl
      · rfl
  · rfl

omit [DecidableEq H] in
/-- No block is above itself. -/
theorem not_isDescendantOf_self [DecidableEq H] (hc : Standing K B c) {n : TreeNode H D}
    (hn : n ∈ nodesL c.forktrees) :
    TreeNode.isDescendantOf K c.forktrees n (hash K n) = false := by
  rw [TreeNode.isDescendantOf, List.any_eq_false]
  intro m hm heq
  have hpath : path c.forktrees n = n :: (path c.forktrees n).tail := by
    unfold path
    cases (nodesL c.forktrees).length with
    | zero => rfl
    | succ k => rfl
  have hfalls := hc.path_falls hn
  rw [hpath, List.pairwise_cons] at hfalls
  have hlt := hfalls.1 m hm
  have hforest := TreeNode.mem_nodesL_of_mem_path hn (List.mem_of_mem_tail hm)
  have hhash : hash K m = hash K n := by simpa using heq
  rw [hc.formed.hashed.eq hforest hn hhash] at hlt
  omega

/-- **A block is voted for once**: with the vote it has, there is none that
would be above it. -/
theorem voteIfHead_twice (hc : Standing K B c) :
    (c.voteIfHead K h).voteIfHead K h = c.voteIfHead K h := by
  obtain ⟨hsame, -⟩ := sameForest_voteIfHead (K := K) (c := c) h
  by_cases hhead : h = c.headHash K
  · have hagain : h = (c.voteIfHead K h).headHash K := hhead.trans (headHash_congr hsame).symm
    rw [voteIfHead, if_pos hagain]
    have hvote : c.voteIfHead K h = c.commitAndVote K h := if_pos hhead
    rw [hvote]
    cases hget : TreeNode.get K c.forktrees h with
    | none =>
      have hidle : c.commitAndVote K h = c := by
        unfold commitAndVote
        rw [hget]
      rw [hidle, hidle]
    | some n =>
      have hstep : ∀ d : Chain H D, d.forktrees = c.forktrees → d.commitAndVote K h =
          if d.mayVote K n then d.cast K n else d := by
        intro d hd
        have hget' : TreeNode.get K d.forktrees h = some n := by rw [hd, hget]
        unfold commitAndVote
        rw [hget']
        rfl
      rw [hstep c rfl]
      by_cases hmay : c.mayVote K n = true
      · rw [if_pos hmay, hstep (c.cast K n) rfl, if_neg]
        have hnot := not_isDescendantOf_self hc (TreeNode.get_some hget).1
        simp [mayVote, cast, hnot]
      · rw [if_neg hmay, hstep c rfl, if_neg hmay]
  · rw [voteIfHead, if_neg fun heq => hhead (heq.trans (headHash_congr hsame))]

omit [DecidableEq H] in
/-- The parent of a block of the forest is not the head. -/
theorem ne_headHash_of_child (hc : WellFormed K c) {x : Produced H D} (hx : x ∈ c.forest) :
    x.parent ≠ c.headHash K := by
  obtain ⟨m, hm, rfl⟩ := List.mem_map.1 hx
  intro heq
  rw [headHash] at heq
  split at heq
  · rename_i n hhead
    -- the head is a node without children
    have hmem : n ∈ (c.forktrees.map (TreeNode.head c.forktrees)).insertionSort
        fun a b => c.headLe a b = true := List.mem_of_getLast? hhead
    rw [(List.perm_insertionSort _ _).mem_iff, List.mem_map] at hmem
    obtain ⟨t, ht, rfl⟩ := hmem
    have hforest := Rose.mem_nodesL.2 ⟨t, ht, head_mem_nodes (f := c.forktrees) t⟩
    rcases Rose.exists_parent_of_mem_nodesL hm with hroot | ⟨p, hp, hmp⟩
    · exact hc.unfinal _ hforest (heq.symm.trans (hc.roots m hroot).1)
    · have hparent := (hc.children p hp m hmp).1.symm.trans heq
      rw [hc.hashed.eq hp hforest hparent, children_head] at hmp
      exact absurd hmp List.not_mem_nil
  · rename_i hnone
    rw [headNode, List.getLast?_eq_none_iff] at hnone
    have hlen := (List.perm_insertionSort (fun a b => c.headLe a b = true)
      (c.forktrees.map (TreeNode.head c.forktrees))).length_eq
    rw [hnone, List.length_map] at hlen
    rw [List.eq_nil_of_length_eq_zero hlen.symm] at hm
    exact absurd hm List.not_mem_nil

/-! ## Including a block again -/

/-- **Settled for the block with hash `h`**: there is a block on top of it,
or it needs no further vote and no block came in since `S` was known. -/
def Quiet (K : Config H D) (h : H) (S : Set H) (c : Chain H D) : Prop :=
  (∃ x ∈ c.forest, x.parent = h) ∨ known K c = S ∧ c.voteIfHead K h = c

theorem Quiet.of_grown {S : Set H} (hg : Grown c c') (hchild : ∃ x ∈ c.forest, x.parent = h) :
    Quiet K h S c' := by
  obtain ⟨x, hx, hparent⟩ := hchild
  exact Or.inl ⟨x, hg.forest hx, hparent⟩

/-- **A block that waited comes on top of the block, or changes nothing.** -/
theorem Quiet.includeFrom (hbind : Binding K fin B) (now fuel : ℕ) {S : Set H} (ha : Apart K B c)
    (hb : b ∈ B) (hparent : b.parent = h ∨ b.parent ∉ S) (hq : Quiet K h S c) :
    Quiet K h S (includeFrom K now fuel c b) := by
  have hgrown := (ha.includeFrom hbind now fuel hb).2
  rcases hq with hchild | ⟨hknown, hvote⟩
  · exact .of_grown hgrown hchild
  cases fuel with
  | zero => exact Or.inr ⟨hknown, hvote⟩
  | succ fuel =>
    simp only [Chain.includeFrom] at hgrown ⊢
    split
    · split
      · exact Or.inr ⟨hknown, hvote⟩
      · refine Or.inr ⟨hknown, ?_⟩
        rw [voteIfHead_withOrphans, hvote]
      · rename_i c' htry
        by_cases hnew : K.hash b ∈ known K c
        · obtain ⟨hsame, hkept⟩ := sameForest_voteIfHead (K := K) (c := c) (K.hash b)
          obtain rfl := tryInclude_eq_of_known htry hnew
          rw [hkept, ha.consumeBlocks_eq hnew, List.foldl_nil]
          refine Or.inr ⟨(known_congr hsame).trans hknown, ?_⟩
          rw [voteIfHead_withOrphans]
          refine congrArg (withOrphans · _) ?_
          -- a vote is for the head, which is the block or another one
          by_cases hsame' : K.hash b = h
          · rw [hsame', hvote, hvote]
          · by_cases hhead : K.hash b = c'.headHash K
            · refine if_neg fun heq => hsame' ?_
              rw [headHash_congr hsame] at heq
              exact hhead.trans heq.symm
            · have hidle : c'.voteIfHead K (K.hash b) = c' := if_neg hhead
              rw [hidle, hvote]
        · -- its parent is known, so it is the block itself
          obtain ⟨hmem, -, -, -, hforest⟩ := tryInclude_new htry hnew
          have hchild : b.parent = h := hparent.resolve_right fun hnot => hnot (hknown ▸ hmem)
          obtain ⟨ha', -, hwaiting⟩ := ha.taken hbind hb htry
          obtain ⟨hsame, -⟩ := sameForest_voteIfHead (K := K) (c := c') (K.hash b)
          have hout := (ha'.foldl hbind now fuel fun x hx => ha.source x (hwaiting x hx)).2
          refine .of_grown hout ⟨b, ?_, hchild⟩
          exact hsame.grown.forest hforest
    · exact Or.inr ⟨hknown, hvote⟩

theorem Quiet.foldl (hbind : Binding K fin B) (now fuel : ℕ) {S : Set H} {xs : List (Produced H D)}
    (ha : Apart K B c) (hxs : ∀ x ∈ xs, x ∈ B ∧ (x.parent = h ∨ x.parent ∉ S))
    (hq : Quiet K h S c) : Quiet K h S (xs.foldl (Chain.includeFrom K now fuel) c) := by
  induction xs generalizing c with
  | nil => exact hq
  | cons x xs ih =>
    obtain ⟨hx, hparent⟩ := hxs x List.mem_cons_self
    exact ih (ha.includeFrom hbind now fuel hx).1 (fun y hy => hxs y (List.mem_cons_of_mem _ hy))
      (hq.includeFrom hbind now fuel ha hx hparent)

/-- **After a block was taken**, with what waited for it, its hash is known
and it is settled whether it is voted for. -/
theorem quiet_include (hbind : Binding K fin B) (now : ℕ) (hwithin : Within B c)
    (hc : Standing K B c) (ha : Apart K B c) (hb : b ∈ B) (hadm : c.admits K b = true)
    (htry : c.tryInclude K b = .ok (some c')) :
    K.hash b ∈ known K (c.include K now b) ∧
      ∃ S, Quiet K (K.hash b) S (c.include K now b) := by
  obtain ⟨hsame, hkept⟩ := sameForest_voteIfHead (K := K) (c := c') (K.hash b)
  obtain ⟨ha', -, hwaiting⟩ := ha.taken hbind hb htry
  have hacts : Acts K B (fun _ _ => True) c [] c' := tryInclude_acts hwithin hb hadm htry
  have hc' : Standing K B c' := hacts.1.invariant hc fun _ _ _ hact h => h.of_act hact
  have hout : c.include K now b =
      ((c'.voteIfHead K (K.hash b)).orphans.consumeBlocks (K.hash b)).1.foldl
        (includeFrom K now c.orphans.size)
        ((c'.voteIfHead K (K.hash b)).withOrphans
          ((c'.voteIfHead K (K.hash b)).orphans.consumeBlocks (K.hash b)).2) := by
    unfold «include»
    simp only [includeFrom, if_pos hadm, htry]
  have hmem : K.hash b ∈ known K c' := by
    by_cases hnew : K.hash b ∈ known K c
    · rwa [tryInclude_eq_of_known htry hnew]
    · rw [(tryInclude_new htry hnew).2.2.1]
      exact Or.inr rfl
  have hparents : ∀ x ∈ ((c'.voteIfHead K (K.hash b)).orphans.consumeBlocks (K.hash b)).1,
      x.parent = K.hash b ∨ x.parent ∉ known K c' := by
    intro x hx
    have hnot : x.parent ∉ known K c := ha.parent x (hwaiting x hx)
    by_cases hnew : K.hash b ∈ known K c
    · rw [tryInclude_eq_of_known htry hnew]
      exact Or.inr hnot
    · rw [(tryInclude_new htry hnew).2.2.1, Set.mem_union, Set.mem_singleton_iff, not_or]
      tauto
  have hsame' : ∀ o : Orphans H D, SameForest c' ((c'.voteIfHead K (K.hash b)).withOrphans o) :=
    fun _ => ⟨hsame.finalized, hsame.forktrees, hsame.nextLoc, hsame.panicked, hsame.counted⟩
  have hquiet : Quiet K (K.hash b) (known K c') ((c'.voteIfHead K (K.hash b)).withOrphans
      ((c'.voteIfHead K (K.hash b)).orphans.consumeBlocks (K.hash b)).2) := by
    refine Or.inr ⟨known_congr (hsame' _), ?_⟩
    rw [voteIfHead_withOrphans, voteIfHead_twice hc']
  rw [hout]
  have hall := hquiet.foldl hbind now c.orphans.size ha'
    fun x hx => ⟨ha.source x (hwaiting x hx), hparents x hx⟩
  have hgrown := (ha'.foldl hbind now c.orphans.size fun x hx => ha.source x (hwaiting x hx)).2
  refine ⟨hgrown.known_subset ?_, _, hall⟩
  rwa [known_congr (hsame' _)]

/-- A block that is not let in, or whose inclusion fails, changes nothing. -/
theorem include_idle (now : ℕ) (h : c.admits K b = false ∨ ∃ e, c.tryInclude K b = .error e) :
    c.include K now b = c := by
  unfold «include»
  simp only [includeFrom]
  split
  · rename_i hadm
    rcases h with hnot | ⟨e, htry⟩
    · rw [hnot] at hadm
      cases hadm
    · rw [htry]
  · rfl

/-- A block whose parent is not known waits. -/
theorem include_aside (now : ℕ) (hadm : c.admits K b = true) (htry : c.tryInclude K b = .ok none) :
    c.include K now b = c.withOrphans (c.orphans.addBlock K now b) := by
  unfold «include»
  simp only [includeFrom, if_pos hadm, htry]

/-- A block that is known, needs no vote and has nothing waiting for it
changes nothing. -/
theorem include_quiet (now : ℕ) (hadm : c.admits K b = true) (hknown : K.hash b ∈ known K c)
    (hvote : c.voteIfHead K (K.hash b) = c) (ha : Apart K B c) : c.include K now b = c := by
  have htry : c.tryInclude K b = .ok (some c) := by
    have hknows : c.knows K (K.hash b) = true := hknown
    unfold tryInclude
    rw [if_pos hknows]
  unfold «include»
  simp only [includeFrom, if_pos hadm, htry, hvote, ha.consumeBlocks_eq hknown, List.foldl_nil]
  rfl

/-- **Including a block again changes nothing**: in every state of a run, a
second `include` of a block leaves the forest, the final block, the own
votes and the events as the first one left them. -/
theorem include_twice (K : Config H D) (fin : Finalized H D) (inputs : List (Input H D))
    (now now' : ℕ) (b : Produced H D)
    (hfree : CollisionFree K fin (inputBlocks (inputs ++ [.include now b]))) :
    let once := ((Chain.new fin).run K inputs).include K now b
    let twice := once.include K now' b
    twice.forktrees = once.forktrees ∧ twice.finalized = once.finalized ∧
      twice.ownvotes = once.ownvotes ∧ twice.events = once.events := by
  have hbind := hfree.binding
  have hsub : ∀ x ∈ inputBlocks inputs, x ∈ inputBlocks (inputs ++ [.include now b]) :=
    fun x hx => hx.imp fun now => List.mem_append_left _
  have hb : b ∈ inputBlocks (inputs ++ [.include now b]) := ⟨now, by simp⟩
  obtain ⟨hwithin, hc⟩ := standing_run (K := K) fin hsub
  have ha := apart_run hbind hsub
  have hlast : ((Chain.new fin).run K inputs).include K now b =
      (Chain.new fin).run K (inputs ++ [.include now b]) := by
    simp [run, step]
  have hformed := wellFormed_run K fin (inputs ++ [.include now b])
  rw [← hlast] at hformed
  clear hlast
  generalize (Chain.new fin).run K inputs = c at hc ha hwithin hformed
  obtain ⟨ha', hgrown⟩ := ha.includeFrom hbind now (c.orphans.size + 1) hb
  have hfinal : (c.include K now b).finalized = c.finalized := hgrown.finalized
  have hagain : (c.include K now b).admits K b = c.admits K b := by
    rw [admits, admits, hfinal]
  dsimp only
  cases hadm : c.admits K b with
  | false =>
    rw [include_idle now (Or.inl hadm), include_idle now' (Or.inl hadm)]
    exact ⟨rfl, rfl, rfl, rfl⟩
  | true =>
    cases htry : c.tryInclude K b with
    | error e =>
      rw [include_idle now (Or.inr ⟨e, htry⟩), include_idle now' (Or.inr ⟨e, htry⟩)]
      exact ⟨rfl, rfl, rfl, rfl⟩
    | ok r =>
      cases r with
      | none =>
        -- it waits, and then waits again
        have hnot := tryInclude_none_iff.1 htry
        have htry' : (c.withOrphans (c.orphans.addBlock K now b)).tryInclude K b = .ok none :=
          tryInclude_none_iff.2 hnot
        have hfirst := include_aside now hadm htry
        rw [hfirst] at hagain ⊢
        rw [include_aside now' (hagain.trans hadm) htry']
        exact ⟨rfl, rfl, rfl, rfl⟩
      | some d =>
        obtain ⟨hknown, S, hquiet⟩ := quiet_include hbind now hwithin hc ha hb hadm htry
        have hvote : (c.include K now b).voteIfHead K (K.hash b) = c.include K now b := by
          rcases hquiet with ⟨x, hx, hparent⟩ | ⟨-, hvote⟩
          · exact if_neg (hparent ▸ ne_headHash_of_child hformed hx)
          · exact hvote
        rw [include_quiet now' (hagain.trans hadm) hknown hvote ha']
        exact ⟨rfl, rfl, rfl, rfl⟩

open Sample in
/-- The second of three blocks arrives twice, the third waiting for it. -/
theorem second_twice :
    let once := ((Chain.new genesis).run (single .inPlace)
      [.include 0 first, .include 0 third]).include (single .inPlace) 0 second
    (nodesL once.forktrees).length = 3 ∧
      (once.include (single .inPlace) 1 second).forktrees = once.forktrees := by
  refine ⟨by decide +kernel, (include_twice (single .inPlace) genesis
    [.include 0 first, .include 0 third] 0 1 second ?_).1⟩
  exact .of_genesis rfl selfDelimiting_uvarint (by decide +kernel) (by decide +kernel)

end Chain

end Consensus

end Rensa
