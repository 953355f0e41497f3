import Rensa.Consensus.Ancestry
/-!
# The places of a block

A block that was included is in the forest until a root is finalized: then
it is that root, and final, or it is in another tree, and discarded, or it
stays. `Lived` says so for all blocks at once, as a permutation of what
was included, together with why no block comes back: what is final is not
above the finalized block, and what was discarded is not above it either
or hangs under another discarded block.
-/

namespace Rensa

namespace Consensus

open Rose (nodes nodesL labels)
open TreeNode (block hash)
open ChainEvent (inclusion finality discarding)

namespace Chain

variable {H D : Type} {K : Config H D} {B : Set (Produced H D)} {fin : Finalized H D}
  {c c' : Chain H D} {es e : List (ChainEvent H D)}

/-- The blocks of the forest. -/
def forest (c : Chain H D) : List (Produced H D) := (nodesL c.forktrees).map block

theorem forest_eq (c : Chain H D) :
    c.forest = ((labels c.forktrees).map TreeCell.value).map fun v => v.block.underlying := by
  rw [forest, labels, List.map_map, List.map_map]
  rfl

/-- A new node brings its block into the forest. -/
theorem forest_of_perm {n : TreeNode H D}
    (h : (labels c'.forktrees).Perm (n.label :: labels c.forktrees)) :
    c'.forest.Perm (block n :: c.forest) := by
  rw [forest_eq, forest_eq]
  exact (h.map _).map _

theorem forest_count {stake : ℕ} {v : Vote H} {t : TreeNode H D} :
    (c.count K stake v t).forest = c.forest := by
  rw [forest_eq, forest_eq, forktrees_count, Rose.labels_map, List.map_map, List.map_map,
    List.map_map]
  exact List.map_congr_left fun a _ => congrArg Executed.underlying (TreeNode.voted_fixed a).1

/-- **Where the blocks are that were included.** -/
structure Lived (K : Config H D) (fin : Finalized H D) (B : Set (Produced H D))
    (es : List (ChainEvent H D)) (c : Chain H D) : Prop where
  /-- A block that was included is in one of three places. -/
  places : (issued inclusion es c).Perm
    (c.forest ++ (issued finality es c ++ issued discarding es c))
  /-- No hash is included twice. -/
  once : ((issued inclusion es c).map K.hash).Nodup
  /-- What was included comes from `B` and is not what the run started from. -/
  source : ∀ b ∈ issued inclusion es c, b ∈ B ∧ K.hash b ≠ fin.hash K
  /-- The finalized block is one of those that were finalized. -/
  last : c.finalized.hash K = fin.hash K ∨ c.finalized.hash K ∈ (issued finality es c).map K.hash
  rises : fin.height ≤ c.finalized.height
  /-- What is final is not above the finalized block. -/
  below : ∀ b ∈ issued finality es c, b.height ≤ c.finalized.height
  /-- What was discarded is not above it, or hangs under what was discarded. -/
  cut : ∀ b ∈ issued discarding es c, b.height ≤ c.finalized.height ∨
    b.parent ∈ (issued discarding es c).map K.hash

theorem lived_new (fin : Finalized H D) : Lived K fin B [] (Chain.new fin) where
  places := .refl _
  once := List.nodup_nil
  source := fun _ hb => by cases hb
  last := Or.inl rfl
  rises := le_rfl
  below := fun _ hb => by cases hb
  cut := fun _ hb => by cases hb

/-- What is final and what was discarded stays where it is while nothing of
it is issued. -/
theorem Lived.settled {es' : List (ChainEvent H D)} (h : Lived K fin B es c)
    (hfin : c'.finalized = c.finalized)
    (hf : (issued finality es' c').Perm (issued finality es c))
    (hd : (issued discarding es' c').Perm (issued discarding es c)) :
    (c'.finalized.hash K = fin.hash K ∨
        c'.finalized.hash K ∈ (issued finality es' c').map K.hash) ∧
      (∀ b ∈ issued finality es' c', b.height ≤ c'.finalized.height) ∧
      ∀ b ∈ issued discarding es' c', b.height ≤ c'.finalized.height ∨
        b.parent ∈ (issued discarding es' c').map K.hash := by
  rw [hfin]
  refine ⟨?_, fun b hb => h.below b (hf.mem_iff.1 hb), fun b hb => ?_⟩
  · rw [(hf.map K.hash).mem_iff]
    exact h.last
  · rw [(hd.map K.hash).mem_iff]
    exact h.cut b (hd.mem_iff.1 hb)

/-- Nothing changes place where the forest stays and nothing of it is
issued. -/
theorem Lived.of_same (h : Lived K fin B es c) (hforest : c'.forest = c.forest)
    (hfin : c'.finalized = c.finalized)
    (hissued : ∀ f, f = inclusion ∨ f = finality ∨ f = discarding →
      (issued f (es ++ e) c').Perm (issued f es c)) : Lived K fin B (es ++ e) c' := by
  have hi := hissued inclusion (by simp)
  have hf := hissued finality (by simp)
  have hd := hissued discarding (by simp)
  obtain ⟨hlast, hbelow, hcut⟩ := h.settled hfin hf hd
  refine ⟨?_, (hi.map K.hash).nodup_iff.2 h.once, fun b hb => h.source b (hi.mem_iff.1 hb), hlast,
    by rw [hfin]; exact h.rises, hbelow, hcut⟩
  rw [hforest]
  exact hi.trans (h.places.trans ((hf.append hd).append_left _).symm)

/-- A vote changes the place of no block. -/
theorem Lived.of_count (h : Lived K fin B es c) {stake : ℕ} {v : Vote H} {target : TreeNode H D} :
    Lived K fin B (es ++ []) (c.count K stake v target) := by
  refine h.of_same forest_count rfl fun f hf => issued_count fun x votes => ?_
  rcases hf with rfl | rfl | rfl <;> rfl

/-! ## Inclusion -/

/-- The places have no hash in common. -/
theorem Lived.apart (h : Lived K fin B es c) :
    (c.forest.map K.hash ++ ((issued finality es c).map K.hash ++
      (issued discarding es c).map K.hash)).Nodup := by
  have hnodup := (h.places.map K.hash).nodup_iff.1 h.once
  rwa [List.map_append, List.map_append] at hnodup

/-- A block is above the finalized block where it passes the checks of
`include`. -/
theorem height_of_admits {b : Produced H D} (h : c.admits K b = true) :
    c.finalized.height < b.height := by
  unfold admits at h
  split at h
  · cases h
  · simp only [Bool.and_eq_true, decide_eq_true_eq] at h
    exact h.1.2

/-- **A block that can be included was never included before**, since its
parent was not discarded. -/
theorem Lived.fresh [DecidableEq H] (hbind : Binding K fin B) (h : Lived K fin B es c)
    {b : Produced H D} (hB : b ∈ B) (hadm : c.admits K b = true)
    (hnew : c.knows K (K.hash b) = false)
    (hparent : b.parent = c.finalized.hash K ∨ b.parent ∈ c.forest.map K.hash) :
    K.hash b ∉ (issued inclusion es c).map K.hash ∧ K.hash b ≠ fin.hash K := by
  have habove := height_of_admits hadm
  have hapart := h.apart
  have hrises := h.rises
  have hsource : ∀ x, x ∈ c.forest ∨ x ∈ issued finality es c ∨ x ∈ issued discarding es c →
      x ∈ B ∧ K.hash x ≠ fin.hash K := by
    intro x hx
    refine h.source x (h.places.mem_iff.2 ?_)
    rwa [List.mem_append, List.mem_append]
  constructor
  · intro hmem
    rw [(h.places.map K.hash).mem_iff, List.map_append, List.map_append, List.mem_append,
      List.mem_append] at hmem
    rcases hmem with hmem | hmem | hmem
    · -- it is not in the forest
      obtain ⟨x, hx, hhash⟩ := List.mem_map.1 hmem
      obtain ⟨n, hn, rfl⟩ := List.mem_map.1 hx
      exact (knows_false hnew).1 n hn hhash
    · -- what is final is lower
      obtain ⟨x, hx, hhash⟩ := List.mem_map.1 hmem
      have hsame := hbind.height x (hsource x (Or.inr (Or.inl hx))).1 b hB hhash
      have hlow := h.below x hx
      omega
    · -- and what was discarded at that height has another parent
      obtain ⟨x, hx, hhash⟩ := List.mem_map.1 hmem
      have hxB := (hsource x (Or.inr (Or.inr hx))).1
      have hsame := hbind.height x hxB b hB hhash
      rcases h.cut x hx with hlow | hcut
      · omega
      · rw [hbind.parent x hxB b hB hhash] at hcut
        rw [List.nodup_append] at hapart
        rcases hparent with hparent | hparent
        · rw [hparent] at hcut
          rcases h.last with hlast | hlast
          · obtain ⟨y, hy, hyhash⟩ := List.mem_map.1 hcut
            exact (hsource y (Or.inr (Or.inr hy))).2 (hyhash.trans hlast)
          · exact (List.nodup_append.1 hapart.2.1).2.2 _ hlast _ hcut rfl
        · exact hapart.2.2 _ hparent _ (List.mem_append_right _ hcut) rfl
  · intro hhash
    have hsame := hbind.final b hB hhash
    omega

/-- A block that is included is in the forest. -/
theorem Lived.of_included {x : Executed H D} (h : Lived K fin B es c)
    (hevents : c'.events = .blockIncluded x :: c.events) (hfin : c'.finalized = c.finalized)
    (hforest : c'.forest.Perm (x.underlying :: c.forest)) (hB : x.underlying ∈ B)
    (hfresh : K.hash x.underlying ∉ (issued inclusion es c).map K.hash ∧
      K.hash x.underlying ≠ fin.hash K) : Lived K fin B (es ++ []) c' := by
  have hpush : c'.events.Perm ([.blockIncluded x] ++ c.events) := .of_eq hevents
  have hi : (issued inclusion (es ++ []) c').Perm (x.underlying :: issued inclusion es c) :=
    issued_push hpush
  have hf : (issued finality (es ++ []) c').Perm (issued finality es c) :=
    issued_silent hpush (by simp)
  have hd : (issued discarding (es ++ []) c').Perm (issued discarding es c) :=
    issued_silent hpush (by simp)
  obtain ⟨hlast, hbelow, hcut⟩ := h.settled hfin hf hd
  refine ⟨?_, ?_, fun b hb => ?_, hlast, by rw [hfin]; exact h.rises, hbelow, hcut⟩
  · refine hi.trans ((h.places.cons x.underlying).trans ?_)
    rw [← List.cons_append]
    exact (hforest.append (hf.append hd)).symm
  · rw [(hi.map K.hash).nodup_iff, List.map_cons, List.nodup_cons]
    exact ⟨hfresh.1, h.once⟩
  · rcases List.mem_cons.1 (hi.mem_iff.1 hb) with rfl | hb
    · exact ⟨hB, hfresh.2⟩
    · exact h.source b hb

/-! ## Finalization -/

/-- The forest, the root that is finalized and the trees beside it. -/
theorem forest_split {p : TreeNode H D → Bool} {before after : List (TreeNode H D)}
    {root : TreeNode H D} (hsplit : splitRoots p c.forktrees = some (before, root, after)) :
    c.forest.Perm (block root ::
      ((nodesL root.children).map block ++ (nodesL (before ++ after)).map block)) := by
  rw [forest, (splitRoots_some hsplit).1]
  have hperm := (Rose.perm_nodesL_middle before after root).map block
  rwa [List.map_cons, List.map_append] at hperm

theorem forest_finalizeNext [DecidableEq H] (rest : List (TreeNode H D)) (root : TreeNode H D) :
    (c.finalizeNext K rest root).forest = (nodesL root.children).map block := by
  change forest { c with forktrees := moveRoots K.alloc c.nextLoc root.children } = _
  rw [forest_eq, TreeNode.map_value_moveRoots, labels, List.map_map, List.map_map]
  rfl

/-- **A root that is finalized leaves the forest with the trees beside it**,
and what is below it stays. -/
theorem Lived.of_finalized [DecidableEq H] {before after : List (TreeNode H D)}
    {root : TreeNode H D} (h : Lived K fin B es c) (hc : WellFormed K c)
    (hsplit : splitRoots (c.finalizable K) c.forktrees = some (before, root, after)) :
    Lived K fin B (es ++ []) (c.finalizeNext K (before ++ after) root) := by
  have hforest := forest_split hsplit
  have hroot : root ∈ c.forktrees := (sublist_splitRoots hsplit).1
  have hrest : ∀ n ∈ before ++ after, n ∈ c.forktrees := by
    intro n hn
    rw [(splitRoots_some hsplit).1]
    rcases List.mem_append.1 hn with hn | hn
    · exact List.mem_append_left _ hn
    · exact List.mem_append_right _ (List.mem_cons_of_mem _ hn)
  have hi : (issued inclusion (es ++ []) (c.finalizeNext K (before ++ after) root)).Perm
      (issued inclusion es c) := by
    have hread := issued_finalizeNext inclusion es hc hsplit
    simpa using hread
  have hf : (issued finality (es ++ []) (c.finalizeNext K (before ++ after) root)).Perm
      (block root :: issued finality es c) := by
    have hread := issued_finalizeNext finality es hc hsplit
    simpa [block] using hread
  have hd : (issued discarding (es ++ []) (c.finalizeNext K (before ++ after) root)).Perm
      ((nodesL (before ++ after)).map block ++ issued discarding es c) := by
    have hread := issued_finalizeNext discarding es hc hsplit
    simpa using hread
  have hheight : (c.finalizeNext K (before ++ after) root).finalized.height =
      c.finalized.height + 1 := (hc.roots root hroot).2
  refine ⟨?_, (hi.map K.hash).nodup_iff.2 h.once, fun b hb => h.source b (hi.mem_iff.1 hb), ?_, ?_,
    fun b hb => ?_, fun b hb => ?_⟩
  · refine hi.trans (h.places.trans ?_)
    rw [forest_finalizeNext]
    -- the root and the trees beside it move from the first place to the others
    refine (hforest.append_right _).trans (.trans ?_ ((hf.append hd).append_left _).symm)
    rw [List.cons_append, List.cons_append, List.append_assoc]
    refine .trans ?_ List.perm_middle.symm
    exact ((List.perm_append_comm_assoc _ _ _).append_left _).cons _
  · right
    rw [(hf.map K.hash).mem_iff]
    exact List.mem_cons_self
  · have hrises := h.rises
    omega
  · rcases List.mem_cons.1 (hf.mem_iff.1 hb) with rfl | hb
    · have := (hc.roots root hroot).2
      omega
    · have hlow := h.below b hb
      omega
  · rw [(hd.map K.hash).mem_iff, List.map_append, List.mem_append]
    rcases List.mem_append.1 (hd.mem_iff.1 hb) with hb | hb
    · -- a root beside it is at its height, and any other node hangs under one of them
      obtain ⟨n, hn, rfl⟩ := List.mem_map.1 hb
      rcases Rose.exists_parent_of_mem_nodesL hn with hn | ⟨m, hm, hnm⟩
      · have := (hc.roots n (hrest n hn)).2
        exact Or.inl (by omega)
      · right
        left
        have hm' : m ∈ nodesL c.forktrees := by
          obtain ⟨t, ht, hmt⟩ := Rose.mem_nodesL.1 hm
          exact Rose.mem_nodesL.2 ⟨t, hrest t ht, hmt⟩
        rw [(hc.children m hm' n hnm).1]
        exact List.mem_map_of_mem (List.mem_map_of_mem hm)
    · rcases h.cut b hb with hlow | hcut
      · exact Or.inl (by omega)
      · exact Or.inr (Or.inr hcut)

/-! ## Runs -/

section Run

variable [DecidableEq H] {Q : Chain H D → Deed H D → Prop}

/-- **Every act keeps the places apart.** -/
theorem lived_of_act (hbind : Binding K fin B) (hact : Act K B Q c e c') (hc : Standing K B c)
    (h : Lived K fin B es c) : Lived K fin B (es ++ e) c' := by
  cases hact with
  | wait | record =>
    refine h.of_same rfl rfl fun f _ => ?_
    rw [List.append_nil]
    exact .refl _
  | @root b x hB hadm hnew hparent _ hx =>
    obtain ⟨rfl, -⟩ := newExecuted_ok hx
    exact h.of_included rfl rfl
      (forest_of_perm (n := TreeNode.leaf c.nextLoc x none) (labels_addRoot c.forktrees _ rfl)) hB
      (h.fresh hbind hB hadm hnew (Or.inl hparent))
  | @child b x p hB hadm hnew hparent _ hx =>
    obtain ⟨rfl, -⟩ := newExecuted_ok hx
    obtain ⟨hp, hphash⟩ := TreeNode.get_some hparent
    refine h.of_included rfl rfl (forest_of_perm (n := TreeNode.leaf c.nextLoc x
      (some p.label.loc)) (TreeNode.labels_addChild hc.allocated.located hp)) hB
      (h.fresh hbind hB hadm hnew (Or.inr ?_))
    rw [← hphash]
    exact List.mem_map_of_mem (List.mem_map_of_mem hp)
  | @cast n =>
    have hpush : (c.cast K n).events.Perm
        ([.vote (hash K n) (c.finalized.hash K)] ++ c.events) := .refl _
    refine h.of_same rfl rfl fun f hf => issued_silent hpush ?_
    rcases hf with rfl | rfl | rfl <;> simp
  | count => exact h.of_count
  | finalize _ hsplit => exact h.of_finalized hc.formed hsplit
  | miss missing =>
    refine h.of_same rfl rfl fun f hf => issued_miss missing fun t => ?_
    rcases hf with rfl | rfl | rfl <;> rfl
  | pop hlast => exact h.of_same rfl rfl fun f _ => issued_pop hlast

theorem lived_run (K : Config H D) (fin : Finalized H D) (inputs : List (Input H D))
    (hbind : Binding K fin (inputBlocks inputs)) :
    Lived K fin (inputBlocks inputs) ((Chain.new fin).delivered K inputs)
      ((Chain.new fin).run K inputs) :=
  run_standing (fun p _ => calm_true p.2) (lived_new fin)
    fun _ _ _ _ hact hc h => lived_of_act hbind hact hc h

/-- How often a hash is in the forest, among the blocks that were finalized
and among those that were discarded. -/
def whereabouts (K : Config H D) (es : List (ChainEvent H D)) (c : Chain H D) (h : H) : ℕ × ℕ × ℕ :=
  ((c.forest.map K.hash).count h, ((issued finality es c).map K.hash).count h,
    ((issued discarding es c).map K.hash).count h)

/-- A hash that was included is in one place, and there once. -/
theorem Lived.whereabouts_mem (h : Lived K fin B es c) {t : H}
    (ht : t ∈ (issued inclusion es c).map K.hash) :
    whereabouts K es c t ∈ [(1, 0, 0), (0, 1, 0), (0, 0, 1)] := by
  have hcount := (h.places.map K.hash).count_eq t
  rw [List.count_eq_one_of_mem h.once ht, List.map_append, List.map_append, List.count_append,
    List.count_append] at hcount
  simp only [whereabouts, List.mem_cons, Prod.mk.injEq, List.not_mem_nil, or_false]
  omega

/-- **Every block that was included is in one place.** No hash is included
twice; a hash that was included is in the forest, or was finalized once, or
was discarded once; nothing else is in these places; and what left the
forest is not in it again, however the run goes on. -/
theorem lifecycle_run (K : Config H D) (fin : Finalized H D) (inputs : List (Input H D))
    (hfree : CollisionFree K fin (inputBlocks inputs)) :
    let es := (Chain.new fin).delivered K inputs
    let c := (Chain.new fin).run K inputs
    ((issued inclusion es c).map K.hash).Nodup ∧
      (∀ t ∈ (issued inclusion es c).map K.hash,
        whereabouts K es c t ∈ [(1, 0, 0), (0, 1, 0), (0, 0, 1)]) ∧
      (∀ t ∉ (issued inclusion es c).map K.hash, whereabouts K es c t = (0, 0, 0)) ∧
      ∀ pre post, inputs = pre ++ post →
        ∀ b ∈ issued finality ((Chain.new fin).delivered K pre) ((Chain.new fin).run K pre) ++
          issued discarding ((Chain.new fin).delivered K pre) ((Chain.new fin).run K pre),
        K.hash b ∉ c.forest.map K.hash := by
  intro es c
  have hlived : Lived K fin (inputBlocks inputs) es c := lived_run K fin inputs hfree.binding
  refine ⟨hlived.once, fun t ht => hlived.whereabouts_mem ht, fun t ht => ?_, ?_⟩
  · have hcount := (hlived.places.map K.hash).count_eq t
    rw [List.count_eq_zero_of_not_mem ht, List.map_append, List.map_append, List.count_append,
      List.count_append] at hcount
    simp only [whereabouts, Prod.mk.injEq]
    omega
  · rintro pre post rfl b hb hforest
    have hgone : K.hash b ∈ (issued finality es c).map K.hash ++
        (issued discarding es c).map K.hash := by
      rw [← List.map_append]
      refine List.mem_map_of_mem (List.mem_append.2 ?_)
      rcases List.mem_append.1 hb with hb | hb
      · exact Or.inl (issued_mono hb)
      · exact Or.inr (issued_mono hb)
    exact (List.nodup_append.1 hlived.apart).2.2 _ hforest _ hgone rfl

end Run

/-- Of three blocks, the last with a vote for the second, the first is
final and the others are in the forest. -/
theorem lifecycle_threeBlocks :
    let K := Sample.single .inPlace
    let es := (Chain.new Sample.genesis).delivered K Sample.threeBlocks
    let c := (Chain.new Sample.genesis).run K Sample.threeBlocks
    [Sample.first, Sample.second, Sample.third].map (fun b => whereabouts K es c (K.hash b)) =
      [(0, 1, 0), (1, 0, 0), (1, 0, 0)] ∧ ((issued inclusion es c).map K.hash).Nodup := by
  have hfree : CollisionFree (Sample.single .inPlace) Sample.genesis
      (inputBlocks Sample.threeBlocks) :=
    .of_genesis rfl selfDelimiting_uvarint (by decide +kernel)
      (by decide +kernel)
  exact ⟨by decide +kernel, (lifecycle_run (Sample.single .inPlace) Sample.genesis
    Sample.threeBlocks hfree).1⟩

end Chain

end Consensus

end Rensa
