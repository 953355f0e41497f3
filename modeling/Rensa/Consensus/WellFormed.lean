import Rensa.Consensus.ForkTree
import Rensa.Consensus.Moves
/-!
# The forest is well formed

`WellFormed` is what the source relies on wherever it walks the forest:
blocks hang under the block they name, one height above it, none twice,
all signed by eligible validators, and no assertion has failed. Every move
keeps it (`wellFormed_of_move`), from any finalized block and for any
blocks that arrive, so it holds after every run (`wellFormed_run`).
-/

namespace Rensa

namespace Consensus

open Rose (nodes nodesL labels Keyed)
open TreeNode (block hash)

namespace Chain

variable {H D : Type} [DecidableEq H] {K : Config H D} {B : Set (Produced H D)}
  {q : Prop} {c c' : Chain H D}

/-- The producer of a block is a validator with enough stake, and signed
it. -/
def ValidlySigned (K : Config H D) (b : Produced H D) : Prop :=
  K.verifySignature b = true ∧
    ∃ stake, K.stakeOf b.signature.1 = some stake ∧ K.genesis.limits.minimumStake ≤ stake

/-- **A well-formed forest.** -/
structure WellFormed (K : Config H D) (c : Chain H D) : Prop where
  /-- A root is a child of the finalized block. -/
  roots : ∀ r ∈ c.forktrees, (block r).parent = c.finalized.hash K ∧
    (block r).height = c.finalized.height + 1
  /-- A child names its parent and is one height above it. -/
  children : ∀ n ∈ nodesL c.forktrees, ∀ m ∈ n.children, (block m).parent = hash K n ∧
    (block m).height = (block n).height + 1
  /-- No block is in the forest twice. -/
  hashed : Hashed K c.forktrees
  /-- The finalized block is not in the forest. -/
  unfinal : ∀ n ∈ nodesL c.forktrees, hash K n ≠ c.finalized.hash K
  /-- Every block is signed by an eligible validator. -/
  signed : ∀ n ∈ nodesL c.forktrees, ValidlySigned K (block n)
  /-- No assertion has failed. -/
  sound : c.panicked = false

omit [DecidableEq H] in
/-- A block is above the nodes it is under. -/
theorem WellFormed.height_le (h : WellFormed K c) {n m : TreeNode H D}
    (hn : n ∈ nodesL c.forktrees) (hm : m ∈ Rose.nodes n) :
    (block n).height ≤ (block m).height := by
  induction n using Rose.induction with
  | node a cs ih =>
    rw [Rose.nodes_node, List.mem_cons] at hm
    rcases hm with rfl | hm
    · exact le_rfl
    · obtain ⟨t, ht, hm⟩ := Rose.mem_nodesL.1 hm
      have hstep := (h.children _ hn t ht).2
      have hrest := ih t ht (Rose.mem_nodesL_of_mem_children hn ht) hm
      omega

omit [DecidableEq H] in
/-- Nodes are at locations of their own, all of them used before. -/
structure Allocated (c : Chain H D) : Prop where
  located : Located c.forktrees
  below : ∀ a ∈ labels c.forktrees, a.loc < c.nextLoc

theorem forktrees_addUnder {p : TreeNode H D} {x : Executed H D} :
    (c.addUnder K p x).forktrees = c.forktrees.map (TreeNode.grown c.nextLoc x p) := rfl

omit [DecidableEq H] in
theorem forktrees_count {stake : ℕ} {v : Vote H} {t : TreeNode H D} :
    (c.count K stake v t).forktrees =
      c.forktrees.map (Rose.map (TreeNode.voted c.forktrees stake v.validator t)) := rfl

/-! ## Locations -/

omit [DecidableEq H] in
private theorem loc_moveRoots {alloc : Alloc} {next : ℕ} {ts : List (TreeNode H D)} {l : ℕ}
    (h : l ∈ (labels (moveRoots alloc next ts)).map TreeCell.loc) :
    l ∈ (labels ts).map TreeCell.loc ∨ next ≤ l ∧ l < next + ts.length := by
  induction ts generalizing next with
  | nil => cases h
  | cons t ts ih =>
    rw [moveRoots, Rose.labels_cons, List.map_cons, List.map_append, List.mem_cons,
      List.mem_append] at h
    rw [Rose.labels_cons, List.map_cons, List.map_append, List.mem_cons, List.mem_append,
      List.length_cons]
    rcases h with rfl | h | h
    · cases alloc
      · right
        change next ≤ next ∧ next < _
        omega
      · exact Or.inl (Or.inl rfl)
    · exact Or.inl (Or.inr (Or.inl h))
    · rcases ih h with h | h
      · exact Or.inl (Or.inr (Or.inr h))
      · right
        omega

omit [DecidableEq H] in
private theorem located_moveRoots {alloc : Alloc} {next : ℕ} {ts : List (TreeNode H D)}
    (h : Located ts) (hbelow : ∀ a ∈ labels ts, a.loc < next) :
    Located (moveRoots alloc next ts) := by
  induction ts generalizing next with
  | nil => exact List.nodup_nil
  | cons t ts ih =>
    unfold Located Keyed at h ih ⊢
    rw [Rose.labels_cons, List.map_cons, List.map_append, List.nodup_cons,
      List.nodup_append] at h
    obtain ⟨htop, hbelowNodup, hrest, hdisj⟩ := h
    have hlt : ∀ l ∈ (labels (t :: ts)).map TreeCell.loc, l < next := by
      intro l hl
      obtain ⟨a, ha, rfl⟩ := List.mem_map.1 hl
      exact hbelow a ha
    rw [Rose.labels_cons, List.map_cons, List.map_append] at hlt
    have hmoved := ih hrest (fun a ha => (hbelow a (by
      rw [Rose.labels_cons]
      exact List.mem_cons_of_mem _ (List.mem_append_right _ ha))).trans (Nat.lt_succ_self next))
    rw [moveRoots, Rose.labels_cons, List.map_cons, List.map_append, List.nodup_cons,
      List.nodup_append]
    refine ⟨fun hmem => ?_, hbelowNodup, hmoved, fun a ha b hb => ?_⟩
    · have hself := hlt _ List.mem_cons_self
      rcases List.mem_append.1 hmem with hmem | hmem
      · -- below the moved node nothing changes place
        cases alloc
        · have := hlt next (List.mem_cons_of_mem _ (List.mem_append_left _ hmem))
          omega
        · exact htop (List.mem_append_left _ hmem)
      · -- the other moved nodes are at old places, or at later new ones
        rcases loc_moveRoots hmem with hmem | hmem
        · cases alloc
          · have := hlt next (List.mem_cons_of_mem _ (List.mem_append_right _ hmem))
            omega
          · exact htop (List.mem_append_right _ hmem)
        · cases alloc
          · change next + 1 ≤ next ∧ _ at hmem
            omega
          · change next + 1 ≤ t.label.loc ∧ _ at hmem
            omega
    · rcases loc_moveRoots hb with hb | hb
      · exact hdisj a ha b hb
      · have := hlt a (List.mem_cons_of_mem _ (List.mem_append_left _ ha))
        omega

omit [DecidableEq H] in
/-- The locations after a new node. -/
private theorem allocated_cons {f : List (TreeNode H D)} {n : TreeNode H D}
    (h : Allocated c) (hloc : n.label.loc = c.nextLoc)
    (hperm : (labels f).Perm (n.label :: labels c.forktrees)) :
    Located f ∧ ∀ a ∈ labels f, a.loc < c.nextLoc + 1 := by
  constructor
  · refine keyed_of_perm hperm ?_
    rw [List.map_cons, List.nodup_cons]
    refine ⟨fun hmem => ?_, h.located⟩
    obtain ⟨a, ha, haloc⟩ := List.mem_map.1 hmem
    have := h.below a ha
    omega
  · intro a ha
    rcases List.mem_cons.1 (hperm.mem_iff.1 ha) with rfl | ha
    · omega
    · have := h.below a ha
      omega

omit [DecidableEq H] in
theorem labels_addRoot (f : List (TreeNode H D)) (n : TreeNode H D)
    (hn : n.children = []) : (labels (f ++ [n])).Perm (n.label :: labels f) := by
  rw [Rose.labels_append, Rose.labels_cons, hn]
  simp

omit [DecidableEq H] in
/-- The root that is split off is in the forest, with all below it. -/
theorem sublist_splitRoots {p : TreeNode H D → Bool} {f before after : List (TreeNode H D)}
    {root : TreeNode H D} (h : splitRoots p f = some (before, root, after)) :
    root ∈ f ∧ (labels root.children).Sublist (labels f) := by
  obtain ⟨rfl, -⟩ := splitRoots_some h
  refine ⟨by simp, ?_⟩
  rw [Rose.labels_append, Rose.labels_cons]
  exact ((List.sublist_append_left _ _).trans (List.sublist_cons_self _ _)).trans
    (List.sublist_append_right _ _)

/-- **Every move keeps the locations apart**, wherever moved nodes end
up. -/
theorem allocated_of_move (hm : Move K B q c c') (h : Allocated c) : Allocated c' := by
  cases hm with
  | idle hsame => exact ⟨hsame.forktrees ▸ h.located, by
      rw [hsame.forktrees, hsame.nextLoc]
      exact h.below⟩
  | @root b x _ _ _ _ _ _ =>
    obtain ⟨hloc, hbelow⟩ := allocated_cons (n := TreeNode.leaf c.nextLoc x none) h rfl
      (labels_addRoot c.forktrees _ rfl)
    exact ⟨hloc, hbelow⟩
  | child _ _ _ hparent _ _ =>
    obtain ⟨hloc, hbelow⟩ := allocated_cons h rfl
      (TreeNode.labels_addChild h.located (TreeNode.get_some hparent).1)
    exact ⟨hloc, hbelow⟩
  | @vote v stake target _ _ _ _ _ _ =>
    have hlocs : (labels (c.count K stake v target).forktrees).map TreeCell.loc =
        (labels c.forktrees).map TreeCell.loc := by
      rw [forktrees_count, Rose.labels_map, List.map_map]
      exact List.map_congr_left fun a _ => (TreeNode.voted_fixed a).2.1
    refine ⟨?_, fun a ha => ?_⟩
    · unfold Located Keyed
      rw [hlocs]
      exact h.located
    · have hmem := List.mem_map_of_mem (f := TreeCell.loc) ha
      rw [hlocs] at hmem
      obtain ⟨b, hb, hloc⟩ := List.mem_map.1 hmem
      exact hloc ▸ h.below b hb
  | @finalize _ _ root _ hsplit =>
    obtain ⟨-, hsub⟩ := sublist_splitRoots hsplit
    have hchildren : Located root.children := h.located.sublist (hsub.map _)
    have hbelow : ∀ a ∈ labels root.children, a.loc < c.nextLoc :=
      fun a ha => h.below a (hsub.subset ha)
    refine ⟨located_moveRoots hchildren hbelow, fun a ha => ?_⟩
    change a.loc < c.nextLoc + root.children.length
    rcases loc_moveRoots (List.mem_map_of_mem (f := TreeCell.loc) ha) with hmem | hmem
    · obtain ⟨b, hb, hloc⟩ := List.mem_map.1 hmem
      have := hbelow b hb
      omega
    · omega

omit [DecidableEq H] in
theorem allocated_new (fin : Finalized H D) : Allocated (Chain.new fin) :=
  ⟨List.nodup_nil, fun _ ha => by cases ha⟩

/-! ## Blocks -/

omit [DecidableEq H] in
/-- The hashes of the forest after a new block. -/
private theorem hashed_cons {f g : List (TreeNode H D)} {n : TreeNode H D} (h : Hashed K g)
    (hnew : ∀ m ∈ nodesL g, hash K m ≠ hash K n)
    (hperm : (labels f).Perm (n.label :: labels g)) : Hashed K f := by
  refine keyed_of_perm hperm ?_
  rw [List.map_cons, List.nodup_cons]
  refine ⟨fun hmem => ?_, h⟩
  obtain ⟨a, ha, hhash⟩ := List.mem_map.1 hmem
  obtain ⟨m, hm, rfl⟩ := Rose.mem_labels.1 ha
  exact hnew m hm hhash

/-- A block that is not known is neither in the forest nor final. -/
theorem knows_false {h : H} (hnew : c.knows K h = false) :
    (∀ m ∈ nodesL c.forktrees, hash K m ≠ h) ∧ c.finalized.hash K ≠ h := by
  unfold knows at hnew
  rw [Bool.or_eq_false_iff] at hnew
  constructor
  · exact TreeNode.get_none.1 (by simpa using hnew.1)
  · simpa using hnew.2

omit [DecidableEq H] in
/-- The nodes after a new root: those before, and the root. -/
theorem mem_addRoot {x : Executed H D} {n : TreeNode H D}
    (hn : n ∈ nodesL (c.addRoot x).forktrees) :
    n ∈ nodesL c.forktrees ∨ n = TreeNode.leaf c.nextLoc x none := by
  change n ∈ nodesL (c.forktrees ++ [TreeNode.leaf c.nextLoc x none]) at hn
  simpa [TreeNode.leaf, Rose.nodes_node] using hn

/-- The nodes after a new child: those before, with the child where its
parent is, and the child. -/
theorem mem_addUnder {x : Executed H D} {p n : TreeNode H D} (hp : p ∈ nodesL c.forktrees)
    (hn : n ∈ nodesL (c.addUnder K p x).forktrees) :
    (∃ m ∈ nodesL c.forktrees, TreeNode.grown c.nextLoc x p m = n) ∨
      n = TreeNode.leaf c.nextLoc x (some p.label.loc) :=
  (TreeNode.mem_addChild hp).1 hn

omit [DecidableEq H] in
/-- A block that passes the checks of `include` is validly signed. -/
theorem validlySigned_of_admits {b : Produced H D} (h : c.admits K b = true) :
    ValidlySigned K b := by
  unfold admits at h
  split at h
  · cases h
  · rename_i stake hstake
    simp only [Bool.and_eq_true, decide_eq_true_eq] at h
    exact ⟨h.2, stake, hstake, h.1.1⟩

omit [DecidableEq H] in
theorem wellFormed_new (fin : Finalized H D) : WellFormed K (Chain.new fin) where
  roots := fun _ h => by cases h
  children := fun _ h => by cases h
  hashed := List.nodup_nil
  unfinal := fun _ h => by cases h
  signed := fun _ h => by cases h
  sound := rfl

theorem wellFormed_addRoot {b : Produced H D} {x : Executed H D} (h : WellFormed K c)
    (hsigned : ValidlySigned K b) (hnew : c.knows K (K.hash b) = false)
    (hparent : b.parent = c.finalized.hash K) (hheight : b.height = c.finalized.height + 1)
    (hx : x.underlying = b) : WellFormed K (c.addRoot x) := by
  subst hx
  obtain ⟨hfresh, hfin⟩ := knows_false hnew
  refine ⟨fun r hr => ?_, fun n hn m hm => ?_, ?_, fun n hn => ?_, fun n hn => ?_, h.sound⟩
  · rcases List.mem_append.1 hr with hr | hr
    · exact h.roots r hr
    · rw [List.mem_singleton.1 hr]
      exact ⟨hparent, hheight⟩
  · rcases mem_addRoot hn with hn | rfl
    · exact h.children n hn m hm
    · cases hm
  · exact hashed_cons (n := TreeNode.leaf c.nextLoc x none) h.hashed hfresh
      (labels_addRoot c.forktrees _ rfl)
  · rcases mem_addRoot hn with hn | rfl
    · exact h.unfinal n hn
    · exact fun heq => hfin heq.symm
  · rcases mem_addRoot hn with hn | rfl
    · exact h.signed n hn
    · exact hsigned

theorem wellFormed_addUnder {b : Produced H D} {x : Executed H D} {p : TreeNode H D}
    (h : WellFormed K c) (hloc : Located c.forktrees) (hsigned : ValidlySigned K b)
    (hnew : c.knows K (K.hash b) = false) (hparent : TreeNode.get K c.forktrees b.parent = some p)
    (hheight : b.height = p.block.height + 1) (hx : x.underlying = b) :
    WellFormed K (c.addUnder K p x) := by
  subst hx
  obtain ⟨hfresh, hfin⟩ := knows_false hnew
  obtain ⟨hp, hphash⟩ := TreeNode.get_some hparent
  refine ⟨fun r hr => ?_, fun n hn m hm => ?_, ?_, fun n hn => ?_, fun n hn => ?_, ?_⟩
  · rw [forktrees_addUnder] at hr
    obtain ⟨r', hr', rfl⟩ := List.mem_map.1 hr
    rw [TreeNode.block_grown]
    exact h.roots r' hr'
  · rcases mem_addUnder hp hn with ⟨n', hn', rfl⟩ | rfl
    · rcases TreeNode.mem_children_grown.1 hm with ⟨m', hm', rfl⟩ | ⟨hnp, rfl⟩
      · rw [TreeNode.block_grown, TreeNode.block_grown, TreeNode.hash_grown]
        exact h.children n' hn' m' hm'
      · -- the new child hangs under the node that was found by its hash
        obtain rfl := hloc.eq hn' hp hnp
        rw [TreeNode.hash_grown, TreeNode.block_grown]
        exact ⟨hphash.symm, hheight⟩
    · cases hm
  · exact hashed_cons (n := TreeNode.leaf c.nextLoc x (some p.label.loc)) h.hashed hfresh
      (TreeNode.labels_addChild hloc hp)
  · rcases mem_addUnder hp hn with ⟨n', hn', rfl⟩ | rfl
    · rw [TreeNode.hash_grown]
      exact h.unfinal n' hn'
    · exact fun heq => hfin heq.symm
  · rcases mem_addUnder hp hn with ⟨n', hn', rfl⟩ | rfl
    · rw [TreeNode.block_grown]
      exact h.signed n' hn'
    · exact hsigned
  · simp [addUnder, h.sound, hphash]

omit [DecidableEq H] in
theorem wellFormed_count {v : Vote H} {stake : ℕ} {target : TreeNode H D} (h : WellFormed K c) :
    WellFormed K (c.count K stake v target) := by
  have hmem : ∀ n ∈ nodesL (c.count K stake v target).forktrees, ∃ m ∈ nodesL c.forktrees,
      Rose.map (TreeNode.voted c.forktrees stake v.validator target) m = n :=
    fun n hn => Rose.mem_nodesL_map.1 hn
  refine ⟨fun r hr => ?_, fun n hn m hm => ?_, ?_, fun n hn => ?_, fun n hn => ?_, h.sound⟩
  · rw [forktrees_count] at hr
    obtain ⟨r', hr', rfl⟩ := List.mem_map.1 hr
    rw [TreeNode.block_voted]
    exact h.roots r' hr'
  · obtain ⟨n', hn', rfl⟩ := hmem n hn
    rw [Rose.children_map] at hm
    obtain ⟨m', hm', rfl⟩ := List.mem_map.1 hm
    rw [TreeNode.block_voted, TreeNode.block_voted, TreeNode.hash_voted]
    exact h.children n' hn' m' hm'
  · unfold Hashed Keyed
    have hcell : ∀ a ∈ labels c.forktrees, (TreeCell.hash K ∘
        TreeNode.voted c.forktrees stake v.validator target) a = TreeCell.hash K a := by
      intro a _
      rw [Function.comp_apply, TreeCell.hash, (TreeNode.voted_fixed a).1, TreeCell.hash]
    rw [forktrees_count, Rose.labels_map, List.map_map, List.map_congr_left hcell]
    exact h.hashed
  · obtain ⟨n', hn', rfl⟩ := hmem n hn
    rw [TreeNode.hash_voted]
    exact h.unfinal n' hn'
  · obtain ⟨n', hn', rfl⟩ := hmem n hn
    rw [TreeNode.block_voted]
    exact h.signed n' hn'

/-- The children of a finalized root are roots on top of it. -/
theorem wellFormed_finalizeRoot {before after : List (TreeNode H D)} {root : TreeNode H D}
    (h : WellFormed K c)
    (hsplit : splitRoots (c.finalizable K) c.forktrees = some (before, root, after)) :
    WellFormed K (c.finalizeRoot K (before ++ after) root) := by
  obtain ⟨hroot, hsub⟩ := sublist_splitRoots hsplit
  have hin : root ∈ nodesL c.forktrees := Rose.mem_nodesL_of_mem hroot
  have hbelow : ∀ n ∈ nodesL root.children, n ∈ nodesL c.forktrees :=
    fun n hn => Rose.mem_nodesL_of_mem_below hin hn
  -- a node of the new forest has the block and the children of an old one
  have hmem : ∀ n ∈ nodesL (c.finalizeRoot K (before ++ after) root).forktrees,
      ∃ m ∈ nodesL root.children, block n = block m ∧ n.children = m.children := by
    intro n hn
    obtain ⟨m, hm, hvalue, hchildren, -⟩ := TreeNode.exists_of_mem_moveRoots hn
    exact ⟨m, hm, by simp only [block, hvalue], hchildren⟩
  have hhashed : ((labels [root]).map (TreeCell.hash K)).Nodup := by
    refine h.hashed.sublist (List.Sublist.map _ ?_)
    have heq : c.forktrees = before ++ ([root] ++ after) := (splitRoots_some hsplit).1
    rw [heq, Rose.labels_append, Rose.labels_append]
    exact (List.sublist_append_left _ _).trans (List.sublist_append_right _ _)
  refine ⟨fun r hr => ?_, fun n hn m hm => ?_, ?_, fun n hn => ?_, fun n hn => ?_, ?_⟩
  · obtain ⟨t, ht, l, rfl⟩ := TreeNode.mem_of_mem_moveRoots hr
    exact h.children root hin t ht
  · obtain ⟨n', hn', hblock, hchildren⟩ := hmem n hn
    rw [TreeNode.hash, hblock]
    exact h.children n' (hbelow n' hn') m (hchildren ▸ hm)
  · unfold Hashed Keyed
    change ((labels (moveRoots K.alloc c.nextLoc root.children)).map
      ((fun v : VolatileBlock H D => K.hash v.block.underlying) ∘ TreeCell.value)).Nodup
    rw [← List.map_map, TreeNode.map_value_moveRoots, List.map_map]
    exact h.hashed.sublist (hsub.map _)
  · obtain ⟨n', hn', hblock, -⟩ := hmem n hn
    rw [TreeNode.hash, hblock]
    rw [Rose.labels_cons, Rose.labels_nil, List.append_nil, List.map_cons,
      List.nodup_cons] at hhashed
    intro heq
    exact hhashed.1 (List.mem_map.2 ⟨n'.label, Rose.mem_labels.2 ⟨n', hn', rfl⟩, heq⟩)
  · obtain ⟨n', hn', hblock, -⟩ := hmem n hn
    rw [hblock]
    exact h.signed n' (hbelow n' hn')
  · simp [finalizeRoot, h.sound, (h.roots root hroot).1]

/-- **Every move keeps the forest well formed.** -/
theorem wellFormed_of_move (hm : Move K B q c c') (hloc : Allocated c) (h : WellFormed K c) :
    WellFormed K c' := by
  cases hm with
  | idle hsame =>
    refine ⟨?_, ?_, ?_, ?_, ?_, hsame.panicked.trans h.sound⟩
    all_goals simp only [hsame.forktrees, hsame.finalized]
    · exact h.roots
    · exact h.children
    · exact h.hashed
    · exact h.unfinal
    · exact h.signed
  | root _ hadm hnew hparent hheight hx =>
    exact wellFormed_addRoot h (validlySigned_of_admits hadm) hnew hparent hheight
      (newExecuted_ok hx).1
  | child _ hadm hnew hparent hheight hx =>
    exact wellFormed_addUnder h hloc.located (validlySigned_of_admits hadm) hnew hparent hheight
      (newExecuted_ok hx).1
  | vote _ _ _ _ _ _ => exact wellFormed_count h
  | finalize _ hsplit => exact wellFormed_finalizeRoot h hsplit

/-- **Every block of the forest was there before the move, or it is from
`B`.** -/
theorem block_of_move (hm : Move K B q c c') :
    ∀ n ∈ nodesL c'.forktrees, (∃ m ∈ nodesL c.forktrees, block m = block n) ∨ block n ∈ B := by
  intro n hn
  cases hm with
  | idle hsame => exact Or.inl ⟨n, hsame.forktrees ▸ hn, rfl⟩
  | @root b x hB _ _ _ _ hx =>
    change n ∈ nodesL (c.forktrees ++ [TreeNode.leaf c.nextLoc x none]) at hn
    rw [Rose.nodesL_append, List.mem_append] at hn
    rcases hn with hn | hn
    · exact Or.inl ⟨n, hn, rfl⟩
    · obtain rfl : n = TreeNode.leaf c.nextLoc x none := by
        simpa [TreeNode.leaf, Rose.nodes_node] using hn
      have hblock : block (TreeNode.leaf c.nextLoc x none) = b := (newExecuted_ok hx).1
      exact Or.inr (hblock ▸ hB)
  | @child b x p hB _ _ hparent _ hx =>
    rcases (TreeNode.mem_addChild (TreeNode.get_some hparent).1).1 hn with ⟨m, hm, rfl⟩ | rfl
    · exact Or.inl ⟨m, hm, TreeNode.block_grown.symm⟩
    · have hblock : block (TreeNode.leaf c.nextLoc x (some p.label.loc)) = b :=
        (newExecuted_ok hx).1
      exact Or.inr (hblock ▸ hB)
  | vote _ _ _ _ _ _ =>
    rw [forktrees_count] at hn
    obtain ⟨m, hm, rfl⟩ := Rose.mem_nodesL_map.1 hn
    exact Or.inl ⟨m, hm, (TreeNode.block_voted m).symm⟩
  | finalize _ hsplit =>
    have hin := Rose.mem_nodesL_of_mem (sublist_splitRoots hsplit).1
    obtain ⟨m, hm, hvalue, -, -⟩ := TreeNode.exists_of_mem_moveRoots hn
    exact Or.inl ⟨m, Rose.mem_nodesL_of_mem_below hin hm, by simp only [block, hvalue]⟩

/-- The blocks of the forest come from the calls. -/
theorem forest_inputs (K : Config H D) (fin : Finalized H D) (inputs : List (Input H D)) :
    ∀ n ∈ nodesL ((Chain.new fin).run K inputs).forktrees, block n ∈ inputBlocks inputs := by
  refine run_induction (P := fun c => ∀ n ∈ nodesL c.forktrees, block n ∈ inputBlocks inputs)
    (fun n hn => absurd hn List.not_mem_nil) fun c c' hm h n hn => ?_
  rcases block_of_move hm n hn with ⟨m, hm, hblock⟩ | hB
  · exact hblock ▸ h m hm
  · exact hB

/-- What every run keeps of the forest. -/
theorem run_forest (K : Config H D) (fin : Finalized H D) (inputs : List (Input H D)) :
    Allocated ((Chain.new fin).run K inputs) ∧ WellFormed K ((Chain.new fin).run K inputs) :=
  run_induction (P := fun c => Allocated c ∧ WellFormed K c)
    ⟨allocated_new fin, wellFormed_new fin⟩
    fun _ _ hm h => ⟨allocated_of_move hm h.1, wellFormed_of_move hm h.1 h.2⟩

/-- **The forest is well formed after every run**, whatever blocks arrive
and wherever moved nodes end up. -/
theorem wellFormed_run (K : Config H D) (fin : Finalized H D) (inputs : List (Input H D)) :
    WellFormed K ((Chain.new fin).run K inputs) :=
  (run_forest K fin inputs).2

end Chain

end Consensus

end Rensa
