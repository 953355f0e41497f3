import Rensa.Common.Bytes
import Rensa.Common.SelfDelimiting
import Rensa.Consensus.Issued
/-!
# Blocks and their ancestors by hash

A block names its parent by its hash. `Anc K B a b` reads along these
names in a set `B` of blocks: `a` is `b` or an ancestor of it. What the
forest shows of ancestors, in its trees and its walks, agrees with it
(`anc_of_mem_nodes`, `anc_of_mem_path`). Where SHA3 has no collisions in
`B` (`CollisionFree`), a hash stands for one parent and one height
(`Binding`): both are among the bytes that are hashed.
-/

open Relation (ReflTransGen)

namespace Rensa

namespace Consensus

open Rose (nodes nodesL Path)
open TreeNode (block hash)

variable {H D : Type}

/-- What `Produced::hash` feeds to SHA3. -/
def Config.preimage (K : Config H D) (b : Produced H D) : Bytes :=
  b.signature.1.bytes ++ K.toBytes b.parent ++ K.toBytes b.stateHash ++ leBytes 8 b.height ++
    K.toBytes (K.hashData b.data) ++ b.votes.flatMap fun v => K.toBytes (K.hashVote v)

namespace Chain

variable {K : Config H D} {B : Set (Produced H D)} {fin : Finalized H D}

/-! ## Hashes -/

/-- The block a call is given. -/
def Input.block : Input H D → Option (Produced H D)
  | .include _ b => some b
  | .pollNext _ => none

/-- The blocks of `B` and the finalized block, where it is not the genesis
block. -/
def knownBlocks (fin : Finalized H D) (B : Set (Produced H D)) : Set (Produced H D) :=
  {b | b ∈ B ∨ fin.underlying = some b}

/-- **SHA3 has no collisions** among the blocks of `B`, the finalized block
and the genesis block, a hash is written so that its bytes say where it
ends, and heights are 64 bit numbers. -/
structure CollisionFree (K : Config H D) (fin : Finalized H D) (B : Set (Produced H D)) :
    Prop where
  digest : ∀ a ∈ knownBlocks fin B, ∀ b ∈ knownBlocks fin B,
    K.crypto.sha3 (K.preimage a) = K.crypto.sha3 (K.preimage b) → K.preimage a = K.preimage b
  genesis : ∀ b ∈ knownBlocks fin B, K.crypto.sha3 (K.preimage b) ≠ K.genesis.hash
  delimiting : SelfDelimiting K.toBytes
  height : ∀ b ∈ knownBlocks fin B, b.height < 2 ^ 64

/-- **A hash stands for one parent and one height.** -/
structure Binding (K : Config H D) (fin : Finalized H D) (B : Set (Produced H D)) : Prop where
  parent : ∀ a ∈ B, ∀ b ∈ B, K.hash a = K.hash b → a.parent = b.parent
  height : ∀ a ∈ B, ∀ b ∈ B, K.hash a = K.hash b → a.height = b.height
  final : ∀ b ∈ B, K.hash b = fin.hash K → b.height = fin.height

/-- The parent and the height are among the bytes that are hashed. -/
theorem CollisionFree.header (h : CollisionFree K fin B) {a b : Produced H D}
    (ha : a ∈ knownBlocks fin B) (hb : b ∈ knownBlocks fin B) (heq : K.hash a = K.hash b) :
    a.parent = b.parent ∧ a.height = b.height := by
  have hpre := h.digest a ha b hb heq
  simp only [Config.preimage, List.append_assoc] at hpre
  obtain ⟨-, hpre⟩ := List.append_inj hpre (by simp)
  obtain ⟨hparent, hpre⟩ := h.delimiting.unique hpre
  obtain ⟨-, hpre⟩ := h.delimiting.unique hpre
  obtain ⟨hheight, -⟩ := List.append_inj hpre (by simp)
  have ha' := h.height a ha
  have hb' := h.height b hb
  exact ⟨hparent, leBytes_inj (by omega) (by omega) hheight⟩

theorem CollisionFree.binding (h : CollisionFree K fin B) : Binding K fin B := by
  refine ⟨fun a ha b hb heq => (h.header (Or.inl ha) (Or.inl hb) heq).1,
    fun a ha b hb heq => (h.header (Or.inl ha) (Or.inl hb) heq).2, fun b hb heq => ?_⟩
  unfold Finalized.hash at heq
  unfold Finalized.height
  split at heq
  · exact absurd heq (h.genesis b (Or.inl hb))
  · rename_i x hx
    exact (h.header (Or.inl hb) (Or.inr hx) heq).2

/-- The height of the block with that hash: of a block of `B` or of the
finalized block the run started from. -/
def HeightOf (K : Config H D) (fin : Finalized H D) (B : Set (Produced H D)) (h : H) (k : ℕ) :
    Prop :=
  (∃ b ∈ B, K.hash b = h ∧ b.height = k) ∨ h = fin.hash K ∧ k = fin.height

theorem HeightOf.mono {B' : Set (Produced H D)} (hB : ∀ b ∈ B, b ∈ B') {h : H} {k : ℕ}
    (hk : HeightOf K fin B h k) : HeightOf K fin B' h k :=
  hk.imp_left fun ⟨b, hb, hhash⟩ => ⟨b, hB b hb, hhash⟩

theorem HeightOf.unique (hbind : Binding K fin B) {h : H} {k l : ℕ} (hk : HeightOf K fin B h k)
    (hl : HeightOf K fin B h l) : k = l := by
  rcases hk with ⟨a, ha, hhash, rfl⟩ | ⟨rfl, rfl⟩
  · rcases hl with ⟨b, hb, hhash', rfl⟩ | ⟨rfl, rfl⟩
    · exact hbind.height a ha b hb (hhash.trans hhash'.symm)
    · exact hbind.final a ha hhash
  · rcases hl with ⟨b, hb, hhash', rfl⟩ | ⟨-, rfl⟩
    · exact (hbind.final b hb hhash').symm
    · rfl

theorem mem_inputBlocks {inputs : List (Input H D)} {b : Produced H D} :
    b ∈ inputBlocks inputs ↔ b ∈ inputs.filterMap Input.block := by
  rw [List.mem_filterMap]
  constructor
  · rintro ⟨now, hb⟩
    exact ⟨_, hb, rfl⟩
  · rintro ⟨i, hi, hib⟩
    cases i with
    | «include» now x =>
      obtain rfl := Option.some.inj hib
      exact ⟨now, hi⟩
    | pollNext now => cases hib

/-- The check for the blocks of a list, from the genesis block on. -/
theorem CollisionFree.of_list {bs : List (Produced H D)} (hfin : fin.underlying = none)
    (hdelim : SelfDelimiting K.toBytes)
    (hpairs : ∀ a ∈ bs, ∀ b ∈ bs, K.hash a = K.hash b → K.preimage a = K.preimage b)
    (hblocks : ∀ b ∈ bs, K.hash b ≠ K.genesis.hash ∧ b.height < 2 ^ 64) :
    CollisionFree K fin {b | b ∈ bs} := by
  have hmem : ∀ b ∈ knownBlocks fin {b | b ∈ bs}, b ∈ bs := by
    rintro b (hb | hb)
    · exact hb
    · rw [hfin] at hb
      cases hb
  exact ⟨fun a ha b hb => hpairs a (hmem a ha) b (hmem b hb),
    fun b hb => (hblocks b (hmem b hb)).1, hdelim, fun b hb => (hblocks b (hmem b hb)).2⟩

/-- The check for a run from the genesis block. -/
theorem CollisionFree.of_genesis {inputs : List (Input H D)} (hfin : fin.underlying = none)
    (hdelim : SelfDelimiting K.toBytes)
    (hpairs : ∀ a ∈ inputs.filterMap Input.block, ∀ b ∈ inputs.filterMap Input.block,
      K.hash a = K.hash b → K.preimage a = K.preimage b)
    (hblocks : ∀ b ∈ inputs.filterMap Input.block,
      K.hash b ≠ K.genesis.hash ∧ b.height < 2 ^ 64) :
    CollisionFree K fin (inputBlocks inputs) := by
  have hset : inputBlocks inputs = {b | b ∈ inputs.filterMap Input.block} :=
    Set.ext fun _ => mem_inputBlocks
  rw [hset]
  exact .of_list hfin hdelim hpairs hblocks

/-! ## Ancestors -/

/-- `b` is the hash of a block of `B` that names `a` as its parent. -/
def Parent (K : Config H D) (B : Set (Produced H D)) (a b : H) : Prop :=
  ∃ x ∈ B, K.hash x = b ∧ x.parent = a

/-- **`a` is `b` or an ancestor of it**, by the names in the blocks of
`B`. -/
def Anc (K : Config H D) (B : Set (Produced H D)) : H → H → Prop := ReflTransGen (Parent K B)

theorem Anc.mono {B' : Set (Produced H D)} (hB : ∀ b ∈ B, b ∈ B') {a b : H} (h : Anc K B a b) :
    Anc K B' a b := by
  induction h with
  | refl => exact .refl
  | tail _ hstep ih =>
    obtain ⟨x, hx, hhash, hparent⟩ := hstep
    exact ih.tail ⟨x, hB x hx, hhash, hparent⟩

/-- The ancestors of a block are in every set that holds the block and,
with a block of `B`, its parent. -/
theorem Anc.mem_of_closed {S : H → Prop} {a x : H} (h : Anc K B a x) (hx : S x)
    (hclosed : ∀ b ∈ B, S (K.hash b) → S b.parent) : S a := by
  induction h using ReflTransGen.head_induction_on with
  | refl => exact hx
  | head hstep _ ih =>
    obtain ⟨b, hb, rfl, rfl⟩ := hstep
    exact hclosed b hb ih

/-- What a block of `B` is an ancestor of is a block of `B`. -/
theorem Anc.exists_block {b : Produced H D} (hb : b ∈ B) {t : H} (h : Anc K B (K.hash b) t) :
    ∃ x ∈ B, K.hash x = t := by
  cases h with
  | refl => exact ⟨b, hb, rfl⟩
  | tail _ hstep =>
    obtain ⟨x, hx, hhash, -⟩ := hstep
    exact ⟨x, hx, hhash⟩

/-- Two ancestors of one block are on one line. -/
theorem Anc.total (hbind : Binding K fin B) {a b x : H} (ha : Anc K B a x) (hb : Anc K B b x) :
    Anc K B a b ∨ Anc K B b a := by
  have hunique : Relator.RightUnique (Function.swap (Parent K B)) := by
    rintro x a b ⟨y, hy, rfl, rfl⟩ ⟨z, hz, hhash, rfl⟩
    exact (hbind.parent z hz y hy hhash).symm
  have htotal := ReflTransGen.total_of_right_unique hunique
    (Relation.reflTransGen_swap.2 ha) (Relation.reflTransGen_swap.2 hb)
  exact htotal.symm.imp Relation.reflTransGen_swap.1 Relation.reflTransGen_swap.1

/-- The blocks of a list of which each names the one before it are on one
line. -/
theorem anc_of_isChain {bs : List (Produced H D)} (hB : ∀ b ∈ bs, b ∈ B)
    (hchain : bs.IsChain fun a b => b.parent = K.hash a) {a b : Produced H D} (ha : a ∈ bs)
    (hb : b ∈ bs) : Anc K B (K.hash a) (K.hash b) ∨ Anc K B (K.hash b) (K.hash a) := by
  have hstep : bs.IsChain fun a b => Anc K B (K.hash a) (K.hash b) :=
    hchain.imp_of_mem_imp fun a b _ hb hparent => .single ⟨b, hB b hb, rfl, hparent⟩
  have : Trans (fun a b : Produced H D => Anc K B (K.hash a) (K.hash b))
      (fun a b => Anc K B (K.hash a) (K.hash b)) fun a b => Anc K B (K.hash a) (K.hash b) :=
    ⟨fun h h' => h.trans h'⟩
  have hpairs := List.isChain_iff_pairwise.1 hstep
  exact List.Pairwise.forall_of_forall_of_flip (R := fun a b : Produced H D =>
    Anc K B (K.hash a) (K.hash b) ∨ Anc K B (K.hash b) (K.hash a)) (fun _ _ => Or.inl .refl)
    (hpairs.imp Or.inl) (hpairs.imp Or.inr) ha hb

variable {c : Chain H D}

/-- A child in the forest names its parent. -/
theorem Standing.parent (h : Standing K B c) {n m : TreeNode H D} (hn : n ∈ nodesL c.forktrees)
    (hm : m ∈ n.children) : Parent K B (hash K n) (hash K m) :=
  ⟨block m, h.forest m (Rose.mem_nodesL_of_mem_children hn hm), rfl,
    (h.formed.children n hn m hm).1⟩

/-- A node of the forest is an ancestor of the nodes below it. -/
theorem Standing.anc_of_mem_nodes (h : Standing K B c) {n m : TreeNode H D}
    (hn : n ∈ nodesL c.forktrees) (hm : m ∈ nodes n) : Anc K B (hash K n) (hash K m) := by
  induction n using Rose.induction with
  | node a cs ih =>
    rw [Rose.nodes_node, List.mem_cons] at hm
    rcases hm with rfl | hm
    · exact .refl
    · obtain ⟨t, ht, hm⟩ := Rose.mem_nodesL.1 hm
      have ht' : t ∈ nodesL c.forktrees := Rose.mem_nodesL_of_mem_children hn ht
      exact .head (h.parent hn ht) (ih t ht ht' hm)

/-- The walk up from a node leads along its ancestors. -/
theorem Standing.anc_of_mem_path (h : Standing K B c) {n m : TreeNode H D}
    (hn : n ∈ nodesL c.forktrees) (hm : m ∈ TreeNode.path c.forktrees n) :
    Anc K B (hash K m) (hash K n) := by
  obtain ⟨hm', hnm⟩ := mem_nodes_of_mem_path h.allocated.located h.linked hn hm
  exact h.anc_of_mem_nodes hm' hnm

theorem Standing.anc_of_isDescendantOf [DecidableEq H] (h : Standing K B c) {n : TreeNode H D}
    {t : H} (hn : n ∈ nodesL c.forktrees)
    (hdesc : TreeNode.isDescendantOf K c.forktrees n t = true) : Anc K B t (hash K n) := by
  unfold TreeNode.isDescendantOf at hdesc
  obtain ⟨m, hm, hhash⟩ := List.any_eq_true.1 hdesc
  obtain rfl : hash K m = t := by simpa using hhash
  exact h.anc_of_mem_path hn (List.mem_of_mem_tail hm)

/-! ## Heights -/

theorem Standing.height_of_isDescendantOf [DecidableEq H] (h : Standing K B c)
    {n : TreeNode H D} {t : H} (hn : n ∈ nodesL c.forktrees)
    (hdesc : TreeNode.isDescendantOf K c.forktrees n t = true) :
    ∃ m ∈ nodesL c.forktrees, hash K m = t ∧ (block m).height < (block n).height := by
  unfold TreeNode.isDescendantOf at hdesc
  obtain ⟨m, hm, hhash⟩ := List.any_eq_true.1 hdesc
  obtain ⟨l, hl⟩ := Rose.exists_path hn
  have hwalk := (prefix_path h.allocated.located h.linked hl).drop 1
  rw [List.drop_one, List.drop_one, List.tail_cons] at hwalk
  have hml : m ∈ l := hwalk.subset hm
  refine ⟨m, hl.mem_nodesL m (List.mem_cons_of_mem _ hml), by simpa using hhash, ?_⟩
  cases l with
  | nil => cases hml
  | cons p l =>
    -- the parent of the node is under every other ancestor
    have hp : p ∈ nodesL c.forktrees := hl.mem_nodesL p (by simp)
    have hstep := (h.formed.children p hp n hl.mem_children).2
    have hle := h.formed.height_le (hl.tail.mem_nodesL m hml) (hl.tail.mem_nodes m hml)
    omega

/-- A block is above the finalized block. -/
theorem Standing.height_lt (h : Standing K B c) {n : TreeNode H D} (hn : n ∈ nodesL c.forktrees) :
    c.finalized.height < (block n).height := by
  obtain ⟨r, hr, hnr⟩ := Rose.mem_nodesL.1 hn
  have hroot := (h.formed.roots r hr).2
  have hle := h.formed.height_le (Rose.mem_nodesL_of_mem hr) hnr
  omega

end Chain

end Consensus

end Rensa
