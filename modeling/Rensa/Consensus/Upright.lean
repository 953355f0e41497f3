import Rensa.Consensus.Line
import Rensa.Consensus.OwnVotes
import Rensa.Consensus.VoteOrder
/-!
# A chain along some blocks

Where the blocks of a chain hang one under another (`Upright`), the last is the
head. A valid block on top of it is hung under it, and as nothing stands
against a vote for it, it is voted for (`Voted.include_eq`).
-/

namespace Rensa

namespace Consensus

open Relation (ReflTransGen)
open Rose (nodes nodesL line line_cons Path)
open TreeNode (block hash votes voters path)

variable {H D : Type} {K : Config H D}

namespace Chain

variable {c c' : Chain H D} {bs : List (Produced H D)} {b : Produced H D}

/-- The block in a cell. -/
def produced (a : TreeCell H D) : Produced H D := a.value.block.underlying

/-- **The chain is `bs`, one block after another**: those up to the final
height are final, and the others hang under each other. -/
structure Upright (bs : List (Produced H D)) (c : Chain H D) : Prop where
  forest : ∃ cs, c.forktrees = line cs ∧ cs.map produced = bs.drop c.finalized.height
  final : c.finalized.underlying = (bs.take c.finalized.height).getLast?
  le : c.finalized.height ≤ bs.length

theorem upright_new {fin : Finalized H D} (h : fin.underlying = none) :
    Upright [] (Chain.new fin) := by
  have hheight : (Chain.new fin).finalized.height = 0 := by
    change fin.height = 0
    rw [Finalized.height, h]
  refine ⟨⟨[], rfl, ?_⟩, ?_, hheight.le⟩
  · rw [List.drop_nil, List.map_nil]
  · rw [List.take_nil]
    exact h

/-- The hash of the last of some blocks, of the genesis block if there is none. -/
def tipHash (K : Config H D) (bs : List (Produced H D)) : H :=
  (bs.getLast?.map K.hash).getD K.genesis.hash

@[simp] theorem tipHash_append : tipHash K (bs ++ [b]) = K.hash b := by
  simp [tipHash]

theorem Upright.finalized_hash (h : Upright bs c) :
    c.finalized.hash K = tipHash K (bs.take c.finalized.height) := by
  rw [tipHash, ← h.final, Finalized.hash]
  cases c.finalized.underlying <;> rfl

/-- With all blocks final, the forest is empty, and otherwise it ends with the
last block. -/
theorem Upright.cases (h : Upright bs c) :
    (c.forktrees = [] ∧ c.finalized.height = bs.length) ∨
      c.finalized.height < bs.length ∧ ∃ cs a, c.forktrees = line (cs ++ [a]) ∧
        (cs ++ [a]).map produced = bs.drop c.finalized.height ∧
          bs.getLast? = some (produced a) := by
  obtain ⟨cs, hf, hcs⟩ := h.forest
  have hlen := congrArg List.length hcs
  rw [List.length_map, List.length_drop] at hlen
  have hle := h.le
  rcases List.eq_nil_or_concat cs with rfl | ⟨cs, a, rfl⟩
  · exact Or.inl ⟨hf, by simp at hlen; omega⟩
  · rw [List.concat_eq_append] at hf hcs hlen
    refine Or.inr ⟨by simp at hlen; omega, cs, a, hf, hcs, ?_⟩
    have hlast := congrArg List.getLast? hcs
    rw [List.getLast?_map, List.getLast?_concat, List.getLast?_drop] at hlast
    split at hlast
    · cases hlast
    · exact hlast.symm

/-- **The head is the last block.** -/
theorem Upright.headHash (h : Upright bs c) : c.headHash K = tipHash K bs := by
  rcases h.cases with ⟨hf, hall⟩ | ⟨-, cs, a, hf, -, hlast⟩
  · have hnone : c.headNode = none := by
      rw [headNode, hf]
      rfl
    rw [Chain.headHash, hnone, h.finalized_hash, hall, List.take_length]
  · rw [Chain.headHash, headNode_line hf, tipHash, hlast]
    rfl

/-- Upright a line the heights go up by one. -/
theorem height_line {k : ℕ} {cs : List (TreeCell H D)} {a : TreeCell H D}
    (hroots : ∀ r ∈ line (cs ++ [a]), (block r).height = k + 1)
    (hchildren : ∀ n ∈ nodesL (line (cs ++ [a])), ∀ m ∈ n.children,
      (block m).height = (block n).height + 1) :
    (produced a).height = k + (cs ++ [a]).length := by
  induction cs generalizing k with
  | nil => exact hroots _ (List.mem_singleton_self _)
  | cons d cs ih =>
    have htop : (block (.node d (line (cs ++ [a])) : TreeNode H D)).height = k + 1 :=
      hroots _ (List.mem_singleton_self _)
    rw [List.cons_append, Rose.nodesL_line_cons] at hchildren
    have hrest := ih (k := k + 1) (fun r hr => by
        rw [hchildren _ List.mem_cons_self r hr, htop])
      fun n hn => hchildren n (List.mem_cons_of_mem _ hn)
    rw [hrest, List.cons_append, List.length_cons]
    omega

theorem Upright.height_last (h : Upright bs c) (hc : WellFormed K c) {cs : List (TreeCell H D)}
    {a : TreeCell H D} (hf : c.forktrees = line (cs ++ [a]))
    (hcs : (cs ++ [a]).map produced = bs.drop c.finalized.height) :
    (produced a).height = bs.length := by
  have hlen := congrArg List.length hcs
  rw [List.length_map, List.length_drop] at hlen
  have hle := h.le
  rw [height_line (k := c.finalized.height) (fun r hr => (hc.roots r (hf ▸ hr)).2)
    fun n hn m hm => (hc.children n (hf ▸ hn) m hm).2, hlen]
  omega

theorem Upright.headHeight (h : Upright bs c) (hc : WellFormed K c) : c.headHeight = bs.length := by
  rcases h.cases with ⟨hf, hall⟩ | ⟨-, cs, a, hf, hcs, -⟩
  · have hnone : c.headNode = none := by
      rw [headNode, hf]
      rfl
    rw [Chain.headHeight, hnone, hall]
  · rw [Chain.headHeight, headNode_line hf]
    exact h.height_last hc hf hcs

variable [DecidableEq H]

/-! ## What is kept anyway -/

/-- What a run keeps of the forest, with nothing asked of the blocks. -/
structure Orderly (K : Config H D) (c : Chain H D) : Prop where
  balanced : Balanced K c
  formed : WellFormed K c
  within : Within Set.univ c

omit [DecidableEq H] in
theorem orderly_new (fin : Finalized H D) : Orderly K (Chain.new fin) :=
  ⟨balanced_new fin, wellFormed_new fin, within_new fin⟩

theorem Orderly.of_moves {q : Prop} (h : Orderly K c) (hmoves : Moves K Set.univ q c c') :
    Orderly K c' := by
  obtain ⟨hsteps, hwithin⟩ := hmoves
  have hall : Balanced K c' ∧ WellFormed K c' := by
    clear hwithin
    induction hsteps with
    | refl => exact ⟨h.balanced, h.formed⟩
    | tail _ hmove ih =>
      exact ⟨ih.1.of_move hmove, wellFormed_of_move hmove ih.1.allocated ih.2⟩
  exact ⟨hall.1, hall.2, hwithin⟩

theorem Orderly.step (h : Orderly K c) (i : Input H D) : Orderly K (c.step K i) :=
  h.of_moves (step_moves (q := True) h.within (fun _ _ _ => Set.mem_univ _) fun _ => trivial)

theorem Orderly.run (h : Orderly K c) (inputs : List (Input H D)) : Orderly K (c.run K inputs) := by
  induction inputs generalizing c with
  | nil => exact h
  | cons i inputs ih => exact ih (h.step i)

/-! ## The next block -/

/-- **The next block of a chain without forks**: it is new, valid and on top of
the head, and validators with a majority of the stake vote in it as the chain
itself voted for its head. -/
structure Next (K : Config H D) (c : Chain H D) (b : Produced H D) : Prop where
  signed : ValidlySigned K b
  parent : b.parent = c.headHash K
  height : b.height = c.headHeight + 1
  executes : ∃ x, K.newExecuted c.headState b = .ok x
  new : c.knows K (K.hash b) = false
  votes : c.forktrees ≠ [] → ∃ V : Finset Pubkey, K.minimumMajorityStake ≤ ∑ k ∈ V, K.stake k ∧
    ∀ k ∈ V, K.Eligible k ∧ ∃ v ∈ b.votes, v.validator = k ∧ K.verifyVote v = true ∧
      c.ownvotes (K.epoch c.headHeight) = some (v.justification, v.target)

/-- What `try_include` makes of a chain: the block hangs under the last one. -/
structure Topped (c d : Chain H D) (x : Executed H D) : Prop where
  finalized : d.finalized = c.finalized
  finalizedHistory : d.finalizedHistory = c.finalizedHistory
  ownvotes : d.ownvotes = c.ownvotes
  orphans : d.orphans = c.orphans
  events : d.events = .blockIncluded x :: c.events
  forest : ∀ cs, c.forktrees = line cs → ∃ a, d.forktrees = line (cs ++ [a]) ∧
    a.value = { block := x }

theorem Upright.exists_topped (h : Upright bs c) (hs : Orderly K c) (hnext : Next K c b) :
    ∃ d x, c.tryInclude K b = .ok (some d) ∧ x.underlying = b ∧ Topped c d x := by
  obtain ⟨x, hx⟩ := hnext.executes
  have hxb : x.underlying = b := (newExecuted_ok hx).1
  have hparent := hnext.parent
  have hheight := hnext.height
  rcases h.cases with ⟨hf, -⟩ | ⟨-, cs, a, hf, -, -⟩
  · have hnone : c.headNode = none := by
      rw [headNode, hf]
      rfl
    rw [Chain.headHash, hnone] at hparent
    rw [Chain.headHeight, hnone] at hheight
    rw [headState, hnone] at hx
    refine ⟨c.addRoot x, x, ?_, hxb, rfl, rfl, rfl, rfl, rfl, fun cs hcs => ?_⟩
    · rw [tryInclude, hnext.new, if_neg Bool.false_ne_true, if_pos hparent,
        if_neg (not_not.2 hheight), hx]
    · cases cs with
      | nil => exact ⟨⟨{ block := x }, c.nextLoc, none⟩, by rw [addRoot, hf]; rfl, rfl⟩
      | cons d cs =>
        rw [hf] at hcs
        cases hcs
  · -- the last block is in the forest, and not final
    have hlast : (.node a [] : TreeNode H D) ∈ nodesL c.forktrees := by
      refine List.mem_of_getLast? (l := nodesL c.forktrees) ?_
      rw [hf]
      exact Rose.getLast?_nodesL_line cs a
    rw [Chain.headHash, headNode_line hf] at hparent
    rw [Chain.headHeight, headNode_line hf] at hheight
    rw [headState, headNode_line hf] at hx
    dsimp only at hparent hheight hx
    have hget := TreeNode.get_of_mem hs.formed.hashed hlast
    have hunfinal := hs.formed.unfinal _ hlast
    rw [← hparent] at hget hunfinal
    refine ⟨c.addUnder K (.node a []) x, x, ?_, hxb, rfl, rfl, rfl, rfl, rfl, fun cs' hcs' => ?_⟩
    · rw [tryInclude, hnext.new, if_neg Bool.false_ne_true, if_neg hunfinal, hget]
      dsimp only
      rw [if_neg (not_not.2 hheight), hx]
    · have heq : cs' = cs ++ [a] := by
        rw [← Rose.labels_line cs', ← hcs', hf, Rose.labels_line]
      have hapart : ∀ d ∈ cs, decide (d.loc = a.loc) = false := by
        intro d hd
        have hnodup := hs.balanced.allocated.located
        rw [Located, Rose.Keyed, hf, Rose.labels_line, List.map_append, List.nodup_append] at hnodup
        exact decide_eq_false (hnodup.2.2 _ (List.mem_map_of_mem hd) _ (by simp))
      refine ⟨⟨{ block := x }, c.nextLoc, some a.loc⟩, ?_, rfl⟩
      rw [heq, List.append_assoc, List.singleton_append]
      rw [← Rose.graft_line hapart (decide_eq_true rfl), ← hf]
      rfl

theorem Upright.admits (h : Upright bs c) (hs : Orderly K c) (hnext : Next K c b) :
    c.admits K b = true := by
  obtain ⟨hverify, stake, hstake, hmin⟩ := hnext.signed
  have hlt : c.finalized.height < b.height := by
    have hle := h.le
    rw [hnext.height, h.headHeight hs.formed]
    omega
  rw [Chain.admits, hstake]
  simp only [hmin, hlt, hverify, decide_true, Bool.and_self]

omit [DecidableEq H] in
theorem Upright.of_topped {d : Chain H D} {x : Executed H D} (h : Upright bs c)
    (hx : x.underlying = b) (hd : Topped c d x) : Upright (bs ++ [b]) d := by
  obtain ⟨cs, hf, hcs⟩ := h.forest
  obtain ⟨a, hf', ha⟩ := hd.forest cs hf
  have hab : produced a = b := by rw [produced, ha, hx]
  refine ⟨⟨cs ++ [a], hf', ?_⟩, ?_, ?_⟩
  · rw [hd.finalized, List.map_append, hcs, List.map_singleton, hab,
      List.drop_append_of_le_length h.le]
  · rw [hd.finalized, List.take_append_of_le_length h.le]
    exact h.final
  · rw [hd.finalized, List.length_append]
    exact h.le.trans (Nat.le_add_right _ _)

/-! ## The own vote -/

/-- **The own vote for the last block is on record**, with a justification that
is still accepted, and there is none for a later epoch. -/
structure Voted (K : Config H D) (bs : List (Produced H D)) (c : Chain H D) : Prop where
  last : bs ≠ [] → ∃ j, c.ownvotes (K.epoch bs.length) = some (j, tipHash K bs) ∧
    c.inFinalizedHistory K j = true
  later : ∀ e, bs = [] ∨ K.epoch bs.length < e → c.ownvotes e = none

omit [DecidableEq H] in
/-- A block on top of the last one is a descendant of it. -/
theorem isDescendantOf_line [DecidableEq H] {f : List (TreeNode H D)} {cs : List (TreeCell H D)}
    {a d : TreeCell H D} (hloc : Located f) (hlinked : Linked f) (hf : f = line (cs ++ [a, d])) :
    TreeNode.isDescendantOf K f (.node d []) (K.hash (produced a)) = true := by
  obtain ⟨l, hl⟩ := Rose.suffix_nodesL_line cs [a, d]
  have hne : cs ++ [a, d] ≠ [] := List.append_ne_nil_of_right_ne_nil _ (List.cons_ne_nil _ _)
  have hpath := Rose.path_line hne
  rw [← hl, List.reverse_append] at hpath
  rw [TreeNode.isDescendantOf, path_eq hloc hlinked _ _ (hf ▸ hpath)]
  exact List.any_eq_true.2 ⟨.node a (line [d]), List.mem_append_left _ (by simp [line_cons]),
    decide_eq_true rfl⟩

/-- The vote for the next block keeps to the rules. -/
theorem Voted.mayVote {d : Chain H D} {x : Executed H D} {cs : List (TreeCell H D)}
    {a : TreeCell H D} (h : Voted K bs c) (hc : Upright bs c)
    (hlt : bs ≠ [] → c.finalized.height < bs.length) (hd : Topped c d x) (hs : Orderly K d)
    (hlinked : Linked d.forktrees) (hf : c.forktrees = line cs)
    (hf' : d.forktrees = line (cs ++ [a])) (hheight : (produced a).height = bs.length + 1) :
    d.mayVote K (.node a []) = true := by
  have hblock : block (.node a [] : TreeNode H D) = produced a := rfl
  have hhistory : ∀ j, d.inFinalizedHistory K j = c.inFinalizedHistory K j := fun j => by
    rw [inFinalizedHistory, inFinalizedHistory, hd.finalized, hd.finalizedHistory]
  unfold Chain.mayVote
  rw [hblock, hheight, hd.ownvotes]
  by_cases hbs : bs = []
  · rw [h.later _ (Or.inl hbs)]
  rcases K.epoch_succ (h := bs.length) rfl with hepoch | hepoch
  · -- in the epoch of the last block, on top of the vote for it
    obtain ⟨j, hown, hj⟩ := h.last hbs
    rw [hepoch, hown]
    rcases hc.cases with ⟨-, hall⟩ | ⟨-, cs', a', hf'', -, hlast⟩
    · exact absurd hall (hlt hbs).ne
    · obtain rfl : cs = cs' ++ [a'] := by
        rw [← Rose.labels_line cs, ← hf, hf'', Rose.labels_line]
      rw [List.append_assoc, List.singleton_append] at hf'
      have hdesc := isDescendantOf_line (K := K) hs.balanced.allocated.located hlinked hf'
      have htip : tipHash K bs = K.hash (produced a') := by
        rw [tipHash, hlast]
        rfl
      dsimp only
      rw [hhistory, hj, htip, hdesc, Bool.or_true, Bool.and_self]
  · rw [h.later _ (Or.inr (by omega))]

/-- **The next block is hung under the last one, and voted for.** -/
theorem Voted.include_eq (h : Voted K bs c) (hc : Upright bs c) (hs : Orderly K c)
    (hlt : bs ≠ [] → c.finalized.height < bs.length) (hwait : c.orphans.blocks = [])
    (hK : K.alloc = .inPlace) (hnext : Next K c b) (now : ℕ) :
    ∃ d x a, x.underlying = b ∧ Topped c d x ∧ Upright (bs ++ [b]) d ∧ produced a = b ∧
      c.include K now b = d.cast K (.node a []) := by
  obtain ⟨d, x, htry, hx, hd⟩ := hc.exists_topped hs hnext
  have hadm := hc.admits hs hnext
  have hupright := hc.of_topped hx hd
  have hsound : Orderly K d := hs.of_moves (q := False)
    (tryInclude_acts hs.within (Set.mem_univ b) hadm htry).moves
  obtain ⟨cs, hf, -⟩ := hc.forest
  obtain ⟨a, hf', ha⟩ := hd.forest cs hf
  have hab : produced a = b := by rw [produced, ha, hx]
  have hmay := h.mayVote hc hlt hd hsound (hsound.balanced.placed hK) hf hf' (by
    rw [hab, hnext.height, hc.headHeight hs.formed])
  have hmem : (.node a [] : TreeNode H D) ∈ nodesL d.forktrees := by
    refine List.mem_of_getLast? (l := nodesL d.forktrees) ?_
    rw [hf']
    exact Rose.getLast?_nodesL_line cs a
  have hget : TreeNode.get K d.forktrees (K.hash b) = some (.node a []) := by
    have hhash : TreeNode.hash K (.node a []) = K.hash b := congrArg K.hash hab
    rw [← hhash]
    exact TreeNode.get_of_mem hsound.formed.hashed hmem
  have hcast : d.voteIfHead K (K.hash b) = d.cast K (.node a []) := by
    rw [voteIfHead, hupright.headHash, tipHash_append, if_pos rfl, commitAndVote, hget]
    dsimp only
    rw [if_pos hmay, cast]
  have hconsume : ((d.cast K (.node a [])).orphans.consumeBlocks (K.hash b)) =
      ([], (d.cast K (.node a [])).orphans) := by
    have hnil : (d.cast K (.node a [])).orphans.blocks = [] := by
      change d.orphans.blocks = []
      rw [hd.orphans, hwait]
    rw [Orphans.consumeBlocks, hnil, List.find?_nil]
  refine ⟨d, x, a, hx, hd, hupright, hab, ?_⟩
  rw [Chain.include, includeFrom, if_pos hadm, htry]
  dsimp only
  rw [hcast, hconsume]
  rfl

end Chain

end Consensus

end Rensa
