import Rensa.Consensus.Links
import Rensa.Consensus.Stakes
/-!
# Counting votes

A vote counts for its target and for what the walk up from it reaches. The
votes of a node are the stakes of its voters, and its voters are those
whose vote was counted at a node of its subtree; where every link leads to
the parent the converse holds as well (`Accounted`). Every run keeps these
books in order (`run_accounted`).
-/

namespace Rensa

namespace Consensus

open Rose (nodes nodesL labels Keyed Path)
open TreeNode (hash votes path)

variable {H D : Type}

/-- Who voted for a node. -/
def TreeNode.voters (n : TreeNode H D) : Finset Pubkey := n.label.value.voters

namespace TreeNode

variable {K : Config H D} {f : List (TreeNode H D)} {stake : ℕ} {voter : Pubkey}
  {t n : TreeNode H D}

/-- The voters of a node after a vote. -/
theorem voters_voted : voters (Rose.map (voted f stake voter t) n) =
    if n.label.loc ∈ (path f t).map (fun m => m.label.loc) then insert voter (voters n)
    else voters n := by
  unfold voters voted TreeCell.addVote
  rw [Rose.label_map]
  split
  · split
    · rename_i hmem
      rw [Finset.insert_eq_of_mem hmem]
    · rfl
  · rfl

/-- The votes of a node after a vote. -/
theorem votes_voted : votes (Rose.map (voted f stake voter t) n) =
    if n.label.loc ∈ (path f t).map (fun m => m.label.loc) ∧ voter ∉ voters n then
      (votes n + stake) % 2 ^ 64
    else votes n := by
  unfold votes voters voted TreeCell.addVote
  rw [Rose.label_map]
  by_cases hmem : n.label.loc ∈ (path f t).map (fun m => m.label.loc)
  · by_cases hvoter : voter ∈ n.label.value.voters <;> simp [hmem, hvoter]
  · simp [hmem]

theorem subset_voters_voted : voters n ⊆ voters (Rose.map (voted f stake voter t) n) := by
  rw [voters_voted]
  split
  · exact Finset.subset_insert _ _
  · exact subset_rfl

end TreeNode

open TreeNode (voters voted)

namespace Chain

variable [DecidableEq H] {K : Config H D} {B : Set (Produced H D)} {q : Prop} {c c' : Chain H D}

omit [DecidableEq H] in
/-- **The books are in order.** -/
structure Accounted (K : Config H D) (c : Chain H D) : Prop where
  /-- Only validators with enough stake have voted. -/
  eligible : ∀ n ∈ nodesL c.forktrees, ∀ k ∈ voters n, K.Eligible k
  /-- The votes are the stakes of the voters. -/
  sum : ∀ n ∈ nodesL c.forktrees, votes n = (∑ k ∈ voters n, K.stake k) % 2 ^ 64
  /-- Every voter had a vote counted at or below the node. -/
  voters : ∀ n ∈ nodesL c.forktrees, ∀ k ∈ voters n, ∃ e ∈ c.counted, e.1.validator = k ∧
    ∃ m ∈ nodes n, e.1.target = hash K m ∧ (Linked c.forktrees → e.2 = m.label.loc)
  /-- Where links lead to the parents, every vote counted at or below the
  node makes a voter. -/
  counted : Linked c.forktrees → ∀ n ∈ nodesL c.forktrees, ∀ m ∈ nodes n, ∀ e ∈ c.counted,
    e.2 = m.label.loc → e.1.validator ∈ TreeNode.voters n
  /-- Votes were counted at locations that were used. -/
  used : ∀ e ∈ c.counted, e.2 < c.nextLoc
  /-- A counted vote passed the checks on its sender and signature. -/
  passed : ∀ e ∈ c.counted, K.Eligible e.1.validator ∧ K.verifyVote e.1 = true

omit [DecidableEq H] in
theorem accounted_new (fin : Finalized H D) : Accounted K (Chain.new fin) where
  eligible := fun _ hn => absurd hn List.not_mem_nil
  sum := fun _ hn => absurd hn List.not_mem_nil
  voters := fun _ hn => absurd hn List.not_mem_nil
  counted := fun _ _ hn => absurd hn List.not_mem_nil
  used := fun _ he => absurd he List.not_mem_nil
  passed := fun _ he => absurd he List.not_mem_nil

/-! ## A new block -/

omit [DecidableEq H] in
theorem accounted_addRoot {x : Executed H D} (h : Accounted K c)
    (hback : Linked (c.addRoot x).forktrees → Linked c.forktrees) :
    Accounted K (c.addRoot x) := by
  refine ⟨fun n hn k hk => ?_, fun n hn => ?_, fun n hn k hk => ?_,
    fun hlinked n hn m hm e he heq => ?_,
    fun e he => (h.used e he).trans (Nat.lt_succ_self _), h.passed⟩
  · rcases mem_addRoot hn with hn | rfl
    · exact h.eligible n hn k hk
    · exact absurd hk (Finset.notMem_empty k)
  · rcases mem_addRoot hn with hn | rfl
    · exact h.sum n hn
    · rfl
  · rcases mem_addRoot hn with hn | rfl
    · obtain ⟨e, he, hek, m, hm, htarget, hloc⟩ := h.voters n hn k hk
      exact ⟨e, he, hek, m, hm, htarget, fun hlinked => hloc (hback hlinked)⟩
    · exact absurd hk (Finset.notMem_empty k)
  · rcases mem_addRoot hn with hn | rfl
    · exact h.counted (hback hlinked) n hn m hm e he heq
    · obtain rfl : m = TreeNode.leaf c.nextLoc x none := by
        simpa [TreeNode.leaf, Rose.nodes_node] using hm
      have := h.used e he
      change e.2 = c.nextLoc at heq
      omega

theorem accounted_addUnder {x : Executed H D} {p : TreeNode H D} (hp : p ∈ nodesL c.forktrees)
    (h : Accounted K c) (hback : Linked (c.addUnder K p x).forktrees → Linked c.forktrees) :
    Accounted K (c.addUnder K p x) := by
  have hleaf : ∀ m ∈ nodes (TreeNode.leaf c.nextLoc x (some p.label.loc)),
      m = TreeNode.leaf c.nextLoc x (some p.label.loc) := by
    intro m hm
    simpa [TreeNode.leaf, Rose.nodes_node] using hm
  refine ⟨fun n hn k hk => ?_, fun n hn => ?_, fun n hn k hk => ?_,
    fun hlinked n hn m hm e he heq => ?_,
    fun e he => (h.used e he).trans (Nat.lt_succ_self _), h.passed⟩
  · rcases mem_addUnder hp hn with ⟨n', hn', rfl⟩ | rfl
    · rw [TreeNode.voters, TreeNode.label_grown] at hk
      exact h.eligible n' hn' k hk
    · exact absurd hk (Finset.notMem_empty k)
  · rcases mem_addUnder hp hn with ⟨n', hn', rfl⟩ | rfl
    · rw [TreeNode.voters, votes, TreeNode.label_grown]
      exact h.sum n' hn'
    · rfl
  · rcases mem_addUnder hp hn with ⟨n', hn', rfl⟩ | rfl
    · rw [TreeNode.voters, TreeNode.label_grown] at hk
      obtain ⟨e, he, hek, m, hm, htarget, hloc⟩ := h.voters n' hn' k hk
      refine ⟨e, he, hek, TreeNode.grown c.nextLoc x p m,
        Rose.mem_nodes_graft.2 (Or.inl ⟨m, hm, rfl⟩), ?_, fun hlinked => ?_⟩
      · rwa [TreeNode.hash_grown]
      · rw [TreeNode.label_grown]
        exact hloc (hback hlinked)
    · exact absurd hk (Finset.notMem_empty k)
  · -- no vote was counted where the new node is
    have hnew : m ≠ TreeNode.leaf c.nextLoc x (some p.label.loc) := by
      rintro rfl
      have := h.used e he
      change e.2 = c.nextLoc at heq
      omega
    rcases mem_addUnder hp hn with ⟨n', hn', rfl⟩ | rfl
    · rcases Rose.mem_nodes_graft.1 hm with ⟨m', hm', rfl⟩ | ⟨hm', -⟩
      · rw [TreeNode.voters, TreeNode.label_grown]
        refine h.counted (hback hlinked) n' hn' m' hm' e he (heq.trans ?_)
        exact congrArg TreeCell.loc TreeNode.label_grown
      · exact absurd (hleaf m hm') hnew
    · exact absurd (hleaf m hm) hnew

/-! ## A vote -/

omit [DecidableEq H] in
/-- The nodes a vote counts for are those above its target, and where links
lead to the parents these are all of them. -/
theorem loc_mem_path (hc : Allocated c) (hlinks : HalfLinked c) {t n : TreeNode H D}
    (ht : t ∈ nodesL c.forktrees) (hn : n ∈ nodesL c.forktrees) :
    (n.label.loc ∈ (path c.forktrees t).map (fun m => m.label.loc) → t ∈ nodes n) ∧
      (Linked c.forktrees → t ∈ nodes n →
        n.label.loc ∈ (path c.forktrees t).map (fun m => m.label.loc)) := by
  constructor
  · intro hmem
    obtain ⟨m, hm, hloc⟩ := List.mem_map.1 hmem
    obtain ⟨hm', htm⟩ := mem_nodes_of_mem_path hc.located hlinks ht hm
    rwa [← hc.located.eq hm' hn hloc]
  · intro hlinked htn
    obtain ⟨l, hl⟩ := Rose.exists_path ht
    rw [path_eq hc.located hlinked t l hl]
    exact List.mem_map_of_mem ((hl.mem_iff hc.located.nodup hn).2 htn)

omit [DecidableEq H] in
/-- **The votes stay the stakes of the voters**, of a node on the walk and of
one beside it. -/
theorem sum_voted {f : List (TreeNode H D)} {stake : ℕ} {voter : Pubkey} {t n : TreeNode H D}
    (hstake : K.stakeOf voter = some stake)
    (hsum : TreeNode.votes n = (∑ k ∈ voters n, K.stake k) % 2 ^ 64) :
    TreeNode.votes (Rose.map (voted f stake voter t) n) =
      (∑ k ∈ voters (Rose.map (voted f stake voter t) n), K.stake k) % 2 ^ 64 := by
  rw [TreeNode.votes_voted, TreeNode.voters_voted]
  by_cases hon : n.label.loc ∈ (path f t).map fun m => m.label.loc
  · by_cases hvoter : voter ∈ voters n
    · rw [if_neg fun hand => hand.2 hvoter, if_pos hon, Finset.insert_eq_of_mem hvoter]
      exact hsum
    · have hv : K.stake voter = stake := by
        rw [Config.stake, hstake]
        rfl
      rw [if_pos ⟨hon, hvoter⟩, if_pos hon, Finset.sum_insert hvoter, hv, hsum,
        Nat.mod_add_mod, Nat.add_comm]
  · rw [if_neg fun hand => hon hand.1, if_neg hon]
    exact hsum

omit [DecidableEq H] in
/-- A voter of a node has a vote that was counted at or below it: the vote
that is counted now, or the one it had. -/
theorem Accounted.voters_voted {v : Vote H} {stake : ℕ} {t n : TreeNode H D} {k : Pubkey}
    (h : Accounted K c) (hc : Allocated c) (hlinks : HalfLinked c)
    (ht : t ∈ nodesL c.forktrees) (hhash : hash K t = v.target)
    (hback : Linked (c.count K stake v t).forktrees → Linked c.forktrees)
    (hn : n ∈ nodesL c.forktrees)
    (hk : k ∈ TreeNode.voters (Rose.map (voted c.forktrees stake v.validator t) n)) :
    ∃ e ∈ (c.count K stake v t).counted, e.1.validator = k ∧
      ∃ m ∈ nodes (Rose.map (voted c.forktrees stake v.validator t) n),
        e.1.target = hash K m ∧ (Linked (c.count K stake v t).forktrees → e.2 = m.label.loc) := by
  have hbelow : ∀ {m : TreeNode H D}, m ∈ nodes n →
      Rose.map (voted c.forktrees stake v.validator t) m ∈
        nodes (Rose.map (voted c.forktrees stake v.validator t) n) := by
    intro m hm
    rw [Rose.nodes_map]
    exact List.mem_map_of_mem hm
  have hold : k ∈ TreeNode.voters n → ∃ e ∈ (c.count K stake v t).counted, e.1.validator = k ∧
      ∃ m ∈ nodes (Rose.map (voted c.forktrees stake v.validator t) n),
        e.1.target = hash K m ∧ (Linked (c.count K stake v t).forktrees → e.2 = m.label.loc) := by
    intro hk
    obtain ⟨e, he, hek, m, hm, htarget, hloc⟩ := h.voters n hn k hk
    refine ⟨e, List.mem_cons_of_mem _ he, hek, _, hbelow hm, ?_, fun hlinked => ?_⟩
    · rwa [TreeNode.hash_voted]
    · rw [Rose.label_map, (TreeNode.voted_fixed _).2.1]
      exact hloc (hback hlinked)
  rw [TreeNode.voters_voted] at hk
  split at hk
  · rename_i hon
    rcases Finset.mem_insert.1 hk with rfl | hk
    · refine ⟨(v, t.label.loc), List.mem_cons_self, rfl, _,
        hbelow ((loc_mem_path hc hlinks ht hn).1 hon), ?_, fun _ => ?_⟩
      · rw [TreeNode.hash_voted]
        exact hhash.symm
      · rw [Rose.label_map, (TreeNode.voted_fixed _).2.1]
    · exact hold hk
  · exact hold hk

theorem accounted_count {v : Vote H} {stake : ℕ} {t : TreeNode H D} (hc : Allocated c)
    (hlinks : HalfLinked c) (h : Accounted K c) (hstake : K.stakeOf v.validator = some stake)
    (hmin : K.genesis.limits.minimumStake ≤ stake) (hverify : K.verifyVote v = true)
    (ht : TreeNode.get K c.forktrees v.target = some t)
    (hback : Linked (c.count K stake v t).forktrees → Linked c.forktrees) :
    Accounted K (c.count K stake v t) := by
  obtain ⟨ht, hhash⟩ := TreeNode.get_some ht
  have hmem : ∀ n ∈ nodesL (c.count K stake v t).forktrees, ∃ m ∈ nodesL c.forktrees,
      Rose.map (voted c.forktrees stake v.validator t) m = n :=
    fun n hn => Rose.mem_nodesL_map.1 hn
  refine ⟨fun n hn k hk => ?_, fun n hn => ?_, fun n hn k hk => ?_,
    fun hlinked n hn m hm e he heq => ?_, fun e he => ?_, fun e he => ?_⟩
  · obtain ⟨n', hn', rfl⟩ := hmem n hn
    rw [TreeNode.voters_voted] at hk
    split at hk
    · rcases Finset.mem_insert.1 hk with rfl | hk
      · exact ⟨stake, hstake, hmin⟩
      · exact h.eligible n' hn' k hk
    · exact h.eligible n' hn' k hk
  · obtain ⟨n', hn', rfl⟩ := hmem n hn
    exact sum_voted hstake (h.sum n' hn')
  · obtain ⟨n', hn', rfl⟩ := hmem n hn
    exact h.voters_voted hc hlinks ht hhash hback hn' hk
  · obtain ⟨n', hn', rfl⟩ := hmem n hn
    rw [Rose.nodes_map] at hm
    obtain ⟨m', hm', rfl⟩ := List.mem_map.1 hm
    rw [Rose.label_map, (TreeNode.voted_fixed _).2.1] at heq
    rcases List.mem_cons.1 he with rfl | he
    · -- the vote itself: the node is above the target, so on the walk
      obtain rfl : t = m' := hc.located.eq ht (Rose.mem_nodesL_trans hm' hn') heq
      rw [TreeNode.voters_voted, if_pos ((loc_mem_path hc hlinks ht hn').2 (hback hlinked) hm')]
      exact Finset.mem_insert_self _ _
    · exact TreeNode.subset_voters_voted (h.counted (hback hlinked) n' hn' m' hm' e he heq)
  · rcases List.mem_cons.1 he with rfl | he
    · exact hc.below _ (Rose.mem_labels.2 ⟨t, ht, rfl⟩)
    · exact h.used e he
  · rcases List.mem_cons.1 he with rfl | he
    · exact ⟨⟨stake, hstake, hmin⟩, hverify⟩
    · exact h.passed e he

/-! ## A final root -/

theorem accounted_finalizeRoot {before after : List (TreeNode H D)} {root : TreeNode H D}
    (h : Accounted K c)
    (hsplit : splitRoots (c.finalizable K) c.forktrees = some (before, root, after))
    (hback : Linked (c.finalizeRoot K (before ++ after) root).forktrees →
      Linked c.forktrees ∧ K.alloc = .inPlace) :
    Accounted K (c.finalizeRoot K (before ++ after) root) := by
  obtain ⟨hroot, -⟩ := sublist_splitRoots hsplit
  -- a node of the new forest is an old one, moved or not
  have hmem : ∀ n ∈ nodesL (c.finalizeRoot K (before ++ after) root).forktrees,
      ∃ m ∈ nodesL c.forktrees, n.label.value = m.label.value ∧ n.children = m.children ∧
        (K.alloc = .inPlace → n.label.loc = m.label.loc) := by
    intro n hn
    obtain ⟨m, hm, hsame⟩ := TreeNode.exists_of_mem_moveRoots hn
    exact ⟨m, Rose.mem_nodesL_of_mem_below (Rose.mem_nodesL_of_mem hroot) hm, hsame⟩
  refine ⟨fun n hn k hk => ?_, fun n hn => ?_, fun n hn k hk => ?_,
    fun hlinked n hn m hm e he heq => ?_,
    fun e he => (h.used e he).trans_le (Nat.le_add_right _ _), h.passed⟩
  · obtain ⟨n', hn', hvalue, -, -⟩ := hmem n hn
    rw [TreeNode.voters, hvalue] at hk
    exact h.eligible n' hn' k hk
  · obtain ⟨n', hn', hvalue, -, -⟩ := hmem n hn
    rw [TreeNode.voters, votes, hvalue]
    exact h.sum n' hn'
  · obtain ⟨n', hn', hvalue, hchildren, hloc'⟩ := hmem n hn
    rw [TreeNode.voters, hvalue] at hk
    obtain ⟨e, he, hek, m, hm, htarget, hloc⟩ := h.voters n' hn' k hk
    rw [Rose.nodes_eq] at hm
    rcases List.mem_cons.1 hm with rfl | hm
    · refine ⟨e, he, hek, n, Rose.mem_nodes_self n, ?_, fun hlinked => ?_⟩
      · rw [htarget, TreeNode.hash, TreeNode.block, ← hvalue]
        rfl
      · obtain ⟨hlinked, hK⟩ := hback hlinked
        rw [hloc' hK]
        exact hloc hlinked
    · exact ⟨e, he, hek, m, Rose.mem_nodes_of_mem_below (hchildren ▸ hm), htarget,
        fun hlinked => hloc (hback hlinked).1⟩
  · obtain ⟨n', hn', hvalue, hchildren, hloc'⟩ := hmem n hn
    obtain ⟨hlinked, hK⟩ := hback hlinked
    rw [TreeNode.voters, hvalue]
    rw [Rose.nodes_eq, hchildren] at hm
    rcases List.mem_cons.1 hm with rfl | hm
    · exact h.counted hlinked n' hn' n' (Rose.mem_nodes_self n') e he (heq.trans (hloc' hK))
    · exact h.counted hlinked n' hn' m (Rose.mem_nodes_of_mem_below hm) e he heq

/-! ## Every run -/

/-- **Every move keeps the books in order.** -/
theorem accounted_of_move (hm : Move K B q c c') (hc : Allocated c) (hlinks : HalfLinked c)
    (hplace : K.alloc = .inPlace → Linked c.forktrees) (h : Accounted K c) : Accounted K c' := by
  cases hm with
  | idle hsame =>
    refine ⟨?_, ?_, ?_, ?_, ?_, ?_⟩
    all_goals simp only [hsame.forktrees, hsame.counted, hsame.nextLoc]
    · exact h.eligible
    · exact h.sum
    · exact h.voters
    · exact h.counted
    · exact h.used
    · exact h.passed
  | root hB hadm hnew hparent hheight hx =>
    exact accounted_addRoot h (linked_iff_of_move (.root hB hadm hnew hparent hheight hx)).1
  | child hB hadm hnew hparent hheight hx =>
    exact accounted_addUnder (TreeNode.get_some hparent).1 h
      (linked_iff_of_move (.child hB hadm hnew hparent hheight hx)).1
  | vote hB hstake hmin hverify htarget hjust =>
    exact accounted_count hc hlinks h hstake hmin hverify htarget
      (linked_iff_of_move (.vote hB hstake hmin hverify htarget hjust)).1
  | finalize _ hsplit =>
    refine accounted_finalizeRoot h hsplit fun hlinked => ?_
    cases hK : K.alloc with
    | fresh => exact absurd hlinked (not_linked_finalizeRoot hK hc hlinks hsplit)
    | inPlace => exact ⟨hplace hK, rfl⟩

omit [DecidableEq H] in
/-- **The books and what they rest on**, move by move. -/
structure Balanced (K : Config H D) (c : Chain H D) : Prop where
  allocated : Allocated c
  linked : HalfLinked c
  placed : K.alloc = .inPlace → Linked c.forktrees
  accounted : Accounted K c

omit [DecidableEq H] in
theorem balanced_new (fin : Finalized H D) : Balanced K (Chain.new fin) :=
  ⟨allocated_new fin, halfLinked_new fin, fun _ => linked_new fin, accounted_new fin⟩

theorem Balanced.of_move (hm : Move K B q c c') (h : Balanced K c) : Balanced K c' :=
  ⟨allocated_of_move hm h.allocated, halfLinked_of_move hm h.allocated h.linked,
    fun hK => linked_of_move_inPlace hK hm (h.placed hK),
    accounted_of_move hm h.allocated h.linked h.placed h.accounted⟩

/-- What every run keeps of votes. -/
theorem run_accounted (K : Config H D) (fin : Finalized H D) (inputs : List (Input H D)) :
    Accounted K ((Chain.new fin).run K inputs) :=
  (run_induction (K := K) (P := Balanced K) (balanced_new fin)
    fun _ _ hm h => h.of_move hm).accounted

end Chain

end Consensus

end Rensa
