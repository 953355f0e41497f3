import Rensa.Common.Line
import Rensa.Consensus.Finality
import Rensa.Consensus.Votes
import Rensa.Consensus.Window
/-!
# Chains without forks

Where the forest of a chain does not branch, the last block of it is the head,
and what can be finalized is a matter of heights: where all blocks but the
head are confirmed, the root can be finalized as soon as the head is two epochs
above it (`finalizable_line_iff`).
-/

namespace Rensa

namespace Consensus

open Rose (nodes nodesL line Path)
open TreeNode (block hash votes voters path)

namespace Chain

variable {H D : Type} [DecidableEq H] {K : Config H D} {c : Chain H D}
variable {cs : List (TreeCell H D)} {a : TreeCell H D}

omit [DecidableEq H] in
theorem head_line {f : List (TreeNode H D)} {t : TreeNode H D}
    (ht : t ∈ line (cs ++ [a])) : TreeNode.head f t = .node a [] :=
  Rose.eq_of_leaf (Rose.mem_nodesL.2 ⟨t, ht, head_mem_nodes t⟩) (children_head t)

omit [DecidableEq H] in
/-- **The head of a chain without forks** is its last block. -/
theorem headNode_line (hf : c.forktrees = line (cs ++ [a])) : c.headNode = some (.node a []) := by
  obtain ⟨t, ht⟩ : ∃ t, line (cs ++ [a]) = [t] := by
    cases cs with
    | nil => exact ⟨_, rfl⟩
    | cons b cs => exact ⟨_, rfl⟩
  have hmem : t ∈ line (cs ++ [a]) := ht ▸ List.mem_singleton_self t
  unfold headNode
  rw [hf, ht, List.map_singleton, head_line hmem]
  rfl

/-- The blocks that others build on are voted for by a majority. -/
def Carried (K : Config H D) (c : Chain H D) : Prop :=
  ∀ cs a, c.forktrees = line (cs ++ [a]) →
    ∀ d ∈ cs, K.minimumMajorityStake ≤ ∑ k ∈ d.value.voters, K.stake k

omit [DecidableEq H] in
theorem Carried.confirmed (h : Carried K c) (hc : Accounted K c)
    (hstakes : K.eligibleStake < 2 ^ 64) (hf : c.forktrees = line (cs ++ [a]))
    {n : TreeNode H D} (hn : n ∈ nodesL c.forktrees) (hchild : n.children ≠ []) :
    Chain.confirmed K (votes n) = true := by
  have hle := Config.sum_stake_le (hc.eligible n hn)
  refine decide_eq_true ?_
  rw [hc.sum n hn, Nat.mod_eq_of_lt (by omega)]
  rw [hf] at hn
  exact h cs a hf _ (Rose.label_mem_of_line hn hchild)

theorem exists_path_epochStart (hc : WellFormed K c) (hloc : Located c.forktrees)
    (hlinked : Linked c.forktrees) {n r : TreeNode H D} {l : List (TreeNode H D)}
    (hl : Path c.forktrees (n :: l)) (hr : r ∈ n :: l)
    (hepoch : K.epoch (block r).height < K.epoch (block n).height) :
    ∃ m l', (path c.forktrees (TreeNode.epochStart K c.forktrees n))[1]? = some m ∧
      Path c.forktrees (m :: l') ∧ r ∈ m :: l' ∧ m ∈ n :: l ∧
      K.epoch (block m).height + 1 = K.epoch (block n).height := by
  obtain ⟨l₁, l₂, hsplit, hsame, -⟩ := epochStart_split hc hloc hlinked hl
  have hpath : Path c.forktrees (TreeNode.epochStart K c.forktrees n :: l₂) :=
    hl.suffix ⟨l₁, hsplit.symm⟩ (List.cons_ne_nil _ _)
  have hwalk := path_eq hloc hlinked _ _ hpath
  have hrest : r ∈ l₂ := by
    rw [hsplit, List.append_cons, List.mem_append] at hr
    rcases hr with hr | hr
    · exact absurd (hsame r hr) hepoch.ne
    · exact hr
  cases l₂ with
  | nil => cases hrest
  | cons m l₃ =>
    have hm : (path c.forktrees (TreeNode.epochStart K c.forktrees n))[1]? = some m := by
      rw [hwalk]
      rfl
    obtain ⟨_, _, -, -, -, hstep⟩ := epochStart_path hc hloc hlinked hl hm
    refine ⟨m, l₃, hm, hpath.tail, hrest, ?_, hstep⟩
    rw [hsplit]
    simp

/-- **Two epochs above it**, a root can be finalized. -/
theorem finalizable_line_iff (hc : WellFormed K c) (hloc : Located c.forktrees)
    (hlinked : Linked c.forktrees) (hf : c.forktrees = line (cs ++ [a]))
    (hconfirmed : ∀ n ∈ nodesL c.forktrees, n.children ≠ [] → confirmed K (votes n) = true)
    {r : TreeNode H D} (hr : r ∈ c.forktrees) : c.finalizable K r = true ↔
      K.epoch (block r).height + 2 ≤ K.epoch a.value.block.underlying.height := by
  have hhead : TreeNode.head c.forktrees r = .node a [] := head_line (by rwa [hf] at hr)
  have hheight : (block (.node a [] : TreeNode H D)).height = a.value.block.underlying.height := rfl
  constructor
  · intro hfin
    obtain ⟨_, c₂, -, hc₂, -, hepoch, -⟩ := justified_of_finalizable hc hloc hlinked hr hfin
    have hle := K.epoch_mono (hc.height_le (Rose.mem_nodesL_of_mem hr) hc₂.1)
    rw [hhead, hheight] at hepoch
    omega
  · intro hle
    have hpath : Path c.forktrees (nodesL c.forktrees).reverse := by
      rw [hf]
      exact Rose.path_line (by simp)
    obtain ⟨l, hl⟩ : ∃ l, (nodesL c.forktrees).reverse = .node a [] :: l := by
      have hlast := Rose.getLast?_nodesL_line cs a
      rw [← hf, ← List.head?_reverse] at hlast
      exact List.head?_eq_some_iff.1 hlast
    rw [hl] at hpath
    have hmem : r ∈ (.node a [] : TreeNode H D) :: l := by
      rw [← hl, List.mem_reverse]
      exact Rose.mem_nodesL_of_mem hr
    -- a block of an earlier epoch than the head is not the head
    have hearlier : ∀ n ∈ nodesL c.forktrees,
        K.epoch (block n).height < K.epoch a.value.block.underlying.height →
          confirmed K (votes n) = true := by
      intro n hn hlt
      refine hconfirmed n hn fun hleaf => ?_
      rw [hf] at hn
      rw [Rose.eq_of_leaf hn hleaf] at hlt
      exact lt_irrefl _ hlt
    have hstart : ∀ {n : TreeNode H D} {k : List (TreeNode H D)}, Path c.forktrees (n :: k) →
        K.epoch (block n).height < K.epoch a.value.block.underlying.height →
          confirmed K (votes (TreeNode.epochStart K c.forktrees n)) = true := by
      intro n k hk hlt
      obtain ⟨l₁, l₂, hsplit, hsame, -⟩ := epochStart_split hc hloc hlinked hk
      refine hearlier _ (hk.mem_nodesL _ (by rw [hsplit]; simp)) ?_
      rwa [hsame _ (List.mem_append_right _ List.mem_cons_self)]
    obtain ⟨n, k, hn, hnpath, hrn, -, hnepoch⟩ :=
      exists_path_epochStart hc hloc hlinked hpath hmem (by rw [hheight]; omega)
    rw [hheight] at hnepoch
    obtain ⟨m, k', hm, hmpath, -, -, hmepoch⟩ :=
      exists_path_epochStart hc hloc hlinked hnpath hrn (by omega)
    unfold finalizable
    simp only [hhead, hn, hm, hstart hnpath (by omega), hstart hmpath (by omega),
      hearlier r (Rose.mem_nodesL_of_mem hr) (by omega), Bool.and_self]

end Chain

end Consensus

end Rensa
