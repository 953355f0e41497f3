import Rensa.Consensus.Votes
/-!
# Quorums

Two confirmed blocks have been voted for by the same validators, with more
than a third of the stake. The majority is taken as the least whole number
of votes that is 0.67 of the total, in rational arithmetic. The total the
source computes wraps at 2 ^ 64: where the stakes sum up to that or more it
is no longer the total, and a majority of it may be no votes at all.
-/

namespace Rensa

namespace Consensus

open Rose (nodesL)
open TreeNode (votes voters)

namespace Config

variable {H D : Type} (K : Config H D)

/-- `minimum_majority_stake`, with an exact product. -/
def exactMajority : ℕ := ⌈(K.totalStake : ℚ) * (67 / 100)⌉₊

variable {K}

/-- Someone with enough stake has some. -/
theorem eligibleStake_pos {k : Pubkey} {stake : ℕ} (hk : K.stakeOf k = some stake)
    (hmin : K.genesis.limits.minimumStake ≤ stake) (hpos : 0 < stake) : 0 < K.eligibleStake := by
  have hmem : (k, stake) ∈ K.eligible :=
    List.mem_filter.2 ⟨mem_of_lookup hk, by simpa using hmin⟩
  have hle : stake ≤ K.eligibleStake :=
    List.single_le_sum (fun _ _ => Nat.zero_le _) _ (List.mem_map_of_mem (f := Prod.snd) hmem)
  omega

/-- Sixty-seven votes in a hundred. -/
theorem mul_le_exactMajority : K.totalStake * 67 ≤ K.exactMajority * 100 := by
  have hceil : (K.totalStake : ℚ) * (67 / 100) ≤ K.exactMajority := Nat.le_ceil _
  have hscaled : (K.totalStake * 67 : ℚ) ≤ K.exactMajority * 100 := by linarith
  exact_mod_cast hscaled

/-- **Two quorums share more than a third.** -/
theorem lt_three_mul_inter {s t : Finset Pubkey} (hs : ∀ k ∈ s, K.Eligible k)
    (ht : ∀ k ∈ t, K.Eligible k) (hpos : 0 < K.eligibleStake) (hlt : K.eligibleStake < 2 ^ 64)
    (hvotes : K.exactMajority ≤ ∑ k ∈ s, K.stake k)
    (hvotes' : K.exactMajority ≤ ∑ k ∈ t, K.stake k) :
    K.eligibleStake < 3 * ∑ k ∈ s ∩ t, K.stake k := by
  have htotal : K.totalStake = K.eligibleStake := by
    rw [totalStake_eq, Nat.mod_eq_of_lt hlt]
  have hunion : ∑ k ∈ s ∪ t, K.stake k ≤ K.eligibleStake :=
    sum_stake_le fun k hk => (Finset.mem_union.1 hk).elim (hs k) (ht k)
  have hsplit : ∑ k ∈ s ∪ t, K.stake k + ∑ k ∈ s ∩ t, K.stake k =
      ∑ k ∈ s, K.stake k + ∑ k ∈ t, K.stake k := Finset.sum_union_inter
  have hmajority := mul_le_exactMajority (K := K)
  omega

end Config

namespace Chain

variable {H D : Type} [DecidableEq H]

/-- **Quorum intersection.** Any two blocks that have a majority of the
votes, after any two runs, have voters in common who hold more than a third
of the eligible stake, as long as the stakes do not wrap. -/
theorem quorum_run (K : Config H D) (hstake : ∃ k stake, K.stakeOf k = some stake ∧
      K.genesis.limits.minimumStake ≤ stake ∧ 0 < stake)
    (hsum : K.eligibleStake < 2 ^ 64) (fin fin' : Finalized H D)
    (inputs inputs' : List (Input H D)) {n n' : TreeNode H D}
    (hn : n ∈ nodesL ((Chain.new fin).run K inputs).forktrees)
    (hn' : n' ∈ nodesL ((Chain.new fin').run K inputs').forktrees)
    (hconf : K.exactMajority ≤ votes n) (hconf' : K.exactMajority ≤ votes n') :
    K.eligibleStake < 3 * ∑ k ∈ voters n ∩ voters n', K.stake k := by
  obtain ⟨k, stake, hk, hmin, hpos⟩ := hstake
  have hbooks := run_accounted K fin inputs
  have hbooks' := run_accounted K fin' inputs'
  -- votes are the stakes of the voters, which never exceed the total
  have hvotes : ∀ m : TreeNode H D, (∀ k ∈ voters m, K.Eligible k) →
      votes m = (∑ k ∈ voters m, K.stake k) % 2 ^ 64 → votes m = ∑ k ∈ voters m, K.stake k := by
    intro m hm hmod
    rw [hmod, Nat.mod_eq_of_lt ((Config.sum_stake_le hm).trans_lt hsum)]
  rw [hvotes n (hbooks.eligible n hn) (hbooks.sum n hn)] at hconf
  rw [hvotes n' (hbooks'.eligible n' hn') (hbooks'.sum n' hn')] at hconf'
  exact Config.lt_three_mul_inter (hbooks.eligible n hn) (hbooks'.eligible n' hn')
    (Config.eligibleStake_pos hk hmin hpos) hsum hconf hconf'

namespace Sample

/-- Four validators of one stake. -/
def four : Config ℕ Unit :=
  config .inPlace [(7, 100), (8, 100), (9, 100), (10, 100)] fun _ _ => .ok {}

/-- Two blocks on the genesis block. -/
def fork7 : Produced ℕ Unit := produce four 7 1 1 () []

def fork8 : Produced ℕ Unit := produce four 8 1 1 () []

/-- A block, and one above it with the votes of three validators for it. -/
def votedBy (b : Produced ℕ Unit) (keys : List Pubkey) : List (Input ℕ Unit) :=
  [.include 0 b,
    .include 0 (produce four 7 (four.hash b) 2 () (keys.map fun k => vote k (four.hash b)))] ++
    List.replicate 4 (.pollNext 0)

end Sample

open Sample in
/-- Two blocks of one height that are confirmed in two runs, by three
validators each. -/
theorem quorum_forked :
    ∃ n ∈ nodesL ((Chain.new genesis).run four (votedBy fork7 [7, 8, 9])).forktrees,
      ∃ n' ∈ nodesL ((Chain.new genesis).run four (votedBy fork8 [8, 9, 10])).forktrees,
        TreeNode.hash four n ≠ TreeNode.hash four n' ∧
          four.eligibleStake < 3 * ∑ k ∈ voters n ∩ voters n', four.stake k := by
  have hmajority : four.exactMajority = 268 := by
    have htotal : four.totalStake = 400 := by decide
    rw [Config.exactMajority, htotal]
    norm_num
  obtain ⟨n, hn, hhash, hvotes⟩ : ∃ n ∈ nodesL ((Chain.new genesis).run four
      (votedBy fork7 [7, 8, 9])).forktrees, TreeNode.hash four n = four.hash fork7 ∧
        268 ≤ votes n := by
    decide +kernel
  obtain ⟨n', hn', hhash', hvotes'⟩ : ∃ n ∈ nodesL ((Chain.new genesis).run four
      (votedBy fork8 [8, 9, 10])).forktrees, TreeNode.hash four n = four.hash fork8 ∧
        268 ≤ votes n := by
    decide +kernel
  rw [← hmajority] at hvotes hvotes'
  refine ⟨n, hn, n', hn', ?_, quorum_run four ⟨7, 100, by decide⟩ (by decide)
    genesis genesis _ _ hn hn' hvotes hvotes'⟩
  rw [hhash, hhash']
  decide +kernel

/-- Two validators whose stakes sum up to 2 ^ 64. -/
def Sample.wrapped : Config ℕ Unit :=
  Sample.config .inPlace [(7, 2 ^ 63), (8, 2 ^ 63)] fun _ _ => .ok {}

/-- The total wraps to nothing, and a block nobody voted for has a
majority. -/
theorem not_quorum_wrapped :
    ¬ ((∃ k stake, Sample.wrapped.stakeOf k = some stake ∧
        Sample.wrapped.genesis.limits.minimumStake ≤ stake ∧ 0 < stake) →
      ∀ (inputs inputs' : List (Input ℕ Unit)) (n n' : TreeNode ℕ Unit),
        n ∈ nodesL ((Chain.new Sample.genesis).run Sample.wrapped inputs).forktrees →
        n' ∈ nodesL ((Chain.new Sample.genesis).run Sample.wrapped inputs').forktrees →
        Sample.wrapped.exactMajority ≤ votes n → Sample.wrapped.exactMajority ≤ votes n' →
        Sample.wrapped.eligibleStake <
          3 * ∑ k ∈ voters n ∩ voters n', Sample.wrapped.stake k) := by
  intro h
  have hmajority : Sample.wrapped.exactMajority = 0 := by
    have htotal : Sample.wrapped.totalStake = 0 := by decide
    rw [Config.exactMajority, htotal]
    norm_num
  obtain ⟨n, hn, hvoters⟩ : ∃ n ∈ nodesL ((Chain.new Sample.genesis).run Sample.wrapped
      [.include 0 Sample.first]).forktrees, voters n = ∅ := by
    decide +kernel
  have hshare := h ⟨7, 2 ^ 63, by decide⟩ _ _ n n hn hn (by omega) (by omega)
  rw [hvoters, Finset.empty_inter, Finset.sum_empty] at hshare
  omega

end Chain

end Consensus

end Rensa
