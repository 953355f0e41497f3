import Rensa.Consensus.Model.Block
/-!
# Stakes

The stake of a set of eligible validators is bounded by the total
(`sum_stake_le`), two sets that together hold more than the total share a
validator (`exists_mem_inter`), and the majority the source computes in
floating point is more than half of the total (`lt_two_mul_majority`).
-/

namespace Rensa

/-! ## Association lists -/

theorem lookup_of_mem {κ ν : Type} [DecidableEq κ] {l : List (κ × ν)} {p : κ × ν}
    (h : (l.map Prod.fst).Nodup) (hp : p ∈ l) : l.lookup p.1 = some p.2 := by
  induction l with
  | nil => cases hp
  | cons x l ih =>
    rw [List.map_cons, List.nodup_cons] at h
    rcases List.mem_cons.1 hp with rfl | hp
    · simp [List.lookup]
    · have hne : p.1 ≠ x.1 := fun heq => h.1 (heq ▸ List.mem_map_of_mem hp)
      have hbeq : (p.1 == x.1) = false := by simpa using hne
      rw [List.lookup_cons, hbeq]
      exact ih h.2 hp

theorem mem_of_lookup {κ ν : Type} [DecidableEq κ] {l : List (κ × ν)} {k : κ} {v : ν}
    (h : l.lookup k = some v) : (k, v) ∈ l := by
  obtain ⟨l₁, l₂, rfl, -⟩ := List.lookup_eq_some_iff.1 h
  simp

/-- Insertion keeps one entry per key. -/
theorem nodup_indexInsert {κ ν : Type} [DecidableEq κ] {m : List (κ × ν)} {k : κ} {v : ν}
    (h : (m.map Prod.fst).Nodup) : ((indexInsert m k v).map Prod.fst).Nodup := by
  unfold indexInsert
  split
  · have hkeys : (m.map fun p => if p.1 = k then (k, v) else p).map Prod.fst = m.map Prod.fst := by
      rw [List.map_map]
      refine List.map_congr_left fun p _ => ?_
      by_cases hp : p.1 = k <;> simp [hp]
    rwa [hkeys]
  · rename_i hnone
    rw [List.map_append, List.nodup_append]
    refine ⟨h, by simp, fun a ha b hb heq => hnone ?_⟩
    obtain ⟨p, hp, rfl⟩ := List.mem_map.1 ha
    obtain rfl : b = k := by simpa using hb
    exact List.any_eq_true.2 ⟨p, hp, by simpa using heq⟩

namespace Consensus

namespace Config

variable {H D : Type} (K : Config H D)

/-- The stake of a validator, none for an unknown one. -/
def stake (k : Pubkey) : ℕ := (K.stakeOf k).getD 0

/-- A validator with enough stake. -/
def Eligible (k : Pubkey) : Prop :=
  ∃ stake, K.stakeOf k = some stake ∧ K.genesis.limits.minimumStake ≤ stake

/-- The validators with enough stake, with their stakes. -/
def eligible : List (Pubkey × ℕ) := K.stakes.filter fun s => K.genesis.limits.minimumStake ≤ s.2

/-- The sum of their stakes, where nothing wraps. -/
def eligibleStake : ℕ := (K.eligible.map Prod.snd).sum

variable {K}

theorem nodup_stakes : (K.stakes.map Prod.fst).Nodup := by
  unfold stakes
  have hfold : ∀ (l m : List (Pubkey × ℕ)), (m.map Prod.fst).Nodup →
      ((l.foldl (fun m v => indexInsert m v.1 v.2) m).map Prod.fst).Nodup := by
    intro l
    induction l with
    | nil => exact fun m h => h
    | cons v l ih => exact fun m h => ih _ (nodup_indexInsert h)
  exact hfold _ [] List.nodup_nil

private theorem foldl_add_mod (l : List (Pubkey × ℕ)) (a : ℕ) (ha : a < 2 ^ 64) :
    l.foldl (fun a s => (a + s.2) % 2 ^ 64) a = (a + (l.map Prod.snd).sum) % 2 ^ 64 := by
  induction l generalizing a with
  | nil => simpa using (Nat.mod_eq_of_lt ha).symm
  | cons s l ih =>
    rw [List.foldl_cons, ih _ (Nat.mod_lt _ (by norm_num)), List.map_cons, List.sum_cons,
      Nat.mod_add_mod, Nat.add_assoc]

theorem totalStake_eq : K.totalStake = K.eligibleStake % 2 ^ 64 := by
  rw [totalStake, foldl_add_mod _ _ (by norm_num), Nat.zero_add, eligibleStake, eligible]

theorem mem_eligible {p : Pubkey × ℕ} (hp : p ∈ K.eligible) :
    K.stakeOf p.1 = some p.2 ∧ K.genesis.limits.minimumStake ≤ p.2 := by
  obtain ⟨hp, hmin⟩ := List.mem_filter.1 hp
  exact ⟨lookup_of_mem nodup_stakes hp, by simpa using hmin⟩

/-- **A set of eligible validators has no more stake than all of them.** -/
theorem sum_stake_le {s : Finset Pubkey} (h : ∀ k ∈ s, K.Eligible k) :
    ∑ k ∈ s, K.stake k ≤ K.eligibleStake := by
  have hnodup : (K.eligible.map Prod.fst).Nodup :=
    nodup_stakes.sublist (List.filter_sublist.map Prod.fst)
  have hsub : s ⊆ (K.eligible.map Prod.fst).toFinset := by
    intro k hk
    obtain ⟨stake, hstake, hmin⟩ := h k hk
    rw [List.mem_toFinset]
    refine List.mem_map.2 ⟨(k, stake), List.mem_filter.2 ⟨mem_of_lookup hstake, ?_⟩, rfl⟩
    simpa using hmin
  calc ∑ k ∈ s, K.stake k ≤ ∑ k ∈ (K.eligible.map Prod.fst).toFinset, K.stake k :=
        Finset.sum_le_sum_of_subset hsub
    _ = ((K.eligible.map Prod.fst).map K.stake).sum := List.sum_toFinset _ hnodup
    _ = K.eligibleStake := by
        rw [eligibleStake, List.map_map]
        refine congrArg List.sum (List.map_congr_left fun p hp => ?_)
        rw [Function.comp_apply, stake, (mem_eligible hp).1]
        rfl

/-- **Two sets with more stake than there is share a validator.** -/
theorem exists_mem_inter {s t : Finset Pubkey} (hs : ∀ k ∈ s, K.Eligible k)
    (ht : ∀ k ∈ t, K.Eligible k)
    (h : K.eligibleStake < ∑ k ∈ s, K.stake k + ∑ k ∈ t, K.stake k) : ∃ k ∈ s, k ∈ t := by
  by_contra hnone
  push Not at hnone
  have hdisj : Disjoint s t := Finset.disjoint_left.2 hnone
  have hunion := sum_stake_le (K := K) (s := s ∪ t) fun k hk =>
    (Finset.mem_union.1 hk).elim (hs k) (ht k)
  rw [Finset.sum_union hdisj] at hunion
  omega

/-- **A majority is more than half of the stake**, rounding included. -/
theorem lt_two_mul_majority (hpos : 0 < K.eligibleStake) (hlt : K.eligibleStake < 2 ^ 64) :
    K.eligibleStake < 2 * K.minimumMajorityStake := by
  have htotal : K.totalStake = K.eligibleStake := by
    rw [totalStake_eq, Nat.mod_eq_of_lt hlt]
  unfold minimumMajorityStake
  rw [htotal]
  generalize K.eligibleStake = s at hpos hlt ⊢
  have h₁ := le_roundSig s
  have h₂ := le_roundSig (roundSig s * 6034823500676465)
  have h₃ := le_ceilShift (roundSig (roundSig s * 6034823500676465)) 53
  omega

end Config

end Consensus

end Rensa
