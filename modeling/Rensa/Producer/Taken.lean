import Rensa.Producer.Order
/-!
# What is taken, and what stays

On the way into a block the transactions are grouped, sorted, put under new
keys, laid out and cut. No two groups have one key, for a group is under the
hash of one of its own transactions. So the layout has every transaction of
the mempool once, and what is cut off is what stays
(`takeTransactions_partition`).
-/

namespace Rensa

namespace Producer

variable {H : Type} [DecidableEq H] {C : Crypto H} {m : MempoolState C} {tx : Transaction}

/-- What is left after some transactions of the mempool are removed. -/
theorem MempoolState.mem_remove {taken : List Transaction} (htaken : ∀ t ∈ taken, t ∈ m.txs) :
    tx ∈ (m.remove taken).txs ↔ tx ∈ m.txs ∧ tx ∉ taken := by
  simp only [MempoolState.remove, List.mem_filter, decide_eq_true_eq]
  refine and_congr_right fun htx => not_congr ?_
  constructor
  · intro hmem
    obtain ⟨t, ht, hhash⟩ := List.mem_map.1 hmem
    rwa [← List.inj_on_of_nodup_map m.distinct (htaken t ht) htx hhash]
  · exact List.mem_map_of_mem

/-- **The mempool is what was removed and what is left.** -/
theorem MempoolState.perm_remove {taken : List Transaction} (htaken : ∀ t ∈ taken, t ∈ m.txs)
    (hnodup : taken.Nodup) : m.txs.Perm (taken ++ (m.remove taken).txs) := by
  have hrest : (m.remove taken).txs.Nodup := (m.remove taken).distinct.of_map _
  refine (List.perm_ext_iff_of_nodup (m.distinct.of_map _) ?_).2 fun t => ?_
  · refine List.nodup_append.2 ⟨hnodup, hrest, fun t ht t' ht' heq => ?_⟩
    exact ((mem_remove htaken).1 ht').2 (heq ▸ ht)
  · rw [List.mem_append, mem_remove htaken]
    constructor
    · intro ht
      by_cases hmem : t ∈ taken
      · exact .inl hmem
      · exact .inr ⟨ht, hmem⟩
    · rintro (ht | ht)
      · exact htaken t ht
      · exact ht.1

variable [Ord H] [Std.TransOrd H] [Std.LawfulEqOrd H]

/-- **Taking neither loses nor duplicates.** Whatever the mempool holds, in
whatever order its map is walked: `take_transactions` returns transactions
of the mempool with distinct hashes, as many as there are or `count`, and
leaves exactly the others. -/
theorem takeTransactions_partition (m : MempoolState C) (count : ℕ) :
    ((m.takeTransactions count).1.map (Transaction.hash C)).Nodup ∧
      (m.takeTransactions count).1.length = min count m.txs.length ∧
      (∀ tx ∈ (m.takeTransactions count).1, tx ∈ m.txs) ∧
      (∀ tx, tx ∈ (m.takeTransactions count).2.txs ↔
        tx ∈ m.txs ∧ tx ∉ (m.takeTransactions count).1) ∧
      m.txs.Perm ((m.takeTransactions count).1 ++ (m.takeTransactions count).2.txs) := by
  have hgs := arranges_sortedGroups m.distinct
  have hsub : (m.takeTransactions count).1.Sublist
      ((sortedGroups C m.txs).toList.map Prod.snd).flatten := by
    rw [takeTransactions_eq hgs count]
    exact List.take_sublist _ _
  have hmem : ∀ tx ∈ (m.takeTransactions count).1, tx ∈ m.txs := fun tx htx =>
    hgs.flatten_perm.subset (hsub.subset htx)
  have hhashes : ((m.takeTransactions count).1.map (Transaction.hash C)).Nodup :=
    ((hgs.flatten_perm.map _).nodup_iff.2 m.distinct).sublist (hsub.map _)
  refine ⟨hhashes, ?_, hmem, fun tx => MempoolState.mem_remove hmem,
    MempoolState.perm_remove hmem (hhashes.of_map _)⟩
  rw [takeTransactions_eq hgs count, List.length_take, hgs.flatten_perm.length_eq]

/-- Two of the four transactions of the sample mempool, whose payer 7 has
two groups. -/
theorem takeTransactions_partition_sample :
    (Sample.mempool.takeTransactions 2).1 = [Sample.tx 110 5 7, Sample.tx 130 6 7] ∧
      (Sample.mempool.takeTransactions 2).1.length = min 2 Sample.mempool.txs.length :=
  ⟨by decide, (takeTransactions_partition Sample.mempool 2).2.1⟩

end Producer

end Rensa
