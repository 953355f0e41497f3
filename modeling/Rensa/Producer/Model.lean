import Rensa.Vm.Model.Machine
/-!
# The mempool of a block producer

`MempoolState` holds the transactions a producer may put in a block, in a
map keyed by their hashes. The order in which the map is walked is not
specified, so the transactions are kept as a list in that order, whatever
it is.
-/

namespace Rensa

namespace Producer

variable {H : Type}

/-- The transactions of the mempool, as the map is walked: one per
hash. -/
structure MempoolState (C : Crypto H) where
  txs : List Transaction
  distinct : (txs.map (Transaction.hash C)).Nodup

variable {C : Crypto H} [DecidableEq H]

/-- `self.txs.remove` of the hashes of some transactions. -/
def MempoolState.remove (m : MempoolState C) (taken : List Transaction) : MempoolState C where
  txs := m.txs.filter fun tx => tx.hash C ∉ taken.map (Transaction.hash C)
  distinct := m.distinct.sublist (List.filter_sublist.map _)

/-- `MempoolState::add_transaction`: under its hash, in the place of one that
has it. Where the order of the map has a new key is not specified. -/
def MempoolState.addTransaction (m : MempoolState C) (tx : Transaction) : MempoolState C :=
  match tx.verifySignatures C with
  | .error _ => m
  | .ok () =>
    { txs := tx :: (m.remove [tx]).txs
      distinct := by
        rw [List.map_cons, List.nodup_cons]
        refine ⟨fun hmem => ?_, (m.remove [tx]).distinct⟩
        obtain ⟨tx', htx', hhash⟩ := List.mem_map.1 hmem
        have := (List.mem_filter.1 htx').2
        simp [hhash] at this }

/-- `BlockProducer::record_transaction`. -/
def MempoolState.recordTransaction (m : MempoolState C) (limits : Limits) (tx : Transaction) :
    MempoolState C :=
  match tx.verifyLimits limits with
  | .error _ => m
  | .ok () => m.addTransaction tx

/-- `group_by` of the payer: stretches of one payer, as the map is walked.
Each is sorted by nonce, transactions of one nonce staying in order. -/
def payerGroups (txs : List Transaction) : List (List Transaction) :=
  (txs.splitBy fun a b => a.payer == b.payer).map
    (List.insertionSort fun a b => a.nonce ≤ b.nonce)

variable [Ord H] [Std.TransOrd H]

/-- A group goes under the hash of its first transaction. -/
def insertGroup (C : Crypto H) (output : Std.ExtTreeMap H (List Transaction))
    (txs : List Transaction) : Std.ExtTreeMap H (List Transaction) :=
  match txs.head? with
  | some first => output.insert (first.hash C) txs
  | none => output

/-- The groups, sorted by the hash of their first transaction. -/
def sortedGroups (C : Crypto H) (txs : List Transaction) :
    Std.ExtTreeMap H (List Transaction) :=
  (payerGroups txs).foldl (insertGroup C) ∅

/-- `MempoolState::take_transactions`: what goes into the block, and the
mempool left. -/
def MempoolState.takeTransactions (m : MempoolState C) (count : ℕ) :
    List Transaction × MempoolState C :=
  let output := ((sortedGroups C m.txs).toList.flatMap Prod.snd).take count
  (output, m.remove output)

end Producer

end Rensa
