import Rensa.Vm.Model.Unit
/-!
# Executing a block of transactions

`executeBlock` is `Vec<Transaction>::execute`: the order check, then one
transaction after another on the state overlaid with what the block
changed so far.
-/

namespace Rensa

/-- Why a block is refused by the machine. -/
inductive MachineError
  | inconsistentStateHash
  | invalidBlockHeight
  | invalidTransactionsOrder
deriving DecidableEq

/-- The result of executing the transactions of a block. -/
structure BlockOutput (H : Type) where
  state : StateDiff := {}
  logs : List (H × List (String × String)) := []
  errors : List (H × ContractError) := []

/-- `IndexMap::insert`: a known key keeps its place. -/
def indexInsert {κ ν : Type} [DecidableEq κ] (m : List (κ × ν)) (k : κ) (v : ν) : List (κ × ν) :=
  if m.any fun p => p.1 == k then m.map fun p => if p.1 = k then (k, v) else p
  else m ++ [(k, v)]

/-- What `IndexMap::insert` does to the keys. -/
theorem mem_keys_indexInsert {κ ν : Type} [DecidableEq κ] {m : List (κ × ν)} {k k' : κ} {v : ν} :
    k' ∈ (indexInsert m k v).map Prod.fst ↔ k' ∈ m.map Prod.fst ∨ k' = k := by
  unfold indexInsert
  split
  · rename_i hany
    have hkeys : (m.map fun p => if p.1 = k then (k, v) else p).map Prod.fst = m.map Prod.fst := by
      rw [List.map_map]
      refine List.map_congr_left fun p _ => ?_
      by_cases hp : p.1 = k <;> simp [hp]
    rw [hkeys]
    refine ⟨Or.inl, fun h => h.elim id fun hk => ?_⟩
    obtain ⟨e, he, hek⟩ := List.any_eq_true.1 hany
    exact List.mem_map.2 ⟨e, he, (eq_of_beq hek).trans hk.symm⟩
  · rw [List.map_append, List.mem_append]
    simp

namespace Machine

variable {H : Type} [DecidableEq H] [Ord H] (vm : Machine H)

/-- The group test of `verify_transactions_order`, with the subtraction of
a release build. -/
def withinPayerGroup (tx prev : Transaction) : Bool :=
  tx.payer == prev.payer && tx.nonce == (prev.nonce + (2 ^ 64 - 1)) % 2 ^ 64

/-- The loop of `verify_transactions_order`. -/
def orderFrom (prev : Transaction) (groupHead : Option Transaction) : List Transaction → Bool
  | [] => true
  | tx :: txs =>
    let groupHead := if withinPayerGroup tx prev then groupHead else some tx
    match groupHead with
    | none => orderFrom tx none txs
    | some head =>
      if compare (tx.hash vm.crypto) (head.hash vm.crypto) = .lt then false
      else orderFrom tx (some head) txs

/-- `verify_transactions_order`. -/
def verifyTransactionsOrder : List Transaction → Bool
  | [] => true
  | first :: txs => vm.orderFrom first none txs

/-- The payer's nonce goes up before the transaction is looked at,
whatever its outcome. -/
def bumpNonce (state : State) (acc : StateDiff) (payer : Pubkey) : StateDiff :=
  match overlayed state acc.get payer with
  | some account => acc.set payer { account with nonce := (account.nonce + 1) % 2 ^ 64 }
  | none => acc.set payer { nonce := 1 }

/-- The body of the loop of `Vec<Transaction>::execute`. -/
def executeNext (fuel : ℕ) (state : State) (acc : BlockOutput H) (tx : Transaction) :
    Option (BlockOutput H) :=
  let accstate := bumpNonce state acc.state tx.payer
  match vm.executeTransaction fuel tx (overlayed state accstate.get) with
  | none => none
  | some (.ok txout) =>
    some { acc with
      state := accstate.merge txout.stateDiff
      logs := indexInsert acc.logs (tx.hash vm.crypto) txout.logEntries }
  | some (.error e) =>
    some { acc with
      state := accstate
      errors := indexInsert acc.errors (tx.hash vm.crypto) e }

/-- `Vec<Transaction>::execute`. -/
def executeBlock (fuel : ℕ) (txs : List Transaction) (state : State) :
    Option (Except MachineError (BlockOutput H)) :=
  if vm.verifyTransactionsOrder txs then
    (txs.foldlM (vm.executeNext fuel state) {}).map .ok
  else some (.error .invalidTransactionsOrder)

end Machine

end Rensa
