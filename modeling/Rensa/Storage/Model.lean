import Rensa.Common.Batch
import Rensa.Common.Tree
import Rensa.Consensus.Model.Block
/-!
# The blocks on disk

`BlockStore` keeps confirmed and finalized blocks under their heights, the
outputs of their execution under the same heights, and the heights under
the hashes of the blocks. `consume` stores a block, with its output, and
prunes what is older than the history that is kept. The trees hold what
was handed to `bincode`, and a read gives what `bincode` makes of it: of an
output the accounts come back without their executable flag, of all else
what was written. The tree of transactions, which only `get_transaction`
reads, is beside them in a `TransactionStore`.
-/

namespace Rensa

open Consensus

/-- A diff after `bincode::serialize` and `bincode::deserialize`. -/
def StateDiff.readBack (d : StateDiff) : StateDiff :=
  { d with data := d.data.map fun _ a => a.serialize.deserialize }

/-- An output after `bincode::serialize` and `bincode::deserialize`. -/
def BlockOutput.readBack {H : Type} (o : BlockOutput H) : BlockOutput H :=
  { o with state := o.state.readBack }

/-- `Commitment`. -/
inductive Commitment
  | included
  | confirmed
  | finalized
deriving DecidableEq

/-- `BlockStore`; under a height of `outputs` is the output that was
serialized. -/
structure BlockStore (H D : Type) where
  detailed : Bool
  historyLen : ℕ
  confirmed : Tree (Produced H D) := .empty
  finalized : Tree (Produced H D) := .empty
  outputs : Tree (BlockOutput H) := .empty
  hashes : H → Option ℕ := fun _ => none

namespace BlockStore

variable {H D : Type} (s : BlockStore H D)

/-- `BlockStore::latest`. -/
def latest : Commitment → Option (Produced H D)
  | .included => none
  | .confirmed => s.confirmed.last.map Prod.snd
  | .finalized => s.finalized.last.map Prod.snd

/-- The height of the latest finalized block, zero where there is none. -/
def latestHeight : ℕ := ((s.latest .finalized).map Produced.height).getD 0

/-- `get_by_height`. -/
def getByHeight (height : ℕ) : Option (Executed H D × Commitment) :=
  let block :=
    match s.confirmed.get height with
    | some b => some (b, Commitment.confirmed)
    | none => (s.finalized.get height).map fun b => (b, .finalized)
  match block with
  | none => none
  | some (b, commitment) =>
    -- what `Executed::recreate` makes of the two records
    (s.outputs.get height).map fun output =>
      ({ underlying := b, output := output.readBack }, commitment)

/-- `get_by_hash`. -/
def getByHash (hash : H) : Option (Executed H D × Commitment) :=
  match s.hashes hash with
  | none => none
  | some height => s.getByHeight height

/-- `store_raw_block`; `none` where it panics, which is before it writes. -/
def storeRawBlock (b : Produced H D) : Commitment → Option (BlockStore H D)
  | .included => some s
  | .confirmed => some { s with confirmed := s.confirmed.insert b.height b }
  | .finalized =>
    if b.height ≠ s.latestHeight + 1 then none
    else some { s with
      confirmed := s.confirmed.remove b.height
      finalized := s.finalized.insert b.height b }

/-- The part of `store_outputs` that stores the output. -/
def storeOutputs (x : Executed H D) : BlockStore H D :=
  { s with outputs :=
      if (s.outputs.get x.underlying.height).isSome then s.outputs
      else s.outputs.insert x.underlying.height x.output }

variable (K : Config H D) (txs : D → List H) [DecidableEq H]

/-- The part of `store_outputs` that stores the transactions goes through:
each of them, `txs` being their hashes, has a log or an error. -/
def recorded (x : Executed H D) : Bool :=
  (txs x.underlying.data).all fun t =>
    (x.output.errors.lookup t).isSome || (x.output.logs.lookup t).isSome

/-- `prune_older_than`. -/
def pruneOlderThan (height : ℕ) : BlockStore H D :=
  if 0 < height then
    let pruned := (s.confirmed.below height).entries ++ (s.finalized.below height).entries
    { s with
      confirmed := s.confirmed.above height
      finalized := s.finalized.above height
      outputs := if s.detailed then s.outputs.above height else s.outputs
      hashes := pruned.foldl (fun m e => Function.update m (K.hash e.2) none) s.hashes }
  else s

/-- The end of `consume`: the height under the hash. -/
def storeHash (b : Produced H D) : BlockStore H D :=
  { s with hashes :=
      if (s.hashes (K.hash b)).isSome then s.hashes
      else Function.update s.hashes (K.hash b) (some b.height) }

/-- What `consume` does once the block is stored, and whether it comes to
its end. A panic ends the task of this block and leaves what was written
before. -/
def storeRest (x : Executed H D) : BlockStore H D × Bool :=
  let s := if s.detailed then s.storeOutputs x else s
  if s.detailed && !recorded txs x then (s, false)
  else
    let b := x.underlying
    ((s.pruneOlderThan K (b.height - s.historyLen)).storeHash K b, true)

/-- `BlockStore::consume`, and whether it comes to its end. -/
def consume (x : Executed H D) (commitment : Commitment) : BlockStore H D × Bool :=
  if commitment = .included then (s, true)
  else
    match s.storeRawBlock x.underlying commitment with
    | none => (s, false)
    | some s => s.storeRest K txs x

end BlockStore

/-- `ExecutedTransaction`. -/
structure ExecutedTransaction where
  block : ℕ
  transaction : Transaction
  output : Except ContractError (List (String × String))

/-- The blocks on disk, and the transactions under their hashes. -/
structure TransactionStore (H : Type) where
  blocks : BlockStore H (List Transaction)
  transactions : H → Option ExecutedTransaction := fun _ => none

namespace TransactionStore

variable {H : Type} (s : TransactionStore H)

/-- `get_transaction`; `none` where it panics. -/
def getTransaction (hash : H) : Option (Option ExecutedTransaction) :=
  if s.blocks.detailed then some (s.transactions hash) else none

variable (K : Config H (List Transaction)) [DecidableEq H]

/-- What `store_outputs` keeps of a transaction; `none` where it panics. -/
def executedTransaction (x : Executed H (List Transaction)) (tx : Transaction) :
    Option ExecutedTransaction :=
  let error := (x.output.errors.lookup (tx.hash K.crypto)).map Except.error
  let logs := (x.output.logs.lookup (tx.hash K.crypto)).map Except.ok
  (error.or logs).map fun output => { block := x.underlying.height, transaction := tx, output }

/-- The batch of `store_outputs`; `none` where a transaction has no output. -/
def batch (x : Executed H (List Transaction)) : Option (List (H × Option ExecutedTransaction)) :=
  x.underlying.data.mapM fun tx =>
    (executedTransaction K x tx).map fun entry => (tx.hash K.crypto, some entry)

/-- `store_outputs`, and whether it comes to its end. -/
def storeOutputs (x : Executed H (List Transaction)) : TransactionStore H × Bool :=
  let s := { s with blocks := s.blocks.storeOutputs x }
  match batch K x with
  | none => (s, false)
  | some batch => ({ s with transactions := applyBatch s.transactions batch }, true)

/-- `prune_older_than`: the transactions of each block that goes, go. -/
def pruneOlderThan (height : ℕ) : TransactionStore H :=
  let pruned := (s.blocks.confirmed.below height).entries ++
    (s.blocks.finalized.below height).entries
  { blocks := s.blocks.pruneOlderThan K height
    transactions :=
      if 0 < height ∧ s.blocks.detailed = true then
        pruned.foldl (fun m e => applyBatch m (e.2.data.map fun tx => (tx.hash K.crypto, none)))
          s.transactions
      else s.transactions }

/-- What `consume` does once the block is stored, and whether it comes to
its end. -/
def storeRest (x : Executed H (List Transaction)) : TransactionStore H × Bool :=
  match if s.blocks.detailed then s.storeOutputs K x else (s, true) with
  | (s, false) => (s, false)
  | (s, true) =>
    let b := x.underlying
    let s := s.pruneOlderThan K (b.height - s.blocks.historyLen)
    ({ s with blocks := s.blocks.storeHash K b }, true)

/-- `BlockStore::consume`, and whether it comes to its end. -/
def consume (x : Executed H (List Transaction)) (commitment : Commitment) :
    TransactionStore H × Bool :=
  if commitment = .included then (s, true)
  else
    match s.blocks.storeRawBlock x.underlying commitment with
    | none => (s, false)
    | some blocks => { s with blocks }.storeRest K x

end TransactionStore

end Rensa
