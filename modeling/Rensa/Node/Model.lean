import Rensa.Storage.Model
import Rensa.Consensus.Acts
/-!
# The validator loop and what it leaves on disk

A node holds a chain, whose accounts are on disk, a channel of blocks on
their way to the consumers, and the blocks on disk. The loop of `main`
makes one call of the chain after the other and sends the blocks of the
events on; the task behind the channel stores them later, one at a time.
A node that stops keeps what is on disk, and `restart` is how `main` starts
again from it.
-/

namespace Rensa

open Consensus

namespace PersistentState

/-- `Db::is_empty`. -/
@[irreducible] def isEmpty (s : PersistentState) : Bool :=
  decide (∀ v : Fin (2 ^ 256), s.db ⟨v⟩ = none)

/-- The accounts of the genesis block, put where there are none. -/
def seed (accounts : List (Pubkey × Account)) (s : PersistentState) : PersistentState :=
  { db := accounts.foldl (fun db p =>
      if (db p.1).isNone then Function.update db p.1 (some p.2.serialize) else db) s.db }

/-- `PersistentState::new`, on what is on disk. -/
def new (accounts : List (Pubkey × Account)) (s : PersistentState) : PersistentState :=
  if s.isEmpty then s.seed accounts else s

end PersistentState

/-- A running node. `archive` is a history variable, which no function
reads: every block ever stored as finalized, with its output, by height. -/
structure Node (H D : Type) where
  chain : Chain H D
  channel : List (Executed H D × Commitment) := []
  blocks : BlockStore H D
  archive : Tree (Executed H D) := .empty

namespace Node

variable {H D : Type}

/-- What `main` sends to the consumers for an event. -/
def message : ChainEvent H D → Option (Executed H D × Commitment)
  | .blockIncluded b => some (b, .included)
  | .blockConfirmed b _ => some (b, .confirmed)
  | .blockFinalized b _ => some (b, .finalized)
  | _ => none

/-- What can happen to a node: the loop calls the chain, the consumers take
a block from the channel, or the node stops at the point `k` of a call and
is started again. -/
inductive Input (H D : Type)
  | call (i : Chain.Input H D)
  | consume
  | crash (i : Chain.Input H D) (k : ℕ)

/-- The archive after a block was consumed. -/
def archived (n : Node H D) (b : Executed H D) : Commitment → Tree (Executed H D)
  | .finalized =>
    match n.blocks.storeRawBlock b.underlying .finalized with
    | none => n.archive
    | some _ => n.archive.insert b.underlying.height b
  | _ => n.archive

variable (K : Config H D) (txs : D → List H) [DecidableEq H]
  (accounts : List (Pubkey × Account)) (n : Node H D)

/-- The task behind the channel, for one block. -/
def consume : Node H D :=
  match n.channel with
  | [] => n
  | (b, commitment) :: channel =>
    { n with
      channel
      blocks := (n.blocks.consume K txs b commitment).1
      archive := n.archived b commitment }

/-- The states `while try_finalize_roots` goes through. -/
def rounds : ℕ → Chain H D → List (Chain H D)
  | 0, c => [c]
  | fuel + 1, c =>
    c :: match c.tryFinalizeRoots K with
      | none => []
      | some c => rounds fuel c

/-- The states a call of the chain goes through, up to those that leave the
same accounts on disk. -/
def midway (c : Chain H D) : Chain.Input H D → List (Chain H D)
  | .include _ _ => [c]
  | .pollNext _ =>
    c :: match c.events.getLast? with
      | some (.blockIncluded b) =>
        let c := c.pop.countAll K b.underlying
        rounds K (Rose.nodesL c.forktrees).length c
      | _ => []

/-- The points of a call of the chain. -/
def points (i : Chain.Input H D) : List (Node H D) :=
  (midway K n.chain i).map fun chain => { n with chain }

/-- One call of the chain: the event it returns is sent on. -/
def call (i : Chain.Input H D) : Node H D :=
  { n with
    chain := n.chain.step K i
    channel := n.channel ++ (n.chain.returned K i).filterMap message }

omit [DecidableEq H] in
/-- What `main` starts from what is on disk. -/
def restart : Node H D :=
  { n with
    chain := Chain.new
      { underlying := n.blocks.latest .finalized
        store := .new accounts n.chain.finalized.store }
    channel := [] }

/-- One thing that happens. -/
def step : Input H D → Node H D
  | .call i => n.call K i
  | .consume => n.consume K txs
  | .crash i k => ((n.points K i)[k]?.getD n).restart accounts

omit [DecidableEq H] in
/-- A node on an empty disk. -/
def boot (detailed : Bool) (historyLen : ℕ) : Node H D :=
  { chain := Chain.new { underlying := none, store := .new accounts ⟨fun _ => none⟩ }
    blocks := { detailed, historyLen } }

/-- Any sequence of what can happen. -/
def run (inputs : List (Input H D)) : Node H D := inputs.foldl (step K txs accounts) n

end Node

end Rensa
