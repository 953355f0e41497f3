import Rensa.Consensus.Net
import Rensa.Network.Model.Responder
import Rensa.Node.Model
import Rensa.Producer.Mempool
/-!
# The validator loop

`Validator` is what `main` holds: the chain, the block producer with the
block it has under construction, the responder to requests for blocks, the
channel to the consumers and the blocks on disk. It takes turns: a branch of
the `select!` of the loop, or the consumers handling one block (`Turn`). What
it gossips may reach every other validator, at any time and any number of
times, in any order or not at all (`Validators`). The database of the
transactions is left out: the loop does not read it.
-/

namespace Rensa

open Consensus Network Producer

/-- `Keypair`: the address, and what the key makes of a message. -/
structure Keypair where
  pubkey : Pubkey
  sign : Bytes → Signature

/-- `Vote::new`. -/
def Consensus.Vote.new {H D : Type} (K : Config H D) (keypair : Keypair)
    (target justification : H) : Vote H where
  validator := keypair.pubkey
  target
  justification
  signature := keypair.sign (K.toBytes target ++ K.toBytes justification)

/-- `Produced::new`. What `hash_parts` hashes leaves the signature out. -/
def Consensus.Produced.new {H D : Type} (K : Config H D) (keypair : Keypair) (height : ℕ)
    (parent : H) (data : D) (stateHash : H) (votes : List (Vote H)) : Produced H D :=
  let b : Produced H D :=
    { parent, stateHash, height, signature := (keypair.pubkey, []), data, votes }
  { b with signature := (keypair.pubkey, keypair.sign (K.toBytes (K.hash b))) }

/-- What validators gossip, a kind of message for each topic. -/
inductive Gossip (H : Type)
  | missing (hash : H)
  | block (b : Produced H (List Transaction))
  | vote (v : Vote H)
  | transaction (tx : Transaction)
deriving DecidableEq

/-- What a validator holds. -/
structure Validator {H : Type} (K : Config H (List Transaction)) where
  chain : Chain H (List Transaction)
  producer : BlockProducer K.crypto
  /-- `BlockProducer::pending`. -/
  pending : Option (Produced H (List Transaction)) := none
  responder : SwarmResponder H
  blocks : BlockStore H (List Transaction)
  channel : List (Executed H (List Transaction) × Commitment) := []

/-- A turn of the loop, with the time and the random number it may take. -/
inductive Turn (H : Type)
  /-- A slot of a validator begins. -/
  | slot (validator : Pubkey)
  /-- The time of a response has come. -/
  | reply (now r : ℕ)
  /-- A message arrives. -/
  | network (now r : ℕ) (message : Gossip H)
  /-- The producer has a block. -/
  | produced (now : ℕ)
  /-- The chain has an event. -/
  | chain (now : ℕ)
  /-- A transaction arrives through RPC. -/
  | rpc (tx : Transaction)
  /-- The consumers handle the next block of the channel. -/
  | consume

namespace Validator

variable {H : Type} {K : Config H (List Transaction)} [DecidableEq H] (n : Validator K)

/-- What `BlockStore` keeps of a payload. -/
def txHashes (K : Config H (List Transaction)) (txs : List Transaction) : List H :=
  txs.map (Transaction.hash K.crypto)

/-- The block that is replayed for a hash: from the chain, or from disk. -/
def replay (hash : H) : Option (Produced H (List Transaction)) :=
  ((TreeNode.get K n.chain.forktrees hash).map TreeNode.block).or
    ((n.blocks.getByHash hash).map fun x => x.1.underlying)

/-- An event of the chain: what comes of it, and what is gossiped. -/
def handle (keypair : Keypair) :
    ChainEvent H (List Transaction) → Validator K × List (Gossip H)
  | .vote target justification => (n, [.vote (.new K keypair target justification)])
  | .blockDiscarded b => ({ n with producer := n.producer.reuseDiscarded b }, [])
  | .blockMissing hash => (n, [.missing hash])
  | .blockIncluded x => ({ n with channel := n.channel ++ [(x, .included)] }, [])
  | .blockConfirmed x _ => ({ n with channel := n.channel ++ [(x, .confirmed)] }, [])
  | .blockFinalized x _ => ({ n with channel := n.channel ++ [(x, .finalized)] }, [])

variable [Ord H] [Std.TransOrd H]

/-- `BlockProducer::produce`, on what `with_head` passes on; `none` where the
transactions do not execute, which is a panic. -/
def produce (keypair : Keypair) : Option (Validator K) :=
  let (votes, producer) := n.producer.takeVotes
  let (txs, rest) := producer.txs.takeTransactions producer.limits.maxBlockTransactions
  match K.execute n.chain.headState txs with
  | .error _ => none
  | .ok output => some { n with
      producer := { producer with txs := rest }
      pending := some (.new K keypair (n.chain.headHeight + 1) (n.chain.headHash K) txs
        (K.hashOutput output) votes) }

/-- One turn, and what it gossips; `none` is a panic. `max` is the last
instant of the platform. -/
def turn (keypair : Keypair) (max : ℕ) : Turn H → Option (Validator K × List (Gossip H))
  | .slot validator =>
    if validator = keypair.pubkey then (n.produce keypair).map fun n => (n, []) else some (n, [])
  | .reply now r =>
    match n.responder.pollNext now r with
    | (none, responder) => some ({ n with responder }, [])
    | (some hash, responder) =>
      some ({ n with responder }, (n.replay hash).toList.map .block)
  | .network now _ (.block b) =>
    some ({ n with
      responder := n.responder.cancel (K.hash b)
      chain := n.chain.include K now b }, [])
  | .network _ _ (.vote v) => some ({ n with producer := n.producer.recordVote v }, [])
  | .network now r (.missing hash) =>
    (n.responder.request max now r hash).map fun responder => ({ n with responder }, [])
  | .network _ _ (.transaction tx) =>
    some ({ n with producer := n.producer.recordTransaction tx }, [])
  | .produced now =>
    match n.pending with
    | none => some (n, [])
    | some b => some ({ n with pending := none, chain := n.chain.include K now b }, [.block b])
  | .chain now =>
    match n.chain.pollNext K now with
    | (none, chain) => some ({ n with chain }, [])
    | (some event, chain) => some ({ n with chain }.handle keypair event)
  | .rpc tx => some (n, [.transaction tx])
  | .consume =>
    match n.channel with
    | [] => some (n, [])
    | (x, commitment) :: channel => some ({ n with
        channel
        producer := n.producer.consume x commitment
        blocks := (n.blocks.consume K (txHashes K) x commitment).1 }, [])

/-- The actions of `Net` that a turn is made of: a block that `include` does
not turn down at once, the events that are taken, and the blocks that are
produced. -/
def actions {N : Type} (i : N) (keypair : Keypair) :
    Turn H → List (Action N H (List Transaction))
  | .slot validator =>
    if validator = keypair.pubkey then
      match n.produce keypair with
      | none => []
      | some n => n.pending.toList.map (.produce i)
    else []
  | .network now _ (.block b) => if n.chain.admits K b then [.deliver i now b] else []
  | .produced now =>
    (n.pending.toList.filter (n.chain.admits K)).map (.deliver i now)
  | .chain now => [.poll i now]
  | _ => []

end Validator

/-- The validators of one chain, each of them until it panics, and what was
gossiped. `past` is a history variable, which no turn reads. -/
structure Validators {H : Type} (N : Type) (K : Config H (List Transaction)) where
  nodes : N → Option (Validator K)
  wire : List (Gossip H) := []
  past : List (Action N H (List Transaction)) := []

namespace Validators

variable {N H : Type} [DecidableEq N] [DecidableEq H] [Ord H] [Std.TransOrd H]
  {K : Config H (List Transaction)}

omit [DecidableEq N] [DecidableEq H] [Ord H] [Std.TransOrd H] in
/-- The validators at the start, with an empty disk. -/
def start (fin : Finalized H (List Transaction)) (responder : SwarmResponder H) (detailed : Bool)
    (historyLen : ℕ) : Validators N K where
  nodes _ := some
    { chain := .new fin
      producer := .new K.crypto K.genesis
      responder
      blocks := { detailed, historyLen } }

omit [Ord H] [Std.TransOrd H] in
/-- What has happened so far among the nodes of a net. -/
def net (s : Validators N K) : Net N H (List Transaction) := ({} : Net N H (List Transaction)).run
  s.past

/-- A turn of one validator. -/
def step (keys : N → Keypair) (max : ℕ) (s : Validators N K) (a : N × Turn H) : Validators N K :=
  match s.nodes a.1 with
  | none => s
  | some n =>
    match n.turn (keys a.1) max a.2 with
    | none => { s with nodes := Function.update s.nodes a.1 none }
    | some (n', gossip) =>
      { nodes := Function.update s.nodes a.1 (some n')
        wire := gossip ++ s.wire
        past := s.past ++ n.actions a.1 (keys a.1) a.2 }

/-- Any sequence of turns. -/
def run (keys : N → Keypair) (max : ℕ) (s : Validators N K) (turns : List (N × Turn H)) :
    Validators N K := turns.foldl (step keys max) s

/-- **Signatures cannot be forged.** A message was gossiped by a validator, or
it comes from elsewhere: then a block that is signed by a validator with
enough stake is one that a validator produced, and a vote that is signed by a
validator is for what that validator voted for. -/
def Genuine (fin : Finalized H (List Transaction)) (keys : N → Keypair) (s : Validators N K) :
    Gossip H → Prop
  | .block b => .block b ∈ s.wire ∨
      (K.verifySignature b = true → (∃ stake, K.stakeOf b.signature.1 = some stake ∧
        K.genesis.limits.minimumStake ≤ stake) → b ∈ s.net.blocks)
  | .vote v => .vote v ∈ s.wire ∨ (K.verifyVote v = true → v.validator ∈
      K.genesis.validators.map Prod.fst → s.net.Signed K fin (fun i => (keys i).pubkey) v)
  | .missing _ => True
  | .transaction _ => True

/-- What the network may do. -/
def Allowed (fin : Finalized H (List Transaction)) (keys : N → Keypair) (s : Validators N K) :
    N × Turn H → Prop
  | (_, .network _ _ message) => s.Genuine fin keys message
  | _ => True

end Validators

end Rensa
