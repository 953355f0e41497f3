import Rensa.Common.Rose
import Rensa.Common.Float
import Rensa.Vm.Model.Machine
/-!
# Blocks, votes and the setting of a chain

The messages validators exchange, and what every validator of one chain
shares (`Config`): the cryptography, the execution of a block's payload,
the genesis block with its stakes, and two choices the source leaves to
its runtime, where a moved tree node ends up in memory and in which order
a hash map is walked.
-/

namespace Rensa

namespace Consensus

/-- A vote of a validator for a block and all its ancestors. -/
structure Vote (H : Type) where
  validator : Pubkey
  target : H
  justification : H
  signature : Signature
deriving DecidableEq

/-- A block some validator produced. -/
structure Produced (H D : Type) where
  parent : H
  stateHash : H
  height : ℕ
  signature : Pubkey × Signature
  data : D
  votes : List (Vote H)
deriving DecidableEq

/-- A block with the outcome of executing it. -/
structure Executed (H D : Type) where
  underlying : Produced H D
  output : BlockOutput H

/-- A block that is not final, with the votes counted for it. -/
structure VolatileBlock (H D : Type) where
  block : Executed H D
  votes : ℕ := 0
  voters : Finset Pubkey := ∅

/-- A block waiting for its parent, and when it arrived. -/
structure OrphanCell (H D : Type) where
  arrived : ℕ
  block : Produced H D

/-- A tree of blocks waiting for the parent of its root. -/
abbrev OrphanNode (H D : Type) := Rose (OrphanCell H D)

/-- Where a tree node is after it is moved to another list element. The
program follows a link into memory that was freed and still holds the node
that was there, which reads as if the node had stayed: `inPlace`. With
`fresh` a moved node is in memory that was never used, and a link to its
old place leads nowhere. -/
inductive Alloc
  | fresh
  | inPlace
deriving DecidableEq

/-- The location of a moved node, `next` being the first one never used. -/
def Alloc.place (next old : ℕ) : Alloc → ℕ
  | .fresh => next
  | .inPlace => old

/-- What consensus reads of the genesis block. -/
structure Genesis (H : Type) where
  hash : H
  epochBlocks : ℕ
  slotInterval : ℕ
  limits : Limits
  validators : List (Pubkey × ℕ)

/-- What all validators of a chain share. -/
structure Config (H D : Type) where
  crypto : Crypto H
  /-- `Multihash::to_bytes`. -/
  toBytes : H → Bytes
  /-- `BlockData::hash`. -/
  hashData : D → H
  /-- `Executable::execute`, on any state. -/
  execute : State → D → Except MachineError (BlockOutput H)
  /-- `BlockOutput::hash`. -/
  hashOutput : BlockOutput H → H
  genesis : Genesis H
  alloc : Alloc
  /-- The order in which a hash map of orphans is walked, after an entry
  was added to it. -/
  order : List (OrphanNode H D) → List (OrphanNode H D)
  order_perm : ∀ l, (order l).Perm l

namespace Config

variable {H D : Type} (K : Config H D)

/-- `Vote::hash`. -/
def hashVote (v : Vote H) : H :=
  K.crypto.sha3 (v.validator.bytes ++ K.toBytes v.target ++ K.toBytes v.justification ++
    v.signature)

/-- `Vote::verify_signature`. -/
def verifyVote (v : Vote H) : Bool :=
  K.crypto.verifies v.validator (K.toBytes v.target ++ K.toBytes v.justification) v.signature

/-- `Produced::hash`, which leaves the signature out. -/
def hash (b : Produced H D) : H :=
  K.crypto.sha3 (b.signature.1.bytes ++ K.toBytes b.parent ++ K.toBytes b.stateHash ++
    leBytes 8 b.height ++ K.toBytes (K.hashData b.data) ++
    b.votes.flatMap fun v => K.toBytes (K.hashVote v))

/-- `Produced::verify_signature`. -/
def verifySignature (b : Produced H D) : Bool :=
  K.crypto.verifies b.signature.1 (K.toBytes (K.hash b)) b.signature.2

variable [DecidableEq H]

/-- `Executed::new`: the payload is executed and the result has to hash to
what the block says. -/
def newExecuted (state : State) (b : Produced H D) : Except MachineError (Executed H D) :=
  match K.execute state b.data with
  | .error e => .error e
  | .ok output =>
    if K.hashOutput output = b.stateHash then .ok { underlying := b, output }
    else .error .inconsistentStateHash

/-- The stakes, one per validator; of a validator listed twice the last
one counts. -/
def stakes : List (Pubkey × ℕ) :=
  K.genesis.validators.foldl (fun m v => indexInsert m v.1 v.2) []

/-- The stake of a validator. -/
def stakeOf (k : Pubkey) : Option ℕ := K.stakes.lookup k

/-- `total_stake`, with the addition of a release build. -/
def totalStake : ℕ :=
  (K.stakes.filter fun s => K.genesis.limits.minimumStake ≤ s.2).foldl
    (fun a s => (a + s.2) % 2 ^ 64) 0

/-- `minimum_majority_stake`. The factor `0.67` is the binary64 number
`6034823500676465 / 2 ^ 53`. -/
def minimumMajorityStake : ℕ :=
  ceilShift (roundSig (roundSig K.totalStake * 6034823500676465)) 53

/-- `epoch`, of a block height. -/
def epoch (height : ℕ) : ℕ := height / K.genesis.epochBlocks

end Config

end Consensus

end Rensa
