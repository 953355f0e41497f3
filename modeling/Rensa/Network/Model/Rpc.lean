import Rensa.Common.Bytes
import Rensa.Common.Keyed
/-!
# Peers, messages and configuration of the gossip network

`P` is the type of peer ids and `A` that of network addresses. The wire
format of a peer may not parse, so a peer in a message is an option:
`none` is a peer whose id is no peer id.
-/

namespace Rensa

namespace Network

/-- `AddressablePeer`: two of them are equal when their ids are. -/
structure AddressablePeer (P A : Type) where
  peerId : P
  addresses : List A

/-- `HashSet<AddressablePeer>`. -/
abbrev PeerSet (P A : Type) := KeySet (AddressablePeer.peerId (P := P) (A := A))

/-- `HashSet<PeerId>`. -/
abbrev IdSet (P : Type) := KeySet (id : P → P)

/-- `rpc::AddressablePeer`, as `try_into` reads it. -/
abbrev WirePeer (P A : Type) := Option (AddressablePeer P A)

/-- `rpc::neighbor::Priority`, as the number it is on the wire. -/
def Priority.low : ℤ := 0

/-- The priority of a node without active peers. -/
def Priority.high : ℤ := 1

/-- `rpc::rpc::Action`. -/
inductive Action (P A : Type)
  | join (ttl : ℕ) (peer : WirePeer P A)
  | forwardJoin (ttl : ℕ) (peer : WirePeer P A)
  | neighbor (peer : WirePeer P A) (priority : ℤ)
  | shuffle (ttl : ℕ) (origin : WirePeer P A) (nodes : List (WirePeer P A))
  | shuffleReply (nodes : List (WirePeer P A))
  | disconnect (alive : Bool)
  | message (id : UInt64) (hop : UInt32) (payload : Bytes)
  | ihave (ihaves : List (UInt32 × UInt64))
  | prune
  | graft (ids : List UInt64)

/-- `rpc::Rpc`. -/
structure Rpc (P A : Type) where
  topic : String
  action : Option (Action P A)

/-- `EpisubEvent`. -/
inductive EpisubEvent (P : Type)
  | message (topic : String) (id : UInt64) (payload : Bytes)
  | subscribed (topic : String)
  | peerAdded (peer : P)
  | peerRemoved (peer : P)

/-- `EpisubNetworkBehaviourAction`: what is handed to the swarm. -/
inductive NetworkAction (P A : Type)
  | notifyHandler (peer : P) (event : Rpc P A)
  | dial (peer : P) (addresses : List A) (temporary : Bool)
  | generateEvent (event : EpisubEvent P)
  | closeConnection (peer : P) (connection : ℕ)

/-- `Config`. The sizes that the source computes in floating point from
the estimated size of the network are given; times are in nanoseconds. -/
structure Config (P : Type) where
  maxActiveViewSize : ℕ
  passiveViewFactor : ℕ
  activeWalkLength : ℕ
  lazyPushWindow : ℕ
  historyWindow : ℕ
  tickFrequency : ℕ
  hopOptimizationFactor : ℕ
  optimizeSenderTree : Bool
  enableCompression : Bool
  /-- `PeerAuthorizer::allow`. -/
  allow : String → P → Bool

namespace Config

/-- `Config::default`, for a network of a thousand nodes. -/
def default {P : Type} : Config P where
  maxActiveViewSize := 11
  passiveViewFactor := 6
  activeWalkLength := 6
  lazyPushWindow := 2000000000
  historyWindow := 30000000000
  tickFrequency := 200000000
  hopOptimizationFactor := 4
  optimizeSenderTree := true
  enableCompression := true
  allow := fun _ _ => true

variable {P : Type} (c : Config P)

/-- `Config::min_active_view_size`. -/
def minActiveViewSize : ℕ := max (c.maxActiveViewSize / 2) 1

/-- `Config::max_passive_view_size`. -/
def maxPassiveViewSize : ℕ := c.maxActiveViewSize * c.passiveViewFactor

/-- `Config::shuffle_max_size`. -/
def shuffleMaxSize : ℕ := c.maxActiveViewSize * 2

end Config

end Network

end Rensa
