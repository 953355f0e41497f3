import Rensa.Network.Model.Topic
/-!
# Episub

The network behaviour over all topics. A function returns `none` where
the source panics, and `checks` says whether the build checks additions
for overflow. `encodeAll` and `decodeAll` are the compression of
zstd. The topics are kept in the order of their subscription, and the
order in which `poll` visits them is given with the call, as the random
choices and the time are.
-/

namespace Rensa

namespace Network

/-- `multiaddr::Protocol`, as far as it is looked at. -/
inductive Protocol
  | ip4 (addr : BitVec 32)
  | ip6 (addr : BitVec 128)
  | other (code : ℕ) (data : Bytes)
  deriving DecidableEq

/-- `Multiaddr`. -/
abbrev Multiaddr := List Protocol

/-- `is_local_address`: localhost, or unspecified. -/
def isLocalAddress (addr : Multiaddr) : Bool := addr.any fun
  | .ip4 addr => addr = 0x7f000001 || addr = 0
  | .ip6 addr => addr = 1 || addr = 0
  | .other _ _ => false

/-- `ConnectedPoint`. -/
inductive ConnectedPoint
  | dialer (address : Multiaddr)
  | listener (sendBackAddr : Multiaddr)

/-- `PollParameters`. -/
structure PollParameters (P : Type) where
  localPeerId : P
  externalAddresses : List Multiaddr
  listenedAddresses : List Multiaddr

/-- `PublishError`. -/
inductive PublishError
  | topicNotSubscribed
  | io

/-- `Episub`. -/
structure Episub (P : Type) where
  config : Config P
  localNode : Option (AddressablePeer P Multiaddr) := none
  topics : List (String × TopicMesh P Multiaddr) := []
  bannedPeers : IdSet P := .empty
  pendingTopics : IdSet String := .empty
  outEvents : List (NetworkAction P Multiaddr) := []
  peerAddresses : P → Option Multiaddr := fun _ => none
  earlyPeers : IdSet P := .empty

namespace Episub

variable {P : Type}

/-- `Episub::new`. -/
def new (config : Config P) : Episub P := { config }

variable (e : Episub P)

/-- `topics.get`. -/
def mesh (topic : String) : Option (TopicMesh P Multiaddr) := e.topics.lookup topic

/-- The mesh of a topic in a new state. -/
def setMesh (topic : String) (mesh : TopicMesh P Multiaddr) : Episub P :=
  { e with topics := e.topics.map fun t => if t.1 = topic then (topic, mesh) else t }

/-- `out_events.push_back`. -/
def emit (action : NetworkAction P Multiaddr) : Episub P :=
  { e with outEvents := e.outEvents ++ [action] }

/-- `Episub::subscribe`. -/
def subscribe (topic : String) : Bool × Episub P :=
  if (e.mesh topic).isSome then (false, e)
  else match e.localNode with
    | some node =>
      (true, { e with topics := e.topics ++ [(topic, TopicMesh.new topic e.config node)] }.emit
        (.generateEvent (.subscribed topic)))
    | none => (true, { e with pendingTopics := e.pendingTopics.insert topic })

variable [DecidableEq P]

/-- `Episub::publish`, with a random id. -/
def publish (encodeAll : Bytes → Option Bytes) (now : ℤ) (id : UInt64) (topic : String)
    (message : Bytes) : Except PublishError (UInt64 × Episub P) :=
  match e.mesh topic with
  | some mesh =>
    match if e.config.enableCompression then encodeAll message else some message with
    | some payload => .ok (id, e.setMesh topic (mesh.publish now id payload))
    | none => .error .io
  | none => .error .topicNotSubscribed

omit [DecidableEq P] in
/-- `Episub::force_disconnect`. -/
def forceDisconnect (peer : P) (connection : ℕ) : Episub P :=
  e.emit (.closeConnection peer connection)

/-- `Episub::ban_peer`. -/
def banPeer (peer : P) (connection : ℕ) : Episub P :=
  forceDisconnect { e with
    peerAddresses := Function.update e.peerAddresses peer none
    bannedPeers := e.bannedPeers.insert peer } peer connection

/-- Whether a topic asks a peer to let it join. -/
def wantsJoin (peer : P) (t : String × TopicMesh P Multiaddr) : Bool :=
  t.2.nodes.starved && !t.2.nodes.isActive peer && e.config.allow t.1 peer

/-- `Episub::request_join_for_starving_topics`: the address of the peer is
unwrapped for every topic. -/
def requestJoinForStarvingTopics (peer : P) : Option (Episub P) :=
  match e.peerAddresses peer with
  | some addr => some { e with
      topics := e.topics.map fun t =>
        if e.wantsJoin peer t then (t.1, t.2.initiateJoin ⟨peer, [addr]⟩) else t }
  | none => if e.topics.any (e.wantsJoin peer) then none else some e

/-- `Episub::inject_connection_established`. -/
def injectConnectionEstablished (peer : P) (connection : ℕ) (endpoint : ConnectedPoint) :
    Option (Episub P) :=
  if peer ∈ e.bannedPeers then some (e.forceDisconnect peer connection)
  else
    match endpoint with
    | .dialer address =>
      let e := { e with peerAddresses := Function.update e.peerAddresses peer (some address) }
      if e.localNode.isSome then e.requestJoinForStarvingTopics peer
      else some { e with earlyPeers := e.earlyPeers.insert peer }
    | .listener sendBackAddr =>
      some { e with peerAddresses := Function.update e.peerAddresses peer (some sendBackAddr) }

omit [DecidableEq P] in
/-- `Episub::inject_new_listen_addr`. -/
def injectNewListenAddr (addr : Multiaddr) : Episub P :=
  if isLocalAddress addr then e
  else { e with localNode := e.localNode.map fun node =>
    { node with addresses := List.insert addr node.addresses } }

omit [DecidableEq P] in
/-- `Episub::inject_expired_listen_addr`. -/
def injectExpiredListenAddr (addr : Multiaddr) : Episub P :=
  { e with localNode := e.localNode.map fun node =>
    { node with addresses := node.addresses.filter (· ≠ addr) } }

/-- All topics lose a peer. -/
def disconnected (ρ : String → ℕ → ℕ) (peer : P) (alive : Bool) : Episub P :=
  { e with topics := e.topics.map fun t => (t.1, t.2.disconnected (ρ t.1) peer alive) }

/-- `Episub::inject_dial_failure`: whether the error is
`DialPeerConditionFalse` is all that is looked at. -/
def injectDialFailure (ρ : String → ℕ → ℕ) (peer : Option P) (conditionFalse : Bool) : Episub P :=
  match conditionFalse, peer with
  | false, some peer => e.disconnected ρ peer false
  | _, _ => e

/-- `Episub::inject_connection_closed`. -/
def injectConnectionClosed (ρ : String → ℕ → ℕ) (peer : P) : Episub P := e.disconnected ρ peer true

/-- `Episub::inject_event`. -/
def injectEvent (checks : Bool) (decodeAll : Bytes → Option Bytes) (ρ : String → ℕ → ℕ) (now : ℤ)
    (peer : P) (connection : ℕ) (event : Rpc P Multiaddr) : Option (Episub P) :=
  if peer ∈ e.bannedPeers then some (e.forceDisconnect peer connection)
  else if !e.config.allow event.topic peer then some (e.forceDisconnect peer connection)
  else if event.action.isNone then some (e.banPeer peer connection)
  else match e.mesh event.topic with
    | some mesh =>
      match mesh.injectRpcCall checks decodeAll (ρ event.topic) now peer event with
      | none => none
      | some (.ok mesh) => some (e.setMesh event.topic mesh)
      | some (.error _) => some (e.banPeer peer connection)
    | none =>
      let farewell : Rpc P Multiaddr := { topic := event.topic, action := some (.disconnect false) }
      some ((e.emit (.notifyHandler peer farewell)).forceDisconnect peer connection)

/-- The addresses of a node that others can reach. -/
def advertised (params : PollParameters P) : List Multiaddr :=
  ((params.externalAddresses ++ params.listenedAddresses).filter fun a => !isLocalAddress a).dedup

/-- Subscribes to the topics that were waiting for the node's identity. -/
def startPending (node : AddressablePeer P Multiaddr) : List (String × TopicMesh P Multiaddr) :=
  e.pendingTopics.items.foldl (fun topics topic =>
    if (topics.lookup topic).isSome then topics
    else topics ++ [(topic, TopicMesh.new topic e.config node)]) e.topics

/-- `Episub::update_local_node_info`. -/
def updateLocalNodeInfo (params : PollParameters P) : Option (Episub P) :=
  if e.localNode.isNone && !(advertised params).isEmpty then
    let node : AddressablePeer P Multiaddr := ⟨params.localPeerId, advertised params⟩
    let e' := { e with
      localNode := some node
      topics := e.startPending node
      pendingTopics := .empty
      earlyPeers := .empty }
    e.earlyPeers.items.foldlM (fun e peer => e.requestJoinForStarvingTopics peer) e'
  else some e

/-- The events of the topics: the first one there is. -/
def pollTopics (ρ : String → ℕ → ℕ) (now : ℤ) (due : String → Bool × Bool × Bool)
    (landing : String → Landing) :
    List String → Episub P → Option (Option (NetworkAction P Multiaddr) × Episub P)
  | [], e => some (none, e)
  | topic :: order, e =>
    match e.mesh topic with
    | none => pollTopics ρ now due landing order e
    | some mesh =>
      match mesh.poll (ρ topic) now (due topic) (landing topic) with
      | none => none
      | some (some event, mesh) => some (some event, e.setMesh topic mesh)
      | some (none, mesh) => pollTopics ρ now due landing order (e.setMesh topic mesh)

/-- `Episub::poll`. -/
def poll (ρ : String → ℕ → ℕ) (now : ℤ) (params : PollParameters P) (order : List String)
    (due : String → Bool × Bool × Bool) (landing : String → Landing) :
    Option (Option (NetworkAction P Multiaddr) × Episub P) :=
  match e.updateLocalNodeInfo params with
  | none => none
  | some e =>
    match e.outEvents with
    | event :: rest => some (some event, { e with outEvents := rest })
    | [] => pollTopics ρ now due landing order e

/-- What happens to the behaviour. -/
inductive Input (P : Type)
  | connectionEstablished (peer : P) (connection : ℕ) (endpoint : ConnectedPoint)
  | newListenAddr (addr : Multiaddr)
  | expiredListenAddr (addr : Multiaddr)
  | dialFailure (peer : Option P) (conditionFalse : Bool)
  | connectionClosed (peer : P)
  | event (peer : P) (connection : ℕ) (event : Rpc P Multiaddr)
  | subscribe (topic : String)
  | publish (id : UInt64) (topic : String) (message : Bytes)
  | poll (params : PollParameters P) (order : List String) (due : String → Bool × Bool × Bool)
    (landing : String → Landing)

/-- What is chosen at random while an input is handled, for each topic, and
the time. -/
structure Chance where
  random : String → ℕ → ℕ
  now : ℤ

/-- One input. -/
def step (checks : Bool) (encodeAll decodeAll : Bytes → Option Bytes) (e : Episub P)
    (i : Input P × Chance) : Option (Episub P) :=
  match i.1 with
  | .connectionEstablished peer connection endpoint =>
    e.injectConnectionEstablished peer connection endpoint
  | .newListenAddr addr => some (e.injectNewListenAddr addr)
  | .expiredListenAddr addr => some (e.injectExpiredListenAddr addr)
  | .dialFailure peer conditionFalse => some (e.injectDialFailure i.2.random peer conditionFalse)
  | .connectionClosed peer => some (e.injectConnectionClosed i.2.random peer)
  | .event peer connection event =>
    e.injectEvent checks decodeAll i.2.random i.2.now peer connection event
  | .subscribe topic => some (e.subscribe topic).2
  | .publish id topic message =>
    match e.publish encodeAll i.2.now id topic message with
    | .ok (_, e) => some e
    | .error _ => some e
  | .poll params order due landing =>
    (e.poll i.2.random i.2.now params order due landing).map Prod.snd

/-- One input of a behaviour that may have panicked. -/
def advance (checks : Bool) (encodeAll decodeAll : Bytes → Option Bytes) (e : Option (Episub P))
    (i : Input P × Chance) : Option (Episub P) :=
  e.bind fun e => e.step checks encodeAll decodeAll i

/-- Inputs one after another. -/
def run (checks : Bool) (encodeAll decodeAll : Bytes → Option Bytes) (e : Episub P)
    (inputs : List (Input P × Chance)) : Option (Episub P) :=
  inputs.foldl (advance checks encodeAll decodeAll) (some e)

end Episub

end Network

end Rensa
