import Rensa.Network.Model.Rpc
/-!
# HyParView

The membership protocol of one topic: a small active view and a larger
passive one. Every handler takes the random choices it makes as numbers,
`ρ 0`, `ρ 1` and so on. The clock is an input of `poll`, which is told
whether a shuffle and a tick are due.
-/

namespace Rensa

namespace Network

/-- `HyParView`. -/
structure HyParView (P A : Type) where
  config : Config P
  topic : String
  localNode : AddressablePeer P A
  active : PeerSet P A := .empty
  passive : PeerSet P A := .empty
  outEvents : List (NetworkAction P A) := []

namespace HyParView

variable {P A : Type}

/-- `HyParView::new`. -/
def new (topic : String) (config : Config P) (localNode : AddressablePeer P A) : HyParView P A :=
  { config, topic, localNode }

variable (h : HyParView P A)

/-- `out_events.push_back`. -/
def emit (action : NetworkAction P A) : HyParView P A :=
  { h with outEvents := h.outEvents ++ [action] }

/-- The action that sends a message of this topic to a peer. -/
def toPeer (peer : P) (action : Action P A) : NetworkAction P A :=
  .notifyHandler peer { topic := h.topic, action := some action }

/-- Sends one message to some peers. -/
def notifyAll (peers : List P) (action : Action P A) : HyParView P A :=
  { h with outEvents := h.outEvents ++ peers.map fun p => h.toPeer p action }

/-- `HyParView::overconnected`. -/
def overconnected : Bool := h.config.maxActiveViewSize ≤ h.active.length

/-- `HyParView::starved`. -/
def starved : Bool := h.active.length < h.config.minActiveViewSize

variable [DecidableEq P]

/-- `HyParView::is_active`. -/
def isActive (peer : P) : Bool := peer ∈ h.active

/-- `HyParView::add_node_to_active_view`. The priority is computed after
the node was added. -/
def addNodeToActiveView (node : AddressablePeer P A) (initiator : Bool) : HyParView P A :=
  if node.peerId = h.localNode.peerId then h
  else if h.isActive node.peerId then h
  else
    let h := { h with active := h.active.insert node }
    let priority := if h.active.length = 0 then Priority.high else Priority.low
    let h := if initiator then
        (h.emit (.dial node.peerId node.addresses false)).emit
          (h.toPeer node.peerId (.neighbor (some h.localNode) priority))
      else h
    h.emit (.generateEvent (.peerAdded node.peerId))

/-- `HyParView::add_node_to_passive_view`. -/
def addNodeToPassiveView (r : ℕ) (node : AddressablePeer P A) : HyParView P A :=
  if node.peerId = h.localNode.peerId then h
  else
    let h := { h with passive := h.passive.insert node }
    if h.config.maxPassiveViewSize < h.passive.length then
      match pick r h.passive.items with
      | some random => { h with passive := h.passive.remove random.peerId }
      | none => h
    else h

/-- `HyParView::free_up_active_slot`: the peer is chosen from the passive
view. -/
def freeUpActiveSlot (ρ : ℕ → ℕ) : HyParView P A :=
  if h.overconnected then
    match pick (ρ 0) h.passive.items with
    | some random =>
      let h := { h with active := h.active.remove random.peerId }
      let h := h.emit (h.toPeer random.peerId (.disconnect true))
      let h := h.emit (.generateEvent (.peerRemoved random.peerId))
      h.addNodeToPassiveView (ρ 1) random
    | none => h
  else h

/-- `HyParView::initiate_join`. -/
def initiateJoin (peer : AddressablePeer P A) : HyParView P A :=
  h.emit (h.toPeer peer.peerId (.join h.config.activeWalkLength (some h.localNode)))

/-- The ids of the active peers other than two. -/
def activeExcept (p q : P) : List P :=
  (h.active.items.map AddressablePeer.peerId).filter fun n => n ≠ p ∧ n ≠ q

/-- `HyParView::inject_join`. -/
def injectJoin (ρ : ℕ → ℕ) (sender : P) (peer : AddressablePeer P A) (ttl : ℕ) : HyParView P A :=
  if h.isActive peer.peerId then h
  else
    let h := if h.overconnected then h.addNodeToPassiveView (ρ 0) peer
      else h.addNodeToActiveView peer true
    h.notifyAll (h.activeExcept peer.peerId sender) (.forwardJoin ttl (some peer))

/-- `HyParView::inject_forward_join`. -/
def injectForwardJoin (ρ : ℕ → ℕ) (peer : AddressablePeer P A) (ttl : ℕ) (localNode sender : P) :
    HyParView P A :=
  if peer.peerId = localNode then h
  else
    let h := if ttl = 0 ∧ ¬ h.isActive peer.peerId then h.freeUpActiveSlot ρ else h
    let h := if h.overconnected then h.addNodeToPassiveView (ρ 2) peer
      else h.addNodeToActiveView peer true
    if ttl = 0 then h
    else h.notifyAll (h.activeExcept sender peer.peerId) (.forwardJoin (ttl - 1) (some peer))

/-- `HyParView::inject_disconnect`. -/
def injectDisconnect (r : ℕ) (peer : P) (alive : Bool) : HyParView P A :=
  let h := if alive then
      (h.active.items.filter fun p => p.peerId = peer).foldl
        (fun h p => h.addNodeToPassiveView r p) h
    else { h with passive := h.passive.retain fun p => p.peerId ≠ peer }
  if h.isActive peer then
    let h := h.emit (.generateEvent (.peerRemoved peer))
    { h with active := h.active.retain fun p => p.peerId ≠ peer }
  else h

/-- `HyParView::inject_neighbor`: a request of low priority to a full view
is handled as a disconnect of the peer, and not answered. -/
def injectNeighbor (ρ : ℕ → ℕ) (peer : AddressablePeer P A) (priority : ℤ) : HyParView P A :=
  if h.isActive peer.peerId then h
  else if !h.overconnected then h.addNodeToActiveView peer false
  else if priority = Priority.high then (h.freeUpActiveSlot ρ).addNodeToActiveView peer false
  else h.injectDisconnect (ρ 0) peer.peerId true

/-- `HyParView::send_shuffle`. -/
def sendShuffle (r : ℕ) (peer : P) : HyParView P A :=
  h.emit (h.toPeer peer (.shuffle h.config.activeWalkLength (some h.localNode)
    ((pickMany r h.config.shuffleMaxSize (h.active.items ++ h.passive.items)).map some)))

/-- `HyParView::send_shuffle_reply`. -/
def sendShuffleReply (origin : AddressablePeer P A) (nodes : List (AddressablePeer P A)) :
    HyParView P A :=
  let h := if h.isActive origin.peerId then h
    else h.emit (.dial origin.peerId origin.addresses true)
  h.emit (h.toPeer origin.peerId (.shuffleReply (nodes.map some)))

/-- Adds peers to the passive view, one after another. -/
def addAllToPassiveView : (ℕ → ℕ) → List (AddressablePeer P A) → HyParView P A → HyParView P A
  | _, [], h => h
  | ρ, p :: ps, h => addAllToPassiveView (fun i => ρ (i + 1)) ps (h.addNodeToPassiveView (ρ 0) p)

/-- `HyParView::inject_shuffle`. -/
def injectShuffle (ρ : ℕ → ℕ) (sender : P) (ttl : ℕ) (nodes : List (AddressablePeer P A))
    (origin : AddressablePeer P A) : HyParView P A :=
  let deduped : PeerSet P A := .ofList nodes
  let h := h.sendShuffleReply origin (pickMany (ρ 0) h.config.shuffleMaxSize
    ((h.active.union h.passive).retain fun n => n.peerId ∉ deduped).items)
  let fresh := deduped.retain fun n =>
    n.peerId ∉ h.active ∧ n.peerId ∉ h.passive ∧ n.peerId ≠ h.localNode.peerId
  let h := addAllToPassiveView (fun i => ρ (i + 2)) fresh.items h
  if ttl = 0 then h
  else match pick (ρ 1) (h.activeExcept sender origin.peerId) with
    | some random =>
      h.emit (h.toPeer random (.shuffle (ttl - 1) (some origin) (nodes.map some)))
    | none => h.addNodeToActiveView origin true

/-- `HyParView::inject_shuffle_reply`: dropping the iterator of `drain`
removes everything. -/
def injectShuffleReply (nodes : List (WirePeer P A)) : HyParView P A :=
  let passive := h.passive.union (.ofList (nodes.filterMap id))
  { h with passive := if h.config.maxPassiveViewSize < passive.length then .empty else passive }

/-- `HyParView::maybe_move_random_passive_to_active`. -/
def maybeMoveRandomPassiveToActive (r : ℕ) : HyParView P A :=
  if h.starved then
    match pick r h.passive.items with
    | some random =>
      { h with passive := h.passive.remove random.peerId }.addNodeToActiveView random true
    | none => h
  else h

/-- The periodic part of `poll`. -/
def maintain (ρ : ℕ → ℕ) (shuffleDue tickDue : Bool) : HyParView P A :=
  let h := if shuffleDue then
      match pick (ρ 0) h.active.items with
      | some random => h.sendShuffle (ρ 1) random.peerId
      | none => h
    else h
  if tickDue then h.maybeMoveRandomPassiveToActive (ρ 2) else h

/-- `HyParView::poll`: the next action, if there is one. -/
def poll (ρ : ℕ → ℕ) (shuffleDue tickDue : Bool) :
    Option (NetworkAction P A) × HyParView P A :=
  let h := h.maintain ρ shuffleDue tickDue
  match h.outEvents with
  | [] => (none, h)
  | event :: rest => (some event, { h with outEvents := rest })

/-- What is done to the views of a node. -/
inductive Input (P A : Type)
  | initiateJoin (peer : AddressablePeer P A)
  | join (sender : P) (peer : AddressablePeer P A) (ttl : ℕ)
  | forwardJoin (peer : AddressablePeer P A) (ttl : ℕ) (sender : P)
  | neighbor (peer : AddressablePeer P A) (priority : ℤ)
  | disconnect (peer : P) (alive : Bool)
  | shuffle (sender : P) (ttl : ℕ) (nodes : List (AddressablePeer P A))
      (origin : AddressablePeer P A)
  | shuffleReply (nodes : List (WirePeer P A))
  | poll (shuffleDue tickDue : Bool)

/-- One input, with the random choices made while it is handled. -/
def step (h : HyParView P A) (ρ : ℕ → ℕ) : Input P A → HyParView P A
  | .initiateJoin peer => h.initiateJoin peer
  | .join sender peer ttl => h.injectJoin ρ sender peer ttl
  | .forwardJoin peer ttl sender => h.injectForwardJoin ρ peer ttl h.localNode.peerId sender
  | .neighbor peer priority => h.injectNeighbor ρ peer priority
  | .disconnect peer alive => h.injectDisconnect (ρ 0) peer alive
  | .shuffle sender ttl nodes origin => h.injectShuffle ρ sender ttl nodes origin
  | .shuffleReply nodes => h.injectShuffleReply nodes
  | .poll shuffleDue tickDue => (h.poll ρ shuffleDue tickDue).2

/-- Inputs one after another. -/
def run (h : HyParView P A) (inputs : List (Input P A × (ℕ → ℕ))) : HyParView P A :=
  inputs.foldl (fun h i => h.step i.2 i.1) h

end HyParView

end Network

end Rensa
