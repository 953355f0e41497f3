import Rensa.Network.Model.Topic
/-!
# The overlay of a topic

The nodes of one topic, each with its views, and the messages between
them. A node hands its actions to the network one by one, as it is polled;
dialing always succeeds, and a message that was sent can be delivered at
any time, before or after others.
-/

namespace Rensa

namespace Network

/-- What the views of a node do with a message of a peer: the part of
`TopicMesh::inject_rpc_call` that concerns them. -/
def HyParView.receive {P A : Type} [DecidableEq P] (h : HyParView P A) (ρ : ℕ → ℕ) (sender : P) :
    Option (Action P A) → HyParView P A
  | some (.join ttl (some p)) => h.injectJoin ρ sender p ttl
  | some (.forwardJoin ttl (some p)) => h.injectForwardJoin ρ p ttl h.localNode.peerId sender
  | some (.neighbor (some p) priority) =>
    if p.peerId = sender then h.injectNeighbor ρ p priority else h
  | some (.disconnect alive) => h.injectDisconnect (ρ 0) sender alive
  | some (.shuffle ttl (some origin) nodes) =>
    h.injectShuffle ρ sender ttl (nodes.filterMap id) origin
  | some (.shuffleReply nodes) => h.injectShuffleReply nodes
  | _ => h

/-- A message on its way. -/
structure Letter (P A : Type) where
  sender : P
  recipient : P
  action : Option (Action P A)

/-- The nodes of a topic and the messages in flight. -/
structure Overlay (P A : Type) where
  nodes : P → HyParView P A
  flight : List (Letter P A) := []

namespace Overlay

variable {P A : Type} [DecidableEq P]

/-- Nodes that know no one. -/
def boot (topic : String) (config : P → Config P) (addresses : P → List A) : Overlay P A :=
  { nodes := fun p => .new topic (config p) ⟨p, addresses p⟩ }

/-- What happens in the overlay. -/
inductive Event (P A : Type)
  /-- A node asks another one to let it join. -/
  | initiateJoin (node : P) (peer : AddressablePeer P A)
  /-- A node is polled for its next action. -/
  | poll (node : P) (shuffleDue tickDue : Bool)
  /-- A message arrives. -/
  | deliver (i : ℕ)

variable (o : Overlay P A)

/-- A node in a new state. -/
def set (node : P) (h : HyParView P A) : Overlay P A :=
  { o with nodes := Function.update o.nodes node h }

/-- What the network does with an action. -/
def carry (sender : P) : Option (NetworkAction P A) → Overlay P A
  | some (.notifyHandler peer event) =>
    { o with flight := o.flight ++ [⟨sender, peer, event.action⟩] }
  | _ => o

/-- One event, with the random choices made while it is handled. -/
def step (e : Event P A × (ℕ → ℕ)) : Overlay P A :=
  match e.1 with
  | .initiateJoin node peer => o.set node ((o.nodes node).initiateJoin peer)
  | .poll node shuffleDue tickDue =>
    let (action, h) := (o.nodes node).poll e.2 shuffleDue tickDue
    (o.set node h).carry node action
  | .deliver i =>
    match o.flight[i]? with
    | some l =>
      { o with flight := o.flight.eraseIdx i }.set l.recipient
        ((o.nodes l.recipient).receive e.2 l.sender l.action)
    | none => o

/-- Events one after another. -/
def run (events : List (Event P A × (ℕ → ℕ))) : Overlay P A := events.foldl step o

/-- No message in flight, and no queued action. -/
def Quiescent : Prop := o.flight = [] ∧ ∀ p, (o.nodes p).outEvents = []

end Overlay

end Network

end Rensa
