import Rensa.Network.Model.View
import Rensa.Network.Model.Tree
/-!
# The mesh of a topic

`TopicMesh` routes the messages of a topic to its membership protocol and
to its broadcast tree, and tells the tree about the changes of the active
view when it polls them.
-/

namespace Rensa

namespace Network

/-- `RpcError`. -/
inductive RpcError (P : Type)
  | invalidPeerId
  | impersonatedPeer (sender peer : P)

/-- `TopicMesh`. -/
structure TopicMesh (P A : Type) where
  tree : PlumTree P A
  nodes : HyParView P A
  localNode : AddressablePeer P A
  outEvents : List (NetworkAction P A) := []

namespace TopicMesh

variable {P A : Type}

/-- `TopicMesh::new`. -/
def new (topic : String) (config : Config P) (localNode : AddressablePeer P A) :
    TopicMesh P A :=
  { tree := .new topic config localNode.peerId
    nodes := .new topic config localNode
    localNode }

variable [DecidableEq P] (checks : Bool) (decodeAll : Bytes → Option Bytes) (m : TopicMesh P A)

/-- `TopicMesh::inject_rpc_call`: `none` is a panic, an error leaves the
mesh as it is. -/
def injectRpcCall (ρ : ℕ → ℕ) (now : ℤ) (peer : P) (event : Rpc P A) :
    Option (Except (RpcError P) (TopicMesh P A)) :=
  match event.action with
  | none => none
  | some (.join _ none) => some (.error .invalidPeerId)
  | some (.join ttl (some p)) =>
    some (.ok { m with nodes := m.nodes.injectJoin ρ peer p ttl })
  | some (.forwardJoin _ none) => some (.error .invalidPeerId)
  | some (.forwardJoin ttl (some p)) =>
    some (.ok { m with nodes := m.nodes.injectForwardJoin ρ p ttl m.localNode.peerId peer })
  | some (.neighbor none _) => some (.error .invalidPeerId)
  | some (.neighbor (some p) priority) =>
    if p.peerId = peer then some (.ok { m with nodes := m.nodes.injectNeighbor ρ p priority })
    else some (.error (.impersonatedPeer peer p.peerId))
  | some (.disconnect alive) =>
    some (.ok { m with nodes := m.nodes.injectDisconnect (ρ 0) peer alive })
  | some (.shuffle _ none _) => some (.error .invalidPeerId)
  | some (.shuffle ttl (some origin) nodes) =>
    some (.ok { m with nodes := m.nodes.injectShuffle ρ peer ttl (nodes.filterMap id) origin })
  | some (.shuffleReply nodes) => some (.ok { m with nodes := m.nodes.injectShuffleReply nodes })
  | some (.message id hop payload) =>
    (m.tree.injectMessage checks decodeAll now peer id hop payload).map fun tree =>
      .ok { m with tree }
  | some (.ihave ihaves) =>
    some (.ok { m with
      tree := ihaves.foldl (fun tree ih => tree.injectIhave now peer ih.2 ih.1) m.tree })
  | some .prune => some (.ok { m with tree := m.tree.injectPrune peer })
  | some (.graft ids) => some (.ok { m with tree := m.tree.injectGraft peer ids })

/-- What the tree is told of an event of the membership protocol. -/
def follow (tree : PlumTree P A) : NetworkAction P A → PlumTree P A
  | .generateEvent (.peerAdded peer) => tree.injectNeighborUp peer
  | .generateEvent (.peerRemoved peer) => tree.injectNeighborDown peer
  | _ => tree

/-- `TopicMesh::poll`. `due` says what the clocks of the two protocols
ask for: a shuffle, a tick of the views, a tick of the tree. -/
def poll (ρ : ℕ → ℕ) (now : ℤ) (due : Bool × Bool × Bool) (landing : Landing) :
    Option (Option (NetworkAction P A) × TopicMesh P A) :=
  match m.outEvents with
  | event :: rest => some (some event, { m with outEvents := rest })
  | [] =>
    match m.nodes.poll ρ due.1 due.2.1 with
    | (some event, nodes) =>
      some (some event, { m with nodes, tree := follow m.tree event })
    | (none, nodes) =>
      match m.tree.poll landing now due.2.2 with
      | none => none
      | some (event, tree) => some (event, { m with nodes, tree })

/-- `TopicMesh::disconnected`. -/
def disconnected (ρ : ℕ → ℕ) (peer : P) (alive : Bool) : TopicMesh P A :=
  { m with nodes := m.nodes.injectDisconnect (ρ 0) peer alive }

/-- `TopicMesh::initiate_join`. -/
def initiateJoin (peer : AddressablePeer P A) : TopicMesh P A :=
  { m with nodes := m.nodes.initiateJoin peer }

/-- `TopicMesh::publish`. -/
def publish (now : ℤ) (id : UInt64) (payload : Bytes) : TopicMesh P A :=
  { m with tree := m.tree.publish now id payload }

/-- What is done to the mesh of a topic. -/
inductive Input (P A : Type)
  | rpc (peer : P) (event : Rpc P A)
  | disconnected (peer : P) (alive : Bool)
  | initiateJoin (peer : AddressablePeer P A)
  | publish (id : UInt64) (payload : Bytes)
  | poll (due : Bool × Bool × Bool) (landing : Landing)

/-- One input, with the random choices made while it is handled and the
time. A rejected message leaves the mesh as it is. -/
def step (m : TopicMesh P A) : Input P A × (ℕ → ℕ) × ℤ → Option (TopicMesh P A)
  | (.rpc peer event, ρ, now) =>
    match m.injectRpcCall checks decodeAll ρ now peer event with
    | some (.ok m) => some m
    | some (.error _) => some m
    | none => none
  | (.disconnected peer alive, ρ, _) => some (m.disconnected ρ peer alive)
  | (.initiateJoin peer, _, _) => some (m.initiateJoin peer)
  | (.publish id payload, _, now) => some (m.publish now id payload)
  | (.poll due landing, ρ, now) => (m.poll ρ now due landing).map Prod.snd

/-- One input of a mesh that may have panicked. -/
def advance (m : Option (TopicMesh P A)) (i : Input P A × (ℕ → ℕ) × ℤ) : Option (TopicMesh P A) :=
  m.bind fun m => m.step checks decodeAll i

/-- Inputs one after another. -/
def run (inputs : List (Input P A × (ℕ → ℕ) × ℤ)) : Option (TopicMesh P A) :=
  inputs.foldl (advance checks decodeAll) (some m)

end TopicMesh

end Network

end Rensa
