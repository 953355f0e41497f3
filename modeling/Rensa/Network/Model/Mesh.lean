import Mathlib.Combinatorics.SimpleGraph.Basic
import Rensa.Network.Model.Overlay
/-!
# The broadcast trees of a topic

The nodes of one topic, each with its broadcast tree, and the messages
between them. As in the overlay, a node hands out its actions one by one,
and a message that was sent can be delivered at any time, before or after
others. The links do not change but by what the trees themselves do.
-/

namespace Rensa

namespace Network

/-- What the tree of a node does with a message of a peer: the part of
`TopicMesh::inject_rpc_call` that concerns it. -/
def PlumTree.receive {P A : Type} [DecidableEq P] (checks : Bool)
    (decodeAll : Bytes → Option Bytes) (t : PlumTree P A) (now : ℤ) (sender : P) :
    Option (Action P A) → Option (PlumTree P A)
  | none => none
  | some (.message id hop payload) => t.injectMessage checks decodeAll now sender id hop payload
  | some (.ihave ihaves) =>
    some (ihaves.foldl (fun tree ih => tree.injectIhave now sender ih.2 ih.1) t)
  | some .prune => some (t.injectPrune sender)
  | some (.graft ids) => some (t.injectGraft sender ids)
  | some _ => some t

/-- What the mesh of a topic does to its tree. -/
theorem TopicMesh.injectRpcCall_tree {P A : Type} [DecidableEq P] {checks : Bool}
    {decodeAll : Bytes → Option Bytes} {m m' : TopicMesh P A} {ρ : ℕ → ℕ} {now : ℤ} {peer : P}
    {event : Rpc P A} (h : m.injectRpcCall checks decodeAll ρ now peer event = some (.ok m')) :
    m.tree.receive checks decodeAll now peer event.action = some m'.tree := by
  obtain ⟨topic, action⟩ := event
  cases action with
  | none => cases h
  | some action =>
    cases action with
    | join _ peer | forwardJoin _ peer | shuffle _ peer =>
      cases peer with
      | none => cases h
      | some =>
        cases h
        rfl
    | neighbor peer priority =>
      cases peer with
      | none => cases h
      | some q =>
        simp only [injectRpcCall] at h
        split at h
        · cases h
          rfl
        · cases h
    | shuffleReply | disconnect | ihave | prune | graft =>
      cases h
      rfl
    | message id hop payload =>
      obtain ⟨t, ht, heq⟩ := Option.map_eq_some_iff.1 h
      cases heq
      exact ht

/-- The trees of a topic, the messages in flight, and what the nodes told
their applications. -/
structure Mesh (P A : Type) where
  trees : P → PlumTree P A
  flight : List (Letter P A) := []
  events : List (P × EpisubEvent P) := []

namespace Mesh

variable {P A : Type}

/-- What happens to the trees. -/
inductive Event (P : Type)
  /-- A node publishes a message. -/
  | publish (node : P) (id : UInt64) (payload : Bytes)
  /-- A node is polled for its next action. -/
  | poll (node : P) (tickDue : Bool) (landing : Landing)
  /-- A message arrives. -/
  | deliver (i : ℕ)

variable (m : Mesh P A)

/-- What becomes of an action. -/
def carry (sender : P) : Option (NetworkAction P A) → Mesh P A
  | some (.notifyHandler peer event) =>
    { m with flight := m.flight ++ [⟨sender, peer, event.action⟩] }
  | some (.generateEvent event) => { m with events := m.events ++ [(sender, event)] }
  | _ => m

variable [DecidableEq P]

/-- A node in a new state. -/
def set (node : P) (t : PlumTree P A) : Mesh P A :=
  { m with trees := Function.update m.trees node t }

/-- One event, at some time: `none` is a panic. The build has no overflow
checks. -/
def step (decodeAll : Bytes → Option Bytes) (now : ℤ) : Event P → Option (Mesh P A)
  | .publish node id payload => some (m.set node ((m.trees node).publish now id payload))
  | .poll node tickDue landing => ((m.trees node).poll landing now tickDue).map fun polled =>
      (m.set node polled.2).carry node polled.1
  | .deliver i =>
    match m.flight[i]? with
    | none => some m
    | some l => ((m.trees l.recipient).receive false decodeAll now l.sender l.action).map fun t =>
        { m with flight := m.flight.eraseIdx i }.set l.recipient t

omit m in
/-- One event of a mesh that may have panicked. -/
def advance (decodeAll : Bytes → Option Bytes) (m : Option (Mesh P A)) (e : Event P × ℤ) :
    Option (Mesh P A) :=
  m.bind fun m => m.step decodeAll e.2 e.1

/-- Events one after another. -/
def run (decodeAll : Bytes → Option Bytes) (events : List (Event P × ℤ)) : Option (Mesh P A) :=
  events.foldl (advance decodeAll) (some m)

omit [DecidableEq P] in
/-- No message in flight, and no queued action. -/
def Quiescent : Prop := m.flight = [] ∧ ∀ p, (m.trees p).outEvents = []

/-- What a node told its application. -/
def heard (p : P) : List (EpisubEvent P) :=
  (m.events.filter (·.1 = p)).map Prod.snd

omit [DecidableEq P] in
/-- The eager links. -/
def links : SimpleGraph P := .fromRel fun p q => q ∈ (m.trees p).eager

end Mesh

end Network

end Rensa
