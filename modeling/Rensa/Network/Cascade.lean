import Mathlib.Algebra.BigOperators.Group.Finset.Basic
import Rensa.Common.Cascade
import Rensa.Network.Model.Overlay
import Rensa.Network.Views
/-!
# Membership messages die out

A message of the membership protocol may fan out to a whole active view,
but what a handler sends is always of a lower rank: a join turns into
forward joins with the same ttl, these into forward joins with a smaller
one, shuffles likewise, and requests and farewells end it. So, without
ticks and without new joins, any messages in flight among any nodes are
delivered in finitely many steps (`deliveries_end`).
-/

namespace Rensa

namespace Network

variable {P A : Type}

/-! ## Ranks -/

/-- How much a message can still set off. -/
def Action.rank : Action P A → ℕ
  | .join ttl _ => ttl + 3
  | .forwardJoin ttl _ => ttl + 2
  | .shuffle ttl _ _ => ttl + 2
  | .neighbor _ _ => 1
  | _ => 0

/-- The rank of a message that may have no action. -/
def messageRank (a : Option (Action P A)) : ℕ := (a.map Action.rank).getD 0

/-- The rank of the message that an action of a node sends. -/
def NetworkAction.rank : NetworkAction P A → Option ℕ
  | .notifyHandler _ event => some (messageRank event.action)
  | _ => none

namespace HyParView

/-- Only messages below a rank were queued. -/
def Queues (r : ℕ) (h h' : HyParView P A) : Prop :=
  ∃ es, h'.outEvents = h.outEvents ++ es ∧ ∀ e ∈ es, ∀ k ∈ e.rank, k < r

variable {h h' h'' : HyParView P A} {r r' : ℕ}

theorem Queues.of_eq (heq : h'.outEvents = h.outEvents) : Queues r h h' :=
  ⟨[], by rw [heq, List.append_nil], by simp⟩

theorem Queues.refl (h : HyParView P A) : Queues r h h := .of_eq rfl

theorem Queues.trans (hq : Queues r h h') (hq' : Queues r h' h'') : Queues r h h'' := by
  obtain ⟨es, hes, hlt⟩ := hq
  obtain ⟨es', hes', hlt'⟩ := hq'
  refine ⟨es ++ es', by rw [hes', hes, List.append_assoc], fun e he => ?_⟩
  rcases List.mem_append.1 he with he | he
  · exact hlt e he
  · exact hlt' e he

/-- Another view or configuration does not matter. -/
theorem Queues.after (hq : Queues r h' h'') (heq : h'.outEvents = h.outEvents) : Queues r h h'' :=
  (Queues.of_eq heq).trans hq

theorem queues_emit {e : NetworkAction P A} (he : ∀ k ∈ e.rank, k < r) :
    Queues r h (h.emit e) :=
  ⟨[e], rfl, fun e' he' => by rwa [List.mem_singleton.1 he']⟩

theorem queues_send {p : P} {a : Action P A} (ha : a.rank < r) :
    Queues r h (h.emit (h.toPeer p a)) :=
  queues_emit fun _ hk => by rwa [← Option.some.inj hk]

theorem queues_notifyAll {ps : List P} {a : Action P A} (ha : a.rank < r) :
    Queues r h (h.notifyAll ps a) := by
  induction ps generalizing h with
  | nil =>
    rw [notifyAll_nil]
    exact .refl h
  | cons q ps ih =>
    rw [notifyAll_cons]
    exact (queues_send ha).trans ih

variable [DecidableEq P]

/-! ## The parts of the handlers -/

theorem queues_addNodeToPassiveView (s : ℕ) (node : AddressablePeer P A) :
    Queues r h (h.addNodeToPassiveView s node) := by
  obtain ⟨_, heq, -⟩ := addNodeToPassiveView_eq (h := h) s node
  rw [heq]
  exact .of_eq rfl

/-- Who adds a peer announces it, and sends it a request. Who accepts one
sends nothing. -/
theorem queues_addNodeToActiveView {initiator : Bool} (hr : initiator → 1 < r)
    (node : AddressablePeer P A) : Queues r h (h.addNodeToActiveView node initiator) := by
  -- the node itself and an active peer are not added
  by_cases hl : node.peerId = h.localNode.peerId
  · rw [addNodeToActiveView_local hl]
    exact .refl h
  by_cases ha : node.peerId ∈ h.active
  · rw [addNodeToActiveView_mem ha]
    exact .refl h
  rw [addNodeToActiveView_new hl ha]
  cases initiator with
  | false => exact ⟨_, rfl, by simp [NetworkAction.rank]⟩
  | true => exact ⟨_, rfl, by simpa [NetworkAction.rank, toPeer, messageRank, Action.rank] using hr⟩

theorem queues_accept (node : AddressablePeer P A) :
    Queues r h (h.addNodeToActiveView node false) := queues_addNodeToActiveView (by simp) node

theorem queues_place (hr : 1 < r) (s : ℕ) (node : AddressablePeer P A) :
    Queues r h (if h.overconnected then h.addNodeToPassiveView s node
      else h.addNodeToActiveView node true) := by
  split
  · exact queues_addNodeToPassiveView s node
  · exact queues_addNodeToActiveView (fun _ => hr) node

/-- Freeing a slot sends a farewell. -/
theorem queues_freeUpActiveSlot (hr : 0 < r) (ρ : ℕ → ℕ) : Queues r h (h.freeUpActiveSlot ρ) := by
  unfold freeUpActiveSlot
  split
  · split
    next random _ =>
      have htell : Queues r { h with active := h.active.remove random.peerId }
          ({ h with active := h.active.remove random.peerId }.emit
            (h.toPeer random.peerId (.disconnect true))) := queues_send hr
      have hannounce := htell.trans (queues_emit (e := .generateEvent (.peerRemoved random.peerId))
        (by simp [NetworkAction.rank]))
      exact (hannounce.trans (queues_addNodeToPassiveView (ρ 1) random)).after rfl
    · exact .refl h
  · exact .refl h

theorem queues_injectDisconnect (s : ℕ) (peer : P) (alive : Bool) :
    Queues r h (h.injectDisconnect s peer alive) := by
  obtain ⟨_, -, -, heq⟩ := injectDisconnect_eq (h := h) s peer alive
  rw [heq]
  split
  · exact (queues_emit (by simp [NetworkAction.rank])).after rfl
  · exact .of_eq rfl

/-! ## The handlers -/

theorem queues_injectJoin (ρ : ℕ → ℕ) (sender : P) (peer : AddressablePeer P A) (ttl : ℕ) :
    Queues (ttl + 3) h (h.injectJoin ρ sender peer ttl) := by
  unfold injectJoin
  split
  · exact .refl h
  · exact (queues_place (by omega) (ρ 0) peer).trans (queues_notifyAll (Nat.lt_succ_self _))

theorem queues_injectForwardJoin (ρ : ℕ → ℕ) (peer : AddressablePeer P A) (ttl : ℕ)
    (localNode sender : P) :
    Queues (ttl + 2) h (h.injectForwardJoin ρ peer ttl localNode sender) := by
  unfold injectForwardJoin
  split
  · exact .refl h
  · have hfree : Queues (ttl + 2) h (if ttl = 0 ∧ ¬ h.isActive peer.peerId then
        h.freeUpActiveSlot ρ else h) := by
      split
      · exact queues_freeUpActiveSlot (by omega) ρ
      · exact .refl h
    have hplace := hfree.trans (queues_place (by omega) (ρ 2) peer)
    dsimp only
    split
    · exact hplace
    next httl =>
      -- the forward join goes on with a smaller ttl
      refine hplace.trans (queues_notifyAll ?_)
      show ttl - 1 + 2 < ttl + 2
      omega

theorem queues_injectNeighbor (ρ : ℕ → ℕ) (peer : AddressablePeer P A) (priority : ℤ) :
    Queues 1 h (h.injectNeighbor ρ peer priority) := by
  unfold injectNeighbor
  split
  · exact .refl h
  split
  · exact queues_accept peer
  split
  · exact (queues_freeUpActiveSlot Nat.one_pos ρ).trans (queues_accept peer)
  · exact queues_injectDisconnect (ρ 0) peer.peerId true

theorem queues_sendShuffleReply (hr : 0 < r) (origin : AddressablePeer P A)
    (nodes : List (AddressablePeer P A)) : Queues r h (h.sendShuffleReply origin nodes) := by
  unfold sendShuffleReply
  dsimp only
  split
  · exact queues_send hr
  · exact (queues_emit (by simp [NetworkAction.rank])).trans (queues_send hr)

theorem queues_addAllToPassiveView (ρ : ℕ → ℕ) (l : List (AddressablePeer P A)) :
    Queues r h (addAllToPassiveView ρ l h) := by
  obtain ⟨_, heq, -⟩ := addAllToPassiveView_eq (h := h) ρ l
  rw [heq]
  exact .of_eq rfl

theorem queues_injectShuffle (ρ : ℕ → ℕ) (sender : P) (ttl : ℕ)
    (nodes : List (AddressablePeer P A)) (origin : AddressablePeer P A) :
    Queues (ttl + 2) h (h.injectShuffle ρ sender ttl nodes origin) := by
  have hfresh : ∀ (ρ : ℕ → ℕ) (sample fresh : List (AddressablePeer P A)), Queues (ttl + 2) h
      (addAllToPassiveView ρ fresh (h.sendShuffleReply origin sample)) := fun ρ sample fresh =>
    (queues_sendShuffleReply (by omega) origin sample).trans (queues_addAllToPassiveView ρ fresh)
  unfold injectShuffle
  dsimp only
  split
  · exact hfresh _ _ _
  next httl =>
    split
    · refine (hfresh _ _ _).trans (queues_send ?_)
      show ttl - 1 + 2 < ttl + 2
      omega
    · exact (hfresh _ _ _).trans (queues_addNodeToActiveView (fun _ => by omega) origin)

/-- **What a message sets off is below it.** -/
theorem queues_receive (ρ : ℕ → ℕ) (sender : P) (a : Option (Action P A)) :
    Queues (messageRank a) h (h.receive ρ sender a) := by
  unfold receive
  split
  · exact queues_injectJoin ρ sender _ _
  · exact queues_injectForwardJoin ρ _ _ _ sender
  · split
    · exact queues_injectNeighbor ρ _ _
    · exact .refl h
  · exact queues_injectDisconnect (ρ 0) sender _
  · exact queues_injectShuffle ρ sender _ _ _
  · exact .of_eq rfl
  · exact .refl h

/-- Without a tick, polling hands out the first action of the queue. -/
theorem poll_idle (ρ : ℕ → ℕ) : h.poll ρ false false =
    (h.outEvents.head?, { h with outEvents := h.outEvents.tail }) := poll_eq ρ false false

/-- The ranks of the messages that are queued. -/
def ranks (h : HyParView P A) : Multiset ℕ := h.outEvents.filterMap NetworkAction.rank

end HyParView

/-! ## The overlay -/

/-- The ranks of the messages of some letters. -/
def flightRanks (flight : List (Letter P A)) : Multiset ℕ :=
  flight.map fun l => messageRank l.action

/-- A letter out of the flight. -/
theorem flightRanks_eraseIdx {flight : List (Letter P A)} {i : ℕ} {l : Letter P A}
    (hl : flight[i]? = some l) :
    flightRanks flight = {messageRank l.action} + flightRanks (flight.eraseIdx i) := by
  obtain ⟨hi, rfl⟩ := List.getElem?_eq_some_iff.1 hl
  unfold flightRanks
  rw [Multiset.singleton_add, Multiset.cons_coe, Multiset.coe_eq_coe]
  exact ((List.getElem_cons_eraseIdx_perm hi).map _).symm

/-- A letter into the flight. -/
theorem flightRanks_append (flight : List (Letter P A)) (l : Letter P A) :
    flightRanks (flight ++ [l]) = flightRanks flight + {messageRank l.action} := by
  unfold flightRanks
  rw [List.map_append, ← Multiset.coe_add, List.map_singleton, Multiset.coe_singleton]

namespace Overlay

variable (nodes : Finset P) {o o' : Overlay P A}

/-- The ranks of the messages that some nodes have queued or that are in
flight. -/
def load (o : Overlay P A) : Multiset ℕ := flightRanks o.flight + ∑ p ∈ nodes, (o.nodes p).ranks

/-- How many actions some nodes have queued. -/
def queued (o : Overlay P A) : ℕ := ∑ p ∈ nodes, (o.nodes p).outEvents.length

variable [DecidableEq P]

/-- A step of the delivery among some nodes: one of them hands out its next
action, without a tick, or a letter to one of them arrives. -/
inductive Delivers (o : Overlay P A) : Overlay P A → Prop
  | poll {node : P} (ρ : ℕ → ℕ) (hnode : node ∈ nodes) (hnext : (o.nodes node).outEvents ≠ []) :
      Delivers o (o.step (.poll node false false, ρ))
  | deliver {i : ℕ} {l : Letter P A} (ρ : ℕ → ℕ) (hl : o.flight[i]? = some l)
      (hnode : l.recipient ∈ nodes) : Delivers o (o.step (.deliver i, ρ))

variable {nodes}

/-- The queue of one node apart from those of the others. -/
theorem sum_set {M : Type} [AddCommMonoid M] (f : HyParView P A → M) {node : P}
    (hnode : node ∈ nodes) (h : HyParView P A) :
    ∑ p ∈ nodes, f ((o.set node h).nodes p) = f h + ∑ p ∈ nodes.erase node, f (o.nodes p) := by
  rw [← Finset.add_sum_erase nodes _ hnode]
  refine congrArg₂ (· + ·) ?_ (Finset.sum_congr rfl fun p hp => ?_)
  · show f (Function.update o.nodes node h node) = f h
    rw [Function.update_self]
  · show f (Function.update o.nodes node h p) = f (o.nodes p)
    rw [Function.update_of_ne (Finset.ne_of_mem_erase hp)]

omit [DecidableEq P] in
/-- What an action of a node adds to the ranks in flight. -/
theorem flightRanks_carry (node : P) (e : NetworkAction P A) (rest : List (NetworkAction P A)) :
    flightRanks (o.carry node (some e)).flight + (rest.filterMap NetworkAction.rank : List ℕ) =
      flightRanks o.flight + ((e :: rest).filterMap NetworkAction.rank : List ℕ) := by
  cases e with
  | notifyHandler peer event =>
    have hrank : NetworkAction.rank (.notifyHandler peer event : NetworkAction P A) =
        some (messageRank event.action) := rfl
    rw [List.filterMap_cons_some hrank, ← Multiset.cons_coe, ← Multiset.singleton_add, ← add_assoc]
    exact congrArg (· + _) (flightRanks_append _ _)
  | dial | generateEvent | closeConnection =>
    rw [List.filterMap_cons_none rfl]
    rfl

/-- **A step of the delivery is one of a cascade.** -/
theorem Delivers.cascades (h : Delivers nodes o o') :
    Cascades (· < ·) (load nodes) (queued nodes) o o' := by
  obtain @⟨node, ρ, hnode, hnext⟩ | @⟨i, l, ρ, hl, hnode⟩ := h
  · -- the action leaves the queue, and its message is in flight instead
    obtain ⟨e, rest, hqueue⟩ := List.exists_cons_of_ne_nil hnext
    have hstep : o.step (.poll node false false, ρ) =
        (o.set node { o.nodes node with outEvents := rest }).carry node (some e) := by
      simp only [step, HyParView.poll_idle, hqueue, List.head?_cons, List.tail_cons]
    have hnodes : ((o.set node { o.nodes node with outEvents := rest }).carry node (some e)).nodes =
        (o.set node { o.nodes node with outEvents := rest }).nodes := by
      cases e <;> rfl
    rw [hstep]
    refine .inr ⟨?_, ?_⟩
    · rw [load, load, hnodes, sum_set HyParView.ranks hnode, ← Finset.add_sum_erase nodes _ hnode,
        ← add_assoc, ← add_assoc]
      refine congrArg (· + _) ?_
      have hranks := flightRanks_carry (o := o.set node { o.nodes node with outEvents := rest })
        node e rest
      rw [← hqueue] at hranks
      exact hranks
    · have hlen : ∑ p ∈ nodes, ((o.set node { o.nodes node with outEvents := rest }).nodes
          p).outEvents.length = rest.length + ∑ p ∈ nodes.erase node, (o.nodes p).outEvents.length :=
        sum_set (o := o) (fun h => h.outEvents.length) hnode _
      rw [queued, queued, hnodes, hlen, ← Finset.add_sum_erase nodes _ hnode, hqueue,
        List.length_cons]
      omega
  · -- the letter is gone, and what it set off is below it
    obtain ⟨es, hes, hlt⟩ := HyParView.queues_receive (h := o.nodes l.recipient) ρ l.sender l.action
    have hstep : o.step (.deliver i, ρ) = { o with flight := o.flight.eraseIdx i }.set l.recipient
        ((o.nodes l.recipient).receive ρ l.sender l.action) := by
      simp only [step, hl]
    have hranks : ((o.nodes l.recipient).receive ρ l.sender l.action).ranks =
        (o.nodes l.recipient).ranks + (es.filterMap NetworkAction.rank : List ℕ) := by
      rw [HyParView.ranks, hes, List.filterMap_append, ← Multiset.coe_add]
      rfl
    rw [hstep]
    refine .cut (a := messageRank l.action)
      (flightRanks (o.flight.eraseIdx i) + ∑ p ∈ nodes, (o.nodes p).ranks)
      (es.filterMap NetworkAction.rank : List ℕ) ?_ ?_ ?_
    · rw [load, flightRanks_eraseIdx hl, add_assoc]
    · rw [load, sum_set HyParView.ranks hnode, hranks, ← Finset.add_sum_erase nodes _ hnode]
      show flightRanks (o.flight.eraseIdx i) + _ = _
      abel
    · intro k hk
      obtain ⟨e, he, hk⟩ := List.mem_filterMap.1 (Multiset.mem_coe.1 hk)
      exact hlt e he k hk

/-- **Membership messages die out.** Among finitely many nodes with any
views, queues and messages in flight, and whatever the random choices are,
no sequence of deliveries goes on forever. -/
theorem deliveries_end (nodes : Finset P) (o : ℕ → Overlay P A) :
    ∃ n, ¬ Delivers nodes (o n) (o (n + 1)) :=
  cascade_ends wellFounded_lt (fun _ _ h => h.cascades) o

end Overlay

end Network

end Rensa
