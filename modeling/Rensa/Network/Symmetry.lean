import Rensa.Common.Along
import Rensa.Network.Model.Overlay
import Rensa.Network.Views
/-!
# Active links are symmetric

A node that adds a peer asks it to add the node as well. Links become
symmetric as long as every such request is granted: a full node drops a
request of low priority without an answer, and when it frees a slot it
bids farewell to a passive peer, whatever that peer thinks of the link.
In a run where neither happens no link is ever given up, and a link that
is not symmetric has its request on the way (`Linked`).
-/

namespace Rensa

namespace Network

variable {P A : Type}

/-! ## Views that only grow -/

namespace HyParView

variable {h h' h'' : HyParView P A} {p : P}

/-- A message to a peer is queued. -/
def Queued (h : HyParView P A) (p : P) (a : Action P A) : Prop :=
  ∃ topic, .notifyHandler p ⟨topic, some a⟩ ∈ h.outEvents

theorem queued_emit {a : Action P A} {e : NetworkAction P A} :
    (h.emit e).Queued p a ↔ h.Queued p a ∨ ∃ topic, e = .notifyHandler p ⟨topic, some a⟩ := by
  simp only [Queued, emit, List.mem_append, List.mem_singleton, exists_or, eq_comm]

/-- The active view has grown, by peers that are asked to do the same. -/
structure Extends (h h' : HyParView P A) : Prop where
  localNode : h'.localNode = h.localNode
  active : ∀ p ∈ h.active, p ∈ h'.active
  queued : ∀ p a, h.Queued p a → h'.Queued p a
  asks : ∀ p ∈ h'.active, p ∈ h.active ∨ ∃ peer priority, h'.Queued p (.neighbor peer priority)
  neighbor : ∀ p peer priority, h'.Queued p (.neighbor peer priority) →
    h.Queued p (.neighbor peer priority) ∨ p ∈ h'.active ∧ peer = some h.localNode
  disconnect : ∀ p alive, h'.Queued p (.disconnect alive) → h.Queued p (.disconnect alive)

theorem Extends.refl (h : HyParView P A) : h.Extends h where
  localNode := rfl
  active _ hp := hp
  queued _ _ hp := hp
  asks _ hp := .inl hp
  neighbor _ _ _ hp := .inl hp
  disconnect _ _ hp := hp

theorem Extends.trans (he : h.Extends h') (he' : h'.Extends h'') : h.Extends h'' where
  localNode := he'.localNode.trans he.localNode
  active p hp := he'.active p (he.active p hp)
  queued p a hp := he'.queued p a (he.queued p a hp)
  asks p hp := by
    rcases he'.asks p hp with hp | hp
    · rcases he.asks p hp with hp | ⟨peer, priority, hp⟩
      · exact .inl hp
      · exact .inr ⟨peer, priority, he'.queued _ _ hp⟩
    · exact .inr hp
  neighbor p peer priority hp := by
    rcases he'.neighbor p peer priority hp with hp | ⟨hp, hpeer⟩
    · rcases he.neighbor p peer priority hp with hp | ⟨hp, hpeer⟩
      · exact .inl hp
      · exact .inr ⟨he'.active p hp, hpeer⟩
    · exact .inr ⟨hp, he.localNode ▸ hpeer⟩
  disconnect p alive hp := he.disconnect p alive (he'.disconnect p alive hp)

/-- Something is queued that is no request and no farewell. -/
theorem extends_emit {e : NetworkAction P A}
    (hn : ∀ p topic peer priority, e ≠ .notifyHandler p ⟨topic, some (.neighbor peer priority)⟩)
    (hd : ∀ p topic alive, e ≠ .notifyHandler p ⟨topic, some (.disconnect alive)⟩) :
    h.Extends (h.emit e) where
  localNode := rfl
  active _ hp := hp
  queued _ _ hp := queued_emit.2 (.inl hp)
  asks _ hp := .inl hp
  neighbor p peer priority hp := by
    rcases queued_emit.1 hp with hp | ⟨topic, he⟩
    · exact .inl hp
    · exact absurd he (hn p topic peer priority)
  disconnect p alive hp := by
    rcases queued_emit.1 hp with hp | ⟨topic, he⟩
    · exact hp
    · exact absurd he (hd p topic alive)

variable [DecidableEq P]

/-- A peer is added and asked. -/
theorem extends_add {node : AddressablePeer P A} (hl : node.peerId ≠ h.localNode.peerId)
    (ha : node.peerId ∉ h.active) : h.Extends (h.addNodeToActiveView node true) := by
  have hqueued : ∀ p a, (h.addNodeToActiveView node true).Queued p a ↔ h.Queued p a ∨
      p = node.peerId ∧ a = .neighbor (some h.localNode) Priority.low := by
    intro p a
    rw [addNodeToActiveView_new hl ha]
    simp only [Queued, if_true, List.mem_append, List.mem_cons, List.not_mem_nil, or_false,
      reduceCtorEq, false_or, toPeer, NetworkAction.notifyHandler.injEq, Rpc.mk.injEq,
      Option.some.injEq]
    constructor
    · rintro ⟨topic, htopic | ⟨rfl, -, rfl⟩⟩
      · exact .inl ⟨topic, htopic⟩
      · exact .inr ⟨rfl, rfl⟩
    · rintro (⟨topic, htopic⟩ | ⟨rfl, rfl⟩)
      · exact ⟨topic, .inl htopic⟩
      · exact ⟨h.topic, .inr ⟨rfl, rfl, rfl⟩⟩
  refine ⟨localNode_addNodeToActiveView true, fun p hp => ?_,
    fun p a hp => (hqueued p a).2 (.inl hp), fun p hp => ?_, fun p peer priority hp => ?_,
    fun p alive hp => ?_⟩
  · exact (mem_addNodeToActiveView true).2 (.inl hp)
  · rcases (mem_addNodeToActiveView true).1 hp with hp | ⟨rfl, -⟩
    · exact .inl hp
    · exact .inr ⟨_, _, (hqueued _ _).2 (.inr ⟨rfl, rfl⟩)⟩
  · rcases (hqueued _ _).1 hp with hp | ⟨rfl, heq⟩
    · exact .inl hp
    · injection heq with hpeer
      exact .inr ⟨(mem_addNodeToActiveView true).2 (.inr ⟨rfl, hl⟩), hpeer⟩
  · rcases (hqueued _ _).1 hp with hp | ⟨-, heq⟩
    · exact hp
    · cases heq

theorem Grow.extends (hg : Grow h h') : h.Extends h' := by
  cases hg with
  | send p a hn hd =>
    refine extends_emit (fun _ _ peer priority he => ?_) fun _ _ alive he => ?_
    · injection he with _ he
      injection he with _ he
      injection he with he
      exact hn peer priority he
    · injection he with _ he
      injection he with _ he
      injection he with he
      exact hd alive he
  | dial => exact extends_emit nofun nofun
  | hold s =>
    exact ⟨rfl, fun _ hp => hp, fun _ _ hp => hp, fun _ hp => .inl hp, fun _ _ _ hp => .inl hp,
      fun _ _ hp => hp⟩
  | add node hl ha => exact extends_add hl ha

theorem Grows.extends (hg : Grows h h') : h.Extends h' := by
  induction hg with
  | refl => exact .refl h
  | tail _ hgrow ih => exact ih.trans hgrow.extends

/-- A message that is not refused, and that frees no slot: a request comes
from an active peer or finds room, and a forward join that ends at a full
node is for the node itself or for an active peer, or finds no passive
peer. -/
def grants (h : HyParView P A) : Option (Action P A) → Bool
  | some (.neighbor (some n) _) => h.isActive n.peerId || !h.overconnected
  | some (.forwardJoin 0 (some n)) => n.peerId = h.localNode.peerId || h.isActive n.peerId ||
      !h.overconnected || h.passive.items.isEmpty
  | _ => true

/-- A forward join that frees no slot. -/
theorem grows_injectForwardJoin {peer : AddressablePeer P A} {ttl : ℕ}
    (hg : h.grants (some (.forwardJoin ttl (some peer)))) (ρ : ℕ → ℕ) (sender : P) :
    Grows h (h.injectForwardJoin ρ peer ttl h.localNode.peerId sender) := by
  unfold injectForwardJoin
  split
  · exact .refl
  next hl =>
    have hsame : (if ttl = 0 ∧ ¬ h.isActive peer.peerId then h.freeUpActiveSlot ρ else h) = h := by
      split
      next hzero =>
        obtain ⟨rfl, hactive⟩ := hzero
        unfold freeUpActiveSlot
        split
        next hfull =>
          have hnone : h.passive.items = [] := by simpa [grants, hl, hactive, hfull] using hg
          rw [pick_eq_none.2 hnone]
        · rfl
      · rfl
    rw [hsame]
    exact grows_forward ρ peer ttl sender

/-- A message that is neither a request nor a farewell, and that frees no
slot. -/
theorem grows_receive {action : Option (Action P A)}
    (hn : ∀ peer priority, action ≠ some (.neighbor peer priority))
    (hd : ∀ alive, action ≠ some (.disconnect alive)) (hg : h.grants action) (ρ : ℕ → ℕ)
    (sender : P) : Grows h (h.receive ρ sender action) := by
  unfold receive
  split
  · exact grows_injectJoin _ _ _ _
  · exact grows_injectForwardJoin hg _ _
  · exact absurd rfl (hn _ _)
  · exact absurd rfl (hd _)
  · exact grows_injectShuffle _ _ _ _ _
  · exact grows_injectShuffleReply _
  · exact .refl

/-- A request that is granted adds the sender. -/
theorem receive_of_grants {n : AddressablePeer P A} {priority : ℤ}
    (hg : h.grants (some (.neighbor (some n) priority))) (ρ : ℕ → ℕ) :
    h.receive ρ n.peerId (some (.neighbor (some n) priority)) = h.addNodeToActiveView n false := by
  show (if n.peerId = n.peerId then h.injectNeighbor ρ n priority else h) = _
  rw [if_pos rfl]
  unfold injectNeighbor
  split
  next hactive => rw [addNodeToActiveView_mem (isActive_iff.1 hactive)]
  next hactive =>
    have hfree : (!h.overconnected) = true := by simpa [grants, hactive] using hg
    rw [if_pos hfree]

/-- A sender that is added is told nothing. -/
theorem queued_addNodeToActiveView {n : AddressablePeer P A} (hn : n.peerId ≠ h.localNode.peerId)
    {a : Action P A} : (h.addNodeToActiveView n false).Queued p a ↔ h.Queued p a := by
  by_cases hactive : n.peerId ∈ h.active
  · rw [addNodeToActiveView_mem hactive]
  · rw [addNodeToActiveView_new hn hactive]
    simp [Queued]

end HyParView

/-! ## Overlays -/

namespace Overlay

open HyParView (Extends Queued Moves Grows)

variable {o o' : Overlay P A} {p a b : P} {act : Action P A}

/-- A message that was not delivered yet. -/
def Sent (o : Overlay P A) (a b : P) (act : Action P A) : Prop :=
  ⟨a, b, some act⟩ ∈ o.flight ∨ (o.nodes a).Queued b act

/-- A link that is not symmetric has its request on the way, a request
comes from a node that holds the link, and there is no farewell. -/
structure Linked (o : Overlay P A) : Prop where
  named : ∀ p, (o.nodes p).localNode.peerId = p
  sound : ∀ p, (o.nodes p).Sound
  asked : ∀ a b, b ∈ (o.nodes a).active →
    a ∈ (o.nodes b).active ∨ ∃ peer priority, o.Sent a b (.neighbor peer priority)
  meant : ∀ a b peer priority, o.Sent a b (.neighbor peer priority) →
    b ∈ (o.nodes a).active ∧ ∃ n, peer = some n ∧ n.peerId = a
  quiet : ∀ a b alive, ¬ o.Sent a b (.disconnect alive)

theorem Linked.symmetric (hl : o.Linked) (hq : o.Quiescent) (a b : P) :
    b ∈ (o.nodes a).active ↔ a ∈ (o.nodes b).active := by
  have hnone : ∀ a b act, ¬ o.Sent a b act := by
    rintro a b act (hmem | ⟨topic, hmem⟩)
    · rw [hq.1] at hmem
      exact absurd hmem List.not_mem_nil
    · rw [hq.2 a] at hmem
      exact absurd hmem List.not_mem_nil
  have hhalf : ∀ a b, b ∈ (o.nodes a).active → a ∈ (o.nodes b).active := by
    intro a b hb
    rcases hl.asked a b hb with ha | ⟨_, _, hsent⟩
    · exact ha
    · exact absurd hsent (hnone a b _)
  exact ⟨hhalf a b, hhalf b a⟩

/-- The same messages are undelivered, and no view has changed. -/
theorem Linked.congr (hl : o.Linked)
    (hsame : ∀ p, ∃ es, o'.nodes p = { o.nodes p with outEvents := es })
    (hsent : ∀ a b act, o'.Sent a b act ↔ o.Sent a b act) : o'.Linked := by
  have hactive : ∀ p, (o'.nodes p).active = (o.nodes p).active := by
    intro p
    obtain ⟨es, hes⟩ := hsame p
    rw [hes]
  refine ⟨fun p => ?_, fun p => ?_, fun a b hb => ?_, fun a b peer priority hs => ?_,
    fun a b alive hs => ?_⟩
  · obtain ⟨es, hes⟩ := hsame p
    rw [hes]
    exact hl.named p
  · obtain ⟨es, hes⟩ := hsame p
    rw [hes]
    exact ⟨(hl.sound p).passive_le, (hl.sound p).self⟩
  · simp only [hsent, hactive] at hb ⊢
    exact hl.asked a b hb
  · rw [hactive]
    exact hl.meant a b peer priority ((hsent _ _ _).1 hs)
  · exact hl.quiet a b alive ((hsent _ _ _).1 hs)

/-- Nodes whose views have grown. -/
theorem Linked.grow (hl : o.Linked) (hflight : o'.flight = o.flight)
    (hext : ∀ p, (o.nodes p).Extends (o'.nodes p)) (hsound : ∀ p, (o'.nodes p).Sound) :
    o'.Linked where
  named p := by rw [(hext p).localNode, hl.named]
  sound := hsound
  asked a b hb := by
    rcases (hext a).asks b hb with hb | ⟨peer, priority, hasks⟩
    · rcases hl.asked a b hb with ha | ⟨peer, priority, hmem | hqueued⟩
      · exact .inl ((hext b).active a ha)
      · exact .inr ⟨peer, priority, .inl (hflight ▸ hmem)⟩
      · exact .inr ⟨peer, priority, .inr ((hext a).queued b _ hqueued)⟩
    · exact .inr ⟨peer, priority, .inr hasks⟩
  meant a b peer priority hs := by
    have hold : o.Sent a b (.neighbor peer priority) →
        b ∈ (o'.nodes a).active ∧ ∃ n, peer = some n ∧ n.peerId = a := fun hs =>
      ⟨(hext a).active b (hl.meant a b peer priority hs).1, (hl.meant a b peer priority hs).2⟩
    rcases hs with hmem | hqueued
    · exact hold (.inl (hflight ▸ hmem))
    · rcases (hext a).neighbor b peer priority hqueued with hqueued | ⟨hb, rfl⟩
      · exact hold (.inr hqueued)
      · exact ⟨hb, _, rfl, hl.named a⟩
  quiet a b alive hs := by
    rcases hs with hmem | hqueued
    · exact hl.quiet a b alive (.inl (hflight ▸ hmem))
    · exact hl.quiet a b alive (.inr ((hext a).disconnect b alive hqueued))

variable [DecidableEq P]

@[simp] theorem nodes_set_self (h : HyParView P A) : (o.set p h).nodes p = h :=
  Function.update_self _ _ _

theorem nodes_set_ne (h : HyParView P A) (hne : a ≠ p) : (o.set p h).nodes a = o.nodes a :=
  Function.update_of_ne hne _ _

/-- A fact about all nodes, when one of them is in a new state. -/
theorem forall_set {Q : P → HyParView P A → Prop} {h : HyParView P A} (hp : Q p h)
    (ho : ∀ q, q ≠ p → Q q (o.nodes q)) (q : P) : Q q ((o.set p h).nodes q) := by
  by_cases hq : q = p
  · subst hq
    rw [nodes_set_self]
    exact hp
  · rw [nodes_set_ne h hq]
    exact ho q hq

/-- One node's views grow. -/
theorem Linked.set (hl : o.Linked) {h : HyParView P A} (hg : Grows (o.nodes p) h) :
    (o.set p h).Linked := by
  refine hl.grow rfl ?_ ?_
  · exact forall_set (Q := fun q h => (o.nodes q).Extends h) hg.extends fun q _ => .refl _
  · exact forall_set (Q := fun _ h => h.Sound) (hg.moves.sound (hl.sound p)) fun q _ => hl.sound q

omit [DecidableEq P] in
theorem sent_carry (event : Option (NetworkAction P A)) : (o.carry p event).Sent a b act ↔
    o.Sent a b act ∨ a = p ∧ ∃ topic, event = some (.notifyHandler b ⟨topic, some act⟩) := by
  have hother : ∀ event : Option (NetworkAction P A),
      (∀ b topic, event ≠ some (.notifyHandler b ⟨topic, some act⟩)) →
      (o.Sent a b act ↔ o.Sent a b act ∨
        a = p ∧ ∃ topic, event = some (.notifyHandler b ⟨topic, some act⟩)) := by
    intro event hne
    refine ⟨.inl, ?_⟩
    rintro (hs | ⟨-, topic, he⟩)
    · exact hs
    · exact absurd he (hne b topic)
  cases event with
  | none => exact hother none nofun
  | some e =>
    cases e with
    | notifyHandler peer event =>
      obtain ⟨topic, action⟩ := event
      simp only [Overlay.carry, Sent, List.mem_append, List.mem_singleton, Letter.mk.injEq,
        Option.some.injEq, NetworkAction.notifyHandler.injEq, Rpc.mk.injEq]
      constructor
      · rintro ((hs | ⟨rfl, rfl, rfl⟩) | hs)
        · exact .inl (.inl hs)
        · exact .inr ⟨rfl, topic, rfl, rfl, rfl⟩
        · exact .inl (.inr hs)
      · rintro ((hs | hs) | ⟨rfl, _, rfl, -, rfl⟩)
        · exact .inl (.inl hs)
        · exact .inr hs
        · exact .inl (.inr ⟨rfl, rfl, rfl⟩)
    | dial | generateEvent | closeConnection => exact hother _ nofun

/-- An action leaves the queue of a node for the network. -/
theorem Linked.carry (hl : o.Linked) (p : P) :
    ((o.set p { o.nodes p with outEvents := (o.nodes p).outEvents.tail }).carry p
      (o.nodes p).outEvents.head?).Linked := by
  have hnodes : ∀ (o : Overlay P A) event, (o.carry p event).nodes = o.nodes := by
    intro o event
    unfold Overlay.carry
    split <;> rfl
  refine hl.congr (fun q => ?_) fun x y act => ?_
  · rw [hnodes]
    exact forall_set (Q := fun q h => ∃ es, h = { o.nodes q with outEvents := es })
      ⟨_, rfl⟩ (fun q _ => ⟨_, rfl⟩) q
  · rw [sent_carry]
    by_cases hx : x = p
    · subst hx
      rw [Sent, Sent, nodes_set_self]
      show (_ ∨ ∃ topic, _ ∈ (o.nodes x).outEvents.tail) ∨ _ ↔
        _ ∨ ∃ topic, _ ∈ (o.nodes x).outEvents
      cases (o.nodes x).outEvents with
      | nil => simp [Overlay.set]
      | cons e rest =>
        simp only [List.tail_cons, List.head?_cons, Option.some.injEq, true_and, List.mem_cons,
          exists_or, eq_comm (b := e), Overlay.set]
        tauto
    · rw [Sent, nodes_set_ne _ hx]
      exact ⟨fun hs => hs.resolve_right fun hp => hx hp.1, .inl⟩

/-- An event that refuses no request and frees no slot. -/
def granted (o : Overlay P A) (e : Event P A × (ℕ → ℕ)) : Bool :=
  match e.1 with
  | .deliver i => o.flight[i]?.all fun l => (o.nodes l.recipient).grants l.action
  | _ => true

omit [DecidableEq P] in
/-- What is undelivered when a message is taken out of flight. -/
theorem Sent.erase {i : ℕ} {l : Letter P A} (hi : o.flight[i]? = some l) (hs : o.Sent a b act) :
    { o with flight := o.flight.eraseIdx i }.Sent a b act ∨ l = ⟨a, b, some act⟩ := by
  rcases hs with hmem | hqueued
  · obtain ⟨j, hj⟩ := List.mem_iff_getElem?.1 hmem
    by_cases hji : j = i
    · rw [hji, hi] at hj
      exact .inr (Option.some.inj hj)
    · exact .inl (.inl (List.mem_eraseIdx_iff_getElem?.2 ⟨j, hji, hj⟩))
  · exact .inl (.inr hqueued)

omit [DecidableEq P] in
theorem Sent.of_erase {i : ℕ} (hs : { o with flight := o.flight.eraseIdx i }.Sent a b act) :
    o.Sent a b act := by
  rcases hs with hmem | hqueued
  · exact .inl (List.mem_of_mem_eraseIdx hmem)
  · exact .inr hqueued

omit [DecidableEq P] in
theorem Linked.erase (hl : o.Linked) {i : ℕ} {l : Letter P A} (hi : o.flight[i]? = some l)
    (hn : ∀ peer priority, l.action ≠ some (.neighbor peer priority)) :
    { o with flight := o.flight.eraseIdx i }.Linked where
  named := hl.named
  sound := hl.sound
  asked a b hb := by
    rcases hl.asked a b hb with ha | ⟨peer, priority, hs⟩
    · exact .inl ha
    · rcases hs.erase hi with hs | rfl
      · exact .inr ⟨peer, priority, hs⟩
      · exact absurd rfl (hn peer priority)
  meant a b peer priority hs := hl.meant a b peer priority hs.of_erase
  quiet a b alive hs := hl.quiet a b alive hs.of_erase

/-- A node comes to have one more peer in its active view. -/
theorem mem_active_set {h : HyParView P A}
    (hmem : ∀ p, p ∈ h.active ↔ p ∈ (o.nodes b).active ∨ p = a) (x y : P) :
    y ∈ ((o.set b h).nodes x).active ↔ y ∈ (o.nodes x).active ∨ x = b ∧ y = a := by
  by_cases hx : x = b
  · subst hx
    rw [nodes_set_self, hmem]
    simp
  · rw [nodes_set_ne h hx]
    simp [hx]

/-- A node keeps its queue, and so the network what is undelivered. -/
theorem sent_set {h : HyParView P A}
    (hqueued : ∀ p act, h.Queued p act ↔ (o.nodes b).Queued p act) (x y : P) (act : Action P A) :
    (o.set b h).Sent x y act ↔ o.Sent x y act := by
  rw [Sent, Sent]
  by_cases hx : x = b
  · subst hx
    rw [nodes_set_self, hqueued]
    rfl
  · rw [nodes_set_ne h hx]
    rfl

/-- A request is granted: the link is symmetric from now on. -/
theorem Linked.grant (hl : o.Linked) {i : ℕ} {n : AddressablePeer P A} {priority : ℤ}
    (hi : o.flight[i]? = some ⟨a, b, some (.neighbor (some n) priority)⟩)
    (hg : (o.nodes b).grants (some (.neighbor (some n) priority))) (ρ : ℕ → ℕ) :
    ({ o with flight := o.flight.eraseIdx i }.set b
      ((o.nodes b).receive ρ a (some (.neighbor (some n) priority)))).Linked := by
  have hsent : o.Sent a b (.neighbor (some n) priority) := .inl (List.mem_of_getElem? hi)
  obtain ⟨hb, n', hn', hna⟩ := hl.meant a b _ _ hsent
  obtain rfl := Option.some.inj hn'
  have hab : a ≠ b := by
    rintro rfl
    exact (hl.sound a).self (by rw [hl.named]; exact hb)
  have hlocal : n.peerId ≠ (o.nodes b).localNode.peerId := by
    rw [hl.named, hna]
    exact hab
  -- the recipient has the sender in its active view, and nothing else is new
  have heq : (o.nodes b).receive ρ a (some (.neighbor (some n) priority)) =
      (o.nodes b).addNodeToActiveView n false := hna ▸ HyParView.receive_of_grants hg ρ
  rw [heq]
  have hmem : ∀ p, p ∈ ((o.nodes b).addNodeToActiveView n false).active ↔
      p ∈ (o.nodes b).active ∨ p = a := by
    intro p
    rw [HyParView.mem_addNodeToActiveView, hna]
    constructor
    · rintro (hp | ⟨hp, -⟩)
      · exact .inl hp
      · exact .inr hp
    · rintro (hp | rfl)
      · exact .inl hp
      · exact .inr ⟨rfl, hna ▸ hlocal⟩
  have hqueued : ∀ p act, ((o.nodes b).addNodeToActiveView n false).Queued p act ↔
      (o.nodes b).Queued p act := fun _ _ => HyParView.queued_addNodeToActiveView hlocal
  have hnamed : ((o.nodes b).addNodeToActiveView n false).localNode.peerId = b := by
    rw [HyParView.localNode_addNodeToActiveView]
    exact hl.named b
  have hsound := (HyParView.moves_accept n).sound (hl.sound b)
  generalize (o.nodes b).addNodeToActiveView n false = h at hmem hqueued hnamed hsound ⊢
  have hactive := mem_active_set (o := { o with flight := o.flight.eraseIdx i }) hmem
  have hsent' := sent_set (o := { o with flight := o.flight.eraseIdx i }) hqueued
  refine ⟨?_, ?_, fun x y hy => ?_, fun x y peer priority hs => ?_, fun x y alive hs => ?_⟩
  · exact forall_set (Q := fun q h => h.localNode.peerId = q) hnamed fun q _ => hl.named q
  · exact forall_set (Q := fun _ h => h.Sound) hsound fun q _ => hl.sound q
  · rcases (hactive x y).1 hy with hy | ⟨rfl, rfl⟩
    · rcases hl.asked x y hy with hx | ⟨peer, priority, hs⟩
      · exact .inl ((hactive y x).2 (.inl hx))
      · rcases hs.erase hi with hs | heq
        · exact .inr ⟨peer, priority, (hsent' _ _ _).2 hs⟩
        · injection heq with hx hy
          exact .inl ((hactive y x).2 (.inr ⟨hy.symm, hx.symm⟩))
    · exact .inl ((hactive y x).2 (.inl hb))
  · obtain ⟨hy, hpeer⟩ := hl.meant x y peer priority ((hsent' _ _ _).1 hs).of_erase
    exact ⟨(hactive x y).2 (.inl hy), hpeer⟩
  · exact hl.quiet x y alive ((hsent' _ _ _).1 hs).of_erase

/-- **One event** that refuses no request and frees no slot. -/
theorem Linked.step (hl : o.Linked) (e : Event P A × (ℕ → ℕ)) (hg : o.granted e) :
    (o.step e).Linked := by
  obtain ⟨e, ρ⟩ := e
  cases e with
  | initiateJoin node peer => exact hl.set (HyParView.grows_initiateJoin peer)
  | poll node shuffleDue tickDue =>
    have hmaintain : (o.set node ((o.nodes node).maintain ρ shuffleDue tickDue)).Linked :=
      hl.set (HyParView.grows_maintain ρ shuffleDue tickDue)
    have hcarry := hmaintain.carry node
    rw [nodes_set_self] at hcarry
    show ((o.set node ((o.nodes node).poll ρ shuffleDue tickDue).2).carry node
      ((o.nodes node).poll ρ shuffleDue tickDue).1).Linked
    rw [HyParView.poll_eq]
    simpa [Overlay.set] using hcarry
  | deliver i =>
    unfold Overlay.step
    dsimp only
    split
    next l hi =>
      have hg : (o.nodes l.recipient).grants l.action := by simpa [granted, hi] using hg
      obtain ⟨a, b, action⟩ := l
      by_cases hn : ∃ peer priority, action = some (.neighbor peer priority)
      · obtain ⟨peer, priority, rfl⟩ := hn
        obtain ⟨-, n, rfl, -⟩ := hl.meant a b peer priority (.inl (List.mem_of_getElem? hi))
        exact hl.grant hi hg ρ
      · have hn : ∀ peer priority, action ≠ some (.neighbor peer priority) :=
          fun peer priority heq => hn ⟨peer, priority, heq⟩
        refine (hl.erase hi hn).set (HyParView.grows_receive hn (fun alive heq => ?_) hg ρ a)
        subst heq
        exact hl.quiet a b alive (.inl (List.mem_of_getElem? hi))
    · exact hl

omit [DecidableEq P] in
theorem linked_boot (topic : String) (config : P → Config P) (addresses : P → List A) :
    (boot topic config addresses).Linked := by
  have hnone : ∀ a b act, ¬ (boot topic config addresses).Sent a b act := by
    rintro a b act (hmem | ⟨topic, hmem⟩)
    · exact absurd hmem List.not_mem_nil
    · exact absurd hmem List.not_mem_nil
  exact ⟨fun _ => rfl, fun p => HyParView.sound_new topic (config p) ⟨p, addresses p⟩,
    fun _ _ hb => absurd hb KeySet.not_mem_empty, fun a b _ _ hs => absurd hs (hnone a b _),
    fun a b _ => hnone a b _⟩

/-- **Active links are symmetric** in every quiescent state that is reached
without a refused request and without a freed slot. -/
theorem links_symmetric (topic : String) (config : P → Config P) (addresses : P → List A)
    (events : List (Event P A × (ℕ → ℕ)))
    (hevents : Along step (fun o e => o.granted e) (boot topic config addresses) events)
    (hq : ((boot topic config addresses).run events).Quiescent) (a b : P) :
    b ∈ (((boot topic config addresses).run events).nodes a).active ↔
      a ∈ (((boot topic config addresses).run events).nodes b).active := by
  have hrun : ((boot topic config addresses).run events).Linked :=
    hevents.rule (linked_boot topic config addresses) fun o e hl hg => hl.step e hg
  exact hrun.symmetric hq a b

/-- The first node joins the two others, all messages are delivered in
order, and all nodes are polled to the end. -/
def joinTwo : List (Event (Fin 3) Unit × (ℕ → ℕ)) :=
  [(.initiateJoin 0 ⟨1, []⟩, id), (.initiateJoin 0 ⟨2, []⟩, id),
    (.poll 0 false false, id), (.poll 0 false false, id), (.deliver 0, id), (.deliver 0, id),
    (.poll 1 false false, id), (.poll 1 false false, id), (.poll 1 false false, id),
    (.poll 2 false false, id), (.poll 2 false false, id), (.poll 2 false false, id),
    (.deliver 0, id), (.deliver 0, id), (.poll 0 false false, id), (.poll 0 false false, id)]

/-- With room for eleven peers both requests are granted. -/
theorem links_symmetric_joinTwo :
    let o := (boot "blocks" (fun _ => Config.default) fun _ => []).run joinTwo
    o.Quiescent ∧ 2 ∈ (o.nodes 0).active ∧ (2 ∈ (o.nodes 0).active ↔ 0 ∈ (o.nodes 2).active) := by
  have hq : ((boot "blocks" (fun _ => Config.default) fun _ => []).run joinTwo).Quiescent :=
    ⟨by rfl, by decide⟩
  exact ⟨hq, by decide, links_symmetric "blocks" (fun _ => Config.default) (fun _ => []) joinTwo
    (by decide) hq 0 2⟩

/-- With room for one peer the second request is dropped. -/
theorem links_one_sided :
    let o := (boot "blocks" (fun _ => { Config.default with maxActiveViewSize := 1 })
      fun _ => []).run joinTwo
    o.Quiescent ∧ 0 ∈ (o.nodes 2).active ∧ 2 ∉ (o.nodes 0).active :=
  ⟨⟨by rfl, by decide⟩, by decide, by decide⟩

end Overlay

end Network

end Rensa
