import Mathlib.Logic.Relation
import Rensa.Network.Model.View
/-!
# What a handler does to the views

Every handler of `HyParView` is a sequence of moves. Most of them only
send, change the passive view, and add peers to the active view with a
request to the peer (`Grow`); the others accept a request, tell a peer to
disconnect or take a peer out of the active view (`Move`). What all moves
keep, all handlers keep: the node keeps its configuration and its name,
the passive view stays within its bound, and the node is no peer of its
own active view.
-/

namespace Rensa

namespace Network

namespace HyParView

open Relation (ReflTransGen)

variable {P A : Type} {h h' : HyParView P A} {node : AddressablePeer P A} {p : P} {r : ℕ}
variable {ρ : ℕ → ℕ}

/-! ## Sending -/

@[simp] theorem active_emit (a : NetworkAction P A) : (h.emit a).active = h.active := rfl

@[simp] theorem passive_emit (a : NetworkAction P A) : (h.emit a).passive = h.passive := rfl

@[simp] theorem config_emit (a : NetworkAction P A) : (h.emit a).config = h.config := rfl

@[simp] theorem localNode_emit (a : NetworkAction P A) : (h.emit a).localNode = h.localNode := rfl

@[simp] theorem active_notifyAll (ps : List P) (a : Action P A) :
    (h.notifyAll ps a).active = h.active := rfl

@[simp] theorem passive_notifyAll (ps : List P) (a : Action P A) :
    (h.notifyAll ps a).passive = h.passive := rfl

theorem notifyAll_nil (a : Action P A) : h.notifyAll [] a = h := by
  show { h with outEvents := h.outEvents ++ [] } = h
  rw [List.append_nil]

theorem notifyAll_cons (q : P) (ps : List P) (a : Action P A) :
    h.notifyAll (q :: ps) a = (h.emit (h.toPeer q a)).notifyAll ps a := by
  show { h with outEvents := h.outEvents ++ h.toPeer q a :: ps.map fun p => h.toPeer p a } =
    { h with outEvents := (h.outEvents ++ [h.toPeer q a]) ++ ps.map fun p => h.toPeer p a }
  rw [List.append_assoc, List.singleton_append]

theorem overconnected_iff : h.overconnected = true ↔ h.config.maxActiveViewSize ≤ h.active.length :=
  decide_eq_true_iff

variable [DecidableEq P]

theorem isActive_iff : h.isActive p = true ↔ p ∈ h.active := decide_eq_true_iff

/-! ## Adding a peer -/

theorem addNodeToActiveView_local (hl : node.peerId = h.localNode.peerId) (b : Bool) :
    h.addNodeToActiveView node b = h := if_pos hl

theorem addNodeToActiveView_mem (ha : node.peerId ∈ h.active) (b : Bool) :
    h.addNodeToActiveView node b = h := by
  unfold addNodeToActiveView
  rw [if_pos (isActive_iff.2 ha), ite_self]

/-- A new peer is added, and announced last. -/
theorem addNodeToActiveView_new (hl : node.peerId ≠ h.localNode.peerId)
    (ha : node.peerId ∉ h.active) (b : Bool) :
    h.addNodeToActiveView node b = { h with
      active := h.active.insert node
      outEvents := h.outEvents ++ ((if b then
        [.dial node.peerId node.addresses false,
          h.toPeer node.peerId (.neighbor (some h.localNode) Priority.low)] else []) ++
        [.generateEvent (.peerAdded node.peerId)]) } := by
  have hlen : (h.active.insert node).length ≠ 0 := by
    rw [KeySet.length_insert ha]
    omega
  unfold addNodeToActiveView
  rw [if_neg hl, if_neg (mt isActive_iff.1 ha)]
  -- the view holds the new peer already when the priority is chosen
  dsimp only
  rw [if_neg hlen]
  cases b <;> simp [emit, toPeer]

@[simp] theorem passive_addNodeToActiveView (b : Bool) :
    (h.addNodeToActiveView node b).passive = h.passive := by
  unfold addNodeToActiveView
  split
  · rfl
  split
  · rfl
  cases b <;> rfl

@[simp] theorem config_addNodeToActiveView (b : Bool) :
    (h.addNodeToActiveView node b).config = h.config := by
  unfold addNodeToActiveView
  split
  · rfl
  split
  · rfl
  cases b <;> rfl

@[simp] theorem localNode_addNodeToActiveView (b : Bool) :
    (h.addNodeToActiveView node b).localNode = h.localNode := by
  unfold addNodeToActiveView
  split
  · rfl
  split
  · rfl
  cases b <;> rfl

theorem active_addNodeToActiveView (hl : node.peerId ≠ h.localNode.peerId) (b : Bool) :
    (h.addNodeToActiveView node b).active = h.active.insert node := by
  by_cases ha : node.peerId ∈ h.active
  · rw [addNodeToActiveView_mem ha, KeySet.insert_of_mem ha]
  · rw [addNodeToActiveView_new hl ha]

theorem mem_addNodeToActiveView (b : Bool) : p ∈ (h.addNodeToActiveView node b).active ↔
    p ∈ h.active ∨ p = node.peerId ∧ p ≠ h.localNode.peerId := by
  by_cases hl : node.peerId = h.localNode.peerId
  · rw [addNodeToActiveView_local hl, ← hl]
    tauto
  · rw [active_addNodeToActiveView hl, KeySet.mem_insert]
    constructor
    · rintro (hp | rfl)
      · exact .inl hp
      · exact .inr ⟨rfl, hl⟩
    · rintro (hp | ⟨rfl, -⟩)
      · exact .inl hp
      · exact .inr rfl

/-! ## Keeping a peer in the passive view -/

/-- Only the passive view changes: peers are lost, or the new one is in
it, and its bound is kept. -/
theorem addNodeToPassiveView_eq (r : ℕ) (node : AddressablePeer P A) :
    ∃ s : PeerSet P A, h.addNodeToPassiveView r node = { h with passive := s } ∧
      (∀ p ∈ s, p ∈ h.passive ∨ p = node.peerId ∧ p ≠ h.localNode.peerId) ∧
      (h.passive.length ≤ h.config.maxPassiveViewSize →
        s.length ≤ h.config.maxPassiveViewSize) := by
  unfold addNodeToPassiveView
  split
  · exact ⟨h.passive, rfl, fun p hp => .inl hp, id⟩
  next hl =>
    have hmem : ∀ p ∈ h.passive.insert node,
        p ∈ h.passive ∨ p = node.peerId ∧ p ≠ h.localNode.peerId := by
      intro p hp
      rcases KeySet.mem_insert.1 hp with hp | rfl
      · exact .inl hp
      · exact .inr ⟨rfl, hl⟩
    dsimp only
    split
    next hover =>
      split
      next random hpick =>
        refine ⟨_, rfl, fun p hp => hmem p (KeySet.mem_remove.1 hp).1, fun hle => ?_⟩
        have hinsert := KeySet.length_insert_le h.passive node
        have hremove := KeySet.length_remove (KeySet.mem_of_item (pick_mem hpick))
        omega
      next hpick =>
        rw [pick_eq_none] at hpick
        have hzero : (h.passive.insert node).length = 0 := congrArg List.length hpick
        refine ⟨_, rfl, hmem, fun _ => ?_⟩
        omega
    next hunder => exact ⟨_, rfl, hmem, fun _ => Nat.not_lt.1 hunder⟩

/-- A peer that is there already changes nothing. -/
theorem addNodeToPassiveView_mem (hp : node.peerId ∈ h.passive)
    (hle : h.passive.length ≤ h.config.maxPassiveViewSize) (r : ℕ) :
    h.addNodeToPassiveView r node = h := by
  unfold addNodeToPassiveView
  rw [KeySet.insert_of_mem hp]
  split
  · rfl
  · exact if_neg (Nat.not_lt.2 hle)

@[simp] theorem active_addNodeToPassiveView :
    (h.addNodeToPassiveView r node).active = h.active := by
  obtain ⟨s, hs, -⟩ := addNodeToPassiveView_eq (h := h) r node
  rw [hs]

@[simp] theorem config_addNodeToPassiveView :
    (h.addNodeToPassiveView r node).config = h.config := by
  obtain ⟨s, hs, -⟩ := addNodeToPassiveView_eq (h := h) r node
  rw [hs]

@[simp] theorem localNode_addNodeToPassiveView :
    (h.addNodeToPassiveView r node).localNode = h.localNode := by
  obtain ⟨s, hs, -⟩ := addNodeToPassiveView_eq (h := h) r node
  rw [hs]

/-! ## The moves -/

/-- A move of a handler that only grows the active view: what it adds is
asked to add the node. -/
inductive Grow (h : HyParView P A) : HyParView P A → Prop
  /-- A message that is no request and no farewell. -/
  | send (p : P) (a : Action P A) (hn : ∀ peer priority, a ≠ .neighbor peer priority)
      (hd : ∀ alive, a ≠ .disconnect alive) : Grow h (h.emit (h.toPeer p a))
  | dial (p : P) (addresses : List A) (temporary : Bool) :
      Grow h (h.emit (.dial p addresses temporary))
  /-- A new passive view. -/
  | hold (s : PeerSet P A) (hs : h.passive.length ≤ h.config.maxPassiveViewSize →
      s.length ≤ h.config.maxPassiveViewSize) : Grow h { h with passive := s }
  | add (node : AddressablePeer P A) (hl : node.peerId ≠ h.localNode.peerId)
      (ha : node.peerId ∉ h.active) : Grow h (h.addNodeToActiveView node true)

/-- A move of a handler. -/
inductive Move (h : HyParView P A) : HyParView P A → Prop
  | grow {h' : HyParView P A} (hg : Grow h h') : Move h h'
  /-- A peer that asked for it is added. -/
  | accept (node : AddressablePeer P A) (hl : node.peerId ≠ h.localNode.peerId)
      (ha : node.peerId ∉ h.active) : Move h (h.addNodeToActiveView node false)
  /-- A peer is told to disconnect. -/
  | tell (p : P) : Move h (h.emit (h.toPeer p (.disconnect true)))
  /-- A peer is taken out, and announced as removed. -/
  | drop (p : P) : Move h
      ({ h with active := h.active.remove p }.emit (.generateEvent (.peerRemoved p)))

/-- Moves that grow the active view. -/
abbrev Grows : HyParView P A → HyParView P A → Prop := ReflTransGen Grow

/-- Moves. -/
abbrev Moves : HyParView P A → HyParView P A → Prop := ReflTransGen Move

theorem Grows.moves (hg : Grows h h') : Moves h h' :=
  ReflTransGen.mono (fun _ _ => Move.grow) h h' hg

theorem grows_notifyAll (ps : List P) {a : Action P A}
    (hn : ∀ peer priority, a ≠ .neighbor peer priority) (hd : ∀ alive, a ≠ .disconnect alive) :
    Grows h (h.notifyAll ps a) := by
  induction ps generalizing h with
  | nil =>
    rw [notifyAll_nil]
  | cons q ps ih =>
    rw [notifyAll_cons]
    exact (ReflTransGen.single (.send q a hn hd)).trans ih

theorem grows_addNodeToPassiveView (r : ℕ) (node : AddressablePeer P A) :
    Grows h (h.addNodeToPassiveView r node) := by
  obtain ⟨s, hs, -, hle⟩ := addNodeToPassiveView_eq (h := h) r node
  rw [hs]
  exact .single (.hold s hle)

theorem grows_addNodeToActiveView (node : AddressablePeer P A) :
    Grows h (h.addNodeToActiveView node true) := by
  by_cases hl : node.peerId = h.localNode.peerId
  · rw [addNodeToActiveView_local hl]
  by_cases ha : node.peerId ∈ h.active
  · rw [addNodeToActiveView_mem ha]
  · exact .single (.add node hl ha)

theorem moves_accept (node : AddressablePeer P A) :
    Moves h (h.addNodeToActiveView node false) := by
  by_cases hl : node.peerId = h.localNode.peerId
  · rw [addNodeToActiveView_local hl]
  by_cases ha : node.peerId ∈ h.active
  · rw [addNodeToActiveView_mem ha]
  · exact .single (.accept node hl ha)

theorem moves_freeUpActiveSlot (ρ : ℕ → ℕ) : Moves h (h.freeUpActiveSlot ρ) := by
  unfold freeUpActiveSlot
  split
  · split
    next random _ =>
      -- the message to the peer can be sent before or after it is taken out
      have htell : Moves h (h.emit (h.toPeer random.peerId (.disconnect true))) :=
        .single (.tell random.peerId)
      exact (htell.tail (.drop random.peerId)).trans (grows_addNodeToPassiveView _ _).moves
    · exact .refl
  · exact .refl

/-! ## The handlers -/

theorem grows_initiateJoin (peer : AddressablePeer P A) : Grows h (h.initiateJoin peer) :=
  .single (.send _ _ nofun nofun)

theorem grows_injectJoin (ρ : ℕ → ℕ) (sender : P) (peer : AddressablePeer P A) (ttl : ℕ) :
    Grows h (h.injectJoin ρ sender peer ttl) := by
  unfold injectJoin
  split
  · exact .refl
  · refine ReflTransGen.trans ?_ (grows_notifyAll _ nofun nofun)
    split
    · exact grows_addNodeToPassiveView _ _
    · exact grows_addNodeToActiveView _

/-- The part of `injectForwardJoin` after a slot was freed. -/
theorem grows_forward (ρ : ℕ → ℕ) (peer : AddressablePeer P A) (ttl : ℕ) (sender : P) :
    Grows h (let h := if h.overconnected then h.addNodeToPassiveView (ρ 2) peer
        else h.addNodeToActiveView peer true
      if ttl = 0 then h
      else h.notifyAll (h.activeExcept sender peer.peerId)
        (.forwardJoin (ttl - 1) (some peer))) := by
  have hadd : Grows h (if h.overconnected then h.addNodeToPassiveView (ρ 2) peer
      else h.addNodeToActiveView peer true) := by
    split
    · exact grows_addNodeToPassiveView _ _
    · exact grows_addNodeToActiveView _
  dsimp only
  split
  · exact hadd
  · exact hadd.trans (grows_notifyAll _ nofun nofun)

theorem moves_injectForwardJoin (ρ : ℕ → ℕ) (peer : AddressablePeer P A) (ttl : ℕ)
    (localNode sender : P) : Moves h (h.injectForwardJoin ρ peer ttl localNode sender) := by
  unfold injectForwardJoin
  split
  · exact .refl
  · refine ReflTransGen.trans ?_ (grows_forward ρ peer ttl sender).moves
    split
    · exact moves_freeUpActiveSlot ρ
    · exact .refl

/-- The entries of an active peer are kept in the passive view, one after
another. -/
theorem foldl_addNodeToPassiveView (r : ℕ) {peer : P} {l : List (AddressablePeer P A)}
    (hl : ∀ q ∈ l, q.peerId = peer ∧ peer ∈ h.active) :
    ∃ s : PeerSet P A,
      l.foldl (fun h p => h.addNodeToPassiveView r p) h = { h with passive := s } ∧
      Grows h { h with passive := s } ∧
      ∀ p ∈ s, p ∈ h.passive ∨ p = peer ∧ p ∈ h.active ∧ p ≠ h.localNode.peerId := by
  induction l generalizing h with
  | nil => exact ⟨h.passive, rfl, .refl, fun p hp => .inl hp⟩
  | cons q l ih =>
    obtain ⟨s, hs, hmem, hle⟩ := addNodeToPassiveView_eq (h := h) r q
    obtain ⟨s', hs', hgrow, hmem'⟩ := @ih { h with passive := s } fun q' hq' =>
      hl q' (List.mem_cons_of_mem _ hq')
    refine ⟨s', ?_, (ReflTransGen.single (.hold s hle)).trans hgrow, fun p hp => ?_⟩
    · rw [List.foldl_cons, hs]
      exact hs'
    · rcases hmem' p hp with hp | hp
      · obtain ⟨hq, hactive⟩ := hl q List.mem_cons_self
        rcases hmem p hp with hp | ⟨rfl, hp⟩
        · exact .inl hp
        · exact .inr ⟨hq, hq ▸ hactive, hp⟩
      · exact .inr hp

/-- The passive view when a peer disconnects: it may get the peer if that
is alive and was active, and forgets it otherwise. -/
theorem passive_injectDisconnect (r : ℕ) (peer : P) (alive : Bool) :
    ∃ s : PeerSet P A, Grows h { h with passive := s } ∧
      (∀ p ∈ s, p ∈ h.passive ∨ p = peer ∧ p ∈ h.active ∧ p ≠ h.localNode.peerId) ∧
      (if alive then (h.active.items.filter fun p => p.peerId = peer).foldl
          (fun h p => h.addNodeToPassiveView r p) h
        else { h with passive := h.passive.retain fun p => p.peerId ≠ peer }) =
        { h with passive := s } := by
  cases alive with
  | true =>
    have hpeer : ∀ q ∈ h.active.items.filter fun p => p.peerId = peer,
        q.peerId = peer ∧ peer ∈ h.active := by
      intro q hq
      obtain ⟨hq, hpeer⟩ := List.mem_filter.1 hq
      rw [decide_eq_true_eq] at hpeer
      exact ⟨hpeer, hpeer ▸ KeySet.mem_of_item hq⟩
    obtain ⟨s, hs, hgrow, hmem⟩ := foldl_addNodeToPassiveView r hpeer
    exact ⟨s, hgrow, hmem, hs⟩
  | false =>
    refine ⟨h.passive.remove peer, .single (.hold _ fun hle => ?_), fun p hp => ?_, rfl⟩
    · exact (KeySet.length_remove_le _ _).trans hle
    · exact .inl (KeySet.mem_remove.1 hp).1

/-- A peer that disconnects is taken out of the active view; the passive
view may get it, when it was active. -/
theorem injectDisconnect_eq (r : ℕ) (peer : P) (alive : Bool) :
    ∃ s : PeerSet P A, Grows h { h with passive := s } ∧
      (∀ p ∈ s, p ∈ h.passive ∨ p = peer ∧ p ∈ h.active ∧ p ≠ h.localNode.peerId) ∧
      h.injectDisconnect r peer alive = if peer ∈ h.active then
        { h with passive := s, active := h.active.remove peer }.emit
          (.generateEvent (.peerRemoved peer)) else { h with passive := s } := by
  obtain ⟨s, hgrow, hmem, hs⟩ := passive_injectDisconnect (h := h) r peer alive
  refine ⟨s, hgrow, hmem, ?_⟩
  unfold injectDisconnect
  rw [hs]
  exact if_congr isActive_iff rfl rfl

theorem moves_injectDisconnect (r : ℕ) (peer : P) (alive : Bool) :
    Moves h (h.injectDisconnect r peer alive) := by
  obtain ⟨s, hgrow, -, hs⟩ := injectDisconnect_eq (h := h) r peer alive
  rw [hs]
  split
  · exact hgrow.moves.tail (.drop peer)
  · exact hgrow.moves

theorem moves_injectNeighbor (ρ : ℕ → ℕ) (peer : AddressablePeer P A) (priority : ℤ) :
    Moves h (h.injectNeighbor ρ peer priority) := by
  unfold injectNeighbor
  split
  · exact .refl
  split
  · exact moves_accept peer
  split
  · exact (moves_freeUpActiveSlot ρ).trans (moves_accept peer)
  · exact moves_injectDisconnect _ _ _

/-- Several peers kept in the passive view, one after another. -/
theorem addAllToPassiveView_eq (ρ : ℕ → ℕ) (l : List (AddressablePeer P A)) :
    ∃ s : PeerSet P A, addAllToPassiveView ρ l h = { h with passive := s } ∧
      Grows h { h with passive := s } ∧
      ∀ p ∈ s, p ∈ h.passive ∨ p ∈ l.map AddressablePeer.peerId ∧ p ≠ h.localNode.peerId := by
  induction l generalizing h ρ with
  | nil => exact ⟨h.passive, rfl, .refl, fun p hp => .inl hp⟩
  | cons q l ih =>
    obtain ⟨s, hs, hmem, hle⟩ := addNodeToPassiveView_eq (h := h) (ρ 0) q
    obtain ⟨s', hs', hgrow, hmem'⟩ := ih (h := { h with passive := s }) fun i => ρ (i + 1)
    refine ⟨s', ?_, (ReflTransGen.single (.hold s hle)).trans hgrow, fun p hp => ?_⟩
    · rw [addAllToPassiveView, hs]
      exact hs'
    · rw [List.map_cons, List.mem_cons]
      rcases hmem' p hp with hp | ⟨hp, hl⟩
      · rcases hmem p hp with hp | ⟨hp, hl⟩
        · exact .inl hp
        · exact .inr ⟨.inl hp, hl⟩
      · exact .inr ⟨.inr hp, hl⟩

theorem sendShuffleReply_eq (origin : AddressablePeer P A) (nodes : List (AddressablePeer P A)) :
    ∃ es, h.sendShuffleReply origin nodes = { h with outEvents := es } := by
  unfold sendShuffleReply
  dsimp only
  split
  · exact ⟨_, rfl⟩
  · exact ⟨_, rfl⟩

theorem grows_sendShuffleReply (origin : AddressablePeer P A) (nodes : List (AddressablePeer P A)) :
    Grows h (h.sendShuffleReply origin nodes) := by
  unfold sendShuffleReply
  dsimp only
  split
  · exact .single (.send _ _ nofun nofun)
  · exact (ReflTransGen.single (.dial _ _ _)).tail (.send _ _ nofun nofun)

/-- A shuffle brings peers that are in neither view to the passive one,
and goes on to another active peer. Without one the origin is added. -/
theorem injectShuffle_eq (ρ : ℕ → ℕ) (sender : P) (ttl : ℕ)
    (nodes : List (AddressablePeer P A)) (origin : AddressablePeer P A) :
    ∃ (s : PeerSet P A) (es : List (NetworkAction P A)),
      Grows h { h with passive := s, outEvents := es } ∧
      (∀ p ∈ s, p ∈ h.passive ∨ p ∈ nodes.map AddressablePeer.peerId ∧ p ∉ h.active ∧
        p ≠ h.localNode.peerId) ∧
      let k := { h with passive := s, outEvents := es }
      h.injectShuffle ρ sender ttl nodes origin = if ttl = 0 then k
        else match pick (ρ 1) (h.activeExcept sender origin.peerId) with
          | some random =>
            k.emit (k.toPeer random (.shuffle (ttl - 1) (some origin) (nodes.map some)))
          | none => k.addNodeToActiveView origin true := by
  have hreply := grows_sendShuffleReply (h := h) origin
    (pickMany (ρ 0) h.config.shuffleMaxSize
      ((h.active.union h.passive).retain fun n => n.peerId ∉ (.ofList nodes : PeerSet P A)).items)
  obtain ⟨es, hes⟩ := sendShuffleReply_eq (h := h) origin
    (pickMany (ρ 0) h.config.shuffleMaxSize
      ((h.active.union h.passive).retain fun n => n.peerId ∉ (.ofList nodes : PeerSet P A)).items)
  obtain ⟨s, hs, hgrow, hmem⟩ := addAllToPassiveView_eq (h := { h with outEvents := es })
    (fun i => ρ (i + 2)) ((.ofList nodes : PeerSet P A).retain fun n =>
      n.peerId ∉ h.active ∧ n.peerId ∉ h.passive ∧ n.peerId ≠ h.localNode.peerId).items
  refine ⟨s, es, (hes ▸ hreply).trans hgrow, fun p hp => ?_, ?_⟩
  · rcases hmem p hp with hp | ⟨hp, -⟩
    · exact .inl hp
    · obtain ⟨q, hq, rfl⟩ := List.mem_map.1 hp
      obtain ⟨hq, hnew⟩ := List.mem_filter.1 hq
      obtain ⟨ha, -, hl⟩ := of_decide_eq_true hnew
      exact .inr ⟨KeySet.mem_ofList.1 (KeySet.mem_of_item hq), ha, hl⟩
  · unfold injectShuffle
    dsimp only
    rw [hes]
    dsimp only
    rw [hs]
    rfl

theorem grows_injectShuffle (ρ : ℕ → ℕ) (sender : P) (ttl : ℕ)
    (nodes : List (AddressablePeer P A)) (origin : AddressablePeer P A) :
    Grows h (h.injectShuffle ρ sender ttl nodes origin) := by
  obtain ⟨s, es, hgrow, -, heq⟩ := injectShuffle_eq (h := h) ρ sender ttl nodes origin
  rw [heq]
  split
  · exact hgrow
  split
  · exact hgrow.tail (.send _ _ nofun nofun)
  · exact hgrow.trans (grows_addNodeToActiveView origin)

theorem grows_injectShuffleReply (nodes : List (WirePeer P A)) :
    Grows h (h.injectShuffleReply nodes) := by
  refine .single (.hold _ fun _ => ?_)
  split
  · exact Nat.zero_le _
  · next hunder => exact Nat.not_lt.1 hunder

theorem grows_maybeMoveRandomPassiveToActive (r : ℕ) :
    Grows h (h.maybeMoveRandomPassiveToActive r) := by
  unfold maybeMoveRandomPassiveToActive
  split
  · split
    next random _ =>
      have hhold : Grow h { h with passive := h.passive.remove random.peerId } :=
        .hold _ fun hle => (KeySet.length_remove_le _ _).trans hle
      exact (ReflTransGen.single hhold).trans (grows_addNodeToActiveView random)
    · exact .refl
  · exact .refl

/-- A shuffle that is due only sends; the tick promotes a peer. -/
theorem maintain_eq (ρ : ℕ → ℕ) (shuffleDue tickDue : Bool) :
    ∃ es, Grows h { h with outEvents := es } ∧
      let k := { h with outEvents := es }
      h.maintain ρ shuffleDue tickDue =
        if tickDue then k.maybeMoveRandomPassiveToActive (ρ 2) else k := by
  unfold maintain
  cases shuffleDue with
  | false => exact ⟨h.outEvents, .refl, rfl⟩
  | true =>
    rw [if_pos rfl]
    split
    next random hpick =>
      have hsend : Grow h (h.sendShuffle (ρ 1) random.peerId) := .send _ _ nofun nofun
      exact ⟨_, .single hsend, rfl⟩
    · exact ⟨h.outEvents, .refl, rfl⟩

theorem grows_maintain (ρ : ℕ → ℕ) (shuffleDue tickDue : Bool) :
    Grows h (h.maintain ρ shuffleDue tickDue) := by
  obtain ⟨es, hgrow, heq⟩ := maintain_eq (h := h) ρ shuffleDue tickDue
  rw [heq]
  split
  · exact hgrow.trans (grows_maybeMoveRandomPassiveToActive _)
  · exact hgrow

/-- Polling takes the first event of the queue. -/
theorem poll_eq (ρ : ℕ → ℕ) (shuffleDue tickDue : Bool) :
    h.poll ρ shuffleDue tickDue = ((h.maintain ρ shuffleDue tickDue).outEvents.head?,
      { h.maintain ρ shuffleDue tickDue with
        outEvents := (h.maintain ρ shuffleDue tickDue).outEvents.tail }) := by
  generalize hk : h.maintain ρ shuffleDue tickDue = k
  unfold poll
  rw [hk]
  obtain ⟨config, topic, localNode, active, passive, outEvents⟩ := k
  cases outEvents <;> rfl

/-- **What a step does**: moves, and an event may be taken from the
queue. -/
theorem step_moves (h : HyParView P A) (ρ : ℕ → ℕ) (i : Input P A) :
    ∃ k es, Moves h k ∧ h.step ρ i = { k with outEvents := es } := by
  cases i with
  | initiateJoin peer => exact ⟨_, _, (grows_initiateJoin peer).moves, rfl⟩
  | join sender peer ttl => exact ⟨_, _, (grows_injectJoin ρ sender peer ttl).moves, rfl⟩
  | forwardJoin peer ttl sender =>
    exact ⟨_, _, moves_injectForwardJoin ρ peer ttl h.localNode.peerId sender, rfl⟩
  | neighbor peer priority => exact ⟨_, _, moves_injectNeighbor ρ peer priority, rfl⟩
  | disconnect peer alive => exact ⟨_, _, moves_injectDisconnect (ρ 0) peer alive, rfl⟩
  | shuffle sender ttl nodes origin =>
    exact ⟨_, _, (grows_injectShuffle ρ sender ttl nodes origin).moves, rfl⟩
  | shuffleReply nodes => exact ⟨_, _, (grows_injectShuffleReply nodes).moves, rfl⟩
  | poll shuffleDue tickDue =>
    exact ⟨_, _, (grows_maintain ρ shuffleDue tickDue).moves,
      congrArg Prod.snd (poll_eq ρ shuffleDue tickDue)⟩

/-! ## What all moves keep -/

theorem Move.config_eq (hm : Move h h') : h'.config = h.config := by
  cases hm with
  | grow hg =>
    cases hg with
    | send | dial | hold => rfl
    | add => exact config_addNodeToActiveView true
  | accept => exact config_addNodeToActiveView false
  | tell | drop => rfl

theorem Move.localNode_eq (hm : Move h h') : h'.localNode = h.localNode := by
  cases hm with
  | grow hg =>
    cases hg with
    | send | dial | hold => rfl
    | add => exact localNode_addNodeToActiveView true
  | accept => exact localNode_addNodeToActiveView false
  | tell | drop => rfl

theorem Moves.config_eq (hm : Moves h h') : h'.config = h.config := by
  induction hm with
  | refl => rfl
  | tail _ hmove ih => rw [hmove.config_eq, ih]

theorem Moves.localNode_eq (hm : Moves h h') : h'.localNode = h.localNode := by
  induction hm with
  | refl => rfl
  | tail _ hmove ih => rw [hmove.localNode_eq, ih]

/-- What holds of the views of every node. -/
structure Sound (h : HyParView P A) : Prop where
  /-- The passive view is within its bound. -/
  passive_le : h.passive.length ≤ h.config.maxPassiveViewSize
  /-- No node is active for itself. -/
  self : h.localNode.peerId ∉ h.active

theorem Move.sound (hm : Move h h') (hs : h.Sound) : h'.Sound := by
  have hadd : ∀ (node : AddressablePeer P A) (b : Bool),
      node.peerId ≠ h.localNode.peerId → (h.addNodeToActiveView node b).Sound := by
    intro node b hl
    refine ⟨?_, ?_⟩
    · rw [passive_addNodeToActiveView, config_addNodeToActiveView]
      exact hs.passive_le
    · rw [localNode_addNodeToActiveView, active_addNodeToActiveView hl, KeySet.mem_insert]
      rintro (hself | hself)
      · exact hs.self hself
      · exact hl hself.symm
  cases hm with
  | grow hg =>
    cases hg with
    | send | dial => exact ⟨hs.passive_le, hs.self⟩
    | hold s hle => exact ⟨hle hs.passive_le, hs.self⟩
    | add node hl => exact hadd node true hl
  | accept node hl => exact hadd node false hl
  | tell => exact ⟨hs.passive_le, hs.self⟩
  | drop p => exact ⟨hs.passive_le, fun hself => hs.self (KeySet.mem_remove.1 hself).1⟩

theorem Moves.sound (hm : Moves h h') (hs : h.Sound) : h'.Sound := by
  induction hm with
  | refl => exact hs
  | tail _ hmove ih => exact hmove.sound ih

omit [DecidableEq P] in
theorem sound_new (topic : String) (config : Config P) (localNode : AddressablePeer P A) :
    (new topic config localNode).Sound := ⟨Nat.zero_le _, KeySet.not_mem_empty⟩

theorem Sound.step (hs : h.Sound) (ρ : ℕ → ℕ) (i : Input P A) : (h.step ρ i).Sound := by
  obtain ⟨k, es, hmoves, heq⟩ := step_moves h ρ i
  rw [heq]
  exact ⟨(hmoves.sound hs).passive_le, (hmoves.sound hs).self⟩

theorem config_step (ρ : ℕ → ℕ) (i : Input P A) : (h.step ρ i).config = h.config := by
  obtain ⟨k, es, hmoves, heq⟩ := step_moves h ρ i
  rw [heq]
  exact hmoves.config_eq

theorem localNode_step (ρ : ℕ → ℕ) (i : Input P A) : (h.step ρ i).localNode = h.localNode := by
  obtain ⟨k, es, hmoves, heq⟩ := step_moves h ρ i
  rw [heq]
  exact hmoves.localNode_eq

theorem config_run (inputs : List (Input P A × (ℕ → ℕ))) : (h.run inputs).config = h.config := by
  induction inputs generalizing h with
  | nil => rfl
  | cons i inputs ih => exact (ih (h := h.step i.2 i.1)).trans (config_step i.2 i.1)

theorem localNode_run (inputs : List (Input P A × (ℕ → ℕ))) :
    (h.run inputs).localNode = h.localNode := by
  induction inputs generalizing h with
  | nil => rfl
  | cons i inputs ih => exact (ih (h := h.step i.2 i.1)).trans (localNode_step i.2 i.1)

end HyParView

end Network

end Rensa
