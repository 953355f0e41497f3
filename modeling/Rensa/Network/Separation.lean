import Rensa.Common.Along
import Rensa.Network.Views
/-!
# The two views are apart

The passive view is within its bound and no node is active for itself,
whatever happens (`Sound`). That the views share no peer, and that a node
is not passive for itself, depends on what peers send: a join, a forward
join or a request adds a passive peer to the active view and leaves it in
the passive one, a full node puts an active peer of a forward join into
its passive view, and the peers of a shuffle reply are taken as they are.
-/

namespace Rensa

namespace Network

namespace HyParView

variable {P A : Type} [DecidableEq P] {h : HyParView P A} {node : AddressablePeer P A}

/-- The views share no peer, and the node is in neither. -/
structure Separated (h : HyParView P A) : Prop extends Sound h where
  disjoint : ∀ p ∈ h.active, p ∉ h.passive
  self_passive : h.localNode.peerId ∉ h.passive

/-- An input that brings no peer of one view to the other.
- A peer that would be added to the active view is not passive.
- A forward join at a full node is for a peer that is not active.
- The origin of a shuffle that ends here is not among its nodes.
- The peers of a shuffle reply are not active, and not the node itself;
  or they are too many, and the passive view is emptied. -/
def KeepsApart (h : HyParView P A) : Input P A × (ℕ → ℕ) → Prop
  | (.join _ peer _, _) => peer.peerId ∉ h.active → ¬ h.overconnected → peer.peerId ∉ h.passive
  | (.forwardJoin peer _ _, _) => if h.overconnected then peer.peerId ∉ h.active
      else peer.peerId ∉ h.active → peer.peerId ∉ h.passive
  | (.neighbor peer priority, _) => peer.peerId ∉ h.active →
      (h.overconnected → priority = Priority.high) → peer.peerId ∉ h.passive
  | (.shuffle sender ttl nodes origin, _) => ttl ≠ 0 →
      h.activeExcept sender origin.peerId = [] → origin.peerId ∉ h.active →
      origin.peerId ≠ h.localNode.peerId →
      origin.peerId ∉ h.passive ∧ origin.peerId ∉ nodes.map AddressablePeer.peerId
  | (.shuffleReply nodes, _) =>
      h.config.maxPassiveViewSize < (h.passive.union (.ofList (nodes.filterMap id))).length ∨
      ∀ n ∈ nodes.filterMap id, n.peerId ∉ h.active ∧ n.peerId ≠ h.localNode.peerId
  | _ => True

/-! ## The moves -/

namespace Separated

omit [DecidableEq P] in
theorem queue (hs : h.Separated) (es : List (NetworkAction P A)) :
    { h with outEvents := es }.Separated :=
  ⟨⟨hs.passive_le, hs.self⟩, hs.disjoint, hs.self_passive⟩

/-- A peer is added to the active view that is not in the passive one. -/
theorem add (hs : h.Separated) (hp : node.peerId ∉ h.active → node.peerId ∉ h.passive) (b : Bool) :
    (h.addNodeToActiveView node b).Separated := by
  by_cases hl : node.peerId = h.localNode.peerId
  · rw [addNodeToActiveView_local hl]
    exact hs
  by_cases ha : node.peerId ∈ h.active
  · rw [addNodeToActiveView_mem ha]
    exact hs
  rw [addNodeToActiveView_new hl ha]
  refine ⟨⟨hs.passive_le, fun hself => ?_⟩, fun p hpa => ?_, hs.self_passive⟩
  · rcases KeySet.mem_insert.1 hself with hself | hself
    · exact hs.self hself
    · exact hl hself.symm
  · rcases KeySet.mem_insert.1 hpa with hpa | rfl
    · exact hs.disjoint p hpa
    · exact hp ha

omit [DecidableEq P] in
/-- Another passive view, of peers that are not active. -/
theorem hold (hs : h.Separated) {s : PeerSet P A} (hle : s.length ≤ h.config.maxPassiveViewSize)
    (hmem : ∀ p ∈ s, p ∈ h.passive ∨ p ∉ h.active ∧ p ≠ h.localNode.peerId) :
    { h with passive := s }.Separated := by
  refine ⟨⟨hle, hs.self⟩, fun p hpa hps => ?_, fun hself => ?_⟩
  · rcases hmem p hps with hp | ⟨hp, -⟩
    · exact hs.disjoint p hpa hp
    · exact hp hpa
  · rcases hmem _ hself with hp | ⟨-, hp⟩
    · exact hs.self_passive hp
    · exact hp rfl

theorem keep (hs : h.Separated) (ha : node.peerId ∉ h.active) (r : ℕ) :
    (h.addNodeToPassiveView r node).Separated := by
  obtain ⟨s, heq, hmem, hle⟩ := addNodeToPassiveView_eq (h := h) r node
  rw [heq]
  refine hs.hold (hle hs.passive_le) fun p hp => ?_
  rcases hmem p hp with hp | ⟨rfl, hl⟩
  · exact .inl hp
  · exact .inr ⟨ha, hl⟩

/-- Nothing is freed: the peer drawn from the passive view is not active,
and it is passive already. -/
theorem freeUpActiveSlot_eq (hs : h.Separated) (ρ : ℕ → ℕ) :
    ∃ es, h.freeUpActiveSlot ρ = { h with outEvents := es } := by
  unfold freeUpActiveSlot
  split
  · split
    next random hpick =>
      have hpassive : random.peerId ∈ h.passive := KeySet.mem_of_item (pick_mem hpick)
      have hactive : random.peerId ∉ h.active := fun ha => hs.disjoint _ ha hpassive
      rw [KeySet.remove_of_not_mem hactive]
      dsimp only
      rw [addNodeToPassiveView_mem (by exact hpassive) (by exact hs.passive_le)]
      exact ⟨_, rfl⟩
    · exact ⟨h.outEvents, rfl⟩
  · exact ⟨h.outEvents, rfl⟩

theorem drop (hs : h.Separated) (r : ℕ) (peer : P) (alive : Bool) :
    (h.injectDisconnect r peer alive).Separated := by
  obtain ⟨s, hgrow, hmem, heq⟩ := injectDisconnect_eq (h := h) r peer alive
  have hle : s.length ≤ h.config.maxPassiveViewSize := (hgrow.moves.sound hs.toSound).passive_le
  rw [heq]
  split
  next hactive =>
    refine ⟨⟨hle, fun hself => hs.self (KeySet.mem_remove.1 hself).1⟩, fun p hpa hps => ?_,
      fun hself => ?_⟩
    · obtain ⟨hpa, hne⟩ := KeySet.mem_remove.1 hpa
      rcases hmem p hps with hp | ⟨hp, -⟩
      · exact hs.disjoint p hpa hp
      · exact hne hp
    · rcases hmem _ hself with hp | ⟨-, -, hp⟩
      · exact hs.self_passive hp
      · exact hp rfl
  next hactive =>
    refine hs.hold hle fun p hp => ?_
    rcases hmem p hp with hp | ⟨rfl, hp, -⟩
    · exact .inl hp
    · exact absurd hp hactive

end Separated

/-! ## The handlers -/

theorem separated_forwardJoin (hs : h.Separated) {peer : AddressablePeer P A} {ttl : ℕ} {sender : P}
    {ρ : ℕ → ℕ} (hi : h.KeepsApart (.forwardJoin peer ttl sender, ρ)) :
    (h.injectForwardJoin ρ peer ttl h.localNode.peerId sender).Separated := by
  unfold injectForwardJoin
  split
  · exact hs
  · have hfreed : ∃ es, (if ttl = 0 ∧ ¬ h.isActive peer.peerId then h.freeUpActiveSlot ρ
        else h) = { h with outEvents := es } := by
      split
      · exact hs.freeUpActiveSlot_eq ρ
      · exact ⟨h.outEvents, rfl⟩
    obtain ⟨es, hes⟩ := hfreed
    have hplace : (if { h with outEvents := es }.overconnected then
        { h with outEvents := es }.addNodeToPassiveView (ρ 2) peer
        else { h with outEvents := es }.addNodeToActiveView peer true).Separated := by
      have hi : if h.overconnected then peer.peerId ∉ h.active
          else peer.peerId ∉ h.active → peer.peerId ∉ h.passive := hi
      split
      next hfull =>
        rw [if_pos (by exact hfull)] at hi
        exact (hs.queue es).keep hi (ρ 2)
      next hfree =>
        rw [if_neg (by exact hfree)] at hi
        exact (hs.queue es).add hi true
    rw [hes]
    dsimp only
    split
    · exact hplace
    · exact hplace.queue _

theorem separated_neighbor (hs : h.Separated) {peer : AddressablePeer P A} {priority : ℤ}
    {ρ : ℕ → ℕ} (hi : h.KeepsApart (.neighbor peer priority, ρ)) :
    (h.injectNeighbor ρ peer priority).Separated := by
  unfold injectNeighbor
  split
  · exact hs
  next hactive =>
  rw [isActive_iff] at hactive
  split
  next hfree =>
    rw [Bool.not_eq_true'] at hfree
    exact hs.add (fun _ => hi hactive fun hfull => absurd hfull (by simp [hfree])) false
  split
  next hhigh =>
    obtain ⟨es, hes⟩ := hs.freeUpActiveSlot_eq ρ
    rw [hes]
    exact (hs.queue es).add (fun _ => hi hactive fun _ => hhigh) false
  · exact hs.drop _ _ _

theorem separated_shuffle (hs : h.Separated) {sender : P} {ttl : ℕ}
    {nodes : List (AddressablePeer P A)} {origin : AddressablePeer P A} {ρ : ℕ → ℕ}
    (hi : h.KeepsApart (.shuffle sender ttl nodes origin, ρ)) :
    (h.injectShuffle ρ sender ttl nodes origin).Separated := by
  obtain ⟨s, es, hgrow, hmem, heq⟩ := injectShuffle_eq (h := h) ρ sender ttl nodes origin
  have hle : s.length ≤ h.config.maxPassiveViewSize := (hgrow.moves.sound hs.toSound).passive_le
  have hheld : { h with passive := s, outEvents := es }.Separated := by
    refine Separated.queue (hs.hold hle fun p hp => ?_) es
    rcases hmem p hp with hp | ⟨-, hp⟩
    · exact .inl hp
    · exact .inr hp
  rw [heq]
  split
  · exact hheld
  next hne =>
  split
  · exact hheld.queue _
  next hpick =>
    by_cases hl : origin.peerId = h.localNode.peerId
    · rw [addNodeToActiveView_local (by exact hl)]
      exact hheld
    · refine hheld.add (fun hactive hpassive => ?_) true
      obtain ⟨hpassive', hnodes⟩ := hi hne (pick_eq_none.1 hpick) hactive hl
      rcases hmem _ hpassive with hp | ⟨hp, -⟩
      · exact hpassive' hp
      · exact hnodes hp

theorem separated_shuffleReply (hs : h.Separated) {nodes : List (WirePeer P A)} {ρ : ℕ → ℕ}
    (hi : h.KeepsApart (.shuffleReply nodes, ρ)) : (h.injectShuffleReply nodes).Separated := by
  unfold injectShuffleReply
  dsimp only
  split
  next hover => exact hs.hold (Nat.zero_le _) fun p hp => absurd hp KeySet.not_mem_empty
  next hunder =>
    refine hs.hold (Nat.not_lt.1 hunder) fun p hp => ?_
    rcases KeySet.mem_union.1 hp with hp | hp
    · exact .inl hp
    · obtain ⟨n, hn, rfl⟩ := List.mem_map.1 (KeySet.mem_ofList.1 hp)
      rcases hi with hover | hnodes
      · exact absurd hover hunder
      · exact .inr (hnodes n hn)

/-- A promoted peer leaves the passive view first. -/
theorem separated_maintain (hs : h.Separated) (ρ : ℕ → ℕ) (shuffleDue tickDue : Bool) :
    (h.maintain ρ shuffleDue tickDue).Separated := by
  obtain ⟨es, -, heq⟩ := maintain_eq (h := h) ρ shuffleDue tickDue
  have hqueued := hs.queue es
  rw [heq]
  split
  · unfold maybeMoveRandomPassiveToActive
    split
    · split
      next random hpick =>
        have hheld : { h with
            outEvents := es
            passive := h.passive.remove random.peerId }.Separated :=
          hqueued.hold ((KeySet.length_remove_le _ _).trans hs.passive_le) fun p hp =>
            .inl (KeySet.mem_remove.1 hp).1
        exact hheld.add (fun _ hp => (KeySet.mem_remove.1 hp).2 rfl) true
      · exact hqueued
    · exact hqueued
  · exact hqueued

/-! ## Runs -/

/-- **One step** with an input that keeps the views apart. -/
theorem Separated.step (hs : h.Separated) (i : Input P A × (ℕ → ℕ)) (hi : h.KeepsApart i) :
    (h.step i.2 i.1).Separated := by
  obtain ⟨i, ρ⟩ := i
  cases i with
  | initiateJoin peer => exact hs.queue _
  | join sender peer ttl =>
    show (h.injectJoin ρ sender peer ttl).Separated
    unfold injectJoin
    split
    · exact hs
    next hactive =>
      rw [isActive_iff] at hactive
      refine Separated.queue ?_ _
      split
      · exact hs.keep hactive (ρ 0)
      next hfree => exact hs.add (fun _ => hi hactive hfree) true
  | forwardJoin peer ttl sender => exact separated_forwardJoin hs hi
  | neighbor peer priority => exact separated_neighbor hs hi
  | disconnect peer alive => exact hs.drop _ _ _
  | shuffle sender ttl nodes origin => exact separated_shuffle hs hi
  | shuffleReply nodes => exact separated_shuffleReply hs hi
  | poll shuffleDue tickDue =>
    show ((h.poll ρ shuffleDue tickDue).2).Separated
    rw [poll_eq]
    exact (separated_maintain hs ρ shuffleDue tickDue).queue _

/-- **The views are apart** in every state of a run whose inputs bring no
peer of one view to the other. -/
theorem views_apart (topic : String) (config : Config P) (localNode : AddressablePeer P A)
    (inputs : List (Input P A × (ℕ → ℕ)))
    (hinputs : Along (fun h i => h.step i.2 i.1) KeepsApart (new topic config localNode) inputs) :
    let h := (new topic config localNode).run inputs
    (∀ p ∈ h.active, p ∉ h.passive) ∧ localNode.peerId ∉ h.active ∧
      localNode.peerId ∉ h.passive ∧ h.passive.length ≤ config.maxPassiveViewSize := by
  have hnew : (new topic config localNode).Separated :=
    ⟨sound_new topic config localNode, fun p hp => absurd hp KeySet.not_mem_empty,
      KeySet.not_mem_empty⟩
  have hrun : ((new topic config localNode).run inputs).Separated :=
    hinputs.rule hnew fun h i hs hi => hs.step i hi
  have hlocal : ((new topic config localNode).run inputs).localNode = localNode :=
    localNode_run inputs
  have hconfig : ((new topic config localNode).run inputs).config = config := config_run inputs
  have hself := hrun.self
  have hself' := hrun.self_passive
  have hle := hrun.passive_le
  rw [hlocal] at hself hself'
  rw [hconfig] at hle
  exact ⟨hrun.disjoint, hself, hself', hle⟩

/-- A peer joins, and another one comes with a shuffle reply. -/
theorem views_apart_two :
    let h := (new "blocks" Config.default (⟨0, []⟩ : AddressablePeer ℕ Unit)).run
      [(.join 1 ⟨1, []⟩ 2, id), (.shuffleReply [some ⟨2, []⟩], id)]
    (1 ∈ h.active ∧ 2 ∈ h.passive) ∧ (∀ p ∈ h.active, p ∉ h.passive) ∧ 0 ∉ h.active ∧
      0 ∉ h.passive ∧ h.passive.length ≤ Config.default.maxPassiveViewSize (P := ℕ) :=
  ⟨by decide, views_apart "blocks" Config.default ⟨0, []⟩
    [(.join 1 ⟨1, []⟩ 2, id), (.shuffleReply [some ⟨2, []⟩], id)]
    ⟨fun _ _ => KeySet.not_mem_empty, .inr (by decide), trivial⟩⟩

/-- A shuffle reply that names an active peer and the node itself puts
both into the passive view. -/
theorem views_overlap :
    let h := (new "blocks" Config.default (⟨0, []⟩ : AddressablePeer ℕ Unit)).run
      [(.join 1 ⟨1, []⟩ 2, id), (.shuffleReply [some ⟨1, []⟩, some ⟨0, []⟩], id)]
    1 ∈ h.active ∧ 1 ∈ h.passive ∧ 0 ∈ h.passive := by
  decide

end HyParView

end Network

end Rensa
