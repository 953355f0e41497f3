import Rensa.Common.Along
import Rensa.Network.Views
/-!
# The bound of the active view

Peers are added to the active view where it is not full, with two
exceptions. A request of high priority to a full view frees a slot first,
but the peer to give up is drawn from the passive view, so that nothing
is freed unless that peer happens to be active too. And the origin of a
shuffle that cannot go on is added without a look at the size.
-/

namespace Rensa

namespace Network

namespace HyParView

variable {P A : Type} [DecidableEq P] {h h' : HyParView P A} {node : AddressablePeer P A}

/-- The active view holds no more peers than the configuration allows. -/
def Bounded (h : HyParView P A) : Prop := h.active.length ≤ h.config.maxActiveViewSize

instance : Decidable h.Bounded := inferInstanceAs (Decidable (_ ≤ _))

/-- An input that brings no new peer to a full active view: a request of
high priority finds a full view only where the peer drawn from the passive
view is an active one, and a shuffle that ends at a full view comes from
an active peer or from the node itself. -/
def MakesRoom (h : HyParView P A) : Input P A × (ℕ → ℕ) → Prop
  | (.neighbor peer priority, ρ) => priority = Priority.high → h.overconnected →
      peer.peerId ∉ h.active → peer.peerId ≠ h.localNode.peerId →
      ∃ random, pick (ρ 0) h.passive.items = some random ∧ random.peerId ∈ h.active
  | (.shuffle sender ttl _ origin, _) => ttl ≠ 0 → h.overconnected →
      h.activeExcept sender origin.peerId = [] →
      origin.peerId ∈ h.active ∨ origin.peerId = h.localNode.peerId
  | _ => True

/-! ## Adding one peer -/

omit [DecidableEq P] in
theorem Bounded.of_le (hb : h.Bounded) (hlen : h'.active.length ≤ h.active.length)
    (hconfig : h'.config = h.config) : h'.Bounded := by
  show h'.active.length ≤ h'.config.maxActiveViewSize
  rw [hconfig]
  exact hlen.trans hb

theorem bounded_add (hb : h.Bounded) (hfree : ¬ h.overconnected) (b : Bool) :
    (h.addNodeToActiveView node b).Bounded := by
  by_cases hl : node.peerId = h.localNode.peerId
  · rw [addNodeToActiveView_local hl]
    exact hb
  · have hlen := KeySet.length_insert_le h.active node
    rw [overconnected_iff] at hfree
    show _ ≤ _
    rw [active_addNodeToActiveView hl, config_addNodeToActiveView]
    omega

/-- The bound after a new peer was added: there was room. -/
theorem bounded_add_iff (hl : node.peerId ≠ h.localNode.peerId) (ha : node.peerId ∉ h.active)
    (b : Bool) : (h.addNodeToActiveView node b).Bounded ↔
      h.active.length < h.config.maxActiveViewSize := by
  show _ ≤ _ ↔ _
  rw [active_addNodeToActiveView hl, config_addNodeToActiveView, KeySet.length_insert ha]
  omega

/-- Joins: a peer goes to the passive view where the active one is full. -/
theorem bounded_place (hb : h.Bounded) (r : ℕ) :
    (if h.overconnected then h.addNodeToPassiveView r node
      else h.addNodeToActiveView node true).Bounded := by
  split
  · exact hb.of_le (by rw [active_addNodeToPassiveView]) config_addNodeToPassiveView
  next hfree => exact bounded_add hb hfree true

theorem active_freeUpActiveSlot (hfull : h.overconnected) (ρ : ℕ → ℕ) :
    (h.freeUpActiveSlot ρ).active = match pick (ρ 0) h.passive.items with
      | some random => h.active.remove random.peerId
      | none => h.active := by
  unfold freeUpActiveSlot
  rw [if_pos hfull]
  cases pick (ρ 0) h.passive.items with
  | some random => exact active_addNodeToPassiveView
  | none => rfl

theorem length_freeUpActiveSlot_le (ρ : ℕ → ℕ) :
    (h.freeUpActiveSlot ρ).active.length ≤ h.active.length := by
  by_cases hfull : h.overconnected
  · rw [active_freeUpActiveSlot hfull]
    split
    · exact KeySet.length_remove_le _ _
    · exact le_refl _
  · unfold freeUpActiveSlot
    rw [if_neg hfull]

theorem config_freeUpActiveSlot (ρ : ℕ → ℕ) : (h.freeUpActiveSlot ρ).config = h.config :=
  (moves_freeUpActiveSlot ρ).config_eq

theorem localNode_freeUpActiveSlot (ρ : ℕ → ℕ) : (h.freeUpActiveSlot ρ).localNode = h.localNode :=
  (moves_freeUpActiveSlot ρ).localNode_eq

theorem bounded_injectDisconnect (hb : h.Bounded) (r : ℕ) (peer : P) (alive : Bool) :
    (h.injectDisconnect r peer alive).Bounded := by
  obtain ⟨s, -, -, heq⟩ := injectDisconnect_eq (h := h) r peer alive
  rw [heq]
  split
  · exact hb.of_le (KeySet.length_remove_le _ _) rfl
  · exact hb

/-! ## The handlers -/

/-- A request of high priority to a full view keeps the bound just when
the freed slot is one. -/
theorem bounded_injectNeighbor_iff (hb : h.Bounded) (ρ : ℕ → ℕ) (peer : AddressablePeer P A)
    (priority : ℤ) :
    (h.injectNeighbor ρ peer priority).Bounded ↔ h.MakesRoom (.neighbor peer priority, ρ) := by
  unfold injectNeighbor
  split
  next hactive => exact ⟨fun _ _ _ hnew => absurd (isActive_iff.1 hactive) hnew, fun _ => hb⟩
  next hactive =>
  rw [isActive_iff] at hactive
  split
  next hfree =>
    rw [Bool.not_eq_true'] at hfree
    refine ⟨fun _ _ hfull => absurd hfull (by simp [hfree]), fun _ => bounded_add hb ?_ false⟩
    simp [hfree]
  next hfull =>
  have hover : h.overconnected := by simpa using hfull
  have hlen : h.active.length = h.config.maxActiveViewSize :=
    le_antisymm hb (overconnected_iff.1 hover)
  split
  next hhigh =>
    by_cases hl : peer.peerId = h.localNode.peerId
    · rw [addNodeToActiveView_local (hl.trans (by rw [localNode_freeUpActiveSlot]))]
      refine ⟨fun _ _ _ _ hne => absurd hl hne, fun _ => ?_⟩
      exact hb.of_le (length_freeUpActiveSlot_le ρ) (config_freeUpActiveSlot ρ)
    · have hnew : peer.peerId ∉ (h.freeUpActiveSlot ρ).active := by
        rw [active_freeUpActiveSlot hover]
        split
        · exact fun hmem => hactive (KeySet.mem_remove.1 hmem).1
        · exact hactive
      have hl' : peer.peerId ≠ (h.freeUpActiveSlot ρ).localNode.peerId := by
        rw [localNode_freeUpActiveSlot]
        exact hl
      rw [bounded_add_iff hl' hnew, active_freeUpActiveSlot hover, config_freeUpActiveSlot, ← hlen]
      -- what is left of the view is smaller just when an active peer was drawn
      constructor
      · intro hlt _ _ _ _
        split at hlt
        next random hpick =>
          refine ⟨random, hpick, ?_⟩
          by_contra hpassive
          rw [KeySet.remove_of_not_mem hpassive] at hlt
          exact lt_irrefl _ hlt
        · exact absurd hlt (lt_irrefl _)
      · intro hroom
        obtain ⟨random, hpick, hmem⟩ := hroom hhigh hover hactive hl
        have hremove := KeySet.length_remove hmem
        rw [hpick]
        dsimp only
        omega
  next hlow =>
    exact ⟨fun _ hhigh => absurd hhigh hlow, fun _ => bounded_injectDisconnect hb _ _ _⟩

theorem bounded_injectShuffle_iff (hb : h.Bounded) (ρ : ℕ → ℕ) (sender : P) (ttl : ℕ)
    (nodes : List (AddressablePeer P A)) (origin : AddressablePeer P A) :
    (h.injectShuffle ρ sender ttl nodes origin).Bounded ↔
      h.MakesRoom (.shuffle sender ttl nodes origin, ρ) := by
  obtain ⟨s, es, -, -, heq⟩ := injectShuffle_eq (h := h) ρ sender ttl nodes origin
  rw [heq]
  split
  next hzero => exact ⟨fun _ hne => absurd hzero hne, fun _ => hb⟩
  next hne =>
  split
  next random hpick =>
    refine ⟨fun _ _ _ hnone => ?_, fun _ => hb⟩
    rw [hnone] at hpick
    exact absurd (pick_mem hpick) List.not_mem_nil
  next hpick =>
    rw [pick_eq_none] at hpick
    constructor
    · intro hbound _ hfull _
      by_contra hnew
      rw [not_or] at hnew
      rw [bounded_add_iff (by exact hnew.2) (by exact hnew.1)] at hbound
      exact absurd hbound (Nat.not_lt.2 (overconnected_iff.1 hfull))
    · intro hroom
      by_cases hfull : h.overconnected
      · rcases hroom hne hfull hpick with hmem | hl
        · rw [addNodeToActiveView_mem (by exact hmem)]
          exact hb
        · rw [addNodeToActiveView_local (by exact hl)]
          exact hb
      · exact bounded_add (by exact hb) (by exact hfull) true

/-- A starved view is not full: with no room at all there is no passive
peer to promote either. -/
theorem bounded_maybeMoveRandomPassiveToActive (hs : h.Sound) (hb : h.Bounded) (r : ℕ) :
    (h.maybeMoveRandomPassiveToActive r).Bounded := by
  unfold maybeMoveRandomPassiveToActive
  split
  next hstarved =>
    split
    next random hpick =>
      have hpos : 0 < h.passive.length := List.length_pos_of_mem (pick_mem hpick)
      have hle := hs.passive_le
      have hmax : 0 < h.config.maxActiveViewSize := by
        by_contra hzero
        rw [Config.maxPassiveViewSize, Nat.eq_zero_of_not_pos hzero, Nat.zero_mul] at hle
        omega
      have hlt : h.active.length < max (h.config.maxActiveViewSize / 2) 1 :=
        of_decide_eq_true hstarved
      refine bounded_add (by exact hb) (fun hfull => ?_) true
      have hover : h.config.maxActiveViewSize ≤ h.active.length := overconnected_iff.1 hfull
      omega
    · exact hb
  · exact hb

theorem bounded_maintain (hs : h.Sound) (hb : h.Bounded) (ρ : ℕ → ℕ) (shuffleDue tickDue : Bool) :
    (h.maintain ρ shuffleDue tickDue).Bounded := by
  obtain ⟨es, -, heq⟩ := maintain_eq (h := h) ρ shuffleDue tickDue
  rw [heq]
  split
  · exact bounded_maybeMoveRandomPassiveToActive (h := { h with outEvents := es })
      ⟨hs.passive_le, hs.self⟩ hb (ρ 2)
  · exact hb

/-! ## Runs -/

/-- **One step**: the bound is kept just when the input makes room. -/
theorem bounded_step_iff (hs : h.Sound) (hb : h.Bounded) (i : Input P A × (ℕ → ℕ)) :
    (h.step i.2 i.1).Bounded ↔ h.MakesRoom i := by
  obtain ⟨i, ρ⟩ := i
  cases i with
  | initiateJoin peer => exact iff_of_true hb trivial
  | join sender peer ttl =>
    refine iff_of_true ?_ trivial
    show (h.injectJoin ρ sender peer ttl).Bounded
    unfold injectJoin
    split
    · exact hb
    · exact bounded_place hb (ρ 0)
  | forwardJoin peer ttl sender =>
    refine iff_of_true ?_ trivial
    show (h.injectForwardJoin ρ peer ttl h.localNode.peerId sender).Bounded
    unfold injectForwardJoin
    split
    · exact hb
    · have hfreed : (if ttl = 0 ∧ ¬ h.isActive peer.peerId then h.freeUpActiveSlot ρ
          else h).Bounded := by
        split
        · exact hb.of_le (length_freeUpActiveSlot_le ρ) (config_freeUpActiveSlot ρ)
        · exact hb
      dsimp only
      split
      · exact bounded_place hfreed (ρ 2)
      · exact bounded_place hfreed (ρ 2)
  | neighbor peer priority => exact bounded_injectNeighbor_iff hb ρ peer priority
  | disconnect peer alive => exact iff_of_true (bounded_injectDisconnect hb _ _ _) trivial
  | shuffle sender ttl nodes origin => exact bounded_injectShuffle_iff hb ρ sender ttl nodes origin
  | shuffleReply nodes => exact iff_of_true hb trivial
  | poll shuffleDue tickDue =>
    refine iff_of_true ?_ trivial
    show ((h.poll ρ shuffleDue tickDue).2).Bounded
    rw [poll_eq]
    exact bounded_maintain hs hb ρ shuffleDue tickDue

/-- **The bound of the active view**: it holds in all states of a run just
when every input makes room. -/
theorem active_bounded_iff (topic : String) (config : Config P) (localNode : AddressablePeer P A)
    (inputs : List (Input P A × (ℕ → ℕ))) :
    (∀ l, l <+: inputs →
      ((new topic config localNode).run l).active.length ≤ config.maxActiveViewSize) ↔
    Along (fun h i => h.step i.2 i.1) MakesRoom (new topic config localNode) inputs := by
  have hiff := along_iff (f := fun (h : HyParView P A) i => h.step i.2 i.1) (q := MakesRoom)
    (I := Sound) (B := Bounded) (sound_new topic config localNode) (Nat.zero_le _)
    (fun h i hs => hs.step i.2 i.1) (fun h i hs hb => bounded_step_iff hs hb i) inputs
  rw [← hiff]
  refine forall₂_congr fun l _ => ?_
  have hconfig : ((new topic config localNode).run l).config = config := config_run l
  show _ ↔ _ ≤ ((new topic config localNode).run l).config.maxActiveViewSize
  rw [hconfig]
  rfl

/-- An active view of one peer, as for a network of size one. -/
def single : Config ℕ := { Config.default with maxActiveViewSize := 1 }

/-- A request of high priority is accepted by a full view that has no
passive peer to draw: two peers are active where one is allowed. -/
theorem active_overfull : single.maxActiveViewSize <
    ((new "blocks" single (⟨0, []⟩ : AddressablePeer ℕ Unit)).run
      [(.neighbor ⟨1, []⟩ Priority.low, id),
        (.neighbor ⟨2, []⟩ Priority.high, id)]).active.length := by
  decide

end HyParView

end Network

end Rensa
