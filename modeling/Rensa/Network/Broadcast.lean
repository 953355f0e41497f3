import Rensa.Common.Along
import Rensa.Network.Model.Overlay
import Rensa.Network.Views
/-!
# The broadcast tree follows the membership view

The tree learns of a change of the active view when the event of the
change is polled. So the tree is compared with the view as it will be once
the queued events are polled (`settle`). The moves of the views keep the
two together. Prunes and grafts go to the tree at once, from whoever sends
them: they are harmless where a removal of the peer is queued, or where
the peer is active and its addition was polled already.
-/

namespace Rensa

namespace Network

variable {P A : Type} [DecidableEq P]

/-! ## Queued changes of the view -/

/-- The event that a peer was removed. -/
def NetworkAction.removes (p : P) : NetworkAction P A → Bool
  | .generateEvent (.peerRemoved q) => q = p
  | _ => false

/-- The event that a peer was added. -/
def NetworkAction.adds (p : P) : NetworkAction P A → Bool
  | .generateEvent (.peerAdded q) => q = p
  | _ => false

namespace PlumTree

open TopicMesh (follow)

variable {t t' : PlumTree P A} {es : List (NetworkAction P A)} {p q : P} {active : PeerSet P A}

/-- The tree when some events of the view are polled. -/
def settle (t : PlumTree P A) (es : List (NetworkAction P A)) : PlumTree P A := es.foldl follow t

theorem settle_append (es' : List (NetworkAction P A)) :
    t.settle (es ++ es') = (t.settle es).settle es' := List.foldl_append

/-- Two trees have a peer in the same sets. -/
def Agree (t t' : PlumTree P A) (p : P) : Prop :=
  (p ∈ t.eager ↔ p ∈ t'.eager) ∧ (p ∈ t.lazy ↔ p ∈ t'.lazy)

omit [DecidableEq P] in
theorem Agree.refl (t : PlumTree P A) (p : P) : t.Agree t p := ⟨Iff.rfl, Iff.rfl⟩

/-- What one event does to the sets. -/
theorem mem_follow (t : PlumTree P A) (e : NetworkAction P A) (p : P) :
    (p ∈ (follow t e).eager ↔ (p ∈ t.eager ∨ e.adds p) ∧ ¬ e.removes p) ∧
    (p ∈ (follow t e).lazy ↔ p ∈ t.lazy ∧ ¬ e.removes p) := by
  cases e with
  | generateEvent event =>
    cases event with
    | peerAdded q =>
      simp [follow, injectNeighborUp, NetworkAction.adds, NetworkAction.removes, eq_comm]
    | peerRemoved q =>
      simp [follow, injectNeighborDown, NetworkAction.adds, NetworkAction.removes, eq_comm]
    | message | subscribed => simp [follow, NetworkAction.adds, NetworkAction.removes]
  | notifyHandler | dial | closeConnection =>
    simp [follow, NetworkAction.adds, NetworkAction.removes]

theorem Agree.settle (h : t.Agree t' p) (es : List (NetworkAction P A)) :
    (t.settle es).Agree (t'.settle es) p := by
  induction es generalizing t t' with
  | nil => exact h
  | cons e es ih =>
    have hstep : (follow t e).Agree (follow t' e) p := by
      obtain ⟨heager, hlazy⟩ := mem_follow t e p
      obtain ⟨heager', hlazy'⟩ := mem_follow t' e p
      exact ⟨by rw [heager, heager', h.1], by rw [hlazy, hlazy', h.2]⟩
    exact ih hstep

/-- What was in the sets before the removal of a peer does not matter. -/
theorem agree_of_removes (h : es.any (NetworkAction.removes p)) (t t' : PlumTree P A) :
    (t.settle es).Agree (t'.settle es) p := by
  induction es generalizing t t' with
  | nil => simp at h
  | cons e es ih =>
    rw [List.any_cons, Bool.or_eq_true] at h
    rcases h with he | hes
    · have hstep : (follow t e).Agree (follow t' e) p := by
        obtain ⟨heager, hlazy⟩ := mem_follow t e p
        obtain ⟨heager', hlazy'⟩ := mem_follow t' e p
        exact ⟨by simp [heager, heager', he], by simp [hlazy, hlazy', he]⟩
      exact hstep.settle es
    · exact ih hes _ _

/-- Without a removal a peer stays where it is, and is eager too once its
addition is polled. -/
theorem mem_settle (h : ¬ es.any (NetworkAction.removes p)) (t : PlumTree P A) :
    (p ∈ (t.settle es).eager ↔ p ∈ t.eager ∨ es.any (NetworkAction.adds p)) ∧
    (p ∈ (t.settle es).lazy ↔ p ∈ t.lazy) := by
  induction es generalizing t with
  | nil => simp [settle]
  | cons e es ih =>
    rw [List.any_cons, Bool.or_eq_true, not_or] at h
    obtain ⟨heager, hlazy⟩ := mem_follow t e p
    obtain ⟨hrest, hrest'⟩ := ih h.2 (follow t e)
    refine ⟨?_, ?_⟩
    · show p ∈ ((follow t e).settle es).eager ↔ _
      rw [hrest, heager, List.any_cons, Bool.or_eq_true, and_iff_left h.1, or_assoc]
    · show p ∈ ((follow t e).settle es).lazy ↔ _
      rw [hrest', hlazy, and_iff_left h.1]

/-- The tree has every active peer in one of its sets, and no other. -/
structure Follows (t : PlumTree P A) (active : PeerSet P A) : Prop where
  disjoint : ∀ p ∈ t.eager, p ∉ t.lazy
  mem_iff : ∀ p, p ∈ active ↔ p ∈ t.eager ∨ p ∈ t.lazy

omit [DecidableEq P] in
/-- A tree that differs at most at one peer, which is active there and in
one of the sets. -/
theorem Follows.of_agree (h : t.Follows active) (p : P) (hother : ∀ q, q ≠ p → t'.Agree t q)
    (hdisjoint : p ∈ t'.eager → p ∉ t'.lazy) (hmem : p ∈ active ↔ p ∈ t'.eager ∨ p ∈ t'.lazy) :
    t'.Follows active := by
  refine ⟨fun q hq => ?_, fun q => ?_⟩
  · by_cases hqp : q = p
    · subst hqp
      exact hdisjoint hq
    · rw [(hother q hqp).2]
      exact h.disjoint q ((hother q hqp).1.1 hq)
  · by_cases hqp : q = p
    · subst hqp
      exact hmem
    · rw [h.mem_iff q, (hother q hqp).1, (hother q hqp).2]

omit [DecidableEq P] in
theorem Follows.congr (h : t.Follows active) (heq : ∀ q, t'.Agree t q) : t'.Follows active := by
  refine ⟨fun q hq => ?_, fun q => ?_⟩
  · rw [(heq q).2]
    exact h.disjoint q ((heq q).1.1 hq)
  · rw [h.mem_iff q, (heq q).1, (heq q).2]

/-! ## The handlers of the tree -/

/-- A new message leaves the sets alone, and a duplicate of an eager peer
prunes it. -/
theorem injectMessage_sets {checks : Bool} {decodeAll : Bytes → Option Bytes} {now : ℤ}
    {id : UInt64} {hop : UInt32} {payload : Bytes}
    (h : t.injectMessage checks decodeAll now p id hop payload = some t') :
    t'.eager = t.eager ∧ t'.lazy = t.lazy ∨
    ((t.received.get id).isSome ∧ t.config.optimizeSenderTree ∧ p ∈ t.eager) ∧
      t'.eager = t.eager.remove p ∧ t'.lazy = t.lazy.insert p := by
  unfold injectMessage at h
  dsimp only at h
  rw [ExpiringCache.insert_fst] at h
  split at h
  · split at h
    · cases h
    · obtain ⟨next, -, rfl⟩ := Option.map_eq_some_iff.1 h
      exact .inl ⟨rfl, rfl⟩
  next hold =>
    have hseen : (t.received.get id).isSome := by
      rw [Bool.not_eq_true', Bool.not_eq_false] at hold
      exact hold
    split at h
    next hoptimize =>
      cases h
      rw [Bool.and_eq_true, decide_eq_true_eq] at hoptimize
      exact .inr ⟨⟨hseen, hoptimize⟩, rfl, rfl⟩
    · cases h
      exact .inl ⟨rfl, rfl⟩

omit [DecidableEq P] in
theorem injectIhaves_sets (now : ℤ) (peer : P) (ihaves : List (UInt32 × UInt64))
    (t : PlumTree P A) :
    (ihaves.foldl (fun tree ih => tree.injectIhave now peer ih.2 ih.1) t).eager = t.eager ∧
    (ihaves.foldl (fun tree ih => tree.injectIhave now peer ih.2 ih.1) t).lazy = t.lazy := by
  induction ihaves generalizing t with
  | nil => exact ⟨rfl, rfl⟩
  | cons ih ihaves rest => exact rest (t.injectIhave now peer ih.2 ih.1)

omit [DecidableEq P] in
theorem publish_sets (now : ℤ) (id : UInt64) (payload : Bytes) :
    (t.publish now id payload).eager = t.eager ∧ (t.publish now id payload).lazy = t.lazy := by
  unfold publish
  split
  · exact ⟨rfl, rfl⟩
  split
  · exact ⟨rfl, rfl⟩
  · exact ⟨rfl, rfl⟩

theorem poll_sets {landing : Landing} {now : ℤ} {tickDue : Bool}
    {event : Option (NetworkAction P A)} (h : t.poll landing now tickDue = some (event, t')) :
    t'.eager = t.eager ∧ t'.lazy = t.lazy := by
  have hihaves : ∀ {t t' : PlumTree P A}, t.publishIhaves landing now = some t' →
      t'.eager = t.eager ∧ t'.lazy = t.lazy := by
    intro t t' h
    unfold publishIhaves at h
    split at h
    · cases h
    · cases h
      split
      · exact ⟨rfl, rfl⟩
      · exact ⟨rfl, rfl⟩
  have hrepair : ∀ {t t' : PlumTree P A}, t.repairTree landing now = some t' →
      t'.eager = t.eager ∧ t'.lazy = t.lazy := by
    intro t t' h
    unfold repairTree at h
    split at h
    · cases h
    · cases h
      exact ⟨rfl, rfl⟩
  have htick : ∀ {k : PlumTree P A}, (if tickDue then
      (t.publishIhaves landing now).bind fun t => t.repairTree landing now else some t) = some k →
      k.eager = t.eager ∧ k.lazy = t.lazy := by
    intro k hk
    split at hk
    · obtain ⟨k', hk', hk⟩ := Option.bind_eq_some_iff.1 hk
      exact ⟨(hrepair hk).1.trans (hihaves hk').1, (hrepair hk).2.trans (hihaves hk').2⟩
    · cases hk
      exact ⟨rfl, rfl⟩
  unfold poll at h
  split at h
  · cases h
  next k hk =>
    have hsets := htick hk
    split at h
    · cases h
      exact hsets
    · cases h
      exact hsets

end PlumTree

/-! ## The views -/

namespace HyParView

open PlumTree (Follows)

variable {h h' : HyParView P A} {t : PlumTree P A}

theorem moves_receive (ρ : ℕ → ℕ) (sender : P) (action : Option (Action P A)) :
    Moves h (h.receive ρ sender action) := by
  unfold receive
  split
  · exact (grows_injectJoin _ _ _ _).moves
  · exact moves_injectForwardJoin _ _ _ _ _
  · split
    · exact moves_injectNeighbor _ _ _
    · exact .refl
  · exact moves_injectDisconnect _ _ _
  · exact (grows_injectShuffle _ _ _ _ _).moves
  · exact (grows_injectShuffleReply _).moves
  · exact .refl

theorem follows_emit (hf : (t.settle h.outEvents).Follows h.active) {e : NetworkAction P A}
    (he : ∀ event, e ≠ .generateEvent event) :
    (t.settle (h.emit e).outEvents).Follows (h.emit e).active := by
  have hsame : ∀ t : PlumTree P A, t.settle [e] = t := by
    intro t
    cases e with
    | generateEvent event => exact absurd rfl (he event)
    | notifyHandler | dial | closeConnection => rfl
  show (t.settle (h.outEvents ++ [e])).Follows h.active
  rw [PlumTree.settle_append, hsame]
  exact hf

theorem follows_add (hf : (t.settle h.outEvents).Follows h.active) {node : AddressablePeer P A}
    (hl : node.peerId ≠ h.localNode.peerId) (ha : node.peerId ∉ h.active) (b : Bool) :
    (t.settle (h.addNodeToActiveView node b).outEvents).Follows
      (h.addNodeToActiveView node b).active := by
  have hsettle : t.settle (h.addNodeToActiveView node b).outEvents =
      (t.settle h.outEvents).injectNeighborUp node.peerId := by
    rw [addNodeToActiveView_new hl ha, PlumTree.settle_append]
    cases b <;> rfl
  rw [hsettle, active_addNodeToActiveView hl]
  generalize t.settle h.outEvents = t at hf
  have hnew : node.peerId ∉ t.lazy := fun hlazy => ha ((hf.mem_iff _).2 (.inr hlazy))
  refine ⟨fun p hp => ?_, fun p => ?_⟩
  · rcases KeySet.mem_insert.1 hp with hp | rfl
    · exact hf.disjoint p hp
    · exact hnew
  · show _ ↔ p ∈ t.eager.insert node.peerId ∨ p ∈ t.lazy
    rw [KeySet.mem_insert, KeySet.mem_insert, hf.mem_iff p, id_eq]
    tauto

theorem follows_drop (hf : (t.settle h.outEvents).Follows h.active) (p : P) :
    (t.settle (h.outEvents ++ [.generateEvent (.peerRemoved p)])).Follows (h.active.remove p) := by
  rw [PlumTree.settle_append]
  generalize t.settle h.outEvents = t at hf
  refine ⟨fun q hq => ?_, fun q => ?_⟩
  · obtain ⟨hq, -⟩ := KeySet.mem_remove.1 hq
    exact fun hlazy => hf.disjoint q hq (KeySet.mem_remove.1 hlazy).1
  · show _ ↔ q ∈ t.eager.remove p ∨ q ∈ t.lazy.remove p
    rw [KeySet.mem_remove, KeySet.mem_remove, KeySet.mem_remove, hf.mem_iff q]
    tauto

theorem Move.follows (hm : Move h h') (hf : (t.settle h.outEvents).Follows h.active) :
    (t.settle h'.outEvents).Follows h'.active := by
  cases hm with
  | grow hg =>
    cases hg with
    | send p a => exact follows_emit hf nofun
    | dial => exact follows_emit hf nofun
    | hold => exact hf
    | add node hl ha => exact follows_add hf hl ha true
  | accept node hl ha => exact follows_add hf hl ha false
  | tell p => exact follows_emit hf nofun
  | drop p => exact follows_drop hf p

/-- Whatever a handler does, the tree follows once the events are polled. -/
theorem Moves.follows (hm : Moves h h') (hf : (t.settle h.outEvents).Follows h.active) :
    (t.settle h'.outEvents).Follows h'.active := by
  induction hm with
  | refl => exact hf
  | tail _ hmove ih => exact hmove.follows ih

end HyParView

/-! ## The mesh -/

namespace TopicMesh

variable {checks : Bool} {decodeAll : Bytes → Option Bytes} {m m' : TopicMesh P A} {ρ : ℕ → ℕ}
  {now : ℤ} {p : P}

/-- A removal of the peer is queued, or it is active and its addition is
not queued any more. -/
def settled (m : TopicMesh P A) (p : P) : Bool :=
  m.nodes.outEvents.any (NetworkAction.removes p) ||
    m.nodes.isActive p && !m.nodes.outEvents.any (NetworkAction.adds p)

/-- A prune, a graft or a duplicate of an eager peer that the tree can take
at once. -/
def orderly (m : TopicMesh P A) : Input P A × (ℕ → ℕ) × ℤ → Bool
  | (.rpc peer ⟨_, some .prune⟩, _) => m.settled peer
  | (.rpc peer ⟨_, some (.graft _)⟩, _) =>
    m.nodes.outEvents.any (NetworkAction.removes peer) || m.nodes.isActive peer
  | (.rpc peer ⟨_, some (.message id _ _)⟩, _) =>
    !((m.tree.received.get id).isSome && m.tree.config.optimizeSenderTree &&
      decide (peer ∈ m.tree.eager)) || m.settled peer
  | _ => true

/-- The tree follows the view, once all events of the view are polled. -/
structure Tracks (m : TopicMesh P A) : Prop where
  named : m.nodes.localNode = m.localNode
  follows : (m.tree.settle m.nodes.outEvents).Follows m.nodes.active

/-- The views change by moves. -/
theorem Tracks.moves (hm : m.Tracks) {h : HyParView P A} (hmoves : m.nodes.Moves h) :
    { m with nodes := h }.Tracks :=
  ⟨hmoves.localNode_eq.trans hm.named, hmoves.follows hm.follows⟩

/-- The tree changes, but not the sets of peers. -/
theorem Tracks.tree (hm : m.Tracks) {t : PlumTree P A} (heager : t.eager = m.tree.eager)
    (hlazy : t.lazy = m.tree.lazy) : { m with tree := t }.Tracks := by
  refine ⟨hm.named, hm.follows.congr fun q => ?_⟩
  have hagree : t.Agree m.tree q := ⟨by rw [heager], by rw [hlazy]⟩
  exact hagree.settle m.nodes.outEvents

/-- One peer changes its set, where its removal is queued or where it is
active and will be in exactly one set. -/
theorem Tracks.change (hm : m.Tracks) {t : PlumTree P A} (hother : ∀ q, q ≠ p → t.Agree m.tree q)
    (hp : m.nodes.outEvents.any (NetworkAction.removes p) ∨ p ∈ m.nodes.active ∧
      (p ∈ t.eager ∨ m.nodes.outEvents.any (NetworkAction.adds p) ↔ p ∉ t.lazy)) :
    { m with tree := t }.Tracks := by
  refine ⟨hm.named, ?_⟩
  show (t.settle m.nodes.outEvents).Follows m.nodes.active
  by_cases hremoved : m.nodes.outEvents.any (NetworkAction.removes p)
  · refine hm.follows.congr fun q => ?_
    by_cases hq : q = p
    · subst hq
      exact PlumTree.agree_of_removes hremoved t m.tree
    · exact (hother q hq).settle m.nodes.outEvents
  · obtain ⟨hactive, hset⟩ := hp.resolve_left hremoved
    obtain ⟨heager, hlazy⟩ := PlumTree.mem_settle hremoved t
    refine hm.follows.of_agree p (fun q hq => (hother q hq).settle m.nodes.outEvents) ?_ ?_
    · rw [heager, hlazy]
      exact hset.1
    · rw [heager, hlazy, hset]
      exact iff_of_true hactive (em' _)

theorem Tracks.prune (hm : m.Tracks) (hs : m.settled p) {t : PlumTree P A}
    (heager : t.eager = m.tree.eager.remove p) (hlazy : t.lazy = m.tree.lazy.insert p) :
    { m with tree := t }.Tracks := by
  refine hm.change (p := p) (fun q hq => ?_) ?_
  · refine ⟨?_, ?_⟩
    · rw [heager, KeySet.mem_remove, and_iff_left hq]
    · rw [hlazy, KeySet.mem_insert, id_eq, or_iff_left hq]
  · rw [settled, Bool.or_eq_true, Bool.and_eq_true, HyParView.isActive_iff] at hs
    refine hs.imp_right fun hs => ⟨hs.1, ?_⟩
    rw [heager, hlazy]
    simpa using hs.2

theorem Tracks.graft (hm : m.Tracks) (hs : m.nodes.outEvents.any (NetworkAction.removes p) ||
    m.nodes.isActive p) (ids : List UInt64) :
    { m with tree := m.tree.injectGraft p ids }.Tracks := by
  refine hm.change (p := p) (fun q hq => ?_) ?_
  · refine ⟨?_, ?_⟩
    · show q ∈ m.tree.eager.insert p ↔ _
      rw [KeySet.mem_insert, id_eq, or_iff_left hq]
    · show q ∈ m.tree.lazy.remove p ↔ _
      rw [KeySet.mem_remove, and_iff_left hq]
  · rw [Bool.or_eq_true, HyParView.isActive_iff] at hs
    refine hs.imp_right fun hs => ⟨hs, ?_⟩
    show p ∈ m.tree.eager.insert p ∨ _ ↔ p ∉ m.tree.lazy.remove p
    simp

/-- What the mesh does with a message is what the views do with it, but for
the tree. -/
theorem injectRpcCall_nodes (hm : m.nodes.localNode = m.localNode) {peer : P} {event : Rpc P A}
    (h : m.injectRpcCall checks decodeAll ρ now peer event = some (.ok m')) :
    m'.nodes = m.nodes.receive ρ peer event.action ∧ m'.localNode = m.localNode := by
  obtain ⟨topic, action⟩ := event
  cases action with
  | none => cases h
  | some action =>
    cases action with
    | join ttl peer =>
      cases peer with
      | none => cases h
      | some q =>
        cases h
        exact ⟨rfl, rfl⟩
    | forwardJoin ttl peer =>
      cases peer with
      | none => cases h
      | some q =>
        cases h
        refine ⟨?_, rfl⟩
        show m.nodes.injectForwardJoin ρ q ttl m.localNode.peerId _ = _
        rw [← hm]
        rfl
    | neighbor peer priority =>
      cases peer with
      | none => cases h
      | some q =>
        simp only [injectRpcCall] at h
        split at h
        next hq =>
          cases h
          exact ⟨(if_pos hq).symm, rfl⟩
        · cases h
    | shuffle ttl origin nodes =>
      cases origin with
      | none => cases h
      | some q =>
        cases h
        exact ⟨rfl, rfl⟩
    | message id hop payload =>
      obtain ⟨t, -, ht⟩ := Option.map_eq_some_iff.1 h
      cases ht
      exact ⟨rfl, rfl⟩
    | shuffleReply | disconnect | ihave | prune | graft =>
      cases h
      exact ⟨rfl, rfl⟩

/-- What the mesh does with an orderly message to its tree. -/
theorem Tracks.rpc_tree (hm : m.Tracks) {peer : P} {event : Rpc P A}
    (ho : m.orderly (.rpc peer event, ρ, now))
    (h : m.injectRpcCall checks decodeAll ρ now peer event = some (.ok m')) :
    { m with tree := m'.tree }.Tracks := by
  obtain ⟨topic, action⟩ := event
  cases action with
  | none => cases h
  | some action =>
    cases action with
    | join _ peer | forwardJoin _ peer | shuffle _ peer =>
      cases peer with
      | none => cases h
      | some =>
        cases h
        exact hm
    | neighbor peer priority =>
      cases peer with
      | none => cases h
      | some q =>
        simp only [injectRpcCall] at h
        split at h
        · cases h
          exact hm
        · cases h
    | shuffleReply | disconnect =>
      cases h
      exact hm
    | message id hop payload =>
      obtain ⟨t, ht, heq⟩ := Option.map_eq_some_iff.1 h
      cases heq
      rcases PlumTree.injectMessage_sets ht with ⟨heager, hlazy⟩ | ⟨hdup, heager, hlazy⟩
      · exact hm.tree heager hlazy
      · refine hm.prune ?_ heager hlazy
        simpa [orderly, hdup.1, hdup.2.1, hdup.2.2] using ho
    | ihave ihaves =>
      cases h
      obtain ⟨heager, hlazy⟩ := PlumTree.injectIhaves_sets now peer ihaves m.tree
      exact hm.tree heager hlazy
    | prune =>
      cases h
      exact hm.prune ho rfl rfl
    | graft ids =>
      cases h
      exact hm.graft ho ids

theorem Tracks.rpc (hm : m.Tracks) {peer : P} {event : Rpc P A}
    (ho : m.orderly (.rpc peer event, ρ, now))
    (h : m.injectRpcCall checks decodeAll ρ now peer event = some (.ok m')) : m'.Tracks := by
  obtain ⟨hnodes, hlocal⟩ := injectRpcCall_nodes hm.named h
  have hmoved := (hm.rpc_tree ho h).moves
    (HyParView.moves_receive (h := m.nodes) ρ peer event.action)
  refine ⟨?_, ?_⟩
  · rw [hnodes, hlocal]
    exact hmoved.named
  · rw [hnodes]
    exact hmoved.follows

/-- An event of the view is polled: the tree is told what it was going to
be told. -/
theorem Tracks.poll (hm : m.Tracks) {due : Bool × Bool × Bool} {landing : Landing}
    {event : Option (NetworkAction P A)} (h : m.poll ρ now due landing = some (event, m')) :
    m'.Tracks := by
  have hmaintain : { m with nodes := m.nodes.maintain ρ due.1 due.2.1 }.Tracks :=
    hm.moves (HyParView.grows_maintain ρ due.1 due.2.1).moves
  unfold TopicMesh.poll at h
  rw [HyParView.poll_eq] at h
  generalize m.nodes.maintain ρ due.1 due.2.1 = k at h hmaintain
  split at h
  next event rest hevents =>
    cases h
    exact ⟨hm.named, hm.follows⟩
  · split at h
    next event nodes heq =>
      injection heq with hhead hnodes
      subst hnodes
      cases h
      refine ⟨hmaintain.named, ?_⟩
      have hfollows : (m.tree.settle k.outEvents).Follows k.active := hmaintain.follows
      obtain ⟨rest, hrest⟩ := List.head?_eq_some_iff.1 hhead
      rw [hrest] at hfollows
      show ((follow m.tree event).settle k.outEvents.tail).Follows k.active
      rw [hrest]
      exact hfollows
    next nodes heq =>
      injection heq with hhead hnodes
      subst hnodes
      split at h
      · cases h
      next event tree htree =>
        cases h
        obtain ⟨heager, hlazy⟩ := PlumTree.poll_sets htree
        have hempty : k.outEvents = [] := List.head?_eq_none_iff.1 hhead
        have hpopped : { m with nodes := { k with outEvents := k.outEvents.tail } }.Tracks := by
          refine ⟨hmaintain.named, ?_⟩
          have hfollows : (m.tree.settle k.outEvents).Follows k.active := hmaintain.follows
          show (m.tree.settle k.outEvents.tail).Follows k.active
          rw [hempty] at hfollows ⊢
          exact hfollows
        exact hpopped.tree heager hlazy

/-! ## Runs -/

/-- **One orderly input.** -/
theorem Tracks.step (hm : m.Tracks) {i : Input P A × (ℕ → ℕ) × ℤ} (ho : m.orderly i)
    (h : m.step checks decodeAll i = some m') : m'.Tracks := by
  obtain ⟨i, ρ, now⟩ := i
  cases i with
  | rpc peer event =>
    simp only [TopicMesh.step] at h
    split at h
    next k hk =>
      cases h
      exact hm.rpc ho hk
    · cases h
      exact hm
    · cases h
  | disconnected peer alive =>
    cases h
    exact hm.moves (HyParView.moves_injectDisconnect (ρ 0) peer alive)
  | initiateJoin peer =>
    cases h
    exact hm.moves (HyParView.grows_initiateJoin peer).moves
  | publish id payload =>
    cases h
    obtain ⟨heager, hlazy⟩ := PlumTree.publish_sets (t := m.tree) now id payload
    exact hm.tree heager hlazy
  | poll due landing =>
    obtain ⟨⟨event, k⟩, hk, rfl⟩ := Option.map_eq_some_iff.1 h
    exact hm.poll hk

/-- **The broadcast tree follows the view** in every state of an orderly
run whose queue of the view is empty. -/
theorem tree_follows_view (checks : Bool) (decodeAll : Bytes → Option Bytes) (topic : String)
    (config : Config P) (localNode : AddressablePeer P A) (inputs : List (Input P A × (ℕ → ℕ) × ℤ))
    (hinputs : Along (advance checks decodeAll) (fun m i => m.all fun m => m.orderly i)
      (some (new topic config localNode)) inputs)
    (m : TopicMesh P A) (hrun : (new topic config localNode).run checks decodeAll inputs = some m)
    (hpolled : m.nodes.outEvents = []) :
    (∀ p ∈ m.tree.eager, p ∉ m.tree.lazy) ∧
      ∀ p, p ∈ m.nodes.active ↔ p ∈ m.tree.eager ∨ p ∈ m.tree.lazy := by
  have hnew : (new topic config localNode).Tracks := by
    refine ⟨rfl, fun p hp => absurd hp KeySet.not_mem_empty, fun p => ?_⟩
    exact iff_of_false KeySet.not_mem_empty (not_or.2 ⟨KeySet.not_mem_empty, KeySet.not_mem_empty⟩)
  have hall : ∀ m ∈ (new topic config localNode).run checks decodeAll inputs, m.Tracks := by
    refine hinputs.rule (I := fun s : Option (TopicMesh P A) => ∀ m ∈ s, m.Tracks)
      (fun m hm => Option.some.inj hm ▸ hnew) fun s i hs ho m' hm' => ?_
    obtain ⟨m, rfl, hstep⟩ := Option.bind_eq_some_iff.1 hm'
    exact (hs m rfl).step (by simpa using ho) hstep
  have hfollows := (hall m hrun).follows
  rw [hpolled] at hfollows
  exact ⟨hfollows.disjoint, hfollows.mem_iff⟩

/-- A peer joins, its addition is polled, and it prunes the link. -/
def joinAndPrune : List (Input ℕ Unit × (ℕ → ℕ) × ℤ) :=
  [(.rpc 1 ⟨"blocks", some (.join 2 (some ⟨1, []⟩))⟩, id, 0), (.poll (false, false, false) {}, id, 1),
    (.poll (false, false, false) {}, id, 2), (.poll (false, false, false) {}, id, 3),
    (.rpc 1 ⟨"blocks", some .prune⟩, id, 4)]

theorem tree_follows_view_prune : ∃ m : TopicMesh ℕ Unit,
    (new "blocks" Config.default ⟨0, []⟩).run false some joinAndPrune = some m ∧ 1 ∈ m.tree.lazy ∧
      (∀ p ∈ m.tree.eager, p ∉ m.tree.lazy) ∧
      ∀ p, p ∈ m.nodes.active ↔ p ∈ m.tree.eager ∨ p ∈ m.tree.lazy :=
  ⟨_, rfl, by decide, tree_follows_view false some "blocks" Config.default ⟨0, []⟩ joinAndPrune
    (by decide) _ rfl rfl⟩

/-- A prune from a stranger: a lazy peer that is not active. -/
theorem tree_astray : ∃ m : TopicMesh ℕ Unit,
    (new "blocks" Config.default ⟨0, []⟩).run false some [(.rpc 1 ⟨"blocks", some .prune⟩, id, 0)] =
      some m ∧ m.nodes.outEvents = [] ∧ 1 ∈ m.tree.lazy ∧ 1 ∉ m.nodes.active :=
  ⟨_, rfl, rfl, by decide, by decide⟩

end TopicMesh

end Network

end Rensa
