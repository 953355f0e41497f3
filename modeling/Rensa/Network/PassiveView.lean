import Rensa.Common.Loop
import Rensa.Network.Views
/-!
# What a shuffle reply leaves of the passive view

The nodes of a reply are merged into the passive view, and a loop is to
remove the excess. It takes one peer at a time out of `drain`, and dropping
that iterator empties the set: one round of the loop removes every peer
(`dropExcess_eq`). So the view is as full as it can be exactly where there
was no excess (`fillsPassive_iff`).
-/

namespace Rensa

namespace Network

variable {P A : Type}

/-- `drain().next()` of a set: what is yielded, and what the set is when the
iterator is gone. -/
def drainNext (s : PeerSet P A) : Option (AddressablePeer P A) × PeerSet P A :=
  (s.items.head?, .empty)

/-- A round of the loop of `inject_shuffle_reply`. -/
def dropRound (max : ℕ) (s : PeerSet P A) : PeerSet P A ⊕ PeerSet P A :=
  if max < s.length then .inl (drainNext s).2 else .inr s

theorem shrinks_dropRound (max : ℕ) :
    Shrinks (dropRound (P := P) (A := A) max) fun s => s.length := by
  intro s s' hround
  unfold dropRound at hround
  split at hround
  next hmax =>
    cases hround
    exact Nat.lt_of_le_of_lt (Nat.zero_le max) hmax
  · cases hround

/-- The loop of `inject_shuffle_reply`. -/
def dropExcess (max : ℕ) (s : PeerSet P A) : PeerSet P A :=
  loop (dropRound max) (fun s => s.length) (shrinks_dropRound max) s

/-- **The loop ends after one round**, with nothing left. -/
theorem dropExcess_eq {max : ℕ} (s : PeerSet P A) :
    dropExcess max s = if max < s.length then .empty else s := by
  unfold dropExcess
  split
  next hmax =>
    have hround : dropRound max s = .inl .empty := if_pos hmax
    have hleave : dropRound max (.empty : PeerSet P A) = .inr .empty := if_neg (Nat.not_lt_zero max)
    rw [loop_inl hround, loop_inr hleave]
  next hmax => exact loop_inr (if_neg hmax)

namespace HyParView

variable [DecidableEq P] (h : HyParView P A) (nodes : List (WirePeer P A))

/-- The old passive view and the nodes of a reply. -/
def merged : PeerSet P A := h.passive.union (.ofList (nodes.filterMap id))

/-- The passive view after a reply is what the loop leaves of the two. -/
theorem passive_injectShuffleReply : (h.injectShuffleReply nodes).passive =
    dropExcess h.config.maxPassiveViewSize (h.merged nodes) := by
  rw [dropExcess_eq]
  rfl

/-- **A reply keeps the passive view full**: the view holds peers of the old
view and of the reply only, and as many as there are or fit. -/
structure FillsPassive : Prop where
  mem : ∀ p ∈ (h.injectShuffleReply nodes).passive,
    p ∈ h.passive ∨ some p ∈ nodes.map (Option.map AddressablePeer.peerId)
  length : (h.injectShuffleReply nodes).passive.length =
    min h.config.maxPassiveViewSize (h.merged nodes).length

variable {h nodes}

theorem mem_merged {p : P} : p ∈ h.merged nodes ↔
    p ∈ h.passive ∨ some p ∈ nodes.map (Option.map AddressablePeer.peerId) := by
  rw [merged, KeySet.mem_union, KeySet.mem_ofList]
  simp

/-- **Replies keep the passive view full where there is no excess**: where
the old view and the nodes of the reply fit together, or where nothing
fits. -/
theorem fillsPassive_iff (h : HyParView P A) (nodes : List (WirePeer P A)) :
    h.FillsPassive nodes ↔ (h.merged nodes).length ≤ h.config.maxPassiveViewSize ∨
      h.config.maxPassiveViewSize = 0 := by
  have hpassive := passive_injectShuffleReply h nodes
  rw [dropExcess_eq] at hpassive
  by_cases hexcess : h.config.maxPassiveViewSize < (h.merged nodes).length
  · -- the excess is removed with all the others: only an empty view is full
    rw [if_pos hexcess] at hpassive
    have hmin : min h.config.maxPassiveViewSize (h.merged nodes).length =
        h.config.maxPassiveViewSize := min_eq_left (Nat.le_of_lt hexcess)
    rw [or_iff_right (Nat.not_le.2 hexcess)]
    constructor
    · intro hfills
      rw [← hmin, ← hfills.length, hpassive, KeySet.length_empty]
    · intro hzero
      refine ⟨fun p hp => ?_, ?_⟩
      · rw [hpassive] at hp
        exact absurd hp KeySet.not_mem_empty
      · rw [hpassive, hmin, hzero, KeySet.length_empty]
  · rw [if_neg hexcess] at hpassive
    rw [Nat.not_lt] at hexcess
    refine iff_of_true ⟨fun p hp => ?_, ?_⟩ (.inl hexcess)
    · rw [hpassive] at hp
      exact mem_merged.1 hp
    · rw [hpassive, min_eq_right hexcess]

/-- A node with room for six passive peers, and six of them. -/
def sixPeers : HyParView ℕ Unit where
  config := { Config.default with maxActiveViewSize := 1 }
  topic := "blocks"
  localNode := ⟨0, []⟩
  passive := .ofList ((List.range 6).map fun i => ⟨i + 1, []⟩)

/-- One more peer in a reply: the passive view is empty. -/
theorem reply_empties_passive :
    sixPeers.passive.length = sixPeers.config.maxPassiveViewSize ∧
      (sixPeers.merged [some ⟨7, []⟩]).length = 7 ∧
      (sixPeers.injectShuffleReply [some ⟨7, []⟩]).passive.length = 0 ∧
      ¬ sixPeers.FillsPassive [some ⟨7, []⟩] :=
  ⟨by decide, by decide, by decide, fun h => absurd h.length (by decide)⟩

end HyParView

end Network

end Rensa
