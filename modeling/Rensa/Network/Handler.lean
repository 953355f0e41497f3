import Rensa.Common.Along
import Rensa.Network.Model.Handler
/-!
# When a connection handler reaches its poisoned state

`process_inbound_poll` swaps a poisoned state in while it looks at the
inbound substream. Every answer of the substream puts another state back,
except an error: then the loop goes round once more and finds the poisoned
one. So a peer that sends bytes which do not decode takes the handler down,
and nothing else does (`never_poisoned_iff`).
-/

namespace Rensa

namespace Network

namespace EpisubHandler

variable {S P A : Type} {F : Framed S P A} {h : EpisubHandler S P A} {i : Input S P A}

/-- The inbound substream would answer the next poll with an error. -/
def FailsNext (F : Framed S P A) (h : EpisubHandler S P A) : Prop :=
  ∃ substream error, h.inbound = some (.waitingInput substream) ∧
    (F.pollNext substream).1 = .ready (some (.error error))

/-- Between two polls no inbound substream is poisoned. -/
def Sound (h : EpisubHandler S P A) : Prop := h.inbound ≠ some .poisoned

/-! ## The two loops -/

/-- A substream that is being closed is dropped, or closed further. -/
theorem processInboundPoll_closing {substream : S} (hin : h.inbound = some (.closing substream)) :
    ∃ h', h.processInboundPoll F = .ok (.pending, h') ∧ h'.Sound := by
  have hround : ∃ h', inboundRound h F = .inr (.ok (.pending, h')) ∧ h'.Sound := by
    simp only [inboundRound, hin]
    split
    · exact ⟨_, rfl, nofun⟩
    · exact ⟨_, rfl, nofun⟩
  obtain ⟨h', hleave, hs'⟩ := hround
  exact ⟨h', loop_inr hleave, hs'⟩

/-- **What `process_inbound_poll` does** with a sound state: it panics on an
error of the substream only, and otherwise leaves a sound state. -/
theorem processInboundPoll_spec (hs : h.Sound) :
    FailsNext F h ∧ h.processInboundPoll F = .error .inboundPoisoned ∨
      ¬ FailsNext F h ∧ ∃ poll h', h.processInboundPoll F = .ok (poll, h') ∧ h'.Sound := by
  match hin : h.inbound with
  | none =>
    refine .inr ⟨?_, .pending, h, loop_inr (by simp only [inboundRound, hin]), hs⟩
    rintro ⟨_, _, hwaiting, -⟩
    simp [hin] at hwaiting
  | some .poisoned => exact absurd hin hs
  | some (.closing substream) =>
    obtain ⟨h', hpoll, hs'⟩ := processInboundPoll_closing (F := F) hin
    refine .inr ⟨?_, .pending, h', hpoll, hs'⟩
    rintro ⟨_, _, hwaiting, -⟩
    simp [hin] at hwaiting
  | some (.waitingInput substream) =>
    have hfails : FailsNext F h ↔ ∃ e, (F.pollNext substream).1 = .ready (some (.error e)) := by
      simp [FailsNext, hin]
    rw [hfails]
    match hnext : F.pollNext substream with
    | (.pending, rest) =>
      refine .inr ⟨by simp, .pending, { h with inbound := some (.waitingInput rest) }, ?_, nofun⟩
      exact loop_inr (by simp only [inboundRound, hin, hnext])
    | (.ready (some (.ok message)), rest) =>
      refine .inr ⟨by simp, .ready (.custom message),
        { h with inbound := some (.waitingInput rest) }, ?_, nofun⟩
      exact loop_inr (by simp only [inboundRound, hin, hnext])
    | (.ready none, rest) =>
      -- the loop goes round with the substream that is to be closed
      have hround : inboundRound h F = .inl { h with inbound := some (.closing rest) } := by
        simp only [inboundRound, hin, hnext]
      obtain ⟨h', hpoll, hs'⟩ := processInboundPoll_closing (F := F)
        (h := { h with inbound := some (.closing rest) }) rfl
      exact .inr ⟨by simp, .pending, h', (loop_inl hround).trans hpoll, hs'⟩
    | (.ready (some (.error e)), rest) =>
      -- no state is put back: the next round finds the poisoned one
      have hround : inboundRound h F = .inl { h with inbound := some .poisoned } := by
        simp only [inboundRound, hin, hnext]
      exact .inl ⟨⟨e, rfl⟩, (loop_inl hround).trans (loop_inr rfl)⟩

/-- The inbound substream that a poll leaves is the one of a handler. -/
def LeavesInbound (h : EpisubHandler S P A) (polled : Polled S P A) : Prop :=
  match polled with
  | .ok (_, h') => h'.inbound = h.inbound
  | .error u => u = .outboundPoisoned

/-- A round of `process_outbound_poll` has nothing to do with the inbound
substream. -/
theorem outboundRound_inbound (h : EpisubHandler S P A) :
    Sum.elim (fun h' => h'.inbound = h.inbound) (LeavesInbound h) (h.outboundRound F) := by
  unfold outboundRound
  repeat' split
  all_goals exact rfl

theorem processOutboundPoll_inbound (h : EpisubHandler S P A) :
    LeavesInbound h (h.processOutboundPoll F) := by
  refine loop_rule (I := fun g => g.inbound = h.inbound) rfl ?_ ?_
  · intro g g' hg hround
    have hkeep := outboundRound_inbound (F := F) g
    rw [show g.outboundRound F = .inl g' from hround] at hkeep
    exact Eq.trans (b := g.inbound) hkeep hg
  · intro g polled hg hround
    have hkeep := outboundRound_inbound (F := F) g
    rw [show g.outboundRound F = .inr polled from hround] at hkeep
    rcases polled with u | ⟨_, g'⟩
    · exact hkeep
    · exact Eq.trans (b := g.inbound) hkeep hg

/-! ## Runs -/

/-- A handler that did not panic is sound. -/
def Safe (s : Except Unreachable (EpisubHandler S P A)) : Prop := ∀ h, s = .ok h → h.Sound

/-- The input does not poll a substream that fails. -/
def Answers (F : Framed S P A) (s : Except Unreachable (EpisubHandler S P A)) :
    Input S P A → Prop
  | .poll => ∀ h, s = .ok h → ¬ FailsNext F h
  | _ => True

/-- **What a poll does** with a sound state. -/
theorem poll_spec (hs : h.Sound) :
    (h.poll F ≠ .error .inboundPoisoned ↔ ¬ FailsNext F h) ∧
      ∀ poll h', h.poll F = .ok (poll, h') → h'.Sound := by
  rcases processInboundPoll_spec (F := F) hs with ⟨hfails, herror⟩ | ⟨hanswers, poll, h', hok, hs'⟩
  · have hpoll : h.poll F = .error .inboundPoisoned := by
      unfold EpisubHandler.poll
      rw [herror]
    rw [hpoll]
    exact ⟨iff_of_false (fun hne => hne rfl) (not_not.2 hfails), fun _ _ heq => nomatch heq⟩
  cases poll with
  | ready event =>
    have hpoll : h.poll F = .ok (.ready event, h') := by
      unfold EpisubHandler.poll
      rw [hok]
    rw [hpoll]
    refine ⟨iff_of_true nofun hanswers, fun poll g heq => ?_⟩
    cases heq
    exact hs'
  | pending =>
    -- the outbound side is polled then, and leaves the inbound one as it is
    have hpoll : h.poll F = h'.processOutboundPoll F := by
      unfold EpisubHandler.poll
      rw [hok]
    have hleaves := processOutboundPoll_inbound (F := F) h'
    rw [hpoll]
    generalize h'.processOutboundPoll F = polled at hleaves ⊢
    rcases polled with u | ⟨poll, g⟩
    · obtain rfl : u = .outboundPoisoned := hleaves
      exact ⟨iff_of_true nofun hanswers, fun _ _ heq => nomatch heq⟩
    · have hinbound : g.inbound = h'.inbound := hleaves
      refine ⟨iff_of_true nofun hanswers, fun poll g' heq => ?_⟩
      cases heq
      unfold Sound
      rwa [hinbound]

/-- Every input leaves a handler that did not panic sound. -/
theorem safe_advance {s : Except Unreachable (EpisubHandler S P A)} (hsafe : Safe s)
    (i : Input S P A) : Safe (advance F s i) := by
  rcases s with u | h
  · exact nofun
  have hs : h.Sound := hsafe h rfl
  intro h' heq
  cases i with
  | poll =>
    rcases hpoll : h.poll F with u | ⟨poll, g⟩
    · simp [advance, Except.bind, step, hpoll, Except.map] at heq
    · simp only [advance, Except.bind, step, hpoll, Except.map, Except.ok.injEq] at heq
      exact heq ▸ (poll_spec hs).2 poll g hpoll
  | fullyNegotiatedInbound substream =>
    cases heq
    exact nofun
  | fullyNegotiatedOutbound substream =>
    cases heq
    exact hs
  | event event =>
    cases heq
    unfold injectEvent
    split <;> exact hs

/-- **Which inputs panic** on the poisoned inbound state. -/
theorem advance_ne_poisoned {s : Except Unreachable (EpisubHandler S P A)} (hsafe : Safe s)
    (hs : s ≠ .error .inboundPoisoned) (i : Input S P A) :
    advance F s i ≠ .error .inboundPoisoned ↔ Answers F s i := by
  rcases s with u | h
  · refine iff_of_true hs ?_
    cases i <;> first | trivial | exact nofun
  cases i with
  | poll =>
    have hspec := (poll_spec (F := F) (hsafe h rfl)).1
    have hanswers : Answers F (.ok h) .poll ↔ ¬ FailsNext F h :=
      ⟨fun ha => ha h rfl, fun ha h' heq => by cases heq; exact ha⟩
    rw [hanswers, ← hspec]
    refine not_congr ?_
    rcases hpoll : h.poll F with u | ⟨poll, g⟩
    · simp [advance, Except.bind, step, hpoll, Except.map]
    · simp [advance, Except.bind, step, hpoll, Except.map]
  | fullyNegotiatedInbound | fullyNegotiatedOutbound | event => exact iff_of_true nofun trivial

/-- **When the poisoned inbound state is never found**: exactly where no
poll meets an inbound substream that answers it with an error. -/
theorem never_poisoned_iff (F : Framed S P A) (temporary : Bool) (inputs : List (Input S P A)) :
    (∀ pre, pre <+: inputs → (new temporary).run F pre ≠ .error .inboundPoisoned) ↔
      Along (advance F) (Answers F) (.ok (new temporary)) inputs := by
  refine along_iff (s := .ok (new temporary)) (I := Safe)
    (B := fun s => s ≠ .error .inboundPoisoned) ?_ nofun ?_ ?_ inputs
  · intro h heq
    cases heq
    exact nofun
  · exact fun s i hsafe => safe_advance hsafe i
  · exact fun s i hsafe hs => advance_ne_poisoned hsafe hs i

/-- The substreams of a peer that has sent some bytes: packets with their
length in front, of which only the empty one is a message. -/
def sentBytes : Framed Bytes Unit Unit where
  pollNext src :=
    let lengthCodec : Bytes → Except IoErrorKind (Option Bytes × Bytes) := fun src =>
      match src with
      | [] => .ok (none, [])
      | n :: rest =>
        if rest.length < n.toNat then .ok (none, src)
        else .ok (some (rest.take n.toNat), rest.drop n.toNat)
    let rpcDecode : Bytes → Option (Rpc Unit Unit) := fun packet =>
      if packet = [] then some { topic := "", action := none } else none
    match EpisubCodec.decode lengthCodec rpcDecode src with
    | .error e => (.ready (some (.error e)), src)
    | .ok (some message, src) => (.ready (some (.ok message)), src)
    | .ok (none, src) => (.pending, src)
  pollReady src := (.ready (.ok ()), src)
  startSend src _ := (.ok (), src)
  pollFlush src := (.ready (.ok ()), src)
  pollClose src := (.ready (.ok ()), src)

/-- One byte that is no message, from a peer that opened a substream. -/
theorem undecodable_byte_poisons :
    ¬ ∀ pre, pre <+: [.fullyNegotiatedInbound [1, 255], .poll] →
      (new false).run sentBytes pre ≠ .error .inboundPoisoned := by
  intro h
  exact h _ (List.prefix_refl _) rfl

end EpisubHandler

end Network

end Rensa
