import Rensa.Common.Loop
import Rensa.Network.Model.Rpc
/-!
# The handler of a connection

`EpisubHandler` has one substream for what a peer sends and one for what is
sent to it. What a substream answers comes from outside of the source, so
its operations are a parameter (`Framed`): functions of a state of any type.
`unreachable!` is an error that says where it was.
-/

namespace Rensa

namespace Network

/-- `Poll`. -/
inductive Poll (α : Type)
  | ready (a : α)
  | pending

/-- `EpisubHandlerError`. -/
inductive EpisubHandlerError
  | maxTransmissionSize
  | io
deriving DecidableEq

/-- `Framed<NegotiatedSubstream, EpisubCodec>`: what the substream in a state
`S` answers, and its next state. -/
structure Framed (S P A : Type) where
  pollNext : S → Poll (Option (Except EpisubHandlerError (Rpc P A))) × S
  pollReady : S → Poll (Except EpisubHandlerError Unit) × S
  startSend : S → Rpc P A → Except EpisubHandlerError Unit × S
  pollFlush : S → Poll (Except EpisubHandlerError Unit) × S
  pollClose : S → Poll (Except EpisubHandlerError Unit) × S

/-- `io::ErrorKind`, as far as it is looked at. -/
inductive IoErrorKind
  | permissionDenied
  | other

/-- `EpisubCodec::decode`: the packet that the length codec finds at the
front of the buffer has to be an `Rpc`. The buffer is what is left. -/
def EpisubCodec.decode {P A : Type}
    (lengthCodec : Bytes → Except IoErrorKind (Option Bytes × Bytes))
    (rpcDecode : Bytes → Option (Rpc P A)) (src : Bytes) :
    Except EpisubHandlerError (Option (Rpc P A) × Bytes) :=
  match lengthCodec src with
  | .error .permissionDenied => .error .maxTransmissionSize
  | .error .other => .error .io
  | .ok (none, src) => .ok (none, src)
  | .ok (some packet, src) =>
    match rpcDecode packet with
    | some rpc => .ok (some rpc, src)
    | none => .error .io

/-- `InboundSubstreamState`. -/
inductive InboundSubstreamState (S : Type)
  | waitingInput (substream : S)
  | closing (substream : S)
  | poisoned

/-- `OutboundSubstreamState`. -/
inductive OutboundSubstreamState (S P A : Type)
  | substreamRequested
  | waitingOutput (substream : S)
  | pendingSend (substream : S) (message : Rpc P A)
  | pendingFlush (substream : S)
  | closing (substream : S)
  | poisoned

/-- `EpisubHandler`. -/
structure EpisubHandler (S P A : Type) where
  outbound : Option (OutboundSubstreamState S P A) := none
  inbound : Option (InboundSubstreamState S) := none
  /-- `KeepAlive::Yes`. -/
  keepAlive : Bool
  outboundQueue : List (Rpc P A) := []

/-- `ConnectionHandlerEvent`. -/
inductive HandlerEvent (P A : Type)
  | custom (message : Rpc P A)
  | close (error : EpisubHandlerError)
  | outboundSubstreamRequest

/-- Where an `unreachable!` was reached. -/
inductive Unreachable
  | inboundPoisoned
  | outboundPoisoned
deriving DecidableEq

namespace EpisubHandler

variable {S P A : Type}

/-- What a poll comes to. -/
abbrev Polled (S P A : Type) := Except Unreachable (Poll (HandlerEvent P A) × EpisubHandler S P A)

/-- `EpisubHandler::new`. -/
def new (temporary : Bool) : EpisubHandler S P A := { keepAlive := !temporary }

variable (h : EpisubHandler S P A)

/-- `inject_fully_negotiated_inbound`. -/
def injectFullyNegotiatedInbound (substream : S) : EpisubHandler S P A :=
  { h with inbound := some (.waitingInput substream) }

/-- `inject_fully_negotiated_outbound`. -/
def injectFullyNegotiatedOutbound (substream : S) : EpisubHandler S P A :=
  { h with outbound := some (.waitingOutput substream) }

/-- `inject_event`: a temporary connection is for shuffle replies. -/
def injectEvent (event : Rpc P A) : EpisubHandler S P A :=
  match h.keepAlive, event.action with
  | true, _ => { h with outboundQueue := h.outboundQueue ++ [event] }
  | false, some (.shuffleReply _) => { h with outboundQueue := h.outboundQueue ++ [event] }
  | false, _ => h

variable (F : Framed S P A)

/-- A round of `process_inbound_poll`. The state is poisoned while it is
looked at, and an error of the substream does not put one back. -/
def inboundRound : EpisubHandler S P A ⊕ Polled S P A :=
  match h.inbound with
  | some (.waitingInput substream) =>
    match F.pollNext substream with
    | (.ready (some (.ok message)), substream) =>
      .inr (.ok (.ready (.custom message),
        { h with inbound := some (.waitingInput substream) }))
    | (.ready (some (.error _)), _) => .inl { h with inbound := some .poisoned }
    | (.ready none, substream) => .inl { h with inbound := some (.closing substream) }
    | (.pending, substream) =>
      .inr (.ok (.pending, { h with inbound := some (.waitingInput substream) }))
  | some (.closing substream) =>
    match F.pollClose substream with
    | (.ready _, _) =>
      .inr (.ok (.pending, { h with
        inbound := none
        keepAlive := h.keepAlive && h.outbound.isSome }))
    | (.pending, substream) =>
      .inr (.ok (.pending, { h with inbound := some (.closing substream) }))
  | some .poisoned => .inr (.error .inboundPoisoned)
  | none => .inr (.ok (.pending, h))

/-- Another round follows one that waited for input. -/
def inboundMeasure : ℕ :=
  match h.inbound with
  | some (.waitingInput _) => 1
  | _ => 0

omit h in
theorem shrinks_inboundRound : Shrinks (fun h => inboundRound h F) inboundMeasure := by
  intro h h' heq
  change inboundRound h F = .inl h' at heq
  unfold inboundRound at heq
  split at heq
  next hin =>
    split at heq
    · cases heq
    · cases heq
      simp [inboundMeasure, hin]
    · cases heq
      simp [inboundMeasure, hin]
    · cases heq
  · split at heq <;> cases heq
  · cases heq
  · cases heq

/-- `process_inbound_poll`. -/
def processInboundPoll : Polled S P A :=
  loop (fun h => inboundRound h F) inboundMeasure (shrinks_inboundRound F) h

/-- A round of `process_outbound_poll`. The state is poisoned while it is
looked at, and stays so where the connection is closed with an error. -/
def outboundRound : EpisubHandler S P A ⊕ Polled S P A :=
  match h.outbound with
  | some (.waitingOutput substream) =>
    match h.outboundQueue with
    | message :: queue =>
      .inl { h with outboundQueue := queue, outbound := some (.pendingSend substream message) }
    | [] => .inr (.ok (.pending, h))
  | some (.pendingSend substream message) =>
    match F.pollReady substream with
    | (.ready (.ok ()), substream) =>
      match F.startSend substream message with
      | (.ok (), substream) => .inl { h with outbound := some (.pendingFlush substream) }
      | (.error .maxTransmissionSize, substream) =>
        .inl { h with outbound := some (.waitingOutput substream) }
      | (.error e, _) => .inr (.ok (.ready (.close e), { h with outbound := some .poisoned }))
    | (.ready (.error e), _) =>
      .inr (.ok (.ready (.close e), { h with outbound := some .poisoned }))
    | (.pending, substream) =>
      .inr (.ok (.pending, { h with
        keepAlive := true, outbound := some (.pendingSend substream message) }))
  | some (.pendingFlush substream) =>
    match F.pollFlush substream with
    | (.ready (.ok ()), substream) => .inl { h with outbound := some (.waitingOutput substream) }
    | (.ready (.error e), _) =>
      .inr (.ok (.ready (.close e), { h with outbound := some .poisoned }))
    | (.pending, substream) =>
      .inr (.ok (.pending, { h with
        keepAlive := true, outbound := some (.pendingFlush substream) }))
  | some (.closing substream) =>
    match F.pollClose substream with
    | (.ready (.ok ()), _) =>
      .inr (.ok (.pending, { h with
        outbound := none
        keepAlive := h.keepAlive && h.inbound.isSome }))
    | (.ready (.error _), _) =>
      .inr (.ok (.ready (.close .io), { h with outbound := some .poisoned }))
    | (.pending, substream) =>
      .inr (.ok (.pending, { h with keepAlive := false, outbound := some (.closing substream) }))
  | some .substreamRequested => .inr (.ok (.pending, h))
  | some .poisoned => .inr (.error .outboundPoisoned)
  | none =>
    .inr (.ok (.ready .outboundSubstreamRequest,
      { h with outbound := some .substreamRequested }))

/-- What is still to be sent and flushed. -/
def outboundMeasure : ℕ := 3 * h.outboundQueue.length +
  match h.outbound with
  | some (.pendingSend _ _) => 2
  | some (.pendingFlush _) => 1
  | _ => 0

omit h in
theorem shrinks_outboundRound : Shrinks (fun h => outboundRound h F) outboundMeasure := by
  intro h h' heq
  change outboundRound h F = .inl h' at heq
  unfold outboundRound at heq
  split at heq
  next hout =>
    split at heq
    next hqueue =>
      cases heq
      simp only [outboundMeasure, hout, hqueue, List.length_cons]
      omega
    · cases heq
  next hout =>
    split at heq
    · split at heq
      · cases heq
        simp [outboundMeasure, hout]
      · cases heq
        simp [outboundMeasure, hout]
      · cases heq
    · cases heq
    · cases heq
  next hout =>
    split at heq
    · cases heq
      simp [outboundMeasure, hout]
    · cases heq
    · cases heq
  · split at heq <;> cases heq
  · cases heq
  · cases heq
  · cases heq

/-- `process_outbound_poll`. -/
def processOutboundPoll : Polled S P A :=
  loop (fun h => outboundRound h F) outboundMeasure (shrinks_outboundRound F) h

/-- `EpisubHandler::poll`. -/
def poll : Polled S P A :=
  match h.processInboundPoll F with
  | .ok (.pending, h) => h.processOutboundPoll F
  | polled => polled

/-- What happens to a handler. -/
inductive Input (S P A : Type)
  | poll
  | fullyNegotiatedInbound (substream : S)
  | fullyNegotiatedOutbound (substream : S)
  | event (event : Rpc P A)

/-- One input. -/
def step : Input S P A → Except Unreachable (EpisubHandler S P A)
  | .poll => (h.poll F).map Prod.snd
  | .fullyNegotiatedInbound substream => .ok (h.injectFullyNegotiatedInbound substream)
  | .fullyNegotiatedOutbound substream => .ok (h.injectFullyNegotiatedOutbound substream)
  | .event event => .ok (h.injectEvent event)

omit h in
/-- One input of a handler that may have panicked. -/
def advance (s : Except Unreachable (EpisubHandler S P A)) (i : Input S P A) :
    Except Unreachable (EpisubHandler S P A) := s.bind fun h => h.step F i

/-- Inputs one after another. -/
def run (inputs : List (Input S P A)) : Except Unreachable (EpisubHandler S P A) :=
  inputs.foldl (advance F) (.ok h)

end EpisubHandler

end Network

end Rensa
