import Rensa.Common.Along
import Rensa.Network.Model.Responder
/-!
# When the responder keeps its promises

The history of a responder says since when a request is registered: since
it was first observed, after the last cancellation and the last response.
The map of the responder holds exactly these requests, each with a time
that is at least a slot later (`Tracks`). So a response has a registration
of its own, and comes a slot after it. What can fail is a registration: the
range of the delays is empty in a network of one or two validators
(`responds_iff`).
-/

namespace Rensa

namespace Network

namespace SwarmResponder

variable {R : Type} [DecidableEq R] {log2 : ℕ → ℕ} {slot networkSize max now r : ℕ} {req : R}

/-! ## What was promised -/

/-- Since when a request is registered. A repetition changes nothing. -/
def registeredAt (req : R) : List (Event R) → Option ℕ
  | [] => none
  | .request req' now :: history =>
    if req' = req then (registeredAt req history).or (some now) else registeredAt req history
  | .cancel req' :: history => if req' = req then none else registeredAt req history
  | .response req' :: history => if req' = req then none else registeredAt req history

/-- **The promises of a responder**: nothing panics, a response has a
registration that is at least a slot old, and a repeated request changes
nothing. -/
structure Responds (log2 : ℕ → ℕ) (slot networkSize max : ℕ) (inputs : List (Input R × ℕ × ℕ)) :
    Prop where
  noPanic : ∀ pre, pre <+: inputs → (run log2 slot networkSize max pre).isSome
  response : ∀ pre now r, pre ++ [(.pollNext, now, r)] <+: inputs →
    ∀ s ∈ run log2 slot networkSize max pre, ∀ req ∈ (s.responder.pollNext now r).1,
    ∃ since ∈ registeredAt req s.history, since + slot ≤ now
  repeated : ∀ pre req now r, pre ++ [(.request req, now, r)] <+: inputs →
    ∀ s ∈ run log2 slot networkSize max pre, (registeredAt req s.history).isSome →
    s.responder.request max now r req = some s.responder

/-! ## The map and the history -/

/-- The map holds what is registered, each with a time a slot later. -/
structure Tracks (slot high : ℕ) (s : Session R) : Prop where
  low : s.responder.low = slot
  high : s.responder.high = high
  mem : ∀ req, req ∈ s.responder.requests ↔ (registeredAt req s.history).isSome
  since : ∀ e ∈ s.responder.requests.items, ∀ since ∈ registeredAt e.1 s.history,
    since + slot ≤ e.2

variable {high : ℕ} {s s' : Session R}

/-- Taking a request out of the map and out of the history. -/
theorem Tracks.remove (hs : Tracks slot high s) {e : Event R}
    (he : ∀ req', registeredAt req' (e :: s.history) =
      if req = req' then none else registeredAt req' s.history) :
    Tracks slot high ⟨{ s.responder with requests := s.responder.requests.remove req },
      e :: s.history⟩ := by
  refine ⟨hs.low, hs.high, fun req' => ?_, fun entry hentry since hsince => ?_⟩
  · show req' ∈ s.responder.requests.remove req ↔ _
    rw [KeySet.mem_remove, hs.mem, he]
    by_cases hreq : req = req'
    · simp [hreq]
    · simp [hreq, Ne.symm hreq]
  · obtain ⟨hentry, hne⟩ := List.mem_filter.1 hentry
    rw [he, if_neg fun heq => by simp [heq] at hne] at hsince
    exact hs.since entry hentry since hsince

/-- What a request adds to the history. -/
theorem registeredAt_request (req' : R) (history : List (Event R)) :
    registeredAt req' (.request req now :: history) =
      if req = req' then (registeredAt req' history).or (some now)
      else registeredAt req' history := rfl

/-- A repetition, which changes neither the map nor what is registered. -/
theorem Tracks.repetition (hs : Tracks slot high s) (hreq : (registeredAt req s.history).isSome) :
    Tracks slot high { s with history := .request req now :: s.history } := by
  have hregistered : ∀ req', registeredAt req' (.request req now :: s.history) =
      registeredAt req' s.history := fun req' => by
    rw [registeredAt_request]
    split
    next heq => rw [← heq, Option.or_of_isSome hreq]
    · rfl
  refine ⟨hs.low, hs.high, fun req' => ?_, fun entry hentry since hsince => ?_⟩
  · rw [hregistered]
    exact hs.mem req'
  · rw [hregistered] at hsince
    exact hs.since entry hentry since hsince

/-- What is not registered is not in the map. -/
theorem Tracks.vacant (hs : Tracks slot high s) (hreq : registeredAt req s.history = none) :
    req ∉ s.responder.requests := by
  rw [hs.mem, hreq]
  exact Bool.false_ne_true

/-- A request that is registered already. -/
theorem request_repeated (hs : Tracks slot high s) (hreq : (registeredAt req s.history).isSome) :
    s.responder.request max now r req = some s.responder :=
  if_pos ((hs.mem req).2 hreq)

/-- A request that is not: it is registered where there is a delay to choose
and the sum is an instant. -/
theorem request_vacant (hs : Tracks slot high s) (hreq : registeredAt req s.history = none) :
    s.responder.request max now r req =
      if slot < high ∧ now + (slot + r % (high - slot)) ≤ max then
        some { low := slot, high, requests :=
          s.responder.requests.insert (req, now + (slot + r % (high - slot))) }
      else none := by
  unfold request delay
  rw [if_neg (hs.vacant hreq), ite_and, hs.low, hs.high]

/-- A new registration, in the map and in the history. -/
theorem Tracks.register (hs : Tracks slot high s) (hreq : registeredAt req s.history = none)
    {at' : ℕ} (hat : now + slot ≤ at') :
    Tracks slot high ⟨{ low := slot, high, requests := s.responder.requests.insert (req, at') },
      .request req now :: s.history⟩ := by
  have hvacant := hs.vacant hreq
  have hregistered : ∀ req', registeredAt req' (.request req now :: s.history) =
      if req = req' then some now else registeredAt req' s.history := fun req' => by
    rw [registeredAt_request]
    split
    next heq => rw [← heq, hreq, Option.none_or]
    · rfl
  refine ⟨rfl, rfl, fun req' => ?_, fun entry hentry since hsince => ?_⟩
  · show req' ∈ s.responder.requests.insert (req, at') ↔ _
    rw [KeySet.mem_insert, hs.mem, hregistered]
    by_cases heq : req = req'
    · simp [heq]
    · simp [heq, Ne.symm heq]
  · rw [hregistered] at hsince
    rw [KeySet.items_insert hvacant] at hentry
    rcases List.mem_append.1 hentry with hentry | hentry
    · have hne : req ≠ entry.1 := fun heq => hvacant (heq ▸ KeySet.mem_of_item hentry)
      rw [if_neg hne] at hsince
      exact hs.since entry hentry since hsince
    · obtain rfl := List.mem_singleton.1 hentry
      rw [if_pos rfl, Option.mem_some_iff] at hsince
      exact hsince ▸ hat

/-- What a poll does: a request whose time has come is taken out, or there
is none. -/
theorem pollNext_cases (s : SwarmResponder R) (now r : ℕ) :
    (∃ ready ∈ s.requests.items, ready.2 ≤ now ∧
      s.pollNext now r = (some ready.1, { s with requests := s.requests.remove ready.1 })) ∨
      s.pollNext now r = (none, s) := by
  unfold pollNext
  split
  next ready hready =>
    obtain ⟨hmem, hdue⟩ := List.mem_filter.1 (pick_mem hready)
    exact .inl ⟨ready, hmem, of_decide_eq_true hdue, rfl⟩
  · exact .inr rfl

/-- **A response has a registration** that is a slot old. -/
theorem response_of_pollNext (hs : Tracks slot high s)
    (hpoll : (s.responder.pollNext now r).1 = some req) :
    ∃ since ∈ registeredAt req s.history, since + slot ≤ now := by
  rcases pollNext_cases s.responder now r with ⟨ready, hmem, hdue, hready⟩ | hnone
  · rw [hready] at hpoll
    obtain rfl : ready.1 = req := Option.some.inj hpoll
    obtain ⟨since, hsince⟩ := Option.isSome_iff_exists.1 ((hs.mem _).1 (KeySet.mem_of_item hmem))
    exact ⟨since, hsince, Nat.le_trans (hs.since ready hmem since hsince) hdue⟩
  · rw [hnone] at hpoll
    cases hpoll

/-- **A step keeps the map and the history together.** -/
theorem Tracks.step (hs : Tracks slot high s) {i : Input R} (h : s.step max now r i = some s') :
    Tracks slot high s' := by
  cases i with
  | request req =>
    obtain ⟨responder, hresponder, rfl⟩ := Option.map_eq_some_iff.1 h
    cases hreq : registeredAt req s.history with
    | some since =>
      have hsome : (registeredAt req s.history).isSome := by rw [hreq]; rfl
      rw [request_repeated hs hsome] at hresponder
      cases hresponder
      exact hs.repetition hsome
    | none =>
      rw [request_vacant hs hreq] at hresponder
      split at hresponder
      · cases hresponder
        exact hs.register hreq (by omega)
      · cases hresponder
  | cancel req =>
    cases h
    exact hs.remove fun _ => rfl
  | pollNext =>
    unfold Session.step at h
    rcases pollNext_cases s.responder now r with ⟨ready, -, -, hready⟩ | hnone
    · rw [hready] at h
      cases h
      exact hs.remove fun _ => rfl
    · rw [hnone] at h
      cases h
      exact hs

/-- Which requests a responder takes: only a registration can fail. -/
theorem request_isSome_iff (hs : Tracks slot high s) :
    (s.step max now r (.request req)).isSome ↔ (registeredAt req s.history = none →
      slot < high ∧ now + (slot + r % (high - slot)) ≤ max) := by
  have hstep : (s.step max now r (.request req)).isSome ↔
      (s.responder.request max now r req).isSome := by
    simp [Session.step]
  rw [hstep]
  cases hreq : registeredAt req s.history with
  | some since =>
    rw [request_repeated hs (by rw [hreq]; rfl)]
    exact iff_of_true rfl nofun
  | none =>
    rw [request_vacant hs hreq, forall_prop_of_true rfl]
    split
    next h => exact iff_of_true rfl h
    next h => exact iff_of_false Bool.false_ne_true h

/-- Polling never fails. -/
theorem pollNext_isSome (s : Session R) (max now r : ℕ) : (s.step max now r .pollNext).isSome := by
  unfold Session.step
  rcases pollNext_cases s.responder now r with ⟨_, -, -, hready⟩ | hnone
  · rw [hready]
    rfl
  · rw [hnone]
    rfl

/-! ## Runs -/

/-- A registration finds more than two validators, and the end of its delay
is an instant. -/
def Registers (log2 : ℕ → ℕ) (slot networkSize max : ℕ) (s : Option (Session R)) :
    Input R × ℕ × ℕ → Prop
  | (.request req, now, r) => ∀ s₀ ∈ s, registeredAt req s₀.history = none →
    3 ≤ networkSize ∧ now + (slot + r % (slot * log2 networkSize - slot)) ≤ max
  | _ => True

instance (s : Option (Session R)) : (i : Input R × ℕ × ℕ) →
    Decidable (Registers log2 slot networkSize max s i)
  | (.request req, now, r) =>
    inferInstanceAs (Decidable (∀ s₀ ∈ s, registeredAt req s₀.history = none →
      3 ≤ networkSize ∧ now + (slot + r % (slot * log2 networkSize - slot)) ≤ max))
  | (.cancel _, _, _) | (.pollNext, _, _) => inferInstanceAs (Decidable True)

/-- A logarithm of `f64`, rounded: it is at most a sixteenth further than
half away from the exact one. -/
def RoundedLog2 (n k : ℕ) : Prop := 2 ^ (16 * k) ≤ n ^ 16 * 2 ^ 9 ∧ n ^ 16 ≤ 2 ^ (16 * k + 9)

instance (n k : ℕ) : Decidable (RoundedLog2 n k) :=
  inferInstanceAs (Decidable (2 ^ (16 * k) ≤ n ^ 16 * 2 ^ 9 ∧ n ^ 16 ≤ 2 ^ (16 * k + 9)))

/-- The range of the delays is empty for one and for two validators. -/
theorem RoundedLog2.one_lt_iff {n k : ℕ} (h : RoundedLog2 n k) (hn : 1 ≤ n) : 1 < k ↔ 3 ≤ n := by
  constructor
  · intro hk
    by_contra hsmall
    have hpow : n ^ 16 ≤ 2 ^ 16 := Nat.pow_le_pow_left (by omega) 16
    have hlarge : 2 ^ (16 * 2) ≤ 2 ^ (16 * k) := Nat.pow_le_pow_right (by omega) (by omega)
    have hle := h.1
    omega
  · intro hn
    by_contra hsmall
    have hpow : 3 ^ 16 ≤ n ^ 16 := Nat.pow_le_pow_left hn 16
    have hsmall' : 2 ^ (16 * k + 9) ≤ 2 ^ (16 * 1 + 9) :=
      Nat.pow_le_pow_right (by omega) (by omega)
    have hle := h.2
    omega

theorem tracks_start (h : s ∈ start (R := R) log2 slot networkSize) :
    Tracks slot (slot * log2 networkSize) s := by
  obtain ⟨responder, hnew, rfl⟩ := Option.map_eq_some_iff.1 h
  unfold new at hnew
  split at hnew
  · cases hnew
    exact ⟨rfl, rfl, fun req => iff_of_false KeySet.not_mem_empty nofun, nofun⟩
  · cases hnew

theorem tracks_advance {k : Option (Session R)} (hk : ∀ s ∈ k, Tracks slot high s)
    (i : Input R × ℕ × ℕ) : ∀ s ∈ advance max k i, Tracks slot high s := by
  intro s hs
  obtain ⟨s₀, rfl, hstep⟩ := Option.bind_eq_some_iff.1 hs
  exact (hk s₀ rfl).step hstep

/-- The map and the history are together after any inputs. -/
theorem tracks_run (inputs : List (Input R × ℕ × ℕ)) :
    ∀ s ∈ run log2 slot networkSize max inputs, Tracks slot (slot * log2 networkSize) s :=
  List.foldlRecOn inputs (advance max) (motive := fun k => ∀ s ∈ k, Tracks slot _ s)
    (fun _ => tracks_start) fun _ hk i _ => tracks_advance hk i

/-- **When a responder keeps its promises**: exactly where the range of the
delays is a duration, and every registration finds more than two validators
and an instant for its answer. -/
theorem responds_iff (log2 : ℕ → ℕ) (slot networkSize max : ℕ) (inputs : List (Input R × ℕ × ℕ))
    (hslot : 0 < slot) (hsize : 1 ≤ networkSize)
    (hlog2 : RoundedLog2 networkSize (log2 networkSize)) :
    Responds log2 slot networkSize max inputs ↔ slot * log2 networkSize < durationEnd ∧
      Along (advance max) (Registers log2 slot networkSize max) (start log2 slot networkSize)
        inputs := by
  have hrange : slot < slot * log2 networkSize ↔ 3 ≤ networkSize := by
    rw [← hlog2.one_lt_iff hsize]
    exact Nat.lt_mul_iff_one_lt_right hslot
  have hnew : (start (R := R) log2 slot networkSize).isSome ↔
      slot * log2 networkSize < durationEnd := by
    unfold start new
    split
    next h => exact iff_of_true rfl h
    next h => exact iff_of_false nofun h
  have hpromises : Responds log2 slot networkSize max inputs ↔
      ∀ pre, pre <+: inputs → (run log2 slot networkSize max pre).isSome := by
    refine ⟨Responds.noPanic, fun h => ⟨h, ?_, ?_⟩⟩
    · intro pre now r _ s hs req hpoll
      exact response_of_pollNext (tracks_run pre s hs) hpoll
    · intro pre req now r _ s hs hreq
      exact request_repeated (tracks_run pre s hs) hreq
  rw [hpromises, ← hnew]
  by_cases hstart : (start (R := R) log2 slot networkSize).isSome
  · rw [and_iff_right hstart]
    refine along_iff (I := fun k => ∀ s ∈ k, Tracks slot (slot * log2 networkSize) s)
      (B := fun k => k.isSome) (fun _ => tracks_start) hstart (fun _ i hk => tracks_advance hk i)
      ?_ inputs
    rintro k ⟨i, now, r⟩ hk hsome
    obtain ⟨s, rfl⟩ := Option.isSome_iff_exists.1 hsome
    cases i with
    | request req =>
      refine (request_isSome_iff (hk s rfl)).trans ?_
      simp only [Registers, Option.mem_def, Option.some.injEq, forall_eq', hrange]
    | cancel req => exact iff_of_true rfl trivial
    | pollNext => exact iff_of_true (pollNext_isSome s max now r) trivial
  · refine iff_of_false (fun h => hstart (h [] (List.nil_prefix))) fun h => hstart h.1

/-- Four validators: two requests, a repetition, a cancellation and a
response. -/
def fourValidators : List (Input ℕ × ℕ × ℕ) :=
  [(.request 5, 0, 3), (.request 6, 1, 9), (.request 5, 2, 0), (.cancel 6, 4, 0),
    (.pollNext, 13, 0), (.pollNext, 30, 0)]

theorem responds_fourValidators : Responds Nat.log2 10 4 1000 fourValidators :=
  (responds_iff Nat.log2 10 4 1000 fourValidators (by decide) (by decide) (by decide)).2
    ⟨by decide, by decide⟩

/-- A request in a network of one validator, or of two, is a panic. -/
theorem small_network_panics :
    ¬ Responds Nat.log2 10 1 1000 [((.request 5 : Input ℕ), 0, 0)] ∧
      ¬ Responds Nat.log2 10 2 1000 [((.request 5 : Input ℕ), 0, 0)] :=
  ⟨fun h => absurd (h.noPanic _ (List.prefix_refl _)) (by decide),
    fun h => absurd (h.noPanic _ (List.prefix_refl _)) (by decide)⟩

end SwarmResponder

end Network

end Rensa
