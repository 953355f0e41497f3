import Mathlib.Algebra.Group.Nat.Defs
import Rensa.Common.Keyed
/-!
# The swarm responder

A request that is observed is answered after a random time, unless someone
else answers it first. Durations and instants are nanoseconds. `Uniform`
and the map take a random number for every choice they make; the logarithm
of `f64` is a parameter, and so is the last `Instant` of the platform. A
function returns `none` where the source panics.
-/

namespace Rensa

namespace Network

/-- The first number of nanoseconds that is no `Duration`. -/
def durationEnd : ℕ := 2 ^ 64 * 1000000000

/-- `SwarmResponder`. -/
structure SwarmResponder (R : Type) where
  low : ℕ
  high : ℕ
  requests : KeySet (Prod.fst : R × ℕ → R) := .empty

namespace SwarmResponder

variable {R : Type}

/-- `SwarmResponder::new`: the product of a duration is checked. -/
def new (log2 : ℕ → ℕ) (slot networkSize : ℕ) : Option (SwarmResponder R) :=
  if slot * log2 networkSize < durationEnd then
    some { low := slot, high := slot * log2 networkSize }
  else none

variable (s : SwarmResponder R)

/-- A sample of `Uniform::new(self.low, self.high)`. -/
def delay (r : ℕ) : ℕ := s.low + r % (s.high - s.low)

variable [DecidableEq R]

/-- `SwarmResponder::request`: `Uniform::new` panics for an empty range, and
the sum of an instant is checked. -/
def request (max now r : ℕ) (req : R) : Option (SwarmResponder R) :=
  if req ∈ s.requests then some s
  else if s.low < s.high then
    let responseAt := now + s.delay r
    if responseAt ≤ max then some { s with requests := s.requests.insert (req, responseAt) }
    else none
  else none

/-- `SwarmResponder::cancel`. -/
def cancel (req : R) : SwarmResponder R := { s with requests := s.requests.remove req }

/-- `SwarmResponder::poll_next`: one of the requests whose time has come. -/
def pollNext (now r : ℕ) : Option R × SwarmResponder R :=
  match pick r (s.requests.items.filter fun e => e.2 ≤ now) with
  | some ready => (some ready.1, { s with requests := s.requests.remove ready.1 })
  | none => (none, s)

/-- What is done to a responder. -/
inductive Input (R : Type)
  | request (req : R)
  | cancel (req : R)
  | pollNext

/-- What has happened to the requests. -/
inductive Event (R : Type)
  | request (req : R) (now : ℕ)
  | cancel (req : R)
  | response (req : R)

/-- A responder with its past, the latest event first. -/
structure Session (R : Type) where
  responder : SwarmResponder R
  history : List (Event R) := []

/-- One input, at some time and with a random number: `none` is a panic. -/
def Session.step (max : ℕ) (s : Session R) (now r : ℕ) : Input R → Option (Session R)
  | .request req => (s.responder.request max now r req).map fun responder =>
      ⟨responder, .request req now :: s.history⟩
  | .cancel req => some ⟨s.responder.cancel req, .cancel req :: s.history⟩
  | .pollNext =>
    match s.responder.pollNext now r with
    | (some req, responder) => some ⟨responder, .response req :: s.history⟩
    | (none, responder) => some { s with responder }

/-- One input of a responder that may have panicked. -/
def advance (max : ℕ) (s : Option (Session R)) (i : Input R × ℕ × ℕ) : Option (Session R) :=
  s.bind fun s => s.step max i.2.1 i.2.2 i.1

/-- A new responder. -/
def start (log2 : ℕ → ℕ) (slot networkSize : ℕ) : Option (Session R) :=
  (new log2 slot networkSize).map fun responder => { responder }

/-- Inputs one after another. -/
def run (log2 : ℕ → ℕ) (slot networkSize max : ℕ) (inputs : List (Input R × ℕ × ℕ)) :
    Option (Session R) := inputs.foldl (advance max) (start log2 slot networkSize)

end SwarmResponder

end Network

end Rensa
