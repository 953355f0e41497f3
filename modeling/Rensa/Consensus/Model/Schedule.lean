import Rensa.Common.Loop
import Rensa.Consensus.Model.Block
/-!
# The schedule of the validators

`ValidatorSchedule` draws one validator after another, and
`ValidatorScheduleStream` hands them out as the slots go by. The slots come
from a background task with the clock of the system (`SlotClock`), over a
channel that keeps the latest one. The generator and the weighted
distribution are those of the library `rand` (`Sampler`).

Times are milliseconds and nanoseconds of one time line without an end, and
timers fire when they are due. The arithmetic of the task is that of `u64`,
checked for overflow. Wakers are left out: a poll may come at any time.
-/

namespace Rensa

namespace Consensus

variable {G H : Type}

/-! ## The generator -/

/-- `ChaCha20Rng` and `WeightedIndex::sample`: an index into the weights. -/
structure Sampler (G : Type) where
  fromSeed : Bytes → G
  sample : List ℕ → G → ℕ × G
  sample_lt : ∀ weights rng, weights ≠ [] → (sample weights rng).1 < weights.length

/-- `WeightedError`. -/
inductive WeightedError
  | noItem
  | allWeightsZero
deriving DecidableEq

/-- The validators with enough stake. -/
def Genesis.eligible (genesis : Genesis H) : List (Pubkey × ℕ) :=
  genesis.validators.filter fun v => genesis.limits.minimumStake ≤ v.2

/-- `ValidatorSchedule`. The distribution is that of the stakes. -/
structure ValidatorSchedule (G : Type) (genesis : Genesis H) where
  rng : G
  nonempty : genesis.eligible ≠ []

namespace ValidatorSchedule

variable {genesis : Genesis H} (R : Sampler G)

/-- `ValidatorSchedule::new`. -/
def new (seed : Bytes) (genesis : Genesis H) :
    Except WeightedError (ValidatorSchedule G genesis) :=
  if hnone : genesis.eligible = [] then .error .noItem
  else if (genesis.eligible.map Prod.snd).sum = 0 then .error .allWeightsZero
  else .ok ⟨R.fromSeed seed, hnone⟩

/-- `next`. -/
def next (s : ValidatorSchedule G genesis) :
    Option (Pubkey × ℕ) × ValidatorSchedule G genesis :=
  let (index, rng) := R.sample (genesis.eligible.map Prod.snd) s.rng
  (genesis.eligible[index]?, { s with rng })

/-- The item that `next` yields after some others. -/
def item (s : ValidatorSchedule G genesis) : ℕ → Option (Pubkey × ℕ)
  | 0 => (s.next R).1
  | n + 1 => item (s.next R).2 n

end ValidatorSchedule

/-- `Enumerate<ValidatorSchedule>`. -/
structure Enumerate (G : Type) (genesis : Genesis H) where
  iter : ValidatorSchedule G genesis
  count : ℕ := 0

/-- `next` of an enumeration: the count goes up with every item. -/
def Enumerate.next {genesis : Genesis H} (R : Sampler G) (e : Enumerate G genesis) :
    Option (ℕ × (Pubkey × ℕ)) × Enumerate G genesis :=
  match e.iter.next R with
  | (some v, iter) => (some (e.count, v), { iter, count := e.count + 1 })
  | (none, iter) => (none, { e with iter })

/-! ## The stream -/

/-- `ValidatorScheduleStream`, with the latest slot the channel holds. -/
structure ValidatorScheduleStream (G : Type) (genesis : Genesis H) where
  schedule : Enumerate G genesis
  pos : ℕ := 0
  notif : ℕ := 0

namespace ValidatorScheduleStream

variable {genesis : Genesis H} (R : Sampler G)

/-- `ValidatorScheduleStream::new`. -/
def new (schedule : ValidatorSchedule G genesis) : ValidatorScheduleStream G genesis :=
  { schedule := { iter := schedule } }

/-- Where the loop of `poll_next` ends. -/
inductive Turn
  | reached (turn : ℕ) (validator : Pubkey × ℕ)
  | exhausted
  | unreachable

/-- A round of the loop of `poll_next`. -/
def catchUpRound (slot : ℕ) (e : Enumerate G genesis) :
    Enumerate G genesis ⊕ Turn × Enumerate G genesis :=
  match e.next R with
  | (none, e) => .inr (.exhausted, e)
  | (some (turn, validator), e) =>
    if turn < slot then .inl e
    else if turn = slot then .inr (.reached turn validator, e)
    else .inr (.unreachable, e)

theorem shrinks_catchUpRound (slot : ℕ) :
    Shrinks (catchUpRound R slot) fun e : Enumerate G genesis => slot - e.count := by
  intro e e' heq
  unfold catchUpRound Enumerate.next at heq
  rcases hnext : e.iter.next R with ⟨_ | v, iter⟩
  · rw [hnext] at heq
    cases heq
  · rw [hnext] at heq
    dsimp only at heq
    split at heq
    next hlt =>
      cases heq
      show slot - (e.count + 1) < slot - e.count
      omega
    · split at heq <;> cases heq

/-- `poll_next`: `none` where `unreachable!` is reached. -/
def pollNext (s : ValidatorScheduleStream G genesis) :
    Option (Option (ℕ × (Pubkey × ℕ)) × ValidatorScheduleStream G genesis) :=
  if s.pos < s.notif then
    match loop (catchUpRound R s.notif) _ (shrinks_catchUpRound R s.notif) s.schedule with
    | (.reached turn validator, schedule) =>
      some (some (turn, validator), { s with schedule, pos := turn })
    | (.exhausted, schedule) => some (none, { s with schedule })
    | (.unreachable, _) => none
  else some (none, s)

/-- What happens to the stream. -/
inductive Input
  /-- The background task sends a slot. -/
  | publish (slot : ℕ)
  | poll
deriving DecidableEq

/-- The slots that are sent. -/
def published : List Input → List ℕ
  | [] => []
  | .publish slot :: inputs => slot :: published inputs
  | .poll :: inputs => published inputs

/-- What the stream yields over some inputs, and the stream after them. -/
def run : List Input → ValidatorScheduleStream G genesis →
    Option (List (ℕ × (Pubkey × ℕ)) × ValidatorScheduleStream G genesis)
  | [], s => some ([], s)
  | .publish slot :: inputs, s => run inputs { s with notif := slot }
  | .poll :: inputs, s =>
    match s.pollNext R with
    | none => none
    | some (item, s) => (run inputs s).map fun r => (item.toList ++ r.1, r.2)

end ValidatorScheduleStream

/-! ## The background task -/

/-- The milliseconds that a `DateTime<Utc>` can be at: those of the years
-262144 to 262143. -/
def dateTimeMin : ℤ := -8334632937600000

/-- The last one of them. -/
def dateTimeMax : ℤ := 8210298412799999

/-- `DateTime<Utc>`, in milliseconds. -/
structure DateTime where
  millis : ℤ
  min_le : dateTimeMin ≤ millis
  le_max : millis ≤ dateTimeMax

namespace SlotClock

/-- `as u64`, of an `i64` or a `u128`. -/
def asU64 (x : ℤ) : ℕ := (x % 2 ^ 64).toNat

/-- A result of `u64` arithmetic that is checked for overflow. -/
def checked (n : ℕ) : Option ℕ := if n < 2 ^ 64 then some n else none

/-- `Utc::now`, at a time: it panics at one that is no `DateTime`. -/
def utcNow (millis : ℤ) : Option DateTime :=
  if h : dateTimeMin ≤ millis ∧ millis ≤ dateTimeMax then some ⟨millis, h.1, h.2⟩ else none

/-- `Duration::as_millis`, of nanoseconds. -/
def asMillis (slot : ℕ) : ℕ := slot / 1000000

/-- The loop of the task: the slot that is published next, and when, in
nanoseconds. -/
structure Task where
  pos : ℕ
  nextAt : ℤ

/-- A round of the loop. -/
def Task.advance (slot : ℕ) (t : Task) : Task := ⟨t.pos + 1, t.nextAt + slot⟩

/-- When the task wakes up where it waits for the genesis. -/
def wakeAt (genesis now : DateTime) : ℤ :=
  if now.millis < genesis.millis then
    -- the wait is the time since the genesis, not the time until it
    now.millis + asU64 (now.millis - genesis.millis)
  else now.millis

/-- The background task of `ValidatorScheduleStream::new`, up to its loop:
`none` where it panics. -/
def start (genesis now : DateTime) (slot : ℕ) : Option Task := do
  let awake ← utcNow (wakeAt genesis now)
  let elapsed := awake.millis - genesis.millis
  let slotMillis := asU64 (asMillis slot)
  if slotMillis = 0 then none else
  let slots := asU64 elapsed / slotMillis
  let turn ← checked (slots + 1)
  let next ← checked (turn * slotMillis)
  let rem := next - asU64 elapsed
  return { pos := slots, nextAt := (awake.millis + rem) * 1000000 }

end SlotClock

end Consensus

end Rensa
