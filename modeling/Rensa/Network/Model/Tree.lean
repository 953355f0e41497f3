import Rensa.Common.BinarySearch
import Rensa.Network.Model.Rpc
/-!
# Plumtree

The broadcast tree of one topic: messages are pushed to the eager peers,
and the lazy ones are told which messages there are. A function returns
`none` where the source panics; whether an addition that overflows does is
up to the build, and `checks` says so. `decodeAll` is the decompression of
zstd; times are integers, and the clock is read once for every call.
-/

namespace Rensa

namespace Network

/-! ## The cache -/

/-- `MessageRecord`. -/
structure MessageRecord (P : Type) where
  id : UInt64
  hop : UInt32
  sender : P
  payload : Bytes

/-- `MessageInfo`. -/
structure MessageInfo (P : Type) where
  id : UInt64
  hop : UInt32
  sender : P

/-- `Keyed`, with the number of hops that values are compared by. -/
class Hopped (α : Type) where
  key : α → UInt64
  hop : α → UInt32

instance {P : Type} : Hopped (MessageRecord P) := ⟨MessageRecord.id, MessageRecord.hop⟩

instance {P : Type} : Hopped (MessageInfo P) := ⟨MessageInfo.id, MessageInfo.hop⟩

/-- `ExpiringCache`. -/
structure ExpiringCache (α : Type) where
  data : UInt64 → Option α := fun _ => none
  byTime : List (α × ℤ) := []

namespace ExpiringCache

variable {α : Type} [Hopped α] (c : ExpiringCache α)

/-- `ExpiringCache::get`. -/
def get (key : UInt64) : Option α := c.data key

/-- `ExpiringCache::insert`: whether the key is new, and the cache. -/
def insert (item : α) (now : ℤ) : Bool × ExpiringCache α :=
  match c.data (Hopped.key item) with
  | some old =>
    (false, if Hopped.hop item < Hopped.hop old then
      { c with data := Function.update c.data (Hopped.key item) (some item) } else c)
  | none =>
    (true, { data := Function.update c.data (Hopped.key item) (some item)
             byTime := c.byTime ++ [(item, now)] })

/-- A key is new when there is no value for it. -/
theorem insert_fst (item : α) (now : ℤ) :
    (c.insert item now).1 = !(c.get (Hopped.key item)).isSome := by
  unfold insert get
  cases c.data (Hopped.key item) <;> rfl

omit [Hopped α] in
/-- `binary_search_by` on the times, with the place of insertion where the
time is not found. Of several values of a time it may find any one:
`landing` says which. -/
def position (landing : ℤ → ℕ) (time : ℤ) : ℕ :=
  BinarySearch.search Prod.snd landing c.byTime time

omit [Hopped α] in
/-- `ExpiringCache::iter_range`: a range that ends before it starts
panics. -/
def iterRange (landing : ℤ → ℕ) (start stop : ℤ) : Option (List α) :=
  let start := c.position landing start
  let stop := c.position landing stop
  if stop < start then none else some (((c.byTime.take stop).drop start).map Prod.fst)

/-- The loop of `remove_older_than`, over the values by time. -/
def removeFront (since : ℤ) : List (α × ℤ) → (UInt64 → Option α) → ExpiringCache α
  | [], data => { data, byTime := [] }
  | entry :: rest, data =>
    if since < entry.2 then { data, byTime := entry :: rest }
    else removeFront since rest (Function.update data (Hopped.key entry.1) none)

/-- `ExpiringCache::remove_older_than`. -/
def removeOlderThan (since : ℤ) : ExpiringCache α := removeFront since c.byTime c.data

end ExpiringCache

/-! ## The tree -/

/-- Where the binary searches in the two caches land among values of one
time. -/
structure Landing where
  received : ℤ → ℕ := fun _ => 0
  observed : ℤ → ℕ := fun _ => 0

/-- `PlumTree`. -/
structure PlumTree (P A : Type) where
  topic : String
  config : Config P
  localNode : P
  lazy : IdSet P := .empty
  eager : IdSet P := .empty
  observed : ExpiringCache (MessageInfo P) := {}
  received : ExpiringCache (MessageRecord P) := {}
  outEvents : List (NetworkAction P A) := []

namespace PlumTree

variable {P A : Type}

/-- `PlumTree::new`. -/
def new (topic : String) (config : Config P) (localNode : P) : PlumTree P A :=
  { topic, config, localNode }

variable (t : PlumTree P A)

/-- `out_events.push_back`, for some actions. -/
def emitAll (actions : List (NetworkAction P A)) : PlumTree P A :=
  { t with outEvents := t.outEvents ++ actions }

/-- The action that sends a message of this topic to a peer. -/
def toPeer (peer : P) (action : Action P A) : NetworkAction P A :=
  .notifyHandler peer { topic := t.topic, action := some action }

/-- Sends one message to some peers. -/
def notifyAll (peers : List P) (action : Action P A) : PlumTree P A :=
  t.emitAll (peers.map fun p => t.toPeer p action)

variable [DecidableEq P]

/-- `PlumTree::inject_neighbor_up`. -/
def injectNeighborUp (peer : P) : PlumTree P A := { t with eager := t.eager.insert peer }

/-- `PlumTree::inject_neighbor_down`. -/
def injectNeighborDown (peer : P) : PlumTree P A :=
  { t with eager := t.eager.remove peer, lazy := t.lazy.remove peer }

/-- `PlumTree::publish`. -/
def publish (now : ℤ) (id : UInt64) (payload : Bytes) : PlumTree P A :=
  if (t.received.get id).isSome then t
  else if (t.observed.get id).isSome then t
  else
    let t := t.notifyAll t.eager.items (.message id 1 payload)
    { t with received := (t.received.insert ⟨id, 0, t.localNode, payload⟩ now).2 }

/-- `PlumTree::inject_prune`. -/
def injectPrune (peer : P) : PlumTree P A :=
  { t with eager := t.eager.remove peer, lazy := t.lazy.insert peer }

/-- `PlumTree::inject_graft`. -/
def injectGraft (peer : P) (ids : List UInt64) : PlumTree P A :=
  { t with lazy := t.lazy.remove peer, eager := t.eager.insert peer }.emitAll
    ((ids.filterMap t.received.get).map fun msg : MessageRecord P =>
      t.toPeer peer (.message msg.id msg.hop msg.payload))

/-- `PlumTree::inject_ihave`. -/
def injectIhave (now : ℤ) (peer : P) (id : UInt64) (hop : UInt32) : PlumTree P A :=
  { t with observed := (t.observed.insert ⟨id, hop, peer⟩ now).2 }

/-- `hop + 1`: with overflow checks it panics at the last number of hops,
without them it wraps. -/
def nextHop (checks : Bool) (hop : UInt32) : Option UInt32 :=
  if checks ∧ 2 ^ 32 ≤ hop.toNat + 1 then none else some (hop + 1)

/-- `PlumTree::inject_message`: the decompression is unwrapped. -/
def injectMessage (checks : Bool) (decodeAll : Bytes → Option Bytes) (now : ℤ) (peer : P)
    (id : UInt64) (hop : UInt32) (payload : Bytes) : Option (PlumTree P A) :=
  let (fresh, received) := t.received.insert ⟨id, hop, peer, payload⟩ now
  let t := { t with received }
  if fresh then
    match if t.config.enableCompression then decodeAll payload else some payload with
    | none => none
    | some out =>
      let t := t.emitAll [.generateEvent (.message t.topic id out)]
      (nextHop checks hop).map fun next =>
        t.notifyAll (t.eager.items.filter (· ≠ peer)) (.message id next payload)
  else if t.config.optimizeSenderTree && decide (peer ∈ t.eager) then
    some ((t.injectPrune peer).notifyAll [peer] .prune)
  else some t

omit [DecidableEq P] in
/-- `PlumTree::publish_ihaves`. -/
def publishIhaves (landing : Landing) (now : ℤ) : Option (PlumTree P A) :=
  match t.received.iterRange landing.received (now - t.config.lazyPushWindow) now with
  | none => none
  | some received =>
    some (if received.isEmpty then t
      else t.notifyAll t.lazy.items (.ihave (received.map fun m => (m.hop, m.id))))

/-- Adds to what is asked of a peer. -/
def addGraft (grafts : List (P × List UInt64)) (peer : P) (ids : List UInt64) :
    List (P × List UInt64) :=
  if grafts.any fun g => g.1 = peer then
    grafts.map fun g => if g.1 = peer then (g.1, g.2 ++ ids) else g
  else grafts ++ [(peer, ids)]

/-- The grafts that the messages observed elsewhere ask for. -/
def grafts (expected : List (MessageInfo P)) : List (P × List UInt64) :=
  expected.foldl (fun grafts observed =>
    match t.received.get observed.id with
    | some received =>
      if t.config.hopOptimizationFactor ≤ received.hop.toNat - observed.hop.toNat ∧
          0 < observed.hop.toNat then
        addGraft grafts observed.sender []
      else grafts
    | none => addGraft grafts observed.sender [observed.id]) []

/-- `PlumTree::repair_tree`. -/
def repairTree (landing : Landing) (now : ℤ) : Option (PlumTree P A) :=
  match t.observed.iterRange landing.observed (now - t.config.lazyPushWindow)
      (now - 2 * t.config.tickFrequency) with
  | none => none
  | some observed =>
    let expected : KeySet (MessageInfo.id (P := P)) := .ofList observed
    let t := t.emitAll ((t.grafts expected.items).map fun g => t.toPeer g.1 (.graft g.2))
    let cutoff := now - t.config.historyWindow
    some { t with
      observed := t.observed.removeOlderThan cutoff
      received := t.received.removeOlderThan cutoff }

/-- `PlumTree::poll`. -/
def poll (landing : Landing) (now : ℤ) (tickDue : Bool) :
    Option (Option (NetworkAction P A) × PlumTree P A) :=
  match if tickDue then (t.publishIhaves landing now).bind fun t => t.repairTree landing now
    else some t with
  | none => none
  | some t =>
    match t.outEvents with
    | [] => some (none, t)
    | event :: rest => some (some event, { t with outEvents := rest })

end PlumTree

end Network

end Rensa
