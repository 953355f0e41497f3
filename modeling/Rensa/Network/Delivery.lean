import Rensa.Network.Panic
/-!
# A message is delivered once

A tree hands a message up when it is new to the cache of the received
ones, and notes it there; a message that the node publishes is noted too.
As long as the cache keeps the id, later copies are duplicates, whatever
happens to the peers and whichever record the cache prefers. The copy that
is new goes to the eager peers other than its sender, with the next number
of hops: zero after the last one, as the build has no overflow checks.
-/

namespace Rensa

namespace Network

variable {P A : Type}

/-- The event that a message with some id arrived. -/
def NetworkAction.delivers (id : UInt64) : NetworkAction P A → Bool
  | .generateEvent (.message _ id' _) => id' = id
  | _ => false

/-- An inserted key is in the cache, next to the ones that were there. -/
theorem ExpiringCache.isSome_insert {α : Type} [Hopped α] (c : ExpiringCache α) (item : α) (now : ℤ)
    (key : UInt64) : ((c.insert item now).2.get key).isSome ↔
      (c.get key).isSome ∨ key = Hopped.key item := by
  unfold insert get
  by_cases hkey : key = Hopped.key item
  · subst hkey
    cases hold : c.data (Hopped.key item) with
    | none => simp
    | some old =>
      dsimp only
      split
      · simp
      · simp [hold]
  · cases hold : c.data (Hopped.key item) with
    | none => simp [hkey]
    | some old =>
      dsimp only
      split
      · simp [hkey]
      · simp [hkey]

namespace PlumTree

/-! ## Runs -/

/-- What is done to a tree. -/
inductive Input (P : Type)
  | publish (id : UInt64) (payload : Bytes)
  | message (peer : P) (id : UInt64) (hop : UInt32) (payload : Bytes)
  | ihave (peer : P) (id : UInt64) (hop : UInt32)
  | prune (peer : P)
  | graft (peer : P) (ids : List UInt64)
  | neighborUp (peer : P)
  | neighborDown (peer : P)
  | poll (tickDue : Bool) (landing : Landing)

/-- A tree with its past: the actions that polls handed out, and the ids of
the messages that were published. -/
structure Session (P A : Type) where
  tree : PlumTree P A
  handed : List (NetworkAction P A) := []
  published : List UInt64 := []

/-- A message of a peer has a payload that decompresses, where it has to. -/
def Input.Valid (decodeAll : Bytes → Option Bytes) (config : Config P) : Input P → Prop
  | .message _ _ _ payload => config.enableCompression → (decodeAll payload).isSome
  | _ => True

/-- `publish` takes a message that was not received and not observed. -/
def accepts (t : PlumTree P A) (id : UInt64) : Bool :=
  !(t.received.get id).isSome && !(t.observed.get id).isSome

namespace Session

variable (s : Session P A)

/-- All actions that the tree generated. -/
def generated : List (NetworkAction P A) := s.handed ++ s.tree.outEvents

/-- How often a message with some id was delivered. -/
def deliveries (id : UInt64) : ℕ := s.generated.countP (NetworkAction.delivers id)

variable [DecidableEq P] (decodeAll : Bytes → Option Bytes)

/-- One input, at some time: `none` is a panic. -/
def step (now : ℤ) : Input P → Option (Session P A)
  | .publish id payload => some { s with
      tree := s.tree.publish now id payload
      published := if s.tree.accepts id then s.published ++ [id] else s.published }
  | .message peer id hop payload =>
    (s.tree.injectMessage false decodeAll now peer id hop payload).map fun tree => { s with tree }
  | .ihave peer id hop => some { s with tree := s.tree.injectIhave now peer id hop }
  | .prune peer => some { s with tree := s.tree.injectPrune peer }
  | .graft peer ids => some { s with tree := s.tree.injectGraft peer ids }
  | .neighborUp peer => some { s with tree := s.tree.injectNeighborUp peer }
  | .neighborDown peer => some { s with tree := s.tree.injectNeighborDown peer }
  | .poll tickDue landing => (s.tree.poll landing now tickDue).map fun polled =>
      { s with tree := polled.2, handed := s.handed ++ polled.1.toList }

omit s in
/-- One input of a tree that may have panicked. -/
def advance (s : Option (Session P A)) (i : Input P × ℤ) : Option (Session P A) :=
  s.bind fun s => s.step decodeAll i.2 i.1

/-- Inputs one after another. -/
def run (inputs : List (Input P × ℤ)) : Option (Session P A) :=
  inputs.foldl (advance decodeAll) (some s)

end Session

/-! ## What is queued -/

variable {t t' : PlumTree P A} {landing : Landing} {now : ℤ} {id : UInt64}

/-- Messages to peers were queued, no message was delivered, and the
configuration is the same. -/
structure Notifies (t t' : PlumTree P A) : Prop where
  config : t'.config = t.config
  queue : ∃ es, t'.outEvents = t.outEvents ++ es ∧ ∀ id, es.countP (NetworkAction.delivers id) = 0

theorem Notifies.of_eq (hconfig : t'.config = t.config) (h : t'.outEvents = t.outEvents) :
    t.Notifies t' :=
  ⟨hconfig, [], by rw [h, List.append_nil], fun _ => rfl⟩

theorem Notifies.trans {t'' : PlumTree P A} (h : t.Notifies t') (h' : t'.Notifies t'') :
    t.Notifies t'' := by
  obtain ⟨hconfig, es, hes, hcount⟩ := h
  obtain ⟨hconfig', es', hes', hcount'⟩ := h'
  refine ⟨hconfig'.trans hconfig, es ++ es', by rw [hes', hes, List.append_assoc], fun id => ?_⟩
  rw [List.countP_append, hcount, hcount']

/-- Sending is not delivering. -/
theorem countP_toPeer {ι : Type} (l : List ι) (peer : ι → P) (action : ι → Action P A) :
    (l.map fun x => t.toPeer (peer x) (action x)).countP (NetworkAction.delivers id) = 0 := by
  rw [List.countP_eq_zero]
  intro e he
  obtain ⟨x, -, rfl⟩ := List.mem_map.1 he
  exact Bool.false_ne_true

theorem notifies_emitAll {ι : Type} (l : List ι) (peer : ι → P) (action : ι → Action P A) :
    t.Notifies (t.emitAll (l.map fun x => t'.toPeer (peer x) (action x))) :=
  ⟨rfl, _, rfl, fun _ => countP_toPeer l peer action⟩

theorem publishIhaves_notifies (h : t.publishIhaves landing now = some t') : t.Notifies t' := by
  unfold publishIhaves at h
  split at h
  · cases h
  · cases h
    split
    · exact .of_eq rfl rfl
    · exact notifies_emitAll _ _ _

variable [DecidableEq P]

theorem repairTree_notifies (h : t.repairTree landing now = some t') : t.Notifies t' := by
  unfold repairTree at h
  split at h
  · cases h
  · cases h
    exact ⟨rfl, _, rfl, fun _ =>
      countP_toPeer _ (fun g : P × List UInt64 => g.1) fun g => .graft g.2⟩

/-- A poll hands out the first action, after the work of a tick. -/
theorem poll_notifies {tickDue : Bool} {event : Option (NetworkAction P A)}
    (h : t.poll landing now tickDue = some (event, t')) :
    t'.config = t.config ∧ ∃ es, event.toList ++ t'.outEvents = t.outEvents ++ es ∧
      ∀ id, es.countP (NetworkAction.delivers id) = 0 := by
  -- a tick announces and repairs, and delivers nothing
  have htick : ∀ {k : PlumTree P A}, (if tickDue then
      (t.publishIhaves landing now).bind fun t => t.repairTree landing now else some t) = some k →
      t.Notifies k := by
    intro k hk
    split at hk
    · obtain ⟨k', hk', hk⟩ := Option.bind_eq_some_iff.1 hk
      exact (publishIhaves_notifies hk').trans (repairTree_notifies hk)
    · cases hk
      exact .of_eq rfl rfl
  unfold poll at h
  split at h
  · cases h
  next k hk =>
    obtain ⟨hconfig, es, hes, hcount⟩ := htick hk
    split at h
    next hnil =>
      cases h
      exact ⟨hconfig, es, by rw [← hes, hnil]; rfl, hcount⟩
    next hcons =>
      cases h
      exact ⟨hconfig, es, by rw [← hes, hcons]; rfl, hcount⟩

/-! ## The handlers -/

omit [DecidableEq P] in
theorem eq_of_nextHop {checks : Bool} {hop next : UInt32} (h : nextHop checks hop = some next) :
    next = hop + 1 := by
  unfold nextHop at h
  split at h
  · cases h
  · exact (Option.some.inj h).symm

/-- **A message that is new**: it is delivered, and goes to the eager peers
other than its sender. -/
theorem injectMessage_first {checks : Bool} {decodeAll : Bytes → Option Bytes} {peer : P}
    {hop : UInt32} {payload : Bytes} (hnew : t.received.get id = none)
    (h : t.injectMessage checks decodeAll now peer id hop payload = some t') :
    ∃ out, (if t.config.enableCompression then decodeAll payload else some payload) = some out ∧
      t'.outEvents = t.outEvents ++ .generateEvent (.message t.topic id out) ::
        (t.eager.items.filter (· ≠ peer)).map (t.toPeer · (.message id (hop + 1) payload)) ∧
      t'.received = (t.received.insert ⟨id, hop, peer, payload⟩ now).2 ∧ t'.config = t.config := by
  have hfresh : (t.received.insert ⟨id, hop, peer, payload⟩ now).1 = true := by
    rw [ExpiringCache.insert_fst]
    exact congrArg (fun r => !Option.isSome r) hnew
  unfold injectMessage at h
  dsimp only at h
  rw [if_pos hfresh] at h
  split at h
  · cases h
  next out hout =>
    obtain ⟨next, hnext, rfl⟩ := Option.map_eq_some_iff.1 h
    obtain rfl := eq_of_nextHop hnext
    refine ⟨out, hout, ?_, rfl, rfl⟩
    exact List.append_assoc _ _ _

/-- A duplicate is not delivered. -/
theorem injectMessage_again {checks : Bool} {decodeAll : Bytes → Option Bytes} {peer : P}
    {hop : UInt32} {payload : Bytes} (hold : (t.received.get id).isSome)
    (h : t.injectMessage checks decodeAll now peer id hop payload = some t') :
    t.Notifies t' ∧ t'.received = (t.received.insert ⟨id, hop, peer, payload⟩ now).2 := by
  have hfresh : (t.received.insert ⟨id, hop, peer, payload⟩ now).1 = false := by
    rw [ExpiringCache.insert_fst]
    exact congrArg (! ·) hold
  unfold injectMessage at h
  dsimp only at h
  rw [hfresh, if_neg Bool.false_ne_true] at h
  split at h
  · cases h
    exact ⟨⟨rfl, _, rfl, fun id => countP_toPeer [peer] (fun p => p) fun _ => .prune⟩, rfl⟩
  · cases h
    exact ⟨.of_eq rfl rfl, rfl⟩

namespace Session

variable {s s' : Session P A} {decodeAll : Bytes → Option Bytes} {i : Input P}

/-- What a step may do to an id. -/
inductive Affects (id : UInt64) (s s' : Session P A) : Prop
  /-- It neither delivers nor publishes a message with the id. -/
  | quiet (hdeliveries : s'.deliveries id = s.deliveries id)
      (hpublished : id ∈ s'.published → id ∈ s.published)
  /-- It delivers one, which was new. -/
  | deliver (hnew : s.tree.received.get id = none) (hold : s'.tree.received.get id ≠ none)
      (hdeliveries : s'.deliveries id = s.deliveries id + 1)
      (hpublished : s'.published = s.published)
  /-- It publishes one, which was new. -/
  | publish (hnew : s.tree.received.get id = none) (hold : s'.tree.received.get id ≠ none)
      (hdeliveries : s'.deliveries id = s.deliveries id)

omit [DecidableEq P] in
/-- Steps that only notify peers are quiet. -/
theorem Affects.of_notifies {t' : PlumTree P A} (h : s.tree.Notifies t') :
    Affects id s { s with tree := t' } := by
  obtain ⟨-, es, hes, hcount⟩ := h
  refine .quiet ?_ fun hid => hid
  show (s.handed ++ t'.outEvents).countP _ = (s.handed ++ s.tree.outEvents).countP _
  rw [hes, ← List.append_assoc, List.countP_append, hcount, Nat.add_zero]

/-- What the step of a message does. -/
theorem affects_message {peer : P} {id' : UInt64} {hop : UInt32} {payload : Bytes}
    {t' : PlumTree P A}
    (h : s.tree.injectMessage false decodeAll now peer id' hop payload = some t') :
    Affects id s { s with tree := t' } := by
  cases hreceived : s.tree.received.get id' with
  | some old =>
    exact .of_notifies (injectMessage_again (by rw [hreceived]; rfl) h).1
  | none =>
    -- one event is generated, and the rest are messages to peers
    obtain ⟨out, -, hqueue, hkept, -⟩ := injectMessage_first hreceived h
    have hcount : ({ s with tree := t' } : Session P A).deliveries id =
        s.deliveries id + if id' = id then 1 else 0 := by
      show (s.handed ++ t'.outEvents).countP _ = (s.handed ++ s.tree.outEvents).countP _ + _
      rw [hqueue, ← List.append_assoc, List.countP_append, List.countP_cons,
        countP_toPeer _ (fun p => p) fun _ => .message id' (hop + 1) payload, Nat.zero_add]
      simp [NetworkAction.delivers]
    by_cases hid : id' = id
    · subst hid
      rw [if_pos rfl] at hcount
      refine .deliver hreceived ?_ hcount rfl
      rw [← Option.isSome_iff_ne_none]
      show (t'.received.get id').isSome
      rw [hkept, ExpiringCache.isSome_insert]
      exact .inr rfl
    · rw [if_neg hid] at hcount
      exact .quiet hcount fun hid => hid

omit [DecidableEq P] in
/-- What the step of a publication does. -/
theorem affects_publish (id' : UInt64) (payload : Bytes) :
    Affects id s { s with
      tree := s.tree.publish now id' payload
      published := if s.tree.accepts id' then s.published ++ [id'] else s.published } := by
  by_cases haccepts : s.tree.accepts id'
  · rw [if_pos haccepts]
    obtain ⟨hreceived, hobserved⟩ :
        s.tree.received.get id' = none ∧ s.tree.observed.get id' = none := by
      simpa [accepts] using haccepts
    have hpublish : s.tree.publish now id' payload =
        { s.tree.notifyAll s.tree.eager.items (.message id' 1 payload) with
          received := (s.tree.received.insert ⟨id', 0, s.tree.localNode, payload⟩ now).2 } := by
      unfold publish
      rw [hreceived, hobserved, if_neg (by simp), if_neg (by simp)]
      rfl
    rw [hpublish]
    have hcount : ∀ id, ((s.tree.outEvents ++ s.tree.eager.items.map
        (s.tree.toPeer · (.message id' 1 payload))).countP (NetworkAction.delivers id)) =
        s.tree.outEvents.countP (NetworkAction.delivers id) := fun id => by
      rw [List.countP_append, countP_toPeer _ (fun p => p) fun _ => .message id' 1 payload,
        Nat.add_zero]
    have hdeliveries : (s.handed ++ (s.tree.outEvents ++ s.tree.eager.items.map
        (s.tree.toPeer · (.message id' 1 payload)))).countP (NetworkAction.delivers id) =
        s.deliveries id := by
      rw [List.countP_append, hcount, ← List.countP_append]
      rfl
    by_cases hid : id = id'
    · subst hid
      refine .publish hreceived ?_ hdeliveries
      rw [← Option.isSome_iff_ne_none]
      exact (ExpiringCache.isSome_insert _ _ _ _).2 (.inr rfl)
    · refine .quiet hdeliveries fun hmem => ?_
      rcases List.mem_append.1 hmem with hmem | hmem
      · exact hmem
      · exact absurd (List.mem_singleton.1 hmem) hid
  · rw [if_neg haccepts]
    refine .of_notifies ?_
    unfold publish
    split
    · exact .of_eq rfl rfl
    split
    · exact .of_eq rfl rfl
    next hreceived hobserved =>
      exact absurd (by simp [accepts, hreceived, hobserved]) haccepts

/-- **What a step does to an id.** -/
theorem affects_step (h : s.step decodeAll now i = some s') : Affects id s s' := by
  cases i with
  | publish id' payload =>
    cases h
    exact affects_publish id' payload
  | message peer id' hop payload =>
    obtain ⟨t', ht', rfl⟩ := Option.map_eq_some_iff.1 h
    exact affects_message ht'
  | ihave | prune | neighborUp | neighborDown =>
    cases h
    exact .of_notifies (.of_eq rfl rfl)
  | graft peer ids =>
    cases h
    exact .of_notifies ⟨rfl, _, rfl, fun _ =>
      countP_toPeer _ (fun _ : MessageRecord P => peer) fun m => .message m.id m.hop m.payload⟩
  | poll tickDue landing =>
    obtain ⟨⟨event, t'⟩, ht', rfl⟩ := Option.map_eq_some_iff.1 h
    obtain ⟨-, es, hes, hcount⟩ := poll_notifies ht'
    refine .quiet ?_ fun hid => hid
    show ((s.handed ++ event.toList) ++ t'.outEvents).countP _ =
      (s.handed ++ s.tree.outEvents).countP _
    rw [List.append_assoc, hes, ← List.append_assoc, List.countP_append, hcount, Nat.add_zero]

/-! ## Delivered once -/

/-- What holds of an id that the cache keeps. -/
structure Once (id : UInt64) (s : Session P A) : Prop where
  once : s.deliveries id ≤ 1
  never : id ∈ s.published → s.deliveries id = 0
  unseen : s.tree.received.get id = none → s.deliveries id = 0 ∧ id ∉ s.published

/-- The input does not remove an id from the cache of the received. -/
def Keeps (decodeAll : Bytes → Option Bytes) (id : UInt64) (s : Option (Session P A))
    (i : Input P × ℤ) : Prop :=
  ∀ s₀ ∈ s, ∀ s₁ ∈ s₀.step decodeAll i.2 i.1,
    s₁.tree.received.get id = none → s₀.tree.received.get id = none

instance (decodeAll : Bytes → Option Bytes) (id : UInt64) (s : Option (Session P A))
    (i : Input P × ℤ) : Decidable (Keeps decodeAll id s i) :=
  inferInstanceAs (Decidable (∀ s₀ ∈ s, ∀ s₁ ∈ s₀.step decodeAll i.2 i.1,
    s₁.tree.received.get id = none → s₀.tree.received.get id = none))

omit [DecidableEq P] in
/-- **A step that keeps the id in the cache** does not deliver it again. -/
theorem Once.step (hs : Once id s) (haffects : Affects id s s')
    (hkeeps : s'.tree.received.get id = none → s.tree.received.get id = none) : Once id s' := by
  cases haffects with
  | quiet hdeliveries hpublished =>
    refine ⟨hdeliveries ▸ hs.once, fun hid => ?_, fun hnone => ?_⟩
    · rw [hdeliveries]
      exact hs.never (hpublished hid)
    · obtain ⟨hzero, hnot⟩ := hs.unseen (hkeeps hnone)
      exact ⟨hdeliveries.trans hzero, fun hid => hnot (hpublished hid)⟩
  | deliver hnew hold hdeliveries hpublished =>
    obtain ⟨hzero, hnot⟩ := hs.unseen hnew
    refine ⟨by omega, fun hid => ?_, fun hnone => absurd hnone hold⟩
    rw [hpublished] at hid
    exact absurd hid hnot
  | publish hnew hold hdeliveries =>
    obtain ⟨hzero, -⟩ := hs.unseen hnew
    exact ⟨by omega, fun _ => hdeliveries.trans hzero, fun hnone => absurd hnone hold⟩

theorem config_step (h : s.step decodeAll now i = some s') : s'.tree.config = s.tree.config := by
  cases i with
  | publish id' payload =>
    cases h
    show (s.tree.publish now id' payload).config = _
    unfold publish
    split
    · rfl
    split
    · rfl
    · rfl
  | message peer id' hop payload =>
    obtain ⟨t', ht', rfl⟩ := Option.map_eq_some_iff.1 h
    cases hreceived : s.tree.received.get id' with
    | none =>
      obtain ⟨-, -, -, -, hconfig⟩ := injectMessage_first hreceived ht'
      exact hconfig
    | some old => exact (injectMessage_again (by rw [hreceived]; rfl) ht').1.config
  | ihave | prune | graft | neighborUp | neighborDown =>
    cases h
    rfl
  | poll tickDue landing =>
    obtain ⟨⟨event, t'⟩, ht', rfl⟩ := Option.map_eq_some_iff.1 h
    exact (poll_notifies ht').1

/-- **Along a run that keeps the id in the cache.** -/
theorem once_run {s : Session P A} (hs : Once id s) {inputs : List (Input P × ℤ)}
    (hkeeps : Along (advance decodeAll) (Keeps decodeAll id) (some s) inputs) :
    ∀ s' ∈ s.run decodeAll inputs, Once id s' ∧ s'.tree.config = s.tree.config := by
  refine hkeeps.rule (I := fun k => ∀ s' ∈ k, Once id s' ∧ s'.tree.config = s.tree.config) ?_ ?_
  · intro s' heq
    cases heq
    exact ⟨hs, rfl⟩
  · intro k i hI hkeep s' hs'
    obtain ⟨s₀, rfl, hstep⟩ := Option.bind_eq_some_iff.1 hs'
    obtain ⟨hs₀, hconfig⟩ := hI s₀ rfl
    exact ⟨hs₀.step (affects_step hstep) (hkeep s₀ rfl s' hstep), (config_step hstep).trans hconfig⟩

/-- **A message is delivered at most once**, never where the node published
it, and the first copy goes to the eager peers other than its sender. -/
structure DeliversOnce (decodeAll : Bytes → Option Bytes) (id : UInt64) (s : Session P A)
    (inputs : List (Input P × ℤ)) : Prop where
  once : ∀ pre, pre <+: inputs → ∀ s', s.run decodeAll pre = some s' → s'.deliveries id ≤ 1
  never : ∀ pre, pre <+: inputs → ∀ s', s.run decodeAll pre = some s' →
    id ∈ s'.published → s'.deliveries id = 0
  first : ∀ pre peer hop payload now, pre ++ [(.message peer id hop payload, now)] <+: inputs →
    ∀ s', s.run decodeAll pre = some s' → s'.tree.received.get id = none →
    ∃ s'' out, s'.step decodeAll now (.message peer id hop payload) = some s'' ∧
      s''.generated = s'.generated ++ .generateEvent (.message s'.tree.topic id out) ::
        (s'.tree.eager.items.filter (· ≠ peer)).map
          (s'.tree.toPeer · (.message id (hop + 1) payload))

/-- **A message is delivered once**, whatever its numbers of hops: with
valid payloads, and as long as the cache keeps the id. -/
theorem deliversOnce (decodeAll : Bytes → Option Bytes) (topic : String) (config : Config P)
    (localNode : P) (id : UInt64) (inputs : List (Input P × ℤ))
    (hvalid : ∀ i ∈ inputs, i.1.Valid decodeAll config)
    (hkeeps : Along (advance (A := A) decodeAll) (Keeps decodeAll id)
      (some { tree := .new topic config localNode }) inputs) :
    DeliversOnce (A := A) decodeAll id { tree := .new topic config localNode } inputs := by
  have hnew : Once (A := A) id { tree := .new topic config localNode } :=
    ⟨Nat.zero_le 1, nofun, fun _ => ⟨rfl, nofun⟩⟩
  have honce := fun pre (hpre : pre <+: inputs) => once_run hnew (hkeeps.take hpre)
  refine ⟨fun pre hpre s' hs' => (honce pre hpre s' hs').1.once,
    fun pre hpre s' hs' => (honce pre hpre s' hs').1.never, ?_⟩
  intro pre peer hop payload now hpre s' hs' hunseen
  -- a message that is new panics where its payload cannot be read, and nowhere else
  have hdecode : s'.tree.config.enableCompression → (decodeAll payload).isSome := by
    rw [(honce pre ((List.prefix_append _ _).trans hpre) s' hs').2]
    exact hvalid (.message peer id hop payload, now) (hpre.subset (by simp))
  have htakes :=
    (injectMessage_isSome_iff (t := s'.tree) false decodeAll now peer id hop payload).2
      fun _ => ⟨hdecode, fun hchecks => absurd hchecks Bool.false_ne_true⟩
  obtain ⟨t', ht'⟩ := Option.isSome_iff_exists.1 htakes
  obtain ⟨out, -, hqueue, -, -⟩ := injectMessage_first hunseen ht'
  refine ⟨{ s' with tree := t' }, out, by simp only [step, ht', Option.map_some], ?_⟩
  show s'.handed ++ t'.outEvents = s'.handed ++ s'.tree.outEvents ++ _
  rw [hqueue, List.append_assoc]

/-- Two neighbors, and a message that comes from both of them, from the
first with the last number of hops. -/
def twoCopies : List (Input ℕ × ℤ) :=
  [(.neighborUp 1, 0), (.neighborUp 2, 0), (.message 1 7 4294967295 [5], 1),
    (.message 2 7 1 [5], 2), (.publish 7 [5], 3)]

/-- A tree without compression. -/
def plain : Session ℕ Unit :=
  { tree := .new "blocks" { Config.default with enableCompression := false } 0 }

theorem deliversOnce_twoCopies :
    DeliversOnce (fun _ => none) 7 plain twoCopies ∧
      (plain.run (fun _ => none) twoCopies).map (fun s => s.deliveries 7) = some 1 :=
  ⟨deliversOnce (fun _ => none) "blocks" { Config.default with enableCompression := false } 0 7
    twoCopies (by simp [twoCopies, Input.Valid]) (by decide), by decide⟩

end Session

end PlumTree

end Network

end Rensa
