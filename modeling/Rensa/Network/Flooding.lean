import Rensa.Common.Flood
import Rensa.Network.Cache
import Rensa.Network.Delivery
import Rensa.Network.Model.Mesh
/-!
# One message in the mesh

What the trees of a mesh do with a message, with its copies and with the
prunes is a flood of the graph of the eager links (`flood_first`,
`flood_again`, `flood_dropped`, `flood_same`). The copies under way are
counted, in flight and in the queues: a poll moves an action from a queue
into flight, and a delivery takes a message out of flight and queues what
the recipient sends.
-/

namespace Rensa

namespace Network

variable {P A : Type}

/-! ## Counting -/

/-- A message with some id. -/
def Action.carries (id : UInt64) : Action P A → Bool
  | .message id' _ _ => id' = id
  | _ => false

theorem Action.carries_message {id : UInt64} {hop : UInt32} {payload : Bytes} :
    Action.carries id (.message id hop payload : Action P A) = true :=
  decide_eq_true rfl

/-- A request to prune. -/
def Action.prunes : Action P A → Bool
  | .prune => true
  | _ => false

section Sending

variable [DecidableEq P]

/-- An action that sends something of a kind to a peer. -/
def NetworkAction.sends (peer : P) (kind : Action P A → Bool) : NetworkAction P A → Bool
  | .notifyHandler p event => p = peer && event.action.any kind
  | _ => false

/-- A letter from one peer to another, of some kind. -/
def Letter.brings (a b : P) (kind : Action P A → Bool) (l : Letter P A) : Bool :=
  l.sender = a && l.recipient = b && l.action.any kind

/-- One action to some peers. -/
theorem PlumTree.countP_notify (t : PlumTree P A) (l : List P) (action : Action P A) (p : P)
    (kind : Action P A → Bool) :
    (l.map fun q => t.toPeer q action).countP (NetworkAction.sends p kind) =
      if kind action then l.count p else 0 := by
  rw [List.countP_map]
  split
  next hkind =>
    refine List.countP_congr fun q _ => ?_
    simp [NetworkAction.sends, PlumTree.toPeer, hkind]
  next hkind =>
    rw [List.countP_eq_zero]
    intro q _
    simp [NetworkAction.sends, PlumTree.toPeer, hkind]

/-- A peer is in a set once. -/
theorem IdSet.count_eq (s : IdSet P) (p : P) : s.items.count p = if p ∈ s then 1 else 0 := by
  have hnodup : s.items.Nodup := by
    have := s.nodup
    rwa [List.map_id] at this
  have hmem : p ∈ s ↔ p ∈ s.items := by rw [KeySet.mem_def, List.map_id]
  split
  next hp => exact List.count_eq_one_of_mem hnodup (hmem.1 hp)
  next hp => exact List.count_eq_zero_of_not_mem fun hp' => hp (hmem.2 hp')

/-- A message to all peers but one. -/
theorem PlumTree.countP_forward (t : PlumTree P A) (s : IdSet P) (action : Action P A) (a q : P)
    {kind : Action P A → Bool} (hkind : kind action) :
    ((s.items.filter (· ≠ a)).map fun p => t.toPeer p action).countP
        (NetworkAction.sends q kind) = if q ≠ a ∧ q ∈ s then 1 else 0 := by
  rw [t.countP_notify, if_pos hkind]
  by_cases hq : q = a
  · rw [if_neg fun hne => hne.1 hq]
    refine List.count_eq_zero_of_not_mem fun hmem => ?_
    have hne := (List.mem_filter.1 hmem).2
    rw [decide_eq_true_eq] at hne
    exact hne hq
  · rw [List.count_filter (p := fun p => decide (p ≠ a)) (decide_eq_true hq), IdSet.count_eq]
    simp only [hq, ne_eq, not_false_eq_true, true_and]

end Sending

/-! ## What the trees do -/

namespace PlumTree

variable [DecidableEq P] {t t' : PlumTree P A} {now : ℤ} {id : UInt64} {peer : P}
variable {decodeAll : Bytes → Option Bytes} {hop : UInt32} {payload : Bytes}

/-- A tick that grafts no link and drops no message. -/
def calm (t : PlumTree P A) (landing : Landing) (now : ℤ) : Bool :=
  match t.observed.iterRange landing.observed (now - t.config.lazyPushWindow)
      (now - 2 * t.config.tickFrequency) with
  | none => false
  | some observed =>
    (t.grafts (KeySet.ofList observed : KeySet (MessageInfo.id (P := P))).items).isEmpty &&
      t.received.byTime.all fun entry => now - t.config.historyWindow < entry.2

/-- The peers, the received messages, the topic and the configuration are
the same. -/
structure Alike (t t' : PlumTree P A) : Prop where
  eager : t'.eager = t.eager
  received : t'.received = t.received
  topic : t'.topic = t.topic
  config : t'.config = t.config

/-- A tick without repairs sends announcements at most. -/
theorem tick_of_calm {landing : Landing} (h : t.calm landing now) :
    ∃ t' es, ((t.publishIhaves landing now).bind fun t => t.repairTree landing now) = some t' ∧
      t'.outEvents = t.outEvents ++ es ∧
      (∀ e ∈ es, ∃ p ihaves, e = t.toPeer p (.ihave ihaves)) ∧ t.Alike t' := by
  have hle : now - t.config.lazyPushWindow ≤ now := by omega
  obtain ⟨received, hreceived⟩ :=
    Option.isSome_iff_exists.1 (t.received.iterRange_isSome landing.received hle)
  -- the announcements
  obtain ⟨k, es, hk, hqueue, hes, hobserved, halike⟩ : ∃ k es, t.publishIhaves landing now = some k ∧
      k.outEvents = t.outEvents ++ es ∧ (∀ e ∈ es, ∃ p ihaves, e = t.toPeer p (.ihave ihaves)) ∧
      k.observed = t.observed ∧ t.Alike k := by
    unfold publishIhaves
    rw [hreceived]
    dsimp only
    split
    · exact ⟨t, [], rfl, (List.append_nil _).symm, nofun, rfl, rfl, rfl, rfl, rfl⟩
    · refine ⟨_, _, rfl, rfl, fun e he => ?_, rfl, rfl, rfl, rfl, rfl⟩
      obtain ⟨p, -, rfl⟩ := List.mem_map.1 he
      exact ⟨p, _, rfl⟩
  -- the repair
  unfold calm at h
  split at h
  · cases h
  next observed hrange =>
    rw [Bool.and_eq_true, List.isEmpty_iff] at h
    obtain ⟨hgrafts, hkept⟩ := h
    have hgrafts' : k.grafts (KeySet.ofList observed : KeySet (MessageInfo.id (P := P))).items =
        [] := by
      rw [← hgrafts]
      unfold grafts
      rw [halike.received, halike.config]
    have hfront : k.received.removeOlderThan (now - t.config.historyWindow) = t.received := by
      rw [halike.received]
      unfold ExpiringCache.removeOlderThan
      cases hl : t.received.byTime with
      | nil =>
        show ({ data := t.received.data, byTime := [] } : ExpiringCache (MessageRecord P)) = _
        rw [← hl]
      | cons entry rest =>
        rw [hl, List.all_cons, Bool.and_eq_true, decide_eq_true_eq] at hkept
        rw [ExpiringCache.removeFront, if_pos hkept.1, ← hl]
    rw [hk, Option.bind_some]
    unfold repairTree
    rw [hobserved, halike.config, hrange]
    dsimp only
    rw [hgrafts']
    refine ⟨_, es, rfl, ?_, hes, halike.eager, ?_, halike.topic, halike.config⟩
    · exact (List.append_nil _).trans hqueue
    · show k.received.removeOlderThan (now - k.config.historyWindow) = t.received
      rw [halike.config]
      exact hfront

/-- **A calm poll** hands out the first action, and queues announcements at
most. -/
theorem poll_of_calm {landing : Landing} {tickDue : Bool}
    (h : tickDue → t.calm landing now) :
    ∃ event t' es, t.poll landing now tickDue = some (event, t') ∧
      event.toList ++ t'.outEvents = t.outEvents ++ es ∧
      (∀ e ∈ es, ∃ p ihaves, e = t.toPeer p (.ihave ihaves)) ∧ t.Alike t' := by
  obtain ⟨k, es, hk, hqueue, hes, halike⟩ : ∃ k es, (if tickDue then
      (t.publishIhaves landing now).bind fun t => t.repairTree landing now else some t) = some k ∧
      k.outEvents = t.outEvents ++ es ∧
      (∀ e ∈ es, ∃ p ihaves, e = t.toPeer p (.ihave ihaves)) ∧ t.Alike k := by
    split
    next hdue => exact tick_of_calm (h hdue)
    · exact ⟨t, [], rfl, (List.append_nil _).symm, nofun, rfl, rfl, rfl, rfl⟩
  unfold poll
  rw [hk]
  dsimp only
  split
  next hnil =>
    refine ⟨none, k, es, rfl, ?_, hes, halike⟩
    rw [← hqueue, hnil]
    rfl
  next event rest hcons =>
    refine ⟨some event, _, es, rfl, ?_, hes, halike.eager, halike.received, halike.topic,
      halike.config⟩
    rw [← hqueue, hcons]
    rfl

/-- A duplicate prunes its sender, where the tree is optimized and the
sender is eager. -/
theorem injectMessage_old (checks : Bool) (decodeAll : Bytes → Option Bytes) (now : ℤ) (peer : P)
    (hop : UInt32) (payload : Bytes) (hold : (t.received.get id).isSome) :
    t.injectMessage checks decodeAll now peer id hop payload =
      let k := { t with received := (t.received.insert ⟨id, hop, peer, payload⟩ now).2 }
      some (if t.config.optimizeSenderTree && decide (peer ∈ t.eager)
        then (k.injectPrune peer).notifyAll [peer] .prune else k) := by
  have hfresh : (t.received.insert ⟨id, hop, peer, payload⟩ now).1 = false := by
    rw [ExpiringCache.insert_fst]
    exact congrArg (! ·) hold
  unfold injectMessage
  dsimp only
  rw [hfresh, if_neg Bool.false_ne_true]
  split
  · rfl
  · rfl

/-- **The first copy** is reported, and goes to the eager peers other than
its sender. -/
theorem injectMessage_new {body : Bytes} (now : ℤ) (peer : P)
    (hnew : t.received.get id = none)
    (hbody : (if t.config.enableCompression then decodeAll payload else some payload) = some body) :
    t.injectMessage false decodeAll now peer id hop payload =
      some (({ t with received := (t.received.insert ⟨id, hop, peer, payload⟩ now).2 }.emitAll
        [.generateEvent (.message t.topic id body)]).notifyAll (t.eager.items.filter (· ≠ peer))
        (.message id (hop + 1) payload)) := by
  have hfresh : (t.received.insert ⟨id, hop, peer, payload⟩ now).1 = true := by
    rw [ExpiringCache.insert_fst]
    exact congrArg (fun r => !Option.isSome r) hnew
  unfold injectMessage
  dsimp only
  rw [if_pos hfresh, hbody]
  rfl

omit [DecidableEq P] in
/-- Announcements are noted. -/
theorem injectIhaves_alike (now : ℤ) (peer : P) (ihaves : List (UInt32 × UInt64))
    (t : PlumTree P A) :
    t.Alike (ihaves.foldl (fun tree ih => tree.injectIhave now peer ih.2 ih.1) t) ∧
      (ihaves.foldl (fun tree ih => tree.injectIhave now peer ih.2 ih.1) t).outEvents =
        t.outEvents := by
  induction ihaves generalizing t with
  | nil => exact ⟨⟨rfl, rfl, rfl, rfl⟩, rfl⟩
  | cons ih ihaves rest =>
    obtain ⟨halike, hqueue⟩ := rest (t.injectIhave now peer ih.2 ih.1)
    exact ⟨⟨halike.eager, halike.received, halike.topic, halike.config⟩, hqueue⟩

end PlumTree

/-! ## What is under way -/

namespace Mesh

variable [DecidableEq P] {m m' : Mesh P A} {p : P} {t : PlumTree P A}
variable {es : List (NetworkAction P A)} {kind : Action P A → Bool}

/-- How many messages of some kind are under way from one node to another:
in flight, or queued. -/
def undelivered (m : Mesh P A) (p q : P) (kind : Action P A → Bool) : ℕ :=
  m.flight.countP (Letter.brings p q kind) + (m.trees p).outEvents.countP (NetworkAction.sends q kind)

@[simp] theorem trees_set_self (m : Mesh P A) (p : P) (t : PlumTree P A) : (m.set p t).trees p = t :=
  Function.update_self _ _ _

theorem trees_set_ne (m : Mesh P A) (t : PlumTree P A) {q : P} (hq : q ≠ p) :
    (m.set p t).trees q = m.trees q :=
  Function.update_of_ne hq _ _

/-- A fact about all nodes, when one of them is in a new state. -/
theorem forall_set {Q : P → PlumTree P A → Prop} (hp : Q p t) (hm : ∀ q, q ≠ p → Q q (m.trees q))
    (q : P) : Q q ((m.set p t).trees q) := by
  by_cases hq : q = p
  · subst hq
    rw [trees_set_self]
    exact hp
  · rw [trees_set_ne m t hq]
    exact hm q hq

omit [DecidableEq P] in
@[simp] theorem trees_carry (m : Mesh P A) (p : P) (event : Option (NetworkAction P A)) :
    (m.carry p event).trees = m.trees := by
  unfold carry
  split <;> rfl

theorem undelivered_carry (m : Mesh P A) (p : P) (event : Option (NetworkAction P A)) (x y : P)
    (kind : Action P A → Bool) : (m.carry p event).undelivered x y kind =
      m.undelivered x y kind +
        if x = p then event.toList.countP (NetworkAction.sends y kind) else 0 := by
  unfold undelivered
  rw [trees_carry]
  cases event with
  | none => simp [carry]
  | some e =>
    cases e with
    | notifyHandler peer event =>
      have hflight : (m.carry p (some (.notifyHandler peer event))).flight.countP
          (Letter.brings x y kind) = m.flight.countP (Letter.brings x y kind) +
            if x = p then if (NetworkAction.notifyHandler peer event : NetworkAction P A).sends y kind
              then 1 else 0 else 0 := by
        show (m.flight ++ [_]).countP _ = _
        rw [List.countP_append, List.countP_singleton]
        by_cases hx : x = p
        · subst hx
          simp [Letter.brings, NetworkAction.sends]
        · simp [Letter.brings, hx, Ne.symm hx]
      rw [hflight, Option.toList_some, List.countP_singleton]
      omega
    | dial | generateEvent | closeConnection => simp [carry, NetworkAction.sends]

/-- **A poll** moves messages from the queue into flight. -/
theorem undelivered_poll {event : Option (NetworkAction P A)} {y : P}
    (hqueue : event.toList ++ t.outEvents = (m.trees p).outEvents ++ es)
    (hnone : es.countP (NetworkAction.sends y kind) = 0) (x : P) :
    ((m.set p t).carry p event).undelivered x y kind = m.undelivered x y kind := by
  rw [undelivered_carry]
  unfold undelivered
  by_cases hx : x = p
  · subst hx
    have hcount := congrArg (List.countP (NetworkAction.sends y kind)) hqueue
    rw [List.countP_append, List.countP_append, hnone] at hcount
    rw [if_pos rfl, trees_set_self]
    show m.flight.countP _ + _ + _ = _
    omega
  · rw [if_neg hx, trees_set_ne m t hx]
    rfl

omit [DecidableEq P] in
/-- One less in a list without one of its values. -/
theorem countP_eraseIdx {α : Type} {l : List α} {i : ℕ} {a : α} (hi : l[i]? = some a) (p : α → Bool) :
    (l.eraseIdx i).countP p + (if p a then 1 else 0) = l.countP p := by
  obtain ⟨hlt, ha⟩ := List.getElem?_eq_some_iff.1 hi
  have hperm := (List.getElem_cons_eraseIdx_perm hlt).countP_eq p
  rw [List.countP_cons, ha] at hperm
  exact hperm

/-- **A delivery** takes a message out of flight, and queues what the
recipient sends. -/
theorem undelivered_deliver {i : ℕ} {l : Letter P A} {action : Action P A}
    (hi : m.flight[i]? = some l) (haction : l.action = some action)
    (hqueue : t.outEvents = (m.trees l.recipient).outEvents ++ es) (kind : Action P A → Bool)
    (x y : P) :
    ({ m with flight := m.flight.eraseIdx i }.set l.recipient t).undelivered x y kind +
        (if x = l.sender ∧ y = l.recipient ∧ kind action then 1 else 0) =
      m.undelivered x y kind +
        if x = l.recipient then es.countP (NetworkAction.sends y kind) else 0 := by
  have hflight := countP_eraseIdx hi (Letter.brings x y kind)
  have hbrings : l.brings x y kind = decide (x = l.sender ∧ y = l.recipient ∧ kind action) := by
    rw [Letter.brings, haction, Bool.eq_iff_iff]
    simp [and_assoc, eq_comm (a := x), eq_comm (a := y)]
  rw [hbrings] at hflight
  simp only [decide_eq_true_eq] at hflight
  unfold undelivered
  by_cases hx : x = l.recipient
  · rw [if_pos hx, hx, trees_set_self, hqueue, List.countP_append]
    rw [hx] at hflight
    show (m.flight.eraseIdx i).countP _ + _ + _ = _
    omega
  · rw [if_neg hx, trees_set_ne _ t hx]
    show (m.flight.eraseIdx i).countP _ + (m.trees x).outEvents.countP _ + _ = _
    omega

/-! ## One message -/

/-- What happens to one message in the mesh. -/
def flood (m : Mesh P A) (id : UInt64) : Flood P where
  reached p := ((m.trees p).received.get id).isSome
  link p q := q ∈ (m.trees p).eager
  copies p q := m.undelivered p q (Action.carries id)
  request p q := 0 < m.undelivered p q Action.prunes

variable {id : UInt64} {i : ℕ} {a b : P} {action : Action P A}

/-- What a node in a new state has and is linked to. -/
theorem flood_set_self (m : Mesh P A) (b : P) (t : PlumTree P A) (id : UInt64) :
    (((m.set b t).flood id).reached b ↔ (t.received.get id).isSome) ∧
      ∀ q, ((m.set b t).flood id).link b q ↔ q ∈ t.eager := by
  have hself : (m.set b t).trees b = t := trees_set_self m b t
  refine ⟨?_, fun q => ?_⟩
  · show (((m.set b t).trees b).received.get id).isSome ↔ _
    rw [hself]
  · show q ∈ ((m.set b t).trees b).eager ↔ _
    rw [hself]

theorem flood_set_other (m : Mesh P A) (t : PlumTree P A) (id : UInt64) (hp : p ≠ b) :
    (((m.set b t).flood id).reached p ↔ (m.flood id).reached p) ∧
      ∀ q, ((m.set b t).flood id).link p q ↔ (m.flood id).link p q := by
  have hother : (m.set b t).trees p = m.trees p := trees_set_ne m t hp
  refine ⟨?_, fun q => ?_⟩
  · show (((m.set b t).trees p).received.get id).isSome ↔ _
    rw [hother]
    rfl
  · show q ∈ ((m.set b t).trees p).eager ↔ _
    rw [hother]
    rfl

/-- **A first copy** in the flood. -/
theorem flood_first (hi : m.flight[i]? = some ⟨a, b, some action⟩) (hcarries : action.carries id)
    (hprune : action.prunes = false) (hnew : (m.trees b).received.get id = none)
    (hreceived : (t.received.get id).isSome) (heager : t.eager = (m.trees b).eager)
    (hqueue : t.outEvents = (m.trees b).outEvents ++ es)
    (hcopies : ∀ q, es.countP (NetworkAction.sends q (Action.carries id)) =
      if q ≠ a ∧ q ∈ (m.trees b).eager then 1 else 0)
    (hprunes : ∀ q, es.countP (NetworkAction.sends q Action.prunes) = 0) :
    Flood.First a b (m.flood id)
      (({ m with flight := m.flight.eraseIdx i }.set b t).flood id) := by
  have hself := flood_set_self { m with flight := m.flight.eraseIdx i } b t id
  have hother := fun p hp => flood_set_other (p := p) (b := b)
    { m with flight := m.flight.eraseIdx i } t id hp
  have hcount := fun x y => undelivered_deliver hi rfl hqueue (Action.carries id) x y
  have hrequest := fun x y => undelivered_deliver hi rfl hqueue Action.prunes x y
  simp only [hcarries, hcopies, and_true] at hcount
  simp only [hprune, hprunes, Bool.false_eq_true, and_false, if_false, ite_self, Nat.add_zero]
    at hrequest
  refine ⟨?_, fun p => ?_, fun p q => ?_, ?_, fun q hq hlink => ?_, fun p q hpq hsent => ?_,
    fun p q hpq => ?_⟩
  · show ¬ ((m.trees b).received.get id).isSome
    rw [hnew]
    exact Bool.false_ne_true
  · by_cases hp : p = b
    · subst hp
      exact iff_of_true (hself.1.2 hreceived) (.inr rfl)
    · rw [(hother p hp).1, or_iff_left hp]
      rfl
  · by_cases hp : p = b
    · subst hp
      rw [hself.2 q, heager]
      rfl
    · rw [(hother p hp).2 q]
      rfl
  · have hab := hcount a b
    rw [if_pos ⟨rfl, rfl⟩] at hab
    refine hab.trans ?_
    by_cases hba : a = b
    · rw [if_pos hba, if_neg fun hne => hne.1 hba.symm]
      rfl
    · rw [if_neg hba]
      rfl
  · have hbq := hcount b q
    have hlink' : q ∈ (m.trees b).eager := hlink
    rw [if_neg fun hab => hq (hab.2.trans hab.1), if_pos rfl, if_pos ⟨hq, hlink'⟩] at hbq
    exact hbq
  · have hpq' := hcount p q
    rw [if_neg hpq] at hpq'
    refine hpq'.trans ?_
    by_cases hp : p = b
    · subst hp
      have hnot : ¬ (q ≠ a ∧ q ∈ (m.trees p).eager) := fun hlink => hsent ⟨rfl, hlink⟩
      rw [if_pos rfl, if_neg hnot]
      rfl
    · rw [if_neg hp]
      rfl
  · show 0 < m.undelivered p q Action.prunes
    rw [← hrequest p q]
    exact hpq

/-- **Another copy** in the flood: it may cut the link. -/
theorem flood_again {prunes : P → Prop} (hi : m.flight[i]? = some ⟨a, b, some action⟩)
    (hcarries : action.carries id) (hprune : action.prunes = false)
    (hold : ((m.trees b).received.get id).isSome) (hreceived : (t.received.get id).isSome)
    (heager : ∀ q, q ∈ t.eager ↔ q ∈ (m.trees b).eager ∧ ¬ (prunes b ∧ q = a))
    (hqueue : t.outEvents = (m.trees b).outEvents ++ es)
    (hcopies : ∀ q, es.countP (NetworkAction.sends q (Action.carries id)) = 0)
    (hprunes : ∀ q, q ≠ a → es.countP (NetworkAction.sends q Action.prunes) = 0) :
    Flood.Again prunes a b (m.flood id)
      (({ m with flight := m.flight.eraseIdx i }.set b t).flood id) := by
  have hself := flood_set_self { m with flight := m.flight.eraseIdx i } b t id
  have hother := fun p hp => flood_set_other (p := p) (b := b)
    { m with flight := m.flight.eraseIdx i } t id hp
  have hcount := fun x y => undelivered_deliver hi rfl hqueue (Action.carries id) x y
  have hrequest := fun x y => undelivered_deliver hi rfl hqueue Action.prunes x y
  simp only [hcarries, hcopies, and_true, ite_self, Nat.add_zero] at hcount
  simp only [hprune, Bool.false_eq_true, and_false, if_false, Nat.add_zero] at hrequest
  refine ⟨hold, fun p => ?_, fun p q => ?_, ?_, fun p q hpq => ?_, fun p q hpq => ?_⟩
  · by_cases hp : p = b
    · subst hp
      exact iff_of_true (hself.1.2 hreceived) hold
    · rw [(hother p hp).1]
      rfl
  · by_cases hp : p = b
    · subst hp
      rw [hself.2 q, heager, and_iff_right rfl]
      rfl
    · rw [(hother p hp).2 q, and_iff_left fun hcut => hp hcut.2.1]
      rfl
  · have hab := hcount a b
    rw [if_pos ⟨rfl, rfl⟩] at hab
    exact hab
  · have hpq' := hcount p q
    rw [if_neg hpq] at hpq'
    exact hpq'
  · by_cases hcut : p = b ∧ q = a
    · exact .inr hcut
    · refine .inl ?_
      show 0 < m.undelivered p q Action.prunes
      have hpq' := hrequest p q
      rw [ite_eq_right_iff.2 fun hp => hprunes q fun hq => hcut ⟨hp, hq⟩, Nat.add_zero] at hpq'
      rw [← hpq']
      exact hpq

/-- **A prune** drops the link. -/
theorem flood_dropped (hi : m.flight[i]? = some ⟨a, b, some (.prune)⟩) :
    Flood.Dropped a b (m.flood id) (({ m with flight := m.flight.eraseIdx i }.set b
      ((m.trees b).injectPrune a)).flood id) := by
  have hself := flood_set_self { m with flight := m.flight.eraseIdx i } b
    ((m.trees b).injectPrune a) id
  have hother := fun p hp => flood_set_other (p := p) (b := b)
    { m with flight := m.flight.eraseIdx i } ((m.trees b).injectPrune a) id hp
  have hqueue : ((m.trees b).injectPrune a).outEvents = (m.trees b).outEvents ++ [] :=
    (List.append_nil _).symm
  have hcount := fun x y => undelivered_deliver hi rfl hqueue (Action.carries id) x y
  have hrequest := fun x y => undelivered_deliver hi rfl hqueue Action.prunes x y
  simp only [Action.carries, Bool.false_eq_true, and_false, if_false, List.countP_nil, ite_self,
    Nat.add_zero] at hcount
  simp only [Action.prunes, and_true, List.countP_nil, ite_self, Nat.add_zero] at hrequest
  refine ⟨?_, fun p => ?_, fun p q => ?_, fun p q => hcount p q, fun p q hpq => ?_⟩
  · show 0 < m.undelivered a b Action.prunes
    have hab := hrequest a b
    rw [if_pos ⟨rfl, rfl⟩] at hab
    omega
  · by_cases hp : p = b
    · subst hp
      exact hself.1
    · rw [(hother p hp).1]
      rfl
  · by_cases hp : p = b
    · subst hp
      rw [hself.2 q, and_iff_right rfl]
      exact KeySet.mem_remove
    · rw [(hother p hp).2 q, and_iff_left fun hcut => hp hcut.1]
      rfl
  · show 0 < m.undelivered p q Action.prunes
    have hpq' := hrequest p q
    have hpos : 0 < ({ m with flight := m.flight.eraseIdx i }.set b
      ((m.trees b).injectPrune a)).undelivered p q Action.prunes := hpq
    omega

/-- Nothing happens in the flood. -/
theorem flood_same (halike : (m.trees p).Alike t) {m' : Mesh P A}
    (htrees : m'.trees = (m.set p t).trees)
    (hcount : ∀ x y kind, (kind = Action.carries id ∨ kind = Action.prunes) →
      m'.undelivered x y kind = m.undelivered x y kind) :
    Flood.Same (m.flood id) (m'.flood id) := by
  have hsame : ∀ q, (m'.trees q).eager = (m.trees q).eager ∧
      (m'.trees q).received = (m.trees q).received := by
    rw [htrees]
    exact forall_set (Q := fun q t => t.eager = (m.trees q).eager ∧
      t.received = (m.trees q).received) ⟨halike.eager, halike.received⟩ fun _ _ => ⟨rfl, rfl⟩
  refine ⟨fun q => ?_, fun x y => ?_, fun x y => hcount x y _ (.inl rfl), fun x y hxy => ?_⟩
  · show ((m'.trees q).received.get id).isSome ↔ _
    rw [(hsame q).2]
    rfl
  · show y ∈ (m'.trees x).eager ↔ _
    rw [(hsame x).1]
    rfl
  · show 0 < m.undelivered x y Action.prunes
    rw [← hcount x y _ (.inr rfl)]
    exact hxy

end Mesh

end Network

end Rensa
