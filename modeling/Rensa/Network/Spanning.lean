import Rensa.Network.Flooding
/-!
# A broadcast spans the mesh

A message that is published where all links are symmetric floods the mesh
(`Carries.step`). So no node panics, and when nothing is under way any more
every node has told its application about the message once. The links that
are left are a spanning tree, in whatever order the messages arrived, and
the broadcast settles after a bounded number of events.

This is about one message between two repairs of the tree. A tick may
announce the message to the lazy peers, as long as it grafts no link and
drops no history (`calm`).
-/

namespace Rensa

namespace Network

variable {P A : Type}

/-! ## What is under way -/

/-- What an action tells the application. -/
def NetworkAction.report : NetworkAction P A → Option (EpisubEvent P)
  | .generateEvent event => some event
  | _ => none

/-- A message of the broadcast, an announcement or a prune. -/
inductive Action.Lawful (id : UInt64) (payload : Bytes) : Action P A → Prop
  | message (hop : UInt32) : Lawful id payload (.message id hop payload)
  | ihave (ihaves : List (UInt32 × UInt64)) : Lawful id payload (.ihave ihaves)
  | prune : Lawful id payload .prune

/-- An action sends nothing but lawful messages. -/
def NetworkAction.Lawful (id : UInt64) (payload : Bytes) (e : NetworkAction P A) : Prop :=
  ∀ peer event, e = .notifyHandler peer event →
    ∃ action, event.action = some action ∧ action.Lawful id payload

/-- A letter holds a lawful message. -/
def Letter.Lawful (id : UInt64) (payload : Bytes) (l : Letter P A) : Prop :=
  ∃ action, l.action = some action ∧ action.Lawful id payload

theorem PlumTree.lawful_toPeer {id : UInt64} {payload : Bytes} {action : Action P A}
    (t : PlumTree P A) (peer : P) (h : action.Lawful id payload) :
    (t.toPeer peer action).Lawful id payload := by
  intro p event he
  cases he
  exact ⟨action, rfl, h⟩

/-! ## Weights -/

/-- What a message in flight may still cost: a duplicate is answered with a
prune. -/
def Action.weight : Action P A → ℕ
  | .message _ _ _ => 3
  | _ => 1

def Letter.weight (l : Letter P A) : ℕ := l.action.elim 1 Action.weight

/-- What a queued action may still cost: it is polled first. -/
def NetworkAction.weight : NetworkAction P A → ℕ
  | .notifyHandler _ event => event.action.elim 1 Action.weight + 1
  | _ => 1

/-- What a node may still cost: it empties its queue, and sends a message
that is new to it to its eager peers. -/
def PlumTree.load (t : PlumTree P A) (id : UInt64) : ℕ :=
  (t.outEvents.map NetworkAction.weight).sum +
    if (t.received.get id).isSome then 0 else 4 * t.eager.length + 1

/-- A message that is sent to some peers. -/
theorem PlumTree.weight_notify (t : PlumTree P A) (l : List P) (action : Action P A) :
    ((l.map fun q => t.toPeer q action).map NetworkAction.weight).sum =
      l.length * (action.weight + 1) := by
  induction l with
  | nil => simp
  | cons q l ih =>
    rw [List.map_cons, List.map_cons, List.sum_cons, ih, List.length_cons, Nat.add_mul, Nat.one_mul,
      Nat.add_comm]
    rfl

theorem PlumTree.load_of_received {t : PlumTree P A} {id : UInt64}
    (h : (t.received.get id).isSome) : t.load id = (t.outEvents.map NetworkAction.weight).sum := by
  rw [load, if_pos h]
  rfl

/-- **What arrives outweighs what it causes.** -/
theorem PlumTree.load_receive [DecidableEq P] {t t' : PlumTree P A}
    {decodeAll : Bytes → Option Bytes} {now : ℤ} {sender : P} {id : UInt64} {payload : Bytes}
    {action : Action P A} (hlawful : action.Lawful id payload)
    (h : t.receive false decodeAll now sender (some action) = some t') :
    t'.load id + 1 ≤ t.load id + action.weight := by
  cases hlawful with
  | message hop =>
    show _ ≤ _ + 3
    cases hreceived : t.received.get id with
    | none =>
      obtain ⟨out, -, hqueue, hkept, -⟩ := injectMessage_first hreceived h
      have hhas : (t'.received.get id).isSome := by
        rw [hkept]
        exact (ExpiringCache.isSome_insert _ _ _ _).2 (.inr rfl)
      have hforward := t.weight_notify (t.eager.items.filter (· ≠ sender))
        (.message id (hop + 1) payload)
      have hfewer := List.length_filter_le (fun q => decide (q ≠ sender)) t.eager.items
      rw [load_of_received hhas, load, hreceived, if_neg (by simp), hqueue, List.map_append,
        List.sum_append, List.map_cons, List.sum_cons, hforward]
      show _ + (1 + _ * 4) + 1 ≤ _ + (4 * t.eager.items.length + 1) + 3
      omega
    | some old =>
      have hhas : (t.received.get id).isSome := by
        rw [hreceived]
        rfl
      have hkept := (ExpiringCache.isSome_insert t.received (⟨id, hop, sender, payload⟩) now id).2
        (.inl hhas)
      rw [receive, injectMessage_old false decodeAll now sender hop payload hhas] at h
      obtain rfl := Option.some.inj h
      rw [load_of_received hhas]
      split
      · rw [load_of_received hkept]
        show ((t.outEvents ++ [t.toPeer sender .prune]).map _).sum + 1 ≤ _
        rw [List.map_append, List.sum_append]
        exact Nat.le_refl _
      · rw [load_of_received hkept]
        show (t.outEvents.map _).sum + 1 ≤ _
        omega
  | ihave ihaves =>
    obtain rfl := Option.some.inj h
    obtain ⟨halike, hqueue⟩ := t.injectIhaves_alike now sender ihaves
    rw [load, load, hqueue, halike.received, halike.eager]
    exact Nat.le_refl _
  | prune =>
    obtain rfl := Option.some.inj h
    have hfewer := t.eager.length_remove_le sender
    show (t.outEvents.map _).sum + (if (t.received.get id).isSome then 0 else
      4 * (t.eager.remove sender).length + 1) + 1 ≤ t.load id + 1
    rw [load]
    split
    · exact Nat.le_refl _
    · omega

/-- **A poll** hands out the first action. -/
theorem PlumTree.load_poll [DecidableEq P] {t t' : PlumTree P A} {landing : Landing} {now : ℤ}
    {event : Option (NetworkAction P A)} (h : t.poll landing now false = some (event, t'))
    (hqueue : t.outEvents ≠ []) (id : UInt64) :
    ∃ e, event = some e ∧ t'.load id + e.weight = t.load id := by
  unfold poll at h
  rw [if_neg Bool.false_ne_true] at h
  dsimp only at h
  split at h
  next hnil => exact absurd hnil hqueue
  next e rest hcons =>
    cases h
    refine ⟨e, rfl, ?_⟩
    rw [load, load, hcons, List.map_cons, List.sum_cons]
    show (rest.map NetworkAction.weight).sum +
      (if (t.received.get id).isSome then 0 else 4 * t.eager.length + 1) + e.weight = _
    omega

namespace Mesh

variable [DecidableEq P] {m m' : Mesh P A} {p : P} {t : PlumTree P A}
variable {es : List (NetworkAction P A)}

/-- What a node told its application, and what it is going to tell it. -/
def reports (m : Mesh P A) (p : P) : List (EpisubEvent P) :=
  m.heard p ++ (m.trees p).outEvents.filterMap NetworkAction.report

theorem heard_carry (m : Mesh P A) (p : P) (event : Option (NetworkAction P A)) (x : P) :
    (m.carry p event).heard x =
      m.heard x ++ if x = p then event.toList.filterMap NetworkAction.report else [] := by
  cases event with
  | none => simp [carry]
  | some e =>
    cases e with
    | generateEvent event =>
      show ((m.events ++ [(p, event)]).filter _).map _ = _
      rw [List.filter_append, List.map_append]
      refine congrArg (m.heard x ++ ·) ?_
      by_cases hx : x = p
      · subst hx
        simp [NetworkAction.report]
      · simp [hx, Ne.symm hx]
    | notifyHandler | dial | closeConnection =>
      show m.heard x = m.heard x ++ _
      simp [NetworkAction.report]

/-- No other message is published, and no tick repairs the tree. -/
def calm (m : Mesh P A) : Event P × ℤ → Bool
  | (.publish _ _ _, _) => false
  | (.poll node tickDue landing, now) => !tickDue || (m.trees node).calm landing now
  | (.deliver _, _) => true

variable [Fintype P] {m₀ : Mesh P A} {s : P} {id : UInt64} {payload body : Bytes} {now : ℤ}

/-- The nodes that have a message. -/
def holders (m : Mesh P A) (id : UInt64) : Finset P :=
  Finset.univ.filter fun p => ((m.trees p).received.get id).isSome

omit [DecidableEq P] in
@[simp] theorem mem_holders : p ∈ m.holders id ↔ ((m.trees p).received.get id).isSome := by
  rw [holders, Finset.mem_filter, and_iff_right (Finset.mem_univ p)]

/-- **What a broadcast looks like** after it was published at `s` in the
mesh `m₀`: all that is under way belongs to it, and each node that has the
message told its application once, but `s`, which did not. -/
structure Carries (m₀ : Mesh P A) (s : P) (id : UInt64) (payload body : Bytes) (m : Mesh P A) :
    Prop where
  source : s ∈ m.holders id
  config : ∀ p, (m.trees p).config = (m₀.trees p).config
  topic : ∀ p, (m.trees p).topic = (m₀.trees p).topic
  flight : ∀ l ∈ m.flight, l.Lawful id payload
  queued : ∀ p, ∀ e ∈ (m.trees p).outEvents, e.Lawful id payload
  reports : ∀ p, m.reports p = m₀.reports p ++
    if p ≠ s ∧ p ∈ m.holders id then [.message (m₀.trees p).topic id body] else []

/-- A node hands out an action. -/
theorem Carries.poll (hm : Carries m₀ s id payload body m) {event : Option (NetworkAction P A)}
    (halike : (m.trees p).Alike t)
    (hqueue : event.toList ++ t.outEvents = (m.trees p).outEvents ++ es)
    (hes : ∀ e ∈ es, ∃ p' ihaves, e = (m.trees p).toPeer p' (.ihave ihaves)) :
    Carries m₀ s id payload body ((m.set p t).carry p event) := by
  have hreceived : ∀ q, ((m.set p t).trees q).received = (m.trees q).received :=
    forall_set (Q := fun q t => t.received = (m.trees q).received) halike.received fun _ _ => rfl
  have hholders : ((m.set p t).carry p event).holders id = m.holders id := by
    ext q
    rw [mem_holders, mem_holders, trees_carry, hreceived]
  have hlawful : ∀ e ∈ event.toList ++ t.outEvents, e.Lawful id payload := by
    intro e he
    rw [hqueue] at he
    rcases List.mem_append.1 he with he | he
    · exact hm.queued p e he
    · obtain ⟨q, ihaves, rfl⟩ := hes e he
      exact (m.trees p).lawful_toPeer q (.ihave ihaves)
  refine ⟨?_, fun q => ?_, fun q => ?_, fun l hl => ?_, fun q => ?_, fun q => ?_⟩
  · rw [hholders]
    exact hm.source
  · rw [trees_carry]
    exact forall_set (Q := fun q t => t.config = (m₀.trees q).config)
      (halike.config.trans (hm.config p)) (fun q _ => hm.config q) q
  · rw [trees_carry]
    exact forall_set (Q := fun q t => t.topic = (m₀.trees q).topic)
      (halike.topic.trans (hm.topic p)) (fun q _ => hm.topic q) q
  · have hold : l ∈ m.flight ∨ ∃ peer event', event = some (.notifyHandler peer event') ∧
        l = ⟨p, peer, event'.action⟩ := by
      cases event with
      | none => exact .inl hl
      | some e =>
        cases e with
        | notifyHandler peer event' =>
          rcases List.mem_append.1 hl with hl | hl
          · exact .inl hl
          · exact .inr ⟨peer, event', rfl, List.mem_singleton.1 hl⟩
        | dial | generateEvent | closeConnection => exact .inl hl
    rcases hold with hl | ⟨peer, event', rfl, rfl⟩
    · exact hm.flight l hl
    · exact hlawful _ (List.mem_append_left _ (List.mem_singleton.2 rfl)) peer event' rfl
  · rw [trees_carry]
    exact forall_set (Q := fun _ t => ∀ e ∈ t.outEvents, e.Lawful id payload)
      (fun e he => hlawful e (List.mem_append_right _ he)) (fun q _ => hm.queued q) q
  · have hnone : es.filterMap NetworkAction.report = [] := by
      rw [List.filterMap_eq_nil_iff]
      intro e he
      obtain ⟨q, ihaves, rfl⟩ := hes e he
      rfl
    have hsame : ((m.set p t).carry p event).reports q = m.reports q := by
      unfold Mesh.reports
      rw [heard_carry, trees_carry]
      by_cases hq : q = p
      · subst hq
        rw [if_pos rfl, trees_set_self, List.append_assoc, ← List.filterMap_append, hqueue,
          List.filterMap_append, hnone, List.append_nil]
        rfl
      · rw [if_neg hq, trees_set_ne m t hq, List.append_nil]
        rfl
    rw [hsame, hm.reports q, hholders]

/-- A message arrives at a node. -/
theorem Carries.deliver (hm : Carries m₀ s id payload body m) {i : ℕ} {b : P}
    (hconfig : t.config = (m.trees b).config)
    (htopic : t.topic = (m.trees b).topic)
    (hqueue : t.outEvents = (m.trees b).outEvents ++ es)
    (hkept : b ∈ m.holders id → (t.received.get id).isSome)
    (hes : ∀ e ∈ es, e.Lawful id payload)
    (hreports : es.filterMap NetworkAction.report =
      if b ∉ m.holders id ∧ (t.received.get id).isSome
      then [.message (m.trees b).topic id body] else []) :
    Carries m₀ s id payload body
      ({ m with flight := m.flight.eraseIdx i }.set b t) := by
  set m' := { m with flight := m.flight.eraseIdx i }.set b t with hm'
  have hself : m'.trees b = t := trees_set_self _ _ _
  have hother : ∀ q, q ≠ b → m'.trees q = m.trees q := fun q hq => trees_set_ne _ t hq
  have hgrow : m.holders id ⊆ m'.holders id := by
    intro q hq
    by_cases hqb : q = b
    · rw [mem_holders, hqb, hself]
      exact hkept (hqb ▸ hq)
    · rw [mem_holders, hother q hqb]
      exact mem_holders.1 hq
  refine ⟨hgrow hm.source, fun q => ?_, fun q => ?_,
    fun l' hl' => hm.flight l' (List.mem_of_mem_eraseIdx hl'), fun q e he => ?_, fun q => ?_⟩
  · by_cases hq : q = b
    · rw [hq, hself, hconfig, hm.config]
    · rw [hother q hq, hm.config]
  · by_cases hq : q = b
    · rw [hq, hself, htopic, hm.topic]
    · rw [hother q hq, hm.topic]
  · by_cases hq : q = b
    · rw [hq, hself, hqueue] at he
      rcases List.mem_append.1 he with he | he
      · exact hm.queued b e he
      · exact hes e he
    · rw [hother q hq] at he
      exact hm.queued q e he
  · by_cases hq : q = b
    · have hnews : m'.reports q = m.reports q ++ es.filterMap NetworkAction.report := by
        unfold Mesh.reports
        rw [hq, hself, hqueue, List.filterMap_append, ← List.append_assoc]
        rfl
      rw [hnews, hm.reports q, hreports, List.append_assoc, hq, hm.topic]
      refine congrArg (m₀.reports b ++ ·) ?_
      have hiff : b ∈ m'.holders id ↔ (t.received.get id).isSome := by
        rw [mem_holders, hself]
      by_cases hhas : b ∈ m.holders id
      · simp [hhas, hgrow hhas]
      · have hsource : b ≠ s := fun hs => hhas (hs ▸ hm.source)
        simp only [hiff]
        simp [hhas, hsource]
    · have hsame : m'.reports q = m.reports q := by
        unfold Mesh.reports
        rw [hother q hq]
        rfl
      have hiff : q ∈ m'.holders id ↔ q ∈ m.holders id := by
        rw [mem_holders, mem_holders, hother q hq]
      rw [hsame, hm.reports q]
      simp only [hiff]

/-! ## One event -/

section Step

variable {decodeAll : Bytes → Option Bytes} {i : ℕ} {a b : P} {hop : UInt32}

/-- The nodes where a duplicate cuts its link. -/
def cuts (m₀ : Mesh P A) (p : P) : Prop := (m₀.trees p).config.optimizeSenderTree

/-- An event of a broadcast that does no harm. -/
def Advances (m₀ : Mesh P A) (s : P) (id : UInt64) (payload body : Bytes) (m : Mesh P A)
    (m' : Option (Mesh P A)) : Prop :=
  ∃ k, m' = some k ∧ Carries m₀ s id payload body k ∧
    Flood.Step m₀.cuts (m.flood id) (k.flood id)

/-- **The first copy that arrives at a node.** -/
theorem Carries.first (hm : Carries m₀ s id payload body m)
    (hbody : ∀ p, (if (m₀.trees p).config.enableCompression then decodeAll payload
      else some payload) = some body)
    (hi : m.flight[i]? = some ⟨a, b, some (.message id hop payload)⟩)
    (hnew : (m.trees b).received.get id = none) :
    Advances m₀ s id payload body m
      (((m.trees b).injectMessage false decodeAll now a id hop payload).map fun t =>
        { m with flight := m.flight.eraseIdx i }.set b t) := by
  have hb : b ∉ m.holders id := by
    rw [mem_holders, hnew]
    exact Bool.false_ne_true
  have hunpack : (if (m.trees b).config.enableCompression then decodeAll payload
      else some payload) = some body := by
    rw [hm.config]
    exact hbody b
  rw [PlumTree.injectMessage_new now a hnew hunpack]
  generalize ht : (PlumTree.notifyAll _ _ _ : PlumTree P A) = t
  have hreceived : (t.received.get id).isSome := by
    rw [← ht]
    exact (ExpiringCache.isSome_insert _ _ _ _).2 (.inr rfl)
  obtain ⟨es, hes⟩ : ∃ es, es = .generateEvent (.message (m.trees b).topic id body) ::
      ((m.trees b).eager.items.filter (· ≠ a)).map
        ((m.trees b).toPeer · (.message id (hop + 1) payload)) := ⟨_, rfl⟩
  have hqueue : t.outEvents = (m.trees b).outEvents ++ es := by
    rw [← ht, hes]
    exact List.append_assoc _ _ _
  refine ⟨_, rfl, ?_, .first a b (flood_first hi Action.carries_message rfl hnew hreceived
    (by rw [← ht]; rfl) hqueue (fun q => ?_) fun q => ?_)⟩
  · refine hm.deliver (by rw [← ht]; rfl) (by rw [← ht]; rfl) hqueue (fun hb' => absurd hb' hb)
      (fun e he => ?_) ?_
    · rw [hes] at he
      rcases List.mem_cons.1 he with rfl | he
      · intro peer event heq
        cases heq
      · obtain ⟨q, -, rfl⟩ := List.mem_map.1 he
        exact (m.trees b).lawful_toPeer q (.message _)
    · have hsent : (((m.trees b).eager.items.filter (· ≠ a)).map
          ((m.trees b).toPeer · (.message id (hop + 1) payload))).filterMap
          NetworkAction.report = [] := by
        rw [List.filterMap_map, List.filterMap_eq_nil_iff]
        exact fun q _ => rfl
      rw [if_pos ⟨hb, hreceived⟩, hes]
      exact congrArg (_ :: ·) hsent
  · rw [hes, List.countP_cons, PlumTree.countP_forward _ _ _ _ _ Action.carries_message]
    rfl
  · rw [hes, List.countP_cons, PlumTree.countP_notify]
    rfl

/-- **A copy that arrives later.** -/
theorem Carries.again (hm : Carries m₀ s id payload body m)
    (hi : m.flight[i]? = some ⟨a, b, some (.message id hop payload)⟩)
    (hold : ((m.trees b).received.get id).isSome) :
    Advances m₀ s id payload body m
      (((m.trees b).injectMessage false decodeAll now a id hop payload).map fun t =>
        { m with flight := m.flight.eraseIdx i }.set b t) := by
  rw [PlumTree.injectMessage_old false decodeAll now a hop payload hold]
  dsimp only
  generalize hk : ({ m.trees b with received := _ } : PlumTree P A) = k
  have hreceived : (k.received.get id).isSome := by
    rw [← hk]
    exact (ExpiringCache.isSome_insert _ _ _ _).2 (.inl hold)
  split
  next hcut =>
    -- the sender is eager, and is pruned
    rw [Bool.and_eq_true, decide_eq_true_eq] at hcut
    have hqueue : ((k.injectPrune a).notifyAll [a] .prune).outEvents =
        (m.trees b).outEvents ++ [(m.trees b).toPeer a .prune] := by
      rw [← hk]
      rfl
    refine ⟨_, rfl, ?_, .again a b (flood_again hi Action.carries_message rfl hold hreceived
      (fun q => ?_) hqueue (fun q => ?_) fun q hq => ?_)⟩
    · refine hm.deliver (by rw [← hk]; rfl) (by rw [← hk]; rfl) hqueue (fun _ => hreceived)
        (fun e he => ?_) ?_
      · rw [List.mem_singleton.1 he]
        exact (m.trees b).lawful_toPeer a .prune
      · rw [if_neg fun hb => hb.1 (mem_holders.2 hold)]
        rfl
    · have hcuts : m₀.cuts b := by
        show (m₀.trees b).config.optimizeSenderTree
        rw [← hm.config]
        exact hcut.1
      rw [and_iff_right hcuts, ← hk]
      exact KeySet.mem_remove
    · rw [List.countP_singleton]
      simp [NetworkAction.sends, PlumTree.toPeer, Action.carries]
    · rw [List.countP_singleton]
      simp [NetworkAction.sends, PlumTree.toPeer, Ne.symm hq]
  next hcut =>
    rw [Bool.and_eq_true, decide_eq_true_eq] at hcut
    have hqueue : k.outEvents = (m.trees b).outEvents ++ [] := by
      rw [← hk]
      exact (List.append_nil _).symm
    refine ⟨_, rfl, ?_, .again a b (flood_again hi Action.carries_message rfl hold hreceived
      (fun q => ?_) hqueue (fun q => rfl) fun q _ => rfl)⟩
    · refine hm.deliver (by rw [← hk]) (by rw [← hk]) hqueue (fun _ => hreceived)
        (fun e he => ?_) ?_
      · exact absurd he List.not_mem_nil
      · rw [if_neg fun hb => hb.1 (mem_holders.2 hold)]
        rfl
    · rw [← hk]
      refine ⟨fun hq => ⟨hq, ?_⟩, And.left⟩
      rintro ⟨hcuts, rfl⟩
      refine hcut ⟨?_, hq⟩
      rw [hm.config]
      exact hcuts

/-- An event without effect on the broadcast. -/
theorem Advances.of_alike {m' : Mesh P A} (hm' : Carries m₀ s id payload body m')
    (halike : (m.trees p).Alike t) (htrees : m'.trees = (m.set p t).trees)
    (hcount : ∀ x y kind, (kind = Action.carries id ∨ kind = Action.prunes) →
      m'.undelivered x y kind = m.undelivered x y kind) :
    Advances m₀ s id payload body m (some m') :=
  ⟨m', rfl, hm', .same (flood_same halike htrees hcount)⟩

/-- **One event.** -/
theorem Carries.step (hm : Carries m₀ s id payload body m)
    (hbody : ∀ p, (if (m₀.trees p).config.enableCompression then decodeAll payload
      else some payload) = some body) {e : Event P × ℤ} (hcalm : m.calm e) :
    Advances m₀ s id payload body m (m.step decodeAll e.2 e.1) := by
  obtain ⟨e, now⟩ := e
  cases e with
  | publish node id payload => cases hcalm
  | poll node tickDue landing =>
    have hdue : tickDue → (m.trees node).calm landing now := by
      rintro rfl
      exact hcalm
    obtain ⟨event, t, es, hpoll, hqueue, hes, halike⟩ := PlumTree.poll_of_calm hdue
    show Advances m₀ s id payload body m (((m.trees node).poll landing now tickDue).map _)
    rw [hpoll]
    refine .of_alike (hm.poll halike hqueue hes) halike (trees_carry _ _ _) fun x y kind hkind => ?_
    refine undelivered_poll hqueue (List.countP_eq_zero.2 fun e he => ?_) x
    obtain ⟨q, ihaves, rfl⟩ := hes e he
    rcases hkind with rfl | rfl <;> simp [NetworkAction.sends, PlumTree.toPeer, Action.carries,
      Action.prunes]
  | deliver i =>
    unfold Mesh.step
    dsimp only
    cases hi : m.flight[i]? with
    | none =>
      refine ⟨m, rfl, hm, .same ⟨fun _ => Iff.rfl, fun _ _ => Iff.rfl, fun _ _ => rfl,
        fun _ _ hxy => hxy⟩⟩
    | some l =>
      obtain ⟨a, b, action⟩ := l
      obtain ⟨action, rfl, hlawful⟩ := hm.flight _ (List.mem_of_getElem? hi)
      cases hlawful with
      | message hop =>
        cases hreceived : (m.trees b).received.get id with
        | none => exact hm.first hbody hi hreceived
        | some old => exact hm.again hi (by rw [hreceived]; rfl)
      | ihave ihaves =>
        obtain ⟨halike, hsame⟩ := (m.trees b).injectIhaves_alike now a ihaves
        have hqueue := hsame.trans (List.append_nil _).symm
        refine .of_alike ?_ halike rfl fun x y kind hkind => ?_
        · refine hm.deliver halike.config halike.topic hqueue (fun hb => ?_)
            (fun e he => absurd he List.not_mem_nil) ?_
          · rw [halike.received]
            exact mem_holders.1 hb
          · rw [if_neg, List.filterMap_nil]
            rw [halike.received]
            exact fun hb => hb.1 (mem_holders.2 hb.2)
        · have hcount := undelivered_deliver hi rfl hqueue kind x y
          have hnot : ¬ kind (.ihave ihaves) := by
            rcases hkind with rfl | rfl <;> exact Bool.false_ne_true
          simpa [hnot] using hcount
      | prune =>
        refine ⟨_, rfl, ?_, .dropped a b (flood_dropped hi)⟩
        refine hm.deliver rfl rfl (List.append_nil _).symm (fun hb => mem_holders.1 hb)
          (fun e he => absurd he List.not_mem_nil) ?_
        rw [if_neg, List.filterMap_nil]
        exact fun hb => hb.1 (mem_holders.2 hb.2)

end Step

/-! ## A broadcast -/

/-- Nothing is under way, no node knows the message, and the links are
symmetric. -/
structure Fresh (m : Mesh P A) (id : UInt64) : Prop where
  flight : m.flight = []
  queues : ∀ p, (m.trees p).outEvents = []
  unseen : ∀ p, (m.trees p).received.get id = none
  symmetric : ∀ p q, q ∈ (m.trees p).eager → p ∈ (m.trees q).eager
  apart : ∀ p, p ∉ (m.trees p).eager

section Broadcast

variable {decodeAll : Bytes → Option Bytes}

omit [DecidableEq P] [Fintype P] in
theorem adj_links {p q : P} (hsymm : q ∈ (m.trees p).eager ↔ p ∈ (m.trees q).eager)
    (hne : q ∈ (m.trees p).eager → p ≠ q) : m.links.Adj p q ↔ q ∈ (m.trees p).eager := by
  rw [links, SimpleGraph.fromRel_adj]
  constructor
  · rintro ⟨-, hq | hp⟩
    · exact hq
    · exact hsymm.2 hp
  · exact fun hq => ⟨hne hq, .inl hq⟩

omit [DecidableEq P] [Fintype P] in
theorem Fresh.adj (hm : m.Fresh id) (p q : P) : m.links.Adj p q ↔ q ∈ (m.trees p).eager := by
  refine adj_links ⟨hm.symmetric p q, hm.symmetric q p⟩ ?_
  rintro hq rfl
  exact hm.apart p hq

omit [DecidableEq P] [Fintype P] in
/-- The tree of the node that publishes. -/
theorem publish_new {t : PlumTree P A} (hreceived : t.received.get id = none)
    (hobserved : t.observed.get id = none) (now : ℤ) (payload : Bytes) :
    t.publish now id payload = { t.notifyAll t.eager.items (.message id 1 payload) with
      received := (t.received.insert ⟨id, 0, t.localNode, payload⟩ now).2 } := by
  unfold PlumTree.publish
  rw [hreceived, hobserved, if_neg (by simp), if_neg (by simp)]
  rfl

omit [DecidableEq P] [Fintype P] in
/-- The node has its own message, and tells all its peers. -/
theorem Fresh.published (hm : m.Fresh id) (hobserved : (m.trees s).observed.get id = none)
    (now : ℤ) (payload : Bytes) :
    (((m.trees s).publish now id payload).received.get id).isSome ∧
      ((m.trees s).publish now id payload).outEvents =
        (m.trees s).eager.items.map ((m.trees s).toPeer · (.message id 1 payload)) := by
  rw [publish_new (hm.unseen s) hobserved now payload]
  refine ⟨(ExpiringCache.isSome_insert _ _ _ _).2 (.inr rfl), ?_⟩
  show (m.trees s).outEvents ++ _ = _
  rw [hm.queues, List.nil_append]

/-- **The broadcast starts.** -/
theorem Fresh.publish (hm : m.Fresh id) (hobserved : (m.trees s).observed.get id = none)
    (now : ℤ) (payload body : Bytes) :
    Carries m s id payload body (m.set s ((m.trees s).publish now id payload)) ∧
      Flood.Starts m.links s ((m.set s ((m.trees s).publish now id payload)).flood id) := by
  have hpublish := publish_new (hm.unseen s) hobserved now payload
  obtain ⟨hreceived, hqueue⟩ := hm.published hobserved now payload
  generalize ht : (m.trees s).publish now id payload = t at hpublish hreceived hqueue
  have hself : (m.set s t).trees s = t := trees_set_self m s t
  have hother : ∀ q, q ≠ s → (m.set s t).trees q = m.trees q := fun q hq => trees_set_ne m t hq
  have hholders : (m.set s t).holders id = {s} := by
    ext q
    rw [mem_holders, Finset.mem_singleton]
    by_cases hq : q = s
    · rw [hq, hself]
      exact iff_of_true hreceived rfl
    · rw [hother q hq, hm.unseen]
      exact iff_of_false Bool.false_ne_true hq
  have hundelivered : ∀ p q kind, (m.set s t).undelivered p q kind =
      if p = s then if kind (.message id 1 payload) then
        if q ∈ (m.trees s).eager then 1 else 0 else 0 else 0 := by
    intro p q kind
    have hflight : (m.set s t).flight = [] := hm.flight
    rw [undelivered, hflight, List.countP_nil, Nat.zero_add]
    by_cases hp : p = s
    · rw [if_pos hp, hp, hself, hqueue, PlumTree.countP_notify, IdSet.count_eq]
    · rw [if_neg hp, hother p hp, hm.queues]
      rfl
  refine ⟨⟨?_, ?_, ?_, ?_, ?_, ?_⟩, ⟨fun p => ?_, fun p q => ?_, fun q hq => ?_, fun p q hpq => ?_,
    fun p q hpq => ?_⟩⟩
  · rw [hholders]
    exact Finset.mem_singleton_self s
  · refine forall_set (Q := fun q t => t.config = (m.trees q).config) ?_ fun _ _ => rfl
    rw [hpublish]
    rfl
  · refine forall_set (Q := fun q t => t.topic = (m.trees q).topic) ?_ fun _ _ => rfl
    rw [hpublish]
    rfl
  · have hflight : (m.set s t).flight = [] := hm.flight
    rw [hflight]
    exact fun l hl => absurd hl List.not_mem_nil
  · refine forall_set (Q := fun _ t => ∀ e ∈ t.outEvents, NetworkAction.Lawful id payload e)
      (fun e he => ?_) fun q _ e he => ?_
    · rw [hqueue] at he
      obtain ⟨q, -, rfl⟩ := List.mem_map.1 he
      exact (m.trees s).lawful_toPeer q (.message 1)
    · rw [hm.queues] at he
      exact absurd he List.not_mem_nil
  · intro p
    rw [hholders, if_neg fun hp => hp.1 (Finset.mem_singleton.1 hp.2), List.append_nil]
    show m.heard p ++ _ = m.heard p ++ _
    refine congrArg (m.heard p ++ ·) ?_
    by_cases hp : p = s
    · rw [hp, hself, hqueue, hm.queues, List.filterMap_map, List.filterMap_nil,
        List.filterMap_eq_nil_iff]
      exact fun q _ => rfl
    · rw [hother p hp]
  · rw [← Finset.mem_singleton, ← hholders, mem_holders]
    rfl
  · rw [hm.adj]
    show q ∈ ((m.set s t).trees p).eager ↔ _
    refine forall_set (Q := fun p t => q ∈ t.eager ↔ q ∈ (m.trees p).eager) ?_ (fun _ _ => Iff.rfl) p
    rw [hpublish]
    rfl
  · rw [hm.adj] at hq
    refine (hundelivered s q _).trans ?_
    rw [if_pos rfl, if_pos Action.carries_message, if_pos hq]
  · refine (hundelivered p q _).trans ?_
    split
    next hp =>
      rw [if_pos Action.carries_message, if_neg]
      exact fun hq => hpq ⟨hp, (hm.adj s q).2 hq⟩
    · rfl
  · refine Nat.lt_irrefl 0 (Nat.lt_of_lt_of_eq hpq ((hundelivered p q _).trans ?_))
    simp [Action.prunes]

/-- **A run of a broadcast.** -/
theorem Carries.run (hm : Carries m₀ s id payload body m)
    (hbody : ∀ p, (if (m₀.trees p).config.enableCompression then decodeAll payload
      else some payload) = some body) {G : SimpleGraph P}
    (hflood : ∃ parent rank, Flood.Spreads G s m₀.cuts parent rank (m.flood id))
    {events : List (Event P × ℤ)}
    (hcalm : Along (advance decodeAll) (fun m e => m.all fun m => m.calm e) (some m) events) :
    ∃ m', m.run decodeAll events = some m' ∧ Carries m₀ s id payload body m' ∧
      ∃ parent rank, Flood.Spreads G s m₀.cuts parent rank (m'.flood id) := by
  refine hcalm.rule (I := fun k => ∃ m', k = some m' ∧ Carries m₀ s id payload body m' ∧
    ∃ parent rank, Flood.Spreads G s m₀.cuts parent rank (m'.flood id)) ⟨m, rfl, hm, hflood⟩ ?_
  rintro _ e ⟨k, rfl, hk, parent, rank, hspreads⟩ hcalm
  obtain ⟨k', hk', hcarries, hstep⟩ := hk.step hbody hcalm
  exact ⟨k', hk', hcarries, hspreads.step hstep⟩

omit [Fintype P] in
/-- A broadcast settles when nothing is under way. -/
theorem Quiescent.settled (hm : m.Quiescent) (id : UInt64) : (m.flood id).Settled := by
  intro p q
  show m.undelivered p q _ = 0
  rw [undelivered, hm.1, hm.2 p]
  rfl

/-- **Every node gets the message once.** No node panics, at any time each
node but the one that published has told its application at most once, and
when nothing is under way, exactly once. -/
theorem broadcast_delivers (decodeAll : Bytes → Option Bytes) (m : Mesh P A) (s : P) (id : UInt64)
    (payload body : Bytes) (now : ℤ) (events : List (Event P × ℤ)) (hm : m.Fresh id)
    (hobserved : (m.trees s).observed.get id = none) (hconnected : m.links.Connected)
    (hbody : ∀ p, (if (m.trees p).config.enableCompression then decodeAll payload
      else some payload) = some body)
    (hcalm : Along (advance decodeAll) (fun m e => m.all fun m => m.calm e)
      (m.step decodeAll now (.publish s id payload)) events) :
    ∃ m', m.run decodeAll ((.publish s id payload, now) :: events) = some m' ∧
      (∀ p, m'.heard p <+: m.heard p ++
        if p = s then [] else [.message (m.trees p).topic id body]) ∧
      (m'.Quiescent → ∀ p, m'.heard p = m.heard p ++
        if p = s then [] else [.message (m.trees p).topic id body]) := by
  obtain ⟨hcarries, hstarts⟩ := hm.publish (s := s) hobserved now payload body
  obtain ⟨m', hrun, hm', parent, rank, hspreads⟩ :=
    hcarries.run hbody ⟨_, _, Flood.spreads_of_starts hstarts⟩ hcalm
  have hbefore : ∀ p, m.reports p = m.heard p := by
    intro p
    rw [reports, hm.queues]
    exact List.append_nil _
  refine ⟨m', hrun, fun p => ?_, fun hq p => ?_⟩
  · have hheard : m'.heard p <+: m'.reports p := List.prefix_append _ _
    refine hheard.trans ?_
    rw [hm'.reports p, hbefore]
    refine List.prefix_append_right_inj _ |>.2 ?_
    by_cases hp : p = s
    · rw [if_pos hp, if_neg fun hne => hne.1 hp]
    · rw [if_neg hp]
      split
      · exact List.prefix_rfl
      · exact List.nil_prefix
  · have hafter : m'.reports p = m'.heard p := by
      rw [reports, hq.2]
      exact List.append_nil _
    have hheld : p ∈ m'.holders id :=
      mem_holders.2 (hspreads.reached_of_settled (hq.settled id) hconnected p)
    rw [← hafter, hm'.reports p, hbefore]
    refine congrArg (m.heard p ++ ·) ?_
    by_cases hp : p = s
    · rw [if_pos hp, if_neg fun hne => hne.1 hp]
    · rw [if_neg hp, if_pos ⟨hp, hheld⟩]

local instance : NeZero 3 := ⟨three_ne_zero⟩

/-- Three nodes, with links between any two. -/
def triangle : Mesh (Fin 3) Unit where
  trees p :=
    { topic := "blocks"
      config := { Config.default with enableCompression := false }
      localNode := p
      eager := (KeySet.empty.insert (p + 1)).insert (p + 2) }

/-- Node 0 publishes. The copy that comes over node 1 is the first that
node 2 gets, so the link between 0 and 2 is cut. -/
def detour : List (Event (Fin 3) × ℤ) :=
  [(.poll 0 false {}, 1), (.poll 0 false {}, 2), (.deliver 0, 3), (.poll 1 false {}, 4),
    (.poll 1 false {}, 5), (.deliver 1, 6), (.poll 2 false {}, 7), (.poll 2 false {}, 8),
    (.deliver 0, 9), (.deliver 0, 10), (.poll 0 false {}, 11), (.poll 2 false {}, 12),
    (.deliver 0, 13), (.deliver 0, 14)]

theorem fresh_triangle : triangle.Fresh 7 where
  flight := rfl
  queues _ := rfl
  unseen _ := rfl
  symmetric := by decide
  apart := by decide

theorem connected_triangle : triangle.links.Connected := by
  have hadj : ∀ p q : Fin 3, triangle.links.Adj p q ↔ q ∈ (triangle.trees p).eager :=
    fresh_triangle.adj
  rw [SimpleGraph.connected_iff_exists_forall_reachable]
  refine ⟨0, fun p => ?_⟩
  by_cases hp : p = 0
  · rw [hp]
  · exact ((hadj 0 p).2 (by decide +revert)).reachable

theorem broadcast_delivers_detour : ∃ m',
    triangle.run some ((.publish 0 7 [1, 2], 0) :: detour) = some m' ∧
      ∀ p, m'.heard p = triangle.heard p ++ if p = 0 then [] else [.message "blocks" 7 [1, 2]] := by
  obtain ⟨m', hrun, -, hquiescent⟩ := broadcast_delivers some triangle 0 7 [1, 2] [1, 2] 0 detour
    fresh_triangle rfl connected_triangle (fun _ => rfl) (by decide)
  refine ⟨m', hrun, hquiescent ?_⟩
  obtain rfl := Option.some.inj hrun
  exact ⟨rfl, by decide⟩

/-- **The links that are left span the mesh**, when every node optimizes
its tree and nothing is under way. Links that are a tree already stay. -/
theorem broadcast_spans (decodeAll : Bytes → Option Bytes) (m : Mesh P A) (s : P) (id : UInt64)
    (payload body : Bytes) (now : ℤ) (events : List (Event P × ℤ)) (hm : m.Fresh id)
    (hobserved : (m.trees s).observed.get id = none) (hconnected : m.links.Connected)
    (hbody : ∀ p, (if (m.trees p).config.enableCompression then decodeAll payload
      else some payload) = some body)
    (hoptimize : ∀ p, (m.trees p).config.optimizeSenderTree)
    (hcalm : Along (advance decodeAll) (fun m e => m.all fun m => m.calm e)
      (m.step decodeAll now (.publish s id payload)) events) :
    ∃ m', m.run decodeAll ((.publish s id payload, now) :: events) = some m' ∧
      (m'.Quiescent → (∀ p q, q ∈ (m'.trees p).eager → p ∈ (m'.trees q).eager) ∧
        m'.links.IsTree ∧ m'.links ≤ m.links ∧ (m.links.IsTree → m'.links = m.links)) := by
  obtain ⟨hcarries, hstarts⟩ := hm.publish (s := s) hobserved now payload body
  obtain ⟨m', hrun, hm', parent, rank, hspreads⟩ :=
    hcarries.run hbody ⟨_, _, Flood.spreads_of_starts hstarts⟩ hcalm
  refine ⟨m', hrun, fun hq => ?_⟩
  have hlink := hspreads.link_iff (hq.settled id) hconnected hoptimize
  have hsymm : ∀ p q, q ∈ (m'.trees p).eager ↔ p ∈ (m'.trees q).eager := fun p q =>
    (hlink p q).trans (or_comm.trans (hlink q p).symm)
  have hold : ∀ p q, q ∈ (m'.trees p).eager → m.links.Adj p q := hspreads.adj
  have hadj : ∀ p q, m'.links.Adj p q ↔ q ∈ (m'.trees p).eager := fun p q =>
    adj_links (hsymm p q) fun hpq => (hold p q hpq).ne
  have htree : m'.links.IsTree := hspreads.isTree (hq.settled id) hconnected hoptimize hadj
  have hle : m'.links ≤ m.links := fun p q hpq => hold p q ((hadj p q).1 hpq)
  refine ⟨fun p q => (hsymm p q).1, htree, hle, fun hmtree => le_antisymm hle ?_⟩
  exact (SimpleGraph.isTree_iff_minimal_connected.1 hmtree).2 htree.connected hle

theorem broadcast_spans_detour : ∃ m',
    triangle.run some ((.publish 0 7 [1, 2], 0) :: detour) = some m' ∧
      (2 ∉ (m'.trees 0).eager ∧ 0 ∉ (m'.trees 2).eager) ∧ m'.links.IsTree := by
  obtain ⟨m', hrun, hquiescent⟩ := broadcast_spans some triangle 0 7 [1, 2] [1, 2] 0 detour
    fresh_triangle rfl connected_triangle (fun _ => rfl) (fun _ => rfl) (by decide)
  obtain ⟨-, htree, -⟩ := hquiescent (by
    obtain rfl := Option.some.inj hrun
    exact ⟨rfl, by decide⟩)
  refine ⟨m', hrun, ?_, htree⟩
  obtain rfl := Option.some.inj hrun
  decide

end Broadcast

/-! ## Settling -/

section Settling

variable {decodeAll : Bytes → Option Bytes} {i : ℕ} {a b : P} {hop : UInt32}

/-- An event that makes a node or the network do something, without a
tick. -/
def effective (m : Mesh P A) : Event P × ℤ → Bool
  | (.publish _ _ _, _) => false
  | (.poll node tickDue _, _) => !tickDue && !(m.trees node).outEvents.isEmpty
  | (.deliver i, _) => decide (i < m.flight.length)

/-- How many events may still come of the messages in flight and of the
nodes. -/
def weight (m : Mesh P A) (id : UInt64) : ℕ :=
  (m.flight.map Letter.weight).sum + ∑ p, (m.trees p).load id

theorem weight_set (m : Mesh P A) (flight : List (Letter P A)) (p : P) (t : PlumTree P A)
    (id : UInt64) : ({ m with flight }.set p t).weight id + (m.trees p).load id +
        (m.flight.map Letter.weight).sum =
      m.weight id + t.load id + (flight.map Letter.weight).sum := by
  have hsum := Finset.add_sum_erase Finset.univ (fun q => (m.trees q).load id) (Finset.mem_univ p)
  have hsum' := Finset.add_sum_erase Finset.univ
    (fun q => (({ m with flight }.set p t).trees q).load id) (Finset.mem_univ p)
  have hrest : ∀ q ∈ Finset.univ.erase p,
      (({ m with flight }.set p t).trees q).load id = (m.trees q).load id := by
    intro q hq
    rw [trees_set_ne _ t (Finset.ne_of_mem_erase hq)]
  rw [Finset.sum_congr rfl hrest, trees_set_self] at hsum'
  have hflight : ({ m with flight }.set p t).flight = flight := rfl
  unfold weight
  rw [hflight, ← hsum, ← hsum']
  omega

/-- A delivery whose recipient does not become heavier than the message
was. -/
theorem weight_deliver {l : Letter P A} (hi : m.flight[i]? = some l)
    (hload : t.load id + 1 ≤ (m.trees l.recipient).load id + l.weight) :
    ({ m with flight := m.flight.eraseIdx i }.set l.recipient t).weight id + 1 ≤ m.weight id := by
  have hset := weight_set m (m.flight.eraseIdx i) l.recipient t id
  obtain ⟨hlt, hl⟩ := List.getElem?_eq_some_iff.1 hi
  have hperm := ((List.getElem_cons_eraseIdx_perm hlt).map Letter.weight).sum_eq
  rw [List.map_cons, List.sum_cons, hl] at hperm
  omega

omit [DecidableEq P] in
/-- What becomes of an action weighs less than the action. -/
theorem weight_carry (m : Mesh P A) (p : P) (e : NetworkAction P A) (id : UInt64) :
    (m.carry p (some e)).weight id + 1 ≤ m.weight id + e.weight := by
  unfold weight
  rw [trees_carry]
  cases e with
  | notifyHandler peer event =>
    show ((m.flight ++ [_]).map Letter.weight).sum + _ + 1 ≤ _
    rw [List.map_append, List.sum_append, List.map_singleton, List.sum_singleton]
    show _ + event.action.elim 1 Action.weight + _ + 1 ≤ _ + (event.action.elim 1 Action.weight + 1)
    omega
  | dial | generateEvent | closeConnection => exact Nat.le_refl _

/-- **An effective event** makes the mesh lighter. -/
theorem Carries.lighter (hm : Carries m₀ s id payload body m) {e : Event P × ℤ}
    (heffective : m.effective e) :
    ∀ m' ∈ m.step decodeAll e.2 e.1, m'.weight id + 1 ≤ m.weight id := by
  obtain ⟨e, now⟩ := e
  cases e with
  | publish node id payload => cases heffective
  | poll node tickDue landing =>
    obtain ⟨hdue, hqueue⟩ := Bool.and_eq_true_iff.1 heffective
    rw [Bool.not_eq_true'] at hdue hqueue
    subst hdue
    intro m' hm'
    obtain ⟨⟨event, t⟩, hpoll, rfl⟩ := Option.map_eq_some_iff.1 hm'
    obtain ⟨e, rfl, hload⟩ := PlumTree.load_poll hpoll (by
      rintro hnil
      rw [hnil] at hqueue
      cases hqueue) id
    have hset := weight_set m m.flight node t id
    have hcarry := weight_carry (m.set node t) node e id
    show ((m.set node t).carry node (some e)).weight id + 1 ≤ _
    have hsame : ({ m with flight := m.flight }.set node t : Mesh P A) = m.set node t := rfl
    rw [hsame] at hset
    omega
  | deliver i =>
    rw [effective, decide_eq_true_eq] at heffective
    obtain ⟨l, hi⟩ : ∃ l, m.flight[i]? = some l := ⟨_, List.getElem?_eq_getElem heffective⟩
    intro m' hm'
    simp only [Mesh.step, hi] at hm'
    obtain ⟨t, ht, rfl⟩ := Option.map_eq_some_iff.1 hm'
    obtain ⟨action, haction, hlawful⟩ := hm.flight l (List.mem_of_getElem? hi)
    rw [haction] at ht
    refine weight_deliver hi ?_
    rw [Letter.weight, haction]
    exact PlumTree.load_receive hlawful ht

omit [Fintype P] in
/-- An effective event is calm. -/
theorem calm_of_effective {e : Event P × ℤ} (h : m.effective e) : m.calm e := by
  obtain ⟨e, now⟩ := e
  cases e with
  | publish => cases h
  | poll node tickDue landing =>
    show (!tickDue || _) = true
    rw [(Bool.and_eq_true_iff.1 h).1, Bool.true_or]
  | deliver => rfl

omit [Fintype P] [DecidableEq P] in
/-- Something can happen until the mesh is quiescent. -/
theorem quiescent_or_effective [DecidableEq P] (m : Mesh P A) :
    m.Quiescent ∨ ∃ e, m.effective e := by
  by_cases hflight : m.flight = []
  · by_cases hqueues : ∀ p, (m.trees p).outEvents = []
    · exact .inl ⟨hflight, hqueues⟩
    · obtain ⟨p, hp⟩ := not_forall.1 hqueues
      refine .inr ⟨(.poll p false {}, 0), ?_⟩
      rw [effective, Bool.not_false, Bool.true_and, Bool.not_eq_true', List.isEmpty_eq_false_iff]
      exact hp
  · refine .inr ⟨(.deliver 0, 0), ?_⟩
    rw [effective, decide_eq_true_eq]
    exact List.length_pos_iff.2 hflight

/-- What a broadcast weighs at its start. -/
theorem Fresh.weight_publish (hm : m.Fresh id) (hobserved : (m.trees s).observed.get id = none)
    (now : ℤ) (payload : Bytes) :
    (m.set s ((m.trees s).publish now id payload)).weight id ≤
      ∑ p, (4 * (m.trees p).eager.length + 1) := by
  have hload : ∀ p, (m.trees p).load id = 4 * (m.trees p).eager.length + 1 := by
    intro p
    rw [PlumTree.load, hm.queues, hm.unseen, if_neg (by simp)]
    exact Nat.zero_add _
  have hsum : m.weight id = ∑ p, (4 * (m.trees p).eager.length + 1) := by
    rw [weight, hm.flight, Finset.sum_congr rfl fun p _ => hload p]
    exact Nat.zero_add _
  obtain ⟨hhas, hqueue⟩ := hm.published hobserved now payload
  have hpublished : ((m.trees s).publish now id payload).load id =
      (m.trees s).eager.length * 4 := by
    rw [PlumTree.load_of_received hhas, hqueue]
    exact (m.trees s).weight_notify _ (.message id 1 payload)
  have hset := weight_set m m.flight s ((m.trees s).publish now id payload) id
  rw [hload, hpublished, hsum] at hset
  have hsame : ({ m with flight := m.flight }.set s ((m.trees s).publish now id payload) :
    Mesh P A) = m.set s ((m.trees s).publish now id payload) := rfl
  rw [hsame] at hset
  omega

/-- **A broadcast settles**: where every event is effective there is a bound
on how many there are, and until the mesh is quiescent there is another
one. -/
theorem broadcast_settles (decodeAll : Bytes → Option Bytes) (m : Mesh P A) (s : P) (id : UInt64)
    (payload body : Bytes) (now : ℤ) (events : List (Event P × ℤ)) (hm : m.Fresh id)
    (hobserved : (m.trees s).observed.get id = none)
    (hbody : ∀ p, (if (m.trees p).config.enableCompression then decodeAll payload
      else some payload) = some body)
    (heffective : Along (advance decodeAll) (fun m e => m.all fun m => m.effective e)
      (m.step decodeAll now (.publish s id payload)) events) :
    ∃ m', m.run decodeAll ((.publish s id payload, now) :: events) = some m' ∧
      events.length ≤ ∑ p, (4 * (m.trees p).eager.length + 1) ∧
      (m'.Quiescent ∨ ∃ e, m'.effective e) := by
  obtain ⟨hcarries, -⟩ := hm.publish (s := s) hobserved now payload body
  obtain ⟨m₁, hm₁⟩ : ∃ m₁, m₁ = m.set s ((m.trees s).publish now id payload) := ⟨_, rfl⟩
  rw [← hm₁] at hcarries
  -- the weight pays for the events
  have hrun : ∀ (events : List (Event P × ℤ)) (k : Mesh P A), Carries m s id payload body k →
      Along (advance decodeAll) (fun m e => m.all fun m => m.effective e) (some k) events →
      ∃ m', k.run decodeAll events = some m' ∧ events.length + m'.weight id ≤ k.weight id := by
    intro events
    induction events with
    | nil => exact fun k _ _ => ⟨k, rfl, Nat.le_of_eq (Nat.zero_add _)⟩
    | cons e events ih =>
      rintro k hk ⟨he, hrest⟩
      obtain ⟨k', hk', hcarries', -⟩ := hk.step hbody (calm_of_effective he)
      have hlighter : k'.weight id + 1 ≤ k.weight id := hk.lighter he k' hk'
      have hadvance : advance decodeAll (some k) e = some k' := hk'
      rw [hadvance] at hrest
      obtain ⟨m', hrun, hle⟩ := ih k' hcarries' hrest
      refine ⟨m', ?_, ?_⟩
      · show (e :: events).foldl (advance decodeAll) (some k) = _
        rw [List.foldl_cons, hadvance]
        exact hrun
      · rw [List.length_cons]
        omega
  obtain ⟨m', hrun', hle⟩ := hrun events m₁ hcarries (hm₁ ▸ heffective)
  refine ⟨m', ?_, ?_, quiescent_or_effective m'⟩
  · rw [hm₁] at hrun'
    exact hrun'
  · have hstart := hm.weight_publish (s := s) hobserved now payload
    rw [← hm₁] at hstart
    omega

theorem broadcast_settles_detour : ∃ m',
    triangle.run some ((.publish 0 7 [1, 2], 0) :: detour) = some m' ∧
      detour.length ≤ ∑ p, (4 * (triangle.trees p).eager.length + 1) ∧
      (m'.Quiescent ∨ ∃ e, m'.effective e) :=
  broadcast_settles some triangle 0 7 [1, 2] [1, 2] 0 detour fresh_triangle rfl (fun _ => rfl)
    (by decide)

end Settling

end Mesh

end Network

end Rensa
