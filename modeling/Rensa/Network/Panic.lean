import Rensa.Common.Along
import Rensa.Network.Model.Behaviour
/-!
# When a peer can crash the behaviour

Two things that peers do make the behaviour panic. A message that is new
to the tree panics where its payload does not decompress or, in a build
that checks for overflow, its number of hops is the last one. And a peer
that was dialed before the node knew its own address, and then banned, has
lost its address when the node asks it to join. The periodic work of the tree does not panic where the window of
the lazy pushes is not shorter than two ticks.
-/

namespace Rensa

namespace Network

variable {P : Type}

/-! ## The cache -/

namespace ExpiringCache

variable {α : Type} (c : ExpiringCache α) {start stop : ℤ}

theorem position_mono (landing : ℤ → ℕ) (h : start ≤ stop) :
    c.position landing start ≤ c.position landing stop :=
  BinarySearch.search_mono Prod.snd landing c.byTime h

theorem iterRange_isSome (landing : ℤ → ℕ) (h : start ≤ stop) :
    (c.iterRange landing start stop).isSome := by
  unfold iterRange
  dsimp only
  rw [if_neg (Nat.not_lt.2 (c.position_mono landing h))]
  rfl

end ExpiringCache

/-! ## The tree -/

namespace PlumTree

variable {A : Type} {t t' : PlumTree P A} {now : ℤ}

theorem publishIhaves_ok (landing : Landing) (now : ℤ) :
    ∃ t', t.publishIhaves landing now = some t' ∧ t'.config = t.config := by
  have hle : now - t.config.lazyPushWindow ≤ now := by omega
  obtain ⟨received, hreceived⟩ :=
    Option.isSome_iff_exists.1 (t.received.iterRange_isSome landing.received hle)
  unfold publishIhaves
  rw [hreceived]
  refine ⟨_, rfl, ?_⟩
  split
  · rfl
  · rfl

variable [DecidableEq P]

/-- The window that is repaired ends after it starts. -/
theorem repairTree_ok (hwindow : 2 * t.config.tickFrequency ≤ t.config.lazyPushWindow)
    (landing : Landing) (now : ℤ) :
    ∃ t', t.repairTree landing now = some t' ∧ t'.config = t.config := by
  have hle : now - t.config.lazyPushWindow ≤ now - 2 * t.config.tickFrequency := by omega
  obtain ⟨observed, hobserved⟩ :=
    Option.isSome_iff_exists.1 (t.observed.iterRange_isSome landing.observed hle)
  unfold repairTree
  rw [hobserved]
  exact ⟨_, rfl, rfl⟩

theorem poll_ok (hwindow : 2 * t.config.tickFrequency ≤ t.config.lazyPushWindow)
    (landing : Landing) (now : ℤ) (tickDue : Bool) :
    ∃ event t', t.poll landing now tickDue = some (event, t') ∧ t'.config = t.config := by
  have htick : ∃ k : PlumTree P A, (if tickDue then
      (t.publishIhaves landing now).bind fun t => t.repairTree landing now else some t) = some k ∧
      k.config = t.config := by
    split
    · obtain ⟨t₁, h₁, hconfig₁⟩ := publishIhaves_ok (t := t) landing now
      obtain ⟨t₂, h₂, hconfig₂⟩ :=
        repairTree_ok (t := t₁) (by rw [hconfig₁]; exact hwindow) landing now
      refine ⟨t₂, ?_, hconfig₂.trans hconfig₁⟩
      rw [h₁]
      exact h₂
    · exact ⟨t, rfl, rfl⟩
  obtain ⟨k, hk, hconfig⟩ := htick
  unfold poll
  rw [hk]
  dsimp only
  split
  · exact ⟨_, _, rfl, hconfig⟩
  · exact ⟨_, _, rfl, hconfig⟩

/-- A message that the tree takes: it is not new, or it decompresses and
can be passed on. -/
def takes (checks : Bool) (decodeAll : Bytes → Option Bytes) (t : PlumTree P A) (id : UInt64)
    (hop : UInt32) (payload : Bytes) : Prop :=
  t.received.get id = none →
    (t.config.enableCompression → (decodeAll payload).isSome) ∧
      (checks → hop.toNat + 1 < 2 ^ 32)

omit [DecidableEq P] in
theorem nextHop_isSome_iff (checks : Bool) (hop : UInt32) :
    (nextHop checks hop).isSome ↔ (checks → hop.toNat + 1 < 2 ^ 32) := by
  unfold nextHop
  split
  next hlast => exact iff_of_false Bool.false_ne_true fun h => Nat.not_lt.2 hlast.2 (h hlast.1)
  next hlast => exact iff_of_true rfl fun hc => Nat.not_le.1 fun hle => hlast ⟨hc, hle⟩

theorem injectMessage_isSome_iff (checks : Bool) (decodeAll : Bytes → Option Bytes) (now : ℤ)
    (peer : P) (id : UInt64) (hop : UInt32) (payload : Bytes) :
    (t.injectMessage checks decodeAll now peer id hop payload).isSome ↔
      t.takes checks decodeAll id hop payload := by
  unfold injectMessage takes
  dsimp only
  rw [ExpiringCache.insert_fst]
  split
  next hnew =>
    have hnone : t.received.get id = none := by
      rw [Bool.not_eq_true', Option.isSome_eq_false_iff, Option.isNone_iff_eq_none] at hnew
      exact hnew
    rw [forall_prop_of_true hnone]
    split
    next hdecode =>
      refine iff_of_false Bool.false_ne_true fun htakes => ?_
      split at hdecode
      next hcompress =>
        have hsome := htakes.1 hcompress
        rw [hdecode] at hsome
        exact Bool.false_ne_true hsome
      · cases hdecode
    next out hdecode =>
      have hout : t.config.enableCompression → (decodeAll payload).isSome := by
        intro hcompress
        rw [if_pos hcompress] at hdecode
        rw [hdecode]
        rfl
      rw [and_iff_right hout, Option.isSome_map]
      exact nextHop_isSome_iff checks hop
  next hold =>
    have hsome : t.received.get id ≠ none := by
      rw [Bool.not_eq_true', Bool.not_eq_false] at hold
      exact Option.isSome_iff_ne_none.1 hold
    refine iff_of_true ?_ fun hnone => absurd hnone hsome
    split
    · rfl
    · rfl

theorem injectMessage_config {checks : Bool} {decodeAll : Bytes → Option Bytes} {peer : P}
    {id : UInt64} {hop : UInt32} {payload : Bytes}
    (h : t.injectMessage checks decodeAll now peer id hop payload = some t') :
    t'.config = t.config := by
  unfold injectMessage at h
  dsimp only at h
  split at h
  · split at h
    · cases h
    · obtain ⟨next, -, rfl⟩ := Option.map_eq_some_iff.1 h
      rfl
  · split at h
    · cases h
      rfl
    · cases h
      rfl

omit [DecidableEq P] in
theorem injectIhaves_config (now : ℤ) (peer : P) (ihaves : List (UInt32 × UInt64))
    (t : PlumTree P A) :
    (ihaves.foldl (fun tree ih => tree.injectIhave now peer ih.2 ih.1) t).config = t.config := by
  induction ihaves generalizing t with
  | nil => rfl
  | cons ih ihaves rest => exact rest (t.injectIhave now peer ih.2 ih.1)

end PlumTree

/-! ## The mesh of a topic -/

namespace TopicMesh

variable [DecidableEq P] {A : Type} {m m' : TopicMesh P A} {checks : Bool}
  {decodeAll : Bytes → Option Bytes}
variable {ρ : ℕ → ℕ} {now : ℤ} {peer : P}

theorem poll_ok (hwindow : 2 * m.tree.config.tickFrequency ≤ m.tree.config.lazyPushWindow)
    (ρ : ℕ → ℕ) (now : ℤ) (due : Bool × Bool × Bool) (landing : Landing) :
    ∃ event m', m.poll ρ now due landing = some (event, m') ∧
      m'.tree.config = m.tree.config := by
  unfold poll
  split
  · exact ⟨_, _, rfl, rfl⟩
  · split
    next event nodes _ =>
      refine ⟨_, _, rfl, ?_⟩
      show (follow m.tree event).config = m.tree.config
      unfold follow
      split <;> rfl
    next nodes _ =>
      obtain ⟨event, t, ht, hconfig⟩ := PlumTree.poll_ok hwindow landing now due.2.2
      rw [ht]
      exact ⟨_, _, rfl, hconfig⟩

/-- A call that the mesh takes: only a message can be one that it does
not. -/
def takes (checks : Bool) (decodeAll : Bytes → Option Bytes) (m : TopicMesh P A) :
    Option (Action P A) → Prop
  | some (.message id hop payload) => m.tree.takes checks decodeAll id hop payload
  | _ => True

theorem injectRpcCall_isSome_iff (checks : Bool) (decodeAll : Bytes → Option Bytes) (ρ : ℕ → ℕ)
    (now : ℤ) (peer : P) (topic : String) (action : Action P A) :
    (m.injectRpcCall checks decodeAll ρ now peer ⟨topic, some action⟩).isSome ↔
      m.takes checks decodeAll (some action) := by
  cases action with
  | message id hop payload =>
    show ((m.tree.injectMessage checks decodeAll now peer id hop payload).map _).isSome ↔
      m.tree.takes checks decodeAll id hop payload
    rw [Option.isSome_map, PlumTree.injectMessage_isSome_iff]
  | neighbor p priority =>
    cases p with
    | none => exact iff_of_true rfl trivial
    | some p =>
      refine iff_of_true ?_ trivial
      simp only [injectRpcCall]
      split
      · rfl
      · rfl
  | join _ p | forwardJoin _ p | shuffle _ p =>
    cases p with
    | none => exact iff_of_true rfl trivial
    | some => exact iff_of_true rfl trivial
  | shuffleReply | disconnect | ihave | prune | graft => exact iff_of_true rfl trivial

theorem injectRpcCall_config {event : Rpc P A}
    (h : m.injectRpcCall checks decodeAll ρ now peer event = some (.ok m')) :
    m'.tree.config = m.tree.config := by
  obtain ⟨topic, action⟩ := event
  cases action with
  | none => cases h
  | some action =>
    cases action with
    | message id hop payload =>
      obtain ⟨t, ht, heq⟩ := Option.map_eq_some_iff.1 h
      cases heq
      exact PlumTree.injectMessage_config ht
    | ihave ihaves =>
      cases h
      exact PlumTree.injectIhaves_config now peer ihaves m.tree
    | neighbor p priority =>
      cases p with
      | none => cases h
      | some p =>
        simp only [injectRpcCall] at h
        split at h
        · cases h
          rfl
        · cases h
    | join _ p | forwardJoin _ p | shuffle _ p =>
      cases p with
      | none => cases h
      | some =>
        cases h
        rfl
    | shuffleReply | disconnect | prune | graft =>
      cases h
      rfl

omit [DecidableEq P] in
theorem publish_config (now : ℤ) (id : UInt64) (payload : Bytes) :
    (m.publish now id payload).tree.config = m.tree.config := by
  show (m.tree.publish now id payload).config = m.tree.config
  unfold PlumTree.publish
  split
  · rfl
  split
  · rfl
  · rfl

end TopicMesh

/-! ## The behaviour -/

namespace Episub

variable [DecidableEq P] {e e' : Episub P} {checks : Bool}
  {encodeAll decodeAll : Bytes → Option Bytes}
variable {config : Config P}

/-- An input that makes nothing panic.
- A call to a topic of the node, from a peer that may send it, is one that
  the mesh takes.
- When the node learns its address, every early peer that may join one of
  the pending topics has an address. -/
def Harmless (checks : Bool) (decodeAll : Bytes → Option Bytes) (e : Episub P) : Input P → Prop
  | .event peer _ event => peer ∉ e.bannedPeers → e.config.allow event.topic peer →
      ∀ mesh ∈ e.mesh event.topic, mesh.takes checks decodeAll event.action
  | .poll params _ _ _ => e.localNode = none → advertised params ≠ [] →
      ∀ peer ∈ e.earlyPeers, ∀ topic ∈ e.pendingTopics, e.config.allow topic peer →
        (e.peerAddresses peer).isSome
  | _ => True

/-- All trees have the configuration, and there are topics only once the
node knows its address. -/
structure Ready (config : Config P) (e : Episub P) : Prop where
  config_eq : e.config = config
  meshes : ∀ t ∈ e.topics, t.2.tree.config = config
  topics : e.localNode = none → e.topics = []

omit [DecidableEq P] in
theorem mem_of_mesh {topic : String} {m : TopicMesh P Multiaddr} (h : e.mesh topic = some m) :
    (topic, m) ∈ e.topics := by
  obtain ⟨l₁, l₂, heq, -⟩ := List.lookup_eq_some_iff.1 h
  rw [heq]
  exact List.mem_append_right _ List.mem_cons_self

omit [DecidableEq P] in
theorem Ready.setMesh (hr : Ready config e) {topic : String} {m : TopicMesh P Multiaddr}
    (hm : m.tree.config = config) : Ready config (e.setMesh topic m) := by
  refine ⟨hr.config_eq, fun t ht => ?_, fun hnone => ?_⟩
  · obtain ⟨t', ht', rfl⟩ := List.mem_map.1 ht
    split
    · exact hm
    · exact hr.meshes t' ht'
  · show e.topics.map _ = []
    rw [hr.topics hnone, List.map_nil]

omit [DecidableEq P] in
/-- The meshes change, but not the configurations of their trees. -/
theorem Ready.map (hr : Ready config e)
    {f : String × TopicMesh P Multiaddr → String × TopicMesh P Multiaddr}
    (hf : ∀ t, (f t).2.tree.config = t.2.tree.config) :
    Ready config { e with topics := e.topics.map f } := by
  refine ⟨hr.config_eq, fun t ht => ?_, fun hnone => ?_⟩
  · obtain ⟨t', ht', rfl⟩ := List.mem_map.1 ht
    rw [hf t']
    exact hr.meshes t' ht'
  · show e.topics.map f = []
    rw [hr.topics hnone, List.map_nil]

/-! ### Joining -/

/-- Asking a peer panics where a topic wants it and it has no address. -/
theorem requestJoin_isSome_iff (peer : P) : (e.requestJoinForStarvingTopics peer).isSome ↔
    (e.topics.any (e.wantsJoin peer) → (e.peerAddresses peer).isSome) := by
  unfold requestJoinForStarvingTopics
  split
  next addr haddr => exact iff_of_true rfl fun _ => by rw [haddr]; rfl
  next haddr =>
    rw [haddr]
    split
    next hwanted => exact iff_of_false Bool.false_ne_true fun h => Bool.false_ne_true (h hwanted)
    next hwanted => exact iff_of_true rfl fun h => absurd h hwanted

/-- Asking a peer changes the queues of the topics, and nothing else. -/
theorem requestJoin_eq {peer : P} (h : e.requestJoinForStarvingTopics peer = some e') :
    ∃ f : String × TopicMesh P Multiaddr → String × TopicMesh P Multiaddr,
      e' = { e with topics := e.topics.map f } ∧ (∀ t, (f t).2.tree.config = t.2.tree.config) ∧
      ∀ q t, e.wantsJoin q (f t) = e.wantsJoin q t := by
  unfold requestJoinForStarvingTopics at h
  split at h
  next addr _ =>
    cases h
    refine ⟨_, rfl, fun t => ?_, fun q t => ?_⟩
    · split <;> rfl
    · split <;> rfl
  · split at h
    · cases h
    · cases h
      refine ⟨id, ?_, fun _ => rfl, fun _ _ => rfl⟩
      rw [List.map_id]

/-- Asking the early peers, one after another. -/
theorem requestJoins_isSome_iff (peers : List P) :
    (peers.foldlM (fun (e : Episub P) peer => e.requestJoinForStarvingTopics peer) e).isSome ↔
      ∀ peer ∈ peers, e.topics.any (e.wantsJoin peer) → (e.peerAddresses peer).isSome := by
  induction peers generalizing e with
  | nil => simp
  | cons peer peers ih =>
    rw [List.foldlM_cons, List.forall_mem_cons, ← requestJoin_isSome_iff]
    cases hfirst : e.requestJoinForStarvingTopics peer with
    | none => simp
    | some e' =>
      obtain ⟨f, rfl, -, hwants⟩ := requestJoin_eq hfirst
      rw [Option.isSome_some, and_iff_right rfl]
      refine (ih (e := { e with topics := e.topics.map f })).trans (forall₂_congr fun q _ => ?_)
      have hany : (e.topics.map f).any (e.wantsJoin q) = e.topics.any (e.wantsJoin q) := by
        rw [List.any_map]
        exact congrArg e.topics.any (funext (hwants q))
      show ((e.topics.map f).any (e.wantsJoin q) = true → _) ↔ _
      rw [hany]

theorem Ready.requestJoins (hr : Ready config e) {peers : List P}
    (h : peers.foldlM (fun (e : Episub P) peer => e.requestJoinForStarvingTopics peer) e =
      some e') : Ready config e' := by
  induction peers generalizing e with
  | nil =>
    cases h
    exact hr
  | cons peer peers ih =>
    rw [List.foldlM_cons] at h
    obtain ⟨e₁, h₁, hrest⟩ := Option.bind_eq_some_iff.1 h
    obtain ⟨f, rfl, hf, -⟩ := requestJoin_eq h₁
    exact ih (hr.map hf) hrest

/-! ### The node learns its address -/

/-- A new topic wants every peer that is allowed to join it. -/
theorem wantsJoin_new (topic : String) (c : Config P) (node : AddressablePeer P Multiaddr)
    (peer : P) :
    e.wantsJoin peer (topic, TopicMesh.new topic c node) = e.config.allow topic peer := by
  have hstarved : (TopicMesh.new topic c node).nodes.starved = true :=
    decide_eq_true (lt_of_lt_of_le Nat.zero_lt_one (le_max_right _ _))
  have hactive : (TopicMesh.new topic c node).nodes.isActive peer = false :=
    decide_eq_false KeySet.not_mem_empty
  show ((TopicMesh.new topic c node).nodes.starved &&
    !(TopicMesh.new topic c node).nodes.isActive peer && e.config.allow topic peer) = _
  rw [hstarved, hactive]
  rfl

omit [DecidableEq P] in
/-- Where there are no topics, the pending ones are started, each of them
new. -/
theorem mem_startPending (htopics : e.topics = []) (node : AddressablePeer P Multiaddr)
    (t : String × TopicMesh P Multiaddr) : t ∈ e.startPending node ↔
      t.1 ∈ e.pendingTopics ∧ t = (t.1, TopicMesh.new t.1 e.config node) := by
  have hfold : ∀ (l : List String) (ts : List (String × TopicMesh P Multiaddr)),
      (∀ t ∈ ts, t = (t.1, TopicMesh.new t.1 e.config node)) →
      ∀ t, t ∈ l.foldl (fun topics topic => if (topics.lookup topic).isSome then topics
        else topics ++ [(topic, TopicMesh.new topic e.config node)]) ts ↔
        t ∈ ts ∨ t.1 ∈ l ∧ t = (t.1, TopicMesh.new t.1 e.config node) := by
    intro l
    induction l with
    | nil => simp
    | cons topic l ih =>
      intro ts hts t
      rw [List.foldl_cons, List.mem_cons]
      split
      next hlookup =>
        -- the topic is there already, and as new as the others
        obtain ⟨m, hm⟩ := Option.isSome_iff_exists.1 hlookup
        obtain ⟨l₁, l₂, heq, -⟩ := List.lookup_eq_some_iff.1 hm
        have hmem : (topic, m) ∈ ts := heq ▸ List.mem_append_right _ List.mem_cons_self
        rw [ih ts hts]
        constructor
        · rintro (ht | ⟨ht, hnew⟩)
          · exact .inl ht
          · exact .inr ⟨.inr ht, hnew⟩
        · rintro (ht | ⟨rfl | ht, hnew⟩)
          · exact .inl ht
          · refine .inl ?_
            rw [hnew, ← hts _ hmem]
            exact hmem
          · exact .inr ⟨ht, hnew⟩
      next hlookup =>
        rw [ih _ fun t ht => ?_, List.mem_append, List.mem_singleton]
        · constructor
          · rintro ((ht | rfl) | ⟨ht, hnew⟩)
            · exact .inl ht
            · exact .inr ⟨.inl rfl, rfl⟩
            · exact .inr ⟨.inr ht, hnew⟩
          · rintro (ht | ⟨rfl | ht, hnew⟩)
            · exact .inl (.inl ht)
            · exact .inl (.inr hnew)
            · exact .inr ⟨ht, hnew⟩
        · rcases List.mem_append.1 ht with ht | ht
          · exact hts t ht
          · rw [List.mem_singleton.1 ht]
  unfold startPending
  rw [htopics, hfold _ [] (by simp)]
  simp [KeySet.mem_def]

theorem any_startPending (htopics : e.topics = []) (node : AddressablePeer P Multiaddr) (peer : P) :
    (e.startPending node).any (e.wantsJoin peer) ↔
      ∃ topic ∈ e.pendingTopics, e.config.allow topic peer := by
  rw [List.any_eq_true]
  constructor
  · rintro ⟨t, ht, hwants⟩
    obtain ⟨hpending, hnew⟩ := (mem_startPending htopics node t).1 ht
    rw [hnew, wantsJoin_new] at hwants
    exact ⟨t.1, hpending, hwants⟩
  · rintro ⟨topic, hpending, hallow⟩
    refine ⟨(topic, TopicMesh.new topic e.config node), ?_, ?_⟩
    · exact (mem_startPending htopics node _).2 ⟨hpending, rfl⟩
    · rw [wantsJoin_new]
      exact hallow

/-- Learning the address panics where an early peer without an address may
join a pending topic. -/
theorem updateLocalNodeInfo_isSome_iff (hr : Ready config e) (params : PollParameters P)
    (order : List String) (due : String → Bool × Bool × Bool) (landing : String → Landing) :
    (e.updateLocalNodeInfo params).isSome ↔
      e.Harmless checks decodeAll (.poll params order due landing) := by
  unfold updateLocalNodeInfo
  split
  next hlearn =>
    rw [Bool.and_eq_true, Option.isNone_iff_eq_none, Bool.not_eq_true', List.isEmpty_eq_false_iff]
      at hlearn
    have htopics := hr.topics hlearn.1
    rw [requestJoins_isSome_iff]
    show _ ↔ (e.localNode = none → advertised params ≠ [] → _)
    rw [forall_prop_of_true hlearn.1, forall_prop_of_true hlearn.2]
    constructor
    · intro h peer hpeer topic htopic hallow
      obtain ⟨q, hq, rfl⟩ := KeySet.exists_item hpeer
      exact h q hq ((any_startPending htopics _ q).2 ⟨topic, htopic, hallow⟩)
    · intro h peer hpeer hany
      obtain ⟨topic, htopic, hallow⟩ := (any_startPending htopics _ peer).1 hany
      exact h peer (KeySet.mem_of_item hpeer) topic htopic hallow
  next hlearn =>
    rw [Bool.and_eq_true, Option.isNone_iff_eq_none, Bool.not_eq_true', List.isEmpty_eq_false_iff]
      at hlearn
    exact iff_of_true rfl fun hnone haddr => absurd ⟨hnone, haddr⟩ hlearn

theorem Ready.updateLocalNodeInfo (hr : Ready config e) {params : PollParameters P}
    (h : e.updateLocalNodeInfo params = some e') : Ready config e' := by
  unfold Episub.updateLocalNodeInfo at h
  split at h
  next hlearn =>
    rw [Bool.and_eq_true, Option.isNone_iff_eq_none] at hlearn
    refine Ready.requestJoins ?_ h
    refine ⟨hr.config_eq, fun t ht => ?_, fun hnone => absurd hnone (Option.some_ne_none _)⟩
    rw [((mem_startPending (hr.topics hlearn.1) _ t).1 ht).2]
    exact hr.config_eq
  · cases h
    exact hr

/-! ### The steps -/

theorem pollTopics_ok (hwindow : 2 * config.tickFrequency ≤ config.lazyPushWindow)
    (hr : Ready config e) (ρ : String → ℕ → ℕ) (now : ℤ) (due : String → Bool × Bool × Bool)
    (landing : String → Landing) (order : List String) :
    ∃ event e', pollTopics ρ now due landing order e = some (event, e') ∧ Ready config e' := by
  induction order generalizing e with
  | nil => exact ⟨none, e, rfl, hr⟩
  | cons topic order ih =>
    unfold pollTopics
    split
    · exact ih hr
    next m hm =>
      have hconfig := hr.meshes _ (mem_of_mesh hm)
      obtain ⟨event, m', hpoll, hm'⟩ := TopicMesh.poll_ok (m := m) (by rw [hconfig]; exact hwindow)
        (ρ topic) now (due topic) (landing topic)
      have hset : Ready config (e.setMesh topic m') := hr.setMesh (hm'.trans hconfig)
      rw [hpoll]
      cases event with
      | some event => exact ⟨some event, _, rfl, hset⟩
      | none => exact ih hset

theorem poll_isSome_iff (hwindow : 2 * config.tickFrequency ≤ config.lazyPushWindow)
    (hr : Ready config e) (ρ : String → ℕ → ℕ) (now : ℤ) (params : PollParameters P)
    (order : List String) (due : String → Bool × Bool × Bool) (landing : String → Landing) :
    (e.poll ρ now params order due landing).isSome ↔
      e.Harmless checks decodeAll (.poll params order due landing) := by
  rw [← updateLocalNodeInfo_isSome_iff hr]
  unfold poll
  cases hupdate : e.updateLocalNodeInfo params with
  | none => rfl
  | some e₁ =>
    refine iff_of_true ?_ rfl
    dsimp only
    split
    · rfl
    · obtain ⟨event, e₂, hpoll, -⟩ := pollTopics_ok hwindow (hr.updateLocalNodeInfo hupdate) ρ now
        due landing order
      rw [hpoll]
      rfl

theorem Ready.poll (hwindow : 2 * config.tickFrequency ≤ config.lazyPushWindow)
    (hr : Ready config e) {ρ : String → ℕ → ℕ} {now : ℤ} {params : PollParameters P}
    {order : List String} {due : String → Bool × Bool × Bool} {landing : String → Landing}
    {event : Option (NetworkAction P Multiaddr)}
    (h : e.poll ρ now params order due landing = some (event, e')) : Ready config e' := by
  unfold Episub.poll at h
  split at h
  · cases h
  next e₁ hupdate =>
    have hr₁ := hr.updateLocalNodeInfo hupdate
    split at h
    · cases h
      exact ⟨hr₁.config_eq, hr₁.meshes, hr₁.topics⟩
    · obtain ⟨event', e₂, hpoll, hr₂⟩ := pollTopics_ok hwindow hr₁ ρ now due landing order
      rw [hpoll] at h
      cases h
      exact hr₂

/-- An event panics where it is a call that the mesh does not take. -/
theorem injectEvent_isSome_iff (ρ : String → ℕ → ℕ) (now : ℤ) (peer : P) (connection : ℕ)
    (event : Rpc P Multiaddr) :
    (e.injectEvent checks decodeAll ρ now peer connection event).isSome ↔
      e.Harmless checks decodeAll (.event peer connection event) := by
  obtain ⟨topic, action⟩ := event
  show _ ↔ (peer ∉ e.bannedPeers → e.config.allow topic peer →
    ∀ mesh ∈ e.mesh topic, mesh.takes checks decodeAll action)
  unfold injectEvent
  split
  next hbanned => exact iff_of_true rfl fun hfree => absurd hbanned hfree
  next hfree =>
  split
  next hdenied =>
    rw [Bool.not_eq_true'] at hdenied
    exact iff_of_true rfl fun _ hallow => absurd hallow (by simp [hdenied])
  next hallow =>
  rw [Bool.not_eq_true', Bool.not_eq_false] at hallow
  rw [forall_prop_of_true hfree, forall_prop_of_true hallow]
  cases action with
  | none => exact iff_of_true rfl fun _ _ => trivial
  | some action =>
    rw [if_neg (by simp)]
    split
    next m hm =>
      have hcall := TopicMesh.injectRpcCall_isSome_iff (m := m) checks decodeAll (ρ topic) now
        peer topic action
      have hmesh : (∀ mesh ∈ e.mesh topic, mesh.takes checks decodeAll (some action)) ↔
          m.takes checks decodeAll (some action) := by
        have hm : e.mesh topic = some m := hm
        rw [hm]
        exact ⟨fun h => h m rfl, fun h mesh hmesh => Option.some.inj hmesh ▸ h⟩
      rw [hmesh, ← hcall]
      split
      next hnone => exact iff_of_false Bool.false_ne_true (by rw [hnone]; exact Bool.false_ne_true)
      next hok => exact iff_of_true rfl (by rw [hok]; rfl)
      next herror => exact iff_of_true rfl (by rw [herror]; rfl)
    next hm =>
      have hm : e.mesh topic = none := hm
      rw [hm]
      exact iff_of_true rfl fun _ hmem => absurd hmem (Option.not_mem_none _)

theorem Ready.injectEvent (hr : Ready config e) {ρ : String → ℕ → ℕ} {now : ℤ} {peer : P}
    {connection : ℕ} {event : Rpc P Multiaddr}
    (h : e.injectEvent checks decodeAll ρ now peer connection event = some e') :
    Ready config e' := by
  unfold Episub.injectEvent at h
  split at h
  · cases h
    exact ⟨hr.config_eq, hr.meshes, hr.topics⟩
  split at h
  · cases h
    exact ⟨hr.config_eq, hr.meshes, hr.topics⟩
  split at h
  · cases h
    exact ⟨hr.config_eq, hr.meshes, hr.topics⟩
  split at h
  next m hm =>
    split at h
    · cases h
    next m' hcall =>
      cases h
      have hconfig := hr.meshes _ (mem_of_mesh hm)
      exact hr.setMesh ((TopicMesh.injectRpcCall_config hcall).trans hconfig)
    · cases h
      exact ⟨hr.config_eq, hr.meshes, hr.topics⟩
  · cases h
    exact ⟨hr.config_eq, hr.meshes, hr.topics⟩

/-- A connection does not panic: the address of a dialed peer was just
noted. -/
theorem injectConnectionEstablished_isSome (peer : P) (connection : ℕ) (endpoint : ConnectedPoint) :
    (e.injectConnectionEstablished peer connection endpoint).isSome := by
  unfold injectConnectionEstablished
  split
  · rfl
  split
  next address =>
    dsimp only
    split
    · rw [requestJoin_isSome_iff]
      intro _
      show (Function.update e.peerAddresses peer (some address) peer).isSome
      rw [Function.update_self]
      rfl
    · rfl
  · rfl

theorem Ready.injectConnectionEstablished (hr : Ready config e) {peer : P} {connection : ℕ}
    {endpoint : ConnectedPoint}
    (h : e.injectConnectionEstablished peer connection endpoint = some e') : Ready config e' := by
  unfold Episub.injectConnectionEstablished at h
  split at h
  · cases h
    exact ⟨hr.config_eq, hr.meshes, hr.topics⟩
  split at h
  next address =>
    dsimp only at h
    split at h
    · obtain ⟨f, rfl, hf, -⟩ := requestJoin_eq h
      exact Ready.map (e := { e with
        peerAddresses := Function.update e.peerAddresses peer (some address) })
        ⟨hr.config_eq, hr.meshes, hr.topics⟩ hf
    · cases h
      exact ⟨hr.config_eq, hr.meshes, hr.topics⟩
  · cases h
    exact ⟨hr.config_eq, hr.meshes, hr.topics⟩

theorem Ready.disconnected (hr : Ready config e) (ρ : String → ℕ → ℕ) (peer : P) (alive : Bool) :
    Ready config (e.disconnected ρ peer alive) := hr.map fun _ => rfl

omit [DecidableEq P] in
theorem Ready.subscribe (hr : Ready config e) (topic : String) :
    Ready config (e.subscribe topic).2 := by
  unfold Episub.subscribe
  split
  · exact hr
  split
  next node hnode =>
    refine ⟨hr.config_eq, fun t ht => ?_, fun hnone => ?_⟩
    · rcases List.mem_append.1 ht with ht | ht
      · exact hr.meshes t ht
      · rw [List.mem_singleton.1 ht]
        exact hr.config_eq
    · rw [show e.localNode = none from hnone] at hnode
      cases hnode
  next hnode => exact ⟨hr.config_eq, hr.meshes, hr.topics⟩

/-! ### Runs -/

/-- **One input** panics just when it is not harmless. -/
theorem step_isSome_iff (checks : Bool) (encodeAll decodeAll : Bytes → Option Bytes)
    (hwindow : 2 * config.tickFrequency ≤ config.lazyPushWindow) (hr : Ready config e)
    (i : Input P × Chance) :
    (e.step checks encodeAll decodeAll i).isSome ↔ e.Harmless checks decodeAll i.1 := by
  obtain ⟨i, chance⟩ := i
  cases i with
  | connectionEstablished peer connection endpoint =>
    exact iff_of_true (injectConnectionEstablished_isSome peer connection endpoint) trivial
  | event peer connection event => exact injectEvent_isSome_iff _ _ peer connection event
  | publish id topic message =>
    refine iff_of_true ?_ trivial
    simp only [step]
    split
    · rfl
    · rfl
  | poll params order due landing =>
    rw [← poll_isSome_iff hwindow hr chance.random chance.now params order due landing]
    show ((e.poll chance.random chance.now params order due landing).map Prod.snd).isSome ↔ _
    rw [Option.isSome_map]
  | newListenAddr | expiredListenAddr | dialFailure | connectionClosed | subscribe =>
    exact iff_of_true rfl trivial

theorem Ready.step (hwindow : 2 * config.tickFrequency ≤ config.lazyPushWindow)
    (hr : Ready config e) {i : Input P × Chance}
    (h : e.step checks encodeAll decodeAll i = some e') : Ready config e' := by
  obtain ⟨i, chance⟩ := i
  cases i with
  | connectionEstablished => exact hr.injectConnectionEstablished h
  | newListenAddr addr =>
    cases h
    unfold injectNewListenAddr
    split
    · exact hr
    · exact ⟨hr.config_eq, hr.meshes, fun hnone => hr.topics (Option.map_eq_none_iff.1 hnone)⟩
  | expiredListenAddr addr =>
    cases h
    exact ⟨hr.config_eq, hr.meshes, fun hnone => hr.topics (Option.map_eq_none_iff.1 hnone)⟩
  | dialFailure peer conditionFalse =>
    cases h
    unfold injectDialFailure
    split
    · exact hr.disconnected _ _ _
    · exact hr
  | connectionClosed peer =>
    cases h
    exact hr.disconnected _ _ _
  | event => exact hr.injectEvent h
  | subscribe topic =>
    cases h
    exact hr.subscribe topic
  | publish id topic message =>
    simp only [Episub.step, Episub.publish] at h
    split at h
    next hpublish =>
      cases h
      split at hpublish
      next m hm =>
        split at hpublish
        · cases hpublish
          have hconfig := hr.meshes _ (mem_of_mesh hm)
          exact hr.setMesh ((TopicMesh.publish_config _ _ _).trans hconfig)
        · cases hpublish
      · cases hpublish
    · cases h
      exact hr
  | poll params order due landing =>
    obtain ⟨⟨event, e₁⟩, hpoll, rfl⟩ := Option.map_eq_some_iff.1 h
    exact hr.poll hwindow hpoll

/-- **When peers cannot crash the behaviour**: a run completes just when
every input is harmless. -/
theorem run_isSome_iff (checks : Bool) (encodeAll decodeAll : Bytes → Option Bytes)
    (config : Config P) (hwindow : 2 * config.tickFrequency ≤ config.lazyPushWindow)
    (inputs : List (Input P × Chance)) :
    ((new config).run checks encodeAll decodeAll inputs).isSome ↔
      Along (advance checks encodeAll decodeAll)
        (fun e i => ∀ e' ∈ e, e'.Harmless checks decodeAll i.1) (some (new config)) inputs := by
  have hinitial : ((new config).run checks encodeAll decodeAll inputs).isSome ↔
      ∀ l, l <+: inputs → ((new config).run checks encodeAll decodeAll l).isSome := by
    refine ⟨fun hrun l hl => ?_, fun h => h inputs (List.prefix_refl _)⟩
    obtain ⟨rest, rfl⟩ := hl
    by_contra hnone
    rw [Bool.not_eq_true, Option.isSome_eq_false_iff, Option.isNone_iff_eq_none] at hnone
    have hstuck : ∀ rest : List (Input P × Chance),
        rest.foldl (advance checks encodeAll decodeAll) none = none := by
      intro rest
      induction rest with
      | nil => rfl
      | cons i rest ih => exact ih
    unfold run at hrun hnone
    rw [List.foldl_append, hnone, hstuck] at hrun
    exact Bool.false_ne_true hrun
  rw [hinitial]
  refine along_iff (I := fun e : Option (Episub P) => ∀ e' ∈ e, Ready config e')
    (B := fun e => e.isSome) (fun e he => ?_) rfl (fun e i hI e' he' => ?_)
    (fun e i hI hB => ?_) inputs
  · cases he
    exact ⟨rfl, nofun, fun _ => rfl⟩
  · obtain ⟨e₀, rfl, hstep⟩ := Option.bind_eq_some_iff.1 he'
    exact (hI e₀ rfl).step hwindow hstep
  · obtain ⟨e₀, rfl⟩ := Option.isSome_iff_exists.1 hB
    have hstep := step_isSome_iff checks encodeAll decodeAll hwindow (hI e₀ rfl) i
    exact hstep.trans ⟨fun h e' he' => Option.some.inj he' ▸ h, fun h => h e₀ rfl⟩

/-- The zstd frame of no bytes. -/
def emptyFrame : Bytes :=
  [0x28, 0xb5, 0x2f, 0xfd, 0x24, 0x00, 0x01, 0x00, 0x00, 0x99, 0xe9, 0xd8, 0x51]

/-- Decompression, as far as the runs below need it. -/
def decodeEmpty (payload : Bytes) : Option Bytes := if payload = emptyFrame then some [] else none

/-- A node subscribes to a topic and learns its address, after which a peer
sends a message. -/
def oneMessage (hop : UInt32) (payload : Bytes) : List (Input ℕ × Chance) :=
  [(.subscribe "blocks", ⟨fun _ => id, 0⟩),
    (.poll ⟨0, [], [[.ip4 0x0a000001]]⟩ ["blocks"] (fun _ => (false, false, false)) fun _ => {},
      ⟨fun _ => id, 1⟩),
    (.event 1 0 ⟨"blocks", some (.message 7 hop payload)⟩, ⟨fun _ => id, 2⟩)]

theorem run_isSome_iff_oneMessage :
    ((new Config.default).run true some decodeEmpty (oneMessage 0 emptyFrame)).isSome := by
  refine (run_isSome_iff true some decodeEmpty Config.default (by decide)
    (oneMessage 0 emptyFrame)).2 ⟨fun e he => trivial, fun e he => ?_, fun e he => ?_, trivial⟩
  · cases he
    exact fun _ _ peer hpeer => absurd hpeer KeySet.not_mem_empty
  · cases he
    intro _ _ m hm
    cases hm
    exact fun _ => ⟨fun _ => by decide, fun _ => by decide⟩

/-- A payload that is no zstd stream, a message at the last hop, and a peer
that is dialed early and banned for a call without an action. -/
theorem run_crashes :
    (new Config.default).run true some decodeEmpty (oneMessage 0 [1, 2, 3, 4]) = none ∧
    (new Config.default).run true some decodeEmpty (oneMessage 4294967295 emptyFrame) = none ∧
    (new Config.default).run true some decodeEmpty
      [(.connectionEstablished 1 0 (.dialer [.ip4 0x0a000002]), ⟨fun _ => id, 0⟩),
        (.subscribe "blocks", ⟨fun _ => id, 1⟩), (.event 1 0 ⟨"blocks", none⟩, ⟨fun _ => id, 2⟩),
        (.poll ⟨0, [], [[.ip4 0x0a000001]]⟩ ["blocks"] (fun _ => (false, false, false)) fun _ => {},
          ⟨fun _ => id, 3⟩)] = none := by
  refine ⟨?_, ?_, ?_⟩
  · rfl
  · rfl
  · rfl

end Episub

end Network

end Rensa
