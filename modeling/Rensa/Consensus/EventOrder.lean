import Rensa.Common.Causal
import Rensa.Consensus.Ancestry
/-!
# The order of events

A block is included, confirmed and finalized, and its parent before it.
`poll_next` takes events from the back of the queue, so what has been
returned and the queue read backwards are one log, the `timeline`, in which
every event has its place from the moment it is queued. Most events are put
at its end. The confirmations of a vote come right after what was returned,
before everything that waits: that is too early for a block whose inclusion
still waits, or the confirmation of whose parent does. `InTurn` says that a
vote does neither; then no event comes too early (`eventOrder_run`).
-/

open Relation (TransGen)

namespace Rensa

namespace Consensus

open Rose (nodes nodesL)
open TreeNode (block hash votes path)

/-- How far a block has come. -/
inductive Stage
  | included
  | confirmed
  | finalized
deriving DecidableEq

variable {H D : Type}

namespace ChainEvent

/-- The stage a block has come to with an event. -/
@[simp] def stage (K : Config H D) : ChainEvent H D → Option (Stage × H)
  | .blockIncluded x => some (.included, K.hash x.underlying)
  | .blockConfirmed x _ => some (.confirmed, K.hash x.underlying)
  | .blockFinalized x _ => some (.finalized, K.hash x.underlying)
  | _ => none

/-- The block of a confirmation or a finalization. -/
@[simp] def advance : ChainEvent H D → Option (Produced H D)
  | .blockConfirmed x _ => some x.underlying
  | .blockFinalized x _ => some x.underlying
  | _ => none

variable [DecidableEq H]

/-- The parent, at a stage: of a block on the finalized block a run started
from there is nothing to say. -/
def parentAt (K : Config H D) (fin : Finalized H D) (s : Stage) (b : Produced H D) :
    List (Stage × H) :=
  if b.parent = fin.hash K then [] else [(s, b.parent)]

/-- What has to come before an event. -/
@[simp] def after (K : Config H D) (fin : Finalized H D) : ChainEvent H D → List (Stage × H)
  | .blockConfirmed x _ =>
    (.included, K.hash x.underlying) :: parentAt K fin .confirmed x.underlying
  | .blockFinalized x _ =>
    (.confirmed, K.hash x.underlying) :: parentAt K fin .finalized x.underlying
  | _ => []

end ChainEvent

open ChainEvent (stage advance after parentAt)

namespace Chain

variable [DecidableEq H] {K : Config H D} {B : Set (Produced H D)} {fin : Finalized H D}
  {c c' : Chain H D} {es e : List (ChainEvent H D)}

omit [DecidableEq H] in
/-- The events in the order `poll_next` returns them: those it has returned
and those that wait. -/
def timeline (es : List (ChainEvent H D)) (c : Chain H D) : List (ChainEvent H D) :=
  es ++ c.events.reverse

/-! ## The nodes a vote confirms -/

omit [DecidableEq H] in
/-- The nodes a vote confirms. -/
def confirms (K : Config H D) (c : Chain H D) (stake : ℕ) (v : Vote H) (target : TreeNode H D) :
    List (TreeNode H D) :=
  (path c.forktrees target).filter fun n => !confirmed K (votes n) &&
    confirmed K (n.label.addVote stake v.validator).value.votes

private theorem filterMap_filter_map {α β γ : Type} (l : List α) (p : α → Bool) (g : α → β)
    (q : β → Bool) (r : β → γ) :
    ((l.filter fun a => !p a).map g).filterMap (fun b => if q b then some (r b) else none) =
      (l.filter fun a => !p a && q (g a)).map fun a => r (g a) := by
  induction l with
  | nil => rfl
  | cons a l ih =>
    cases hp : p a
    · cases hq : q (g a)
      · simpa [hp, hq] using ih
      · simpa [hp, hq] using ih
    · simpa [hp] using ih

omit [DecidableEq H] in
theorem confirmations_eq {stake : ℕ} {v : Vote H} {target : TreeNode H D} :
    confirmations K stake v.validator (path c.forktrees target) =
      (c.confirms K stake v target).map fun n => .blockConfirmed n.label.value.block
        (n.label.addVote stake v.validator).value.votes := by
  unfold confirmations confirms
  rw [filterMap_filter_map]
  refine List.map_congr_left fun n _ => ?_
  rw [(TreeNode.addVote_fixed stake v.validator n.label).1]

omit [DecidableEq H] in
/-- **The blocks a vote confirms** are those it takes to a majority. -/
theorem mem_confirms_iff (hc : Standing K B c) {stake : ℕ} {v : Vote H} {target n : TreeNode H D}
    (htarget : target ∈ nodesL c.forktrees) (hn : n ∈ nodesL c.forktrees) :
    hash K n ∈ (c.confirms K stake v target).map (hash K) ↔
      votes n < K.minimumMajorityStake ∧ K.minimumMajorityStake ≤
        votes (Rose.map (TreeNode.voted c.forktrees stake v.validator target) n) := by
  have hpath : ∀ m ∈ path c.forktrees target, m ∈ nodesL c.forktrees := fun m hm =>
    (mem_nodes_of_mem_path hc.allocated.located hc.linked htarget hm).1
  have hlabel : (Rose.map (TreeNode.voted c.forktrees stake v.validator target) n).label =
      if n.label.loc ∈ (path c.forktrees target).map (fun m => m.label.loc) then
        n.label.addVote stake v.validator else n.label := by
    rw [Rose.label_map]
    rfl
  constructor
  · intro hmem
    obtain ⟨m, hm, hhash⟩ := List.mem_map.1 hmem
    obtain ⟨hm, hcond⟩ := List.mem_filter.1 hm
    obtain rfl : m = n := hc.formed.hashed.eq (hpath m hm) hn hhash
    simp only [Bool.and_eq_true, Bool.not_eq_true', confirmed, decide_eq_false_iff_not,
      decide_eq_true_eq, not_le] at hcond
    refine ⟨hcond.1, ?_⟩
    rw [votes, hlabel, if_pos (List.mem_map_of_mem hm)]
    exact hcond.2
  · rintro ⟨hless, hle⟩
    rw [votes, hlabel] at hle
    split at hle
    · rename_i hreached
      obtain ⟨m, hm, hloc⟩ := List.mem_map.1 hreached
      obtain rfl : m = n := hc.allocated.located.eq (hpath m hm) hn hloc
      refine List.mem_map_of_mem (List.mem_filter.2 ⟨hm, ?_⟩)
      simp only [Bool.and_eq_true, Bool.not_eq_true', confirmed, decide_eq_false_iff_not,
        decide_eq_true_eq, not_le]
      exact ⟨hless, hle⟩
    · exact absurd hle (not_le.2 hless)

/-- **The vote confirms blocks in turn.** The inclusion of a block it
confirms does not wait in the queue, the confirmation of its parent does
not wait either, and the parent, where it is in the forest, is confirmed
before or with it. -/
def InTurn (K : Config H D) (c : Chain H D) : Deed H D → Prop
  | .count stake v target => ∀ n ∈ c.confirms K stake v target,
      (∀ ev ∈ c.events, stage K ev ≠ some (.included, hash K n) ∧
        stage K ev ≠ some (.confirmed, (block n).parent)) ∧
      ∀ p ∈ nodesL c.forktrees, hash K p = (block n).parent → confirmed K (votes p) = true ∨
        hash K p ∈ (c.confirms K stake v target).map (hash K)
  | _ => True

instance (K : Config H D) (c : Chain H D) : (d : Deed H D) → Decidable (InTurn K c d)
  | .vote _ => .isTrue trivial
  | .count stake v target => inferInstanceAs (Decidable (∀ n ∈ c.confirms K stake v target,
      (∀ ev ∈ c.events, stage K ev ≠ some (.included, hash K n) ∧
        stage K ev ≠ some (.confirmed, (block n).parent)) ∧
      ∀ p ∈ nodesL c.forktrees, hash K p = (block n).parent → confirmed K (votes p) = true ∨
        hash K p ∈ (c.confirms K stake v target).map (hash K)))
  | .finalize _ => .isTrue trivial

omit [DecidableEq H] in
/-- Heights fall along a walk. -/
theorem Standing.path_falls (h : Standing K B c) {n : TreeNode H D} (hn : n ∈ nodesL c.forktrees) :
    (path c.forktrees n).Pairwise fun a b => (block b).height < (block a).height := by
  have hpath : ∀ l, Rose.Path c.forktrees l →
      l.Pairwise fun a b => (block b).height < (block a).height := by
    intro l hl
    induction hl with
    | root _ => exact List.pairwise_singleton _ _
    | @step t p l hl ht ih =>
      rw [List.pairwise_cons]
      refine ⟨fun b hb => ?_, ih⟩
      have hstep := (h.formed.children p (hl.mem_nodesL p List.mem_cons_self) t ht).2
      rcases List.mem_cons.1 hb with rfl | hb
      · omega
      · have := (List.pairwise_cons.1 ih).1 b hb
        omega
  obtain ⟨l, hl⟩ := Rose.exists_path hn
  exact (hpath _ hl).sublist (prefix_path h.allocated.located h.linked hl).sublist

omit [DecidableEq H] in
/-- In a list that falls, what is lower than an entry comes after it. -/
theorem mem_after_of_lt {α : Type*} {f : α → ℕ} {l₁ l₂ : List α} {a b : α}
    (hfalls : (l₁ ++ a :: l₂).Pairwise fun x y => f y < f x) (hb : b ∈ l₁ ++ a :: l₂)
    (hlt : f b < f a) : b ∈ l₂ := by
  rw [List.mem_append, List.mem_cons] at hb
  rcases hb with hb | rfl | hb
  · have := (List.pairwise_append.1 hfalls).2.2 b hb a List.mem_cons_self
    omega
  · omega
  · exact hb

/-- **The confirmations of a vote find what they need.** -/
theorem InTurn.causal (hc : Standing K B c) {stake : ℕ} {v : Vote H} {target : TreeNode H D}
    (htarget : target ∈ nodesL c.forktrees) (hQ : InTurn K c (.count stake v target))
    (hincluded : ∀ n ∈ nodesL c.forktrees, (.included, hash K n) ∈ issued (stage K) es c)
    (hconfirmed : ∀ n ∈ nodesL c.forktrees, confirmed K (votes n) = true →
      (.confirmed, hash K n) ∈ issued (stage K) es c)
    (hfinal : c.finalized.hash K = fin.hash K ∨
      (.confirmed, c.finalized.hash K) ∈ issued (stage K) es c) :
    CausalFrom (stage K) (after K fin) (es.filterMap (stage K))
      (confirmations K stake v.validator (path c.forktrees target)).reverse := by
  have hforest : ∀ n ∈ c.confirms K stake v target, n ∈ nodesL c.forktrees := fun n hn =>
    (mem_nodes_of_mem_path hc.allocated.located hc.linked htarget (List.mem_of_mem_filter hn)).1
  -- what does not wait has been returned
  have hreturned : ∀ s, s ∈ issued (stage K) es c → (∀ ev ∈ c.events, stage K ev ≠ some s) →
      s ∈ es.filterMap (stage K) := by
    intro s hs hwait
    obtain ⟨ev, hev | hev, hstage⟩ := mem_issued.1 hs
    · exact List.mem_filterMap.2 ⟨ev, hev, hstage⟩
    · exact absurd hstage (hwait ev hev)
  refine .of_split fun m ev m' hm s hs => ?_
  -- the entries before one in the log are the confirmations after it in the walk
  have hsplit : (c.confirms K stake v target).map (fun n => .blockConfirmed n.label.value.block
      (n.label.addVote stake v.validator).value.votes) = m'.reverse ++ ev :: m.reverse := by
    rw [← confirmations_eq, ← List.reverse_reverse (confirmations K stake v.validator _), hm]
    simp
  obtain ⟨l₁, l₂, hl, -, hl₂⟩ := List.map_eq_append_iff.1 hsplit
  obtain ⟨n, l₃, rfl, rfl, hl₃⟩ := List.map_eq_cons_iff.1 hl₂
  have hn : n ∈ c.confirms K stake v target := by
    rw [hl]
    simp
  obtain ⟨hwait, hparent⟩ := hQ n hn
  rw [after, List.mem_cons] at hs
  rcases hs with rfl | hs
  · exact Or.inl (hreturned _ (hincluded n (hforest n hn)) fun ev hev => (hwait ev hev).1)
  unfold parentAt at hs
  split at hs
  · cases hs
  rename_i hstart
  rw [List.mem_singleton] at hs
  subst hs
  rcases Rose.exists_parent_of_mem_nodesL (hforest n hn) with hroot | ⟨p, hp, hnp⟩
  · -- a root is on the finalized block
    have hroot' : (block n).parent = c.finalized.hash K := (hc.formed.roots n hroot).1
    rcases hfinal with hfinal | hfinal
    · exact absurd (hroot'.trans hfinal) hstart
    · rw [← hroot'] at hfinal
      exact Or.inl (hreturned _ hfinal fun ev hev => (hwait ev hev).2)
  · obtain ⟨hname, hheight⟩ := hc.formed.children p hp n hnp
    rcases hparent p hp hname.symm with hbefore | hwith
    · have hissued := hconfirmed p hp hbefore
      rw [← hname] at hissued
      exact Or.inl (hreturned _ hissued fun ev hev => (hwait ev hev).2)
    · obtain ⟨q, hq, hhash⟩ := List.mem_map.1 hwith
      obtain rfl : q = p := hc.formed.hashed.eq (hforest q hq) hp hhash
      -- the parent is lower, so it comes later in the walk
      have hfalls : (l₁ ++ n :: l₃).Pairwise fun a b => (block b).height < (block a).height := by
        rw [← hl]
        exact (hc.path_falls htarget).sublist List.filter_sublist
      have hlater : q ∈ l₃ :=
        mem_after_of_lt (f := fun n => (block n).height) hfalls (hl ▸ hq) (by omega)
      right
      refine List.mem_filterMap.2 ⟨.blockConfirmed q.label.value.block
        (q.label.addVote stake v.validator).value.votes, ?_, ?_⟩
      · rw [← List.mem_reverse, ← hl₃]
        exact List.mem_map_of_mem hlater
      · change some (Stage.confirmed, hash K q) = some (Stage.confirmed, (block n).parent)
        rw [hname]

/-! ## Runs -/

omit [DecidableEq H] in
/-- The events tell how far the blocks of the forest have come. -/
def Marked (K : Config H D) (es : List (ChainEvent H D)) (c : Chain H D) : Prop :=
  ∀ n ∈ nodesL c.forktrees, (.included, hash K n) ∈ issued (stage K) es c ∧
    (confirmed K (votes n) = true → (.confirmed, hash K n) ∈ issued (stage K) es c)

/-- **No event comes too early**, and the events tell how far blocks have
come. -/
structure Timely (K : Config H D) (fin : Finalized H D) (B : Set (Produced H D))
    (es : List (ChainEvent H D)) (c : Chain H D) : Prop where
  causal : CausalFrom (stage K) (after K fin) [] (timeline es c)
  marked : Marked K es c
  final : c.finalized.hash K = fin.hash K ∨
    (.confirmed, c.finalized.hash K) ∈ issued (stage K) es c ∧
      (.finalized, c.finalized.hash K) ∈ issued (stage K) es c
  source : ∀ b ∈ issued advance es c, b ∈ B

theorem timely_new (fin : Finalized H D) : Timely K fin B [] (Chain.new fin) where
  causal := trivial
  marked := fun _ hn => absurd hn List.not_mem_nil
  final := Or.inl rfl
  source := fun _ hb => absurd hb List.not_mem_nil

omit [DecidableEq H] in
theorem mem_stages {s : Stage × H} :
    s ∈ (timeline es c).filterMap (stage K) ↔ s ∈ issued (stage K) es c := by
  simp only [timeline, issued, List.mem_filterMap, List.mem_append, List.mem_reverse]

/-- Events that need nothing, put at the front of the queue. -/
theorem causal_push {l : List (ChainEvent H D)}
    (h : CausalFrom (stage K) (after K fin) [] (timeline es c))
    (hevents : c'.events = l ++ c.events) (hfree : ∀ ev ∈ l, after K fin ev = []) :
    CausalFrom (stage K) (after K fin) [] (timeline (es ++ []) c') := by
  have hsplit : timeline (es ++ []) c' = timeline es c ++ l.reverse := by
    rw [timeline, timeline, hevents, List.append_nil, List.reverse_append, List.append_assoc]
  rw [hsplit]
  exact h.append_free fun ev hev => hfree ev (List.mem_reverse.1 hev)

section Act

variable {Q : Chain H D → Deed H D → Prop}

omit [DecidableEq H] in
/-- A new block has no votes, which is not a majority. -/
theorem not_confirmed_zero (hpos : 0 < K.minimumMajorityStake) : ¬ confirmed K 0 = true := by
  simp only [confirmed, decide_eq_true_eq]
  omega

/-- The blocks a vote takes to a majority have their confirmation. -/
theorem Marked.of_count (hc : Standing K B c) (h : Marked K es c) {stake : ℕ} {v : Vote H}
    {target : TreeNode H D} (htarget : target ∈ nodesL c.forktrees)
    (hact : Act K B Q c [] (c.count K stake v target)) :
    Marked K (es ++ []) (c.count K stake v target) := by
  intro n' hn'
  rw [forktrees_count] at hn'
  obtain ⟨n, hn, rfl⟩ := Rose.mem_nodesL_map.1 hn'
  rw [TreeNode.hash_voted]
  refine ⟨hact.issued_mono (h n hn).1, fun hconf => ?_⟩
  rw [confirmed, decide_eq_true_eq] at hconf
  rcases Nat.lt_or_ge (votes n) K.minimumMajorityStake with hless | hge
  · obtain ⟨m, hm, hhash⟩ := List.mem_map.1 ((mem_confirms_iff hc htarget hn).2 ⟨hless, hconf⟩)
    refine mem_issued.2 ⟨.blockConfirmed m.label.value.block
      (m.label.addVote stake v.validator).value.votes, Or.inr (List.mem_append_right _ ?_), ?_⟩
    · rw [confirmations_eq]
      exact List.mem_map_of_mem hm
    · rw [← hhash]
      rfl
  · exact hact.issued_mono ((h n hn).2 (by rwa [confirmed, decide_eq_true_eq]))

/-- **The nodes after an act are marked.** -/
theorem marked_of_act (hpos : 0 < K.minimumMajorityStake) (hact : Act K B Q c e c')
    (hc : Standing K B c) (h : Marked K es c) : Marked K (es ++ e) c' := by
  rcases hact.count_or_keeps hc.formed es with ⟨stake, v, target, -, htarget, rfl, rfl⟩ |
    ⟨-, hnodes⟩
  · exact h.of_count hc htarget hact
  · intro n' hn'
    rcases hnodes n' hn' with ⟨n, hn, hhash, hvotes⟩ | hnew
    · rw [hhash, hvotes]
      exact ⟨hact.issued_mono (h n hn).1, fun hconf => hact.issued_mono ((h n hn).2 hconf)⟩
    · refine ⟨mem_issued.2 ⟨_, Or.inr hnew.event, rfl⟩, fun hconf => ?_⟩
      rw [hnew.votes] at hconf
      exact absurd hconf (not_confirmed_zero hpos)

theorem confirmed_of_split {before later : List (TreeNode H D)} {root : TreeNode H D}
    (hsplit : splitRoots (c.finalizable K) c.forktrees = some (before, root, later)) :
    confirmed K (votes root) = true :=
  (finalizable_some (splitRoots_some hsplit).2).1

/-- **Every act keeps the order of events**, where votes confirm blocks in
turn. -/
theorem causal_of_act (hQ : ∀ c d, Q c d → InTurn K c d) (hact : Act K B Q c e c')
    (hc : Standing K B c) (h : Timely K fin B es c) :
    CausalFrom (stage K) (after K fin) [] (timeline (es ++ e) c') := by
  cases hact with
  | wait | record => exact causal_push (l := []) h.causal rfl (by simp)
  | root | child => exact causal_push (l := [.blockIncluded _]) h.causal rfl (by simp)
  | cast => exact causal_push (l := [.vote _ _]) h.causal rfl (by simp)
  | miss missing =>
    refine causal_push h.causal (foldl_push _ _ _) fun ev hev => ?_
    rw [List.mem_reverse, List.mem_map] at hev
    obtain ⟨m, -, rfl⟩ := hev
    rfl
  | @count v stake target hq _ _ _ _ htarget _ =>
    have hsplit : timeline (es ++ []) (c.count K stake v target) = es ++
        ((confirmations K stake v.validator (path c.forktrees target)).reverse ++
          c.events.reverse) := by
      rw [timeline, List.append_nil, count, List.reverse_append]
    rw [hsplit]
    refine h.causal.insert ?_
    rw [List.nil_append]
    exact (hQ _ _ hq).causal hc (TreeNode.get_some htarget).1 (fun n hn => (h.marked n hn).1)
      (fun n hn => (h.marked n hn).2) (h.final.imp id And.left)
  | @finalize before later root _ hsplit =>
    have hroot := (sublist_splitRoots hsplit).1
    have hsame : timeline (es ++ []) (c.finalizeNext K (before ++ later) root) =
        timeline es c ++ ((nodesL (before ++ later)).map fun n => .blockDiscarded (block n)) ++
          [.blockFinalized root.label.value.block (votes root)] := by
      rw [timeline, timeline, events_finalizeNext hc.formed hsplit]
      simp
    rw [hsame, CausalFrom.append]
    refine ⟨h.causal.append_free fun ev hev => ?_, fun s hs => ?_, trivial⟩
    · obtain ⟨n, -, rfl⟩ := List.mem_map.1 hev
      rfl
    rw [List.nil_append, List.filterMap_append, List.mem_append]
    refine Or.inl (mem_stages.2 ?_)
    rw [after, List.mem_cons] at hs
    rcases hs with rfl | hs
    · exact (h.marked root (Rose.mem_nodesL_of_mem hroot)).2 (confirmed_of_split hsplit)
    · unfold parentAt at hs
      split at hs
      · cases hs
      · rename_i hstart
        rw [List.mem_singleton] at hs
        subst hs
        have hname : (block root).parent = c.finalized.hash K := (hc.formed.roots root hroot).1
        rcases h.final with hfinal | hfinal
        · exact absurd (hname.trans hfinal) hstart
        · rw [← hname] at hfinal
          exact hfinal.2
  | @pop event hlast =>
    have hevents : c.events.dropLast ++ [event] = c.events :=
      List.dropLast_append_getLast? event hlast
    have hsame : timeline (es ++ [event]) c.pop = timeline es c := by
      rw [timeline, timeline, ← hevents, List.reverse_append, List.append_assoc]
      simp [pop]
    rw [hsame]
    exact h.causal

/-- What is confirmed or finalized was in the forest. -/
theorem source_of_act (hact : Act K B Q c e c') (hc : Standing K B c)
    (h : ∀ b ∈ issued advance es c, b ∈ B) : ∀ b ∈ issued advance (es ++ e) c', b ∈ B := by
  intro b hb
  rcases hact.mem_issued hb with hb | ⟨ev, hev, hadv⟩
  · exact h b hb
  cases hev with
  | included | vote | discarded | missing => cases hadv
  | @confirmed stake v target _ hQ htarget hev =>
    rw [confirmations_eq] at hev
    obtain ⟨n, hn, rfl⟩ := List.mem_map.1 hev
    obtain rfl := Option.some.inj hadv
    exact hc.forest n (mem_nodes_of_mem_path hc.allocated.located hc.linked htarget
      (List.mem_of_mem_filter hn)).1
  | finalized hsplit =>
    obtain rfl := Option.some.inj hadv
    exact hc.forest _ (Rose.mem_nodesL_of_mem (sublist_splitRoots hsplit).1)

theorem Timely.of_act (hpos : 0 < K.minimumMajorityStake) (hQ : ∀ c d, Q c d → InTurn K c d)
    (hact : Act K B Q c e c') (hc : Standing K B c) (h : Timely K fin B es c) :
    Timely K fin B (es ++ e) c' := by
  refine ⟨causal_of_act hQ hact hc h, marked_of_act hpos hact hc h.marked, ?_,
    source_of_act hact hc h.source⟩
  have hkept : c'.finalized = c.finalized → c'.finalized.hash K = fin.hash K ∨
      (.confirmed, c'.finalized.hash K) ∈ issued (stage K) (es ++ e) c' ∧
        (.finalized, c'.finalized.hash K) ∈ issued (stage K) (es ++ e) c' := by
    intro hfin
    rw [hfin]
    exact h.final.imp id fun hf => ⟨hact.issued_mono hf.1, hact.issued_mono hf.2⟩
  cases hact with
  | wait | root | child | cast | count | miss | pop | record => exact hkept rfl
  | @finalize before later root hq hsplit =>
    have hroot := Rose.mem_nodesL_of_mem (sublist_splitRoots hsplit).1
    have hfinalize : Act K B Q c [] (c.finalizeNext K (before ++ later) root) :=
      .finalize hq hsplit
    exact Or.inr ⟨hfinalize.issued_mono ((h.marked root hroot).2 (confirmed_of_split hsplit)),
      mem_issued.2 ⟨.blockFinalized root.label.value.block (votes root),
        Or.inr List.mem_cons_self, rfl⟩⟩

end Act

/-- `a` is a proper ancestor of `b`, above the finalized block the run
started from. -/
def Above (K : Config H D) (fin : Finalized H D) (B : Set (Produced H D)) : H → H → Prop :=
  TransGen fun a b => Parent K B a b ∧ a ≠ fin.hash K

/-- **The events of a list come in order**: a block is included before it is
confirmed and confirmed before it is finalized, and so are its ancestors
before it. -/
def InOrder (K : Config H D) (fin : Finalized H D) (B : Set (Produced H D))
    (es : List (ChainEvent H D)) : Prop :=
  ∀ before ev later, es = before ++ ev :: later → ∀ h,
    (stage K ev = some (Stage.confirmed, h) → (Stage.included, h) ∈ before.filterMap (stage K) ∧
      ∀ a, Above K fin B a h → (Stage.confirmed, a) ∈ before.filterMap (stage K)) ∧
    (stage K ev = some (Stage.finalized, h) → (Stage.confirmed, h) ∈ before.filterMap (stage K) ∧
      ∀ a, Above K fin B a h → (Stage.finalized, a) ∈ before.filterMap (stage K))

/-- The ancestors of a block come to a stage before it, where parents do. -/
theorem ancestors_before (hbind : Binding K fin B)
    (h : CausalFrom (stage K) (after K fin) [] es)
    (hB : ∀ ev ∈ es, ∀ b, advance ev = some b → b ∈ B) {s : Stage}
    (hs : ∀ ev t, stage K ev = some (s, t) → ∃ b, advance ev = some b ∧ K.hash b = t ∧
      ∀ x ∈ parentAt K fin s b, x ∈ after K fin ev) {a t : H} (ha : Above K fin B a t)
    {before later : List (ChainEvent H D)} {ev : ChainEvent H D} (hes : es = before ++ ev :: later)
    (hev : stage K ev = some (s, t)) : (s, a) ∈ before.filterMap (stage K) := by
  -- the parent of the block comes before it
  have hparent : ∀ {x t before ev later}, Parent K B x t ∧ x ≠ fin.hash K →
      es = before ++ ev :: later → stage K ev = some (s, t) →
        (s, x) ∈ before.filterMap (stage K) := by
    rintro x t before ev later ⟨⟨y, hy, hyhash, rfl⟩, hstart⟩ hes hev
    obtain ⟨b, hb, hhash, hafter⟩ := hs ev t hev
    have hbB : b ∈ B := hB ev (by rw [hes]; simp) b hb
    have hname := hbind.parent b hbB y hy (hhash.trans hyhash.symm)
    rw [hes] at h
    refine (h.mem_of_split (hafter _ ?_)).resolve_left List.not_mem_nil
    rw [parentAt, if_neg (by rwa [hname]), hname]
    exact List.mem_singleton_self _
  induction ha generalizing before later ev with
  | single hstep => exact hparent hstep hes hev
  | tail _ hstep ih =>
    obtain ⟨ev', hev', hstage⟩ := List.mem_filterMap.1 (hparent hstep hes hev)
    obtain ⟨before', later', rfl⟩ := List.append_of_mem hev'
    have hsplit : es = before' ++ ev' :: (later' ++ ev :: later) := by
      rw [hes]
      simp
    rw [List.filterMap_append]
    exact List.mem_append_left _ (ih hsplit hstage)

omit [DecidableEq H] in
theorem stage_eq_confirmed {ev : ChainEvent H D} {t : H}
    (h : stage K ev = some (.confirmed, t)) :
    ∃ x votes, ev = .blockConfirmed x votes ∧ K.hash x.underlying = t := by
  cases ev with
  | blockConfirmed x votes => exact ⟨x, votes, rfl, congrArg Prod.snd (Option.some.inj h)⟩
  | blockIncluded | blockFinalized => cases congrArg Prod.fst (Option.some.inj h)
  | vote | blockDiscarded | blockMissing => cases h

omit [DecidableEq H] in
theorem stage_eq_finalized {ev : ChainEvent H D} {t : H}
    (h : stage K ev = some (.finalized, t)) :
    ∃ x votes, ev = .blockFinalized x votes ∧ K.hash x.underlying = t := by
  cases ev with
  | blockFinalized x votes => exact ⟨x, votes, rfl, congrArg Prod.snd (Option.some.inj h)⟩
  | blockIncluded | blockConfirmed => cases congrArg Prod.fst (Option.some.inj h)
  | vote | blockDiscarded | blockMissing => cases h

theorem inOrder_of_causal (hbind : Binding K fin B)
    (h : CausalFrom (stage K) (after K fin) [] es)
    (hB : ∀ ev ∈ es, ∀ b, advance ev = some b → b ∈ B) : InOrder K fin B es := by
  intro before ev later hes t
  have hneeds : ∀ x ∈ after K fin ev, x ∈ before.filterMap (stage K) := by
    intro x hx
    rw [hes] at h
    exact (h.mem_of_split hx).resolve_left List.not_mem_nil
  constructor
  · intro hev
    obtain ⟨x, votes, rfl, rfl⟩ := stage_eq_confirmed hev
    refine ⟨hneeds _ List.mem_cons_self, fun a ha =>
      ancestors_before hbind h hB (s := .confirmed) (fun ev t hev => ?_) ha hes hev⟩
    obtain ⟨y, votes, rfl, rfl⟩ := stage_eq_confirmed hev
    exact ⟨y.underlying, rfl, rfl, fun _ hx => List.mem_cons_of_mem _ hx⟩
  · intro hev
    obtain ⟨x, votes, rfl, rfl⟩ := stage_eq_finalized hev
    refine ⟨hneeds _ List.mem_cons_self, fun a ha =>
      ancestors_before hbind h hB (s := .finalized) (fun ev t hev => ?_) ha hes hev⟩
    obtain ⟨y, votes, rfl, rfl⟩ := stage_eq_finalized hev
    exact ⟨y.underlying, rfl, rfl, fun _ hx => List.mem_cons_of_mem _ hx⟩

/-- **The events `poll_next` returns come in order in every run whose votes
confirm blocks in turn.** -/
theorem eventOrder_run (K : Config H D) (fin : Finalized H D) (inputs : List (Input H D))
    (hfree : CollisionFree K fin (inputBlocks inputs)) (hpos : 0 < K.minimumMajorityStake)
    (hQ : (Chain.new fin).Throughout K (InTurn K) inputs) :
    InOrder K fin (inputBlocks inputs) ((Chain.new fin).delivered K inputs) := by
  have hrun : Timely K fin (inputBlocks inputs) ((Chain.new fin).delivered K inputs)
      ((Chain.new fin).run K inputs) :=
    run_standing hQ (timely_new fin) fun es c e c' hact hc h =>
      h.of_act hpos (fun _ _ hq => hq) hact hc
  refine inOrder_of_causal hfree.binding (CausalFrom.append.1 hrun.causal).1 fun ev hev b hb => ?_
  exact hrun.source b (mem_issued.2 ⟨ev, Or.inl hev, hb⟩)

namespace Sample

/-- A block with two votes of one validator, for its parent's parent and for
its parent. -/
def twice : Produced ℕ Unit :=
  produce (single .inPlace) 7 ((single .inPlace).hash second) 3 ()
    [vote 7 ((single .inPlace).hash first), vote 7 ((single .inPlace).hash second)]

/-- Three blocks arrive, and all their events are taken. -/
def votedTwice : List (Input ℕ Unit) :=
  [Input.include 0 first, Input.include 0 second, Input.include 0 twice] ++
    List.replicate 9 (Input.pollNext 0)

end Sample

open Sample in
/-- With one vote for both blocks their events come in order. -/
theorem inOrder_threeBlocks : InOrder (single .inPlace) genesis (inputBlocks threeBlocks)
    ((Chain.new genesis).delivered (single .inPlace) threeBlocks) := by
  have hfree : CollisionFree (single .inPlace) genesis (inputBlocks threeBlocks) :=
    .of_genesis rfl selfDelimiting_uvarint (by decide +kernel) (by decide +kernel)
  exact eventOrder_run (single .inPlace) genesis threeBlocks hfree (by decide +kernel)
    (by decide +kernel)

omit [DecidableEq H] in
/-- The order, read off the stages alone. -/
theorem InOrder.confirmed_before (h : InOrder K fin B es) {l l' : List (Stage × H)} {a t : H}
    (hl : es.filterMap (stage K) = l ++ (.confirmed, t) :: l') (ha : Above K fin B a t) :
    (.confirmed, a) ∈ l := by
  obtain ⟨e₁, e₂, rfl, rfl, he₂⟩ := List.filterMap_eq_append_iff.1 hl
  obtain ⟨e₃, ev, e₄, rfl, hnone, hev, -⟩ := List.filterMap_eq_cons_iff.1 he₂
  have hmem := ((h (e₁ ++ e₃) ev e₄ (List.append_assoc ..).symm t).1 hev).2 a ha
  rwa [List.filterMap_append, List.filterMap_eq_nil_iff.2 hnone, List.append_nil] at hmem

open Sample in
/-- With a vote for each of them, the second block is confirmed before the
first. -/
theorem not_inOrder_votedTwice : ¬ InOrder (single .inPlace) genesis (inputBlocks votedTwice)
    ((Chain.new genesis).delivered (single .inPlace) votedTwice) := by
  intro h
  have hstages : ((Chain.new genesis).delivered (single .inPlace) votedTwice).filterMap
      (stage (single .inPlace)) =
      [first, second, twice].map (fun b => (.included, (single .inPlace).hash b)) ++
        (.confirmed, (single .inPlace).hash second) ::
          [(.confirmed, (single .inPlace).hash first),
            (.finalized, (single .inPlace).hash first)] := by
    decide +kernel
  have hparent : second.parent = (single .inPlace).hash first := by decide +kernel
  have habove : Above (single .inPlace) genesis (inputBlocks votedTwice)
      ((single .inPlace).hash first) ((single .inPlace).hash second) :=
    .single ⟨⟨second, mem_inputBlocks.2 (by decide +kernel), rfl, hparent⟩, by decide +kernel⟩
  have hmem := h.confirmed_before hstages habove
  revert hmem
  decide +kernel

end Chain

end Consensus

end Rensa
