import Rensa.Consensus.Deeds
import Rensa.Consensus.EventOrder
import Rensa.Consensus.Lifecycle
import Rensa.Consensus.Votes
/-!
# One confirmation for each block

A vote that takes a block to a majority queues its confirmation, and a
block keeps its majority as long as no vote takes it away, which a vote
can only do where the sum of the stakes wraps (`Steady`). Then the blocks
of the forest with a majority are, before and after every vote, those whose
confirmation was issued, and none is issued twice (`confirmedOnce_run`).
-/

namespace Rensa

namespace Consensus

open Rose (nodes nodesL)
open TreeNode (block hash votes path voters)
open ChainEvent (inclusion confirmation finality discarding)

variable {H D : Type}

namespace Chain

variable {K : Config H D} {B : Set (Produced H D)} {fin : Finalized H D}
  {c c' : Chain H D} {es e : List (ChainEvent H D)}

/-- The hashes of the blocks whose confirmation was issued. -/
def confirmedHashes (K : Config H D) (es : List (ChainEvent H D)) (c : Chain H D) : List H :=
  (issued confirmation es c).map K.hash

/-- **Confirmations tell who has a majority**: none was issued twice, and a
block of the forest has had its own exactly where it has a majority. -/
structure Signals (K : Config H D) (es : List (ChainEvent H D)) (c : Chain H D) : Prop where
  once : (confirmedHashes K es c).Nodup
  marked : ∀ n ∈ nodesL c.forktrees,
    hash K n ∈ confirmedHashes K es c ↔ K.minimumMajorityStake ≤ votes n

/-- **No vote takes a majority away**: a vote that is counted for a block
with a majority leaves it at least that much. -/
def Steady (K : Config H D) (c : Chain H D) : Deed H D → Prop
  | .count stake v target => ∀ n ∈ path c.forktrees target, K.minimumMajorityStake ≤ votes n →
      v.validator ∉ voters n → K.minimumMajorityStake ≤ (votes n + stake) % 2 ^ 64
  | _ => True

instance (K : Config H D) (c : Chain H D) : (d : Deed H D) → Decidable (Steady K c d)
  | .vote _ => .isTrue trivial
  | .count stake v target => inferInstanceAs (Decidable (∀ n ∈ path c.forktrees target,
      K.minimumMajorityStake ≤ votes n → v.validator ∉ voters n →
        K.minimumMajorityStake ≤ (votes n + stake) % 2 ^ 64))
  | .finalize _ => .isTrue trivial

/-- What every act keeps: with the places of blocks, that only blocks which
were included are confirmed, and that what is final was confirmed. -/
structure Confirming (K : Config H D) (fin : Finalized H D) (B : Set (Produced H D))
    (es : List (ChainEvent H D)) (c : Chain H D) : Prop extends Signals K es c where
  lived : Lived K fin B es c
  source : ∀ t ∈ confirmedHashes K es c, t ∈ (issued inclusion es c).map K.hash
  final : ∀ b ∈ issued finality es c, K.hash b ∈ confirmedHashes K es c

theorem confirming_new (fin : Finalized H D) : Confirming K fin B [] (Chain.new fin) where
  once := List.nodup_nil
  marked := fun _ hn => absurd hn List.not_mem_nil
  lived := lived_new fin
  source := fun _ ht => absurd ht List.not_mem_nil
  final := fun _ hb => absurd hb List.not_mem_nil

/-! ## A counted vote -/

/-- A vote leaves a block its majority. -/
theorem Steady.le_votes (hc : Standing K B c) {stake : ℕ} {v : Vote H} {target n : TreeNode H D}
    (htarget : target ∈ nodesL c.forktrees) (hsteady : Steady K c (.count stake v target))
    (hn : n ∈ nodesL c.forktrees) (hle : K.minimumMajorityStake ≤ votes n) :
    K.minimumMajorityStake ≤
      votes (Rose.map (TreeNode.voted c.forktrees stake v.validator target) n) := by
  rw [TreeNode.votes_voted]
  split
  · rename_i hreached
    obtain ⟨m, hm, hloc⟩ := List.mem_map.1 hreached.1
    obtain rfl : m = n := hc.allocated.located.eq
      (mem_nodes_of_mem_path hc.allocated.located hc.linked htarget hm).1 hn hloc
    exact hsteady m hm hle hreached.2
  · exact hle

/-- What a counted vote adds to the confirmations. -/
theorem confirmedHashes_count {stake : ℕ} {v : Vote H} {target : TreeNode H D} :
    (confirmedHashes K (es ++ []) (c.count K stake v target)).Perm
      ((c.confirms K stake v target).map (hash K) ++ confirmedHashes K es c) := by
  have hpush : (issued confirmation (es ++ []) (c.count K stake v target)).Perm
      ((confirmations K stake v.validator (path c.forktrees target)).filterMap confirmation ++
        issued confirmation es c) := issued_push List.perm_append_comm
  have hblocks : (confirmations K stake v.validator (path c.forktrees target)).filterMap
      confirmation = (c.confirms K stake v target).map block := by
    rw [confirmations_eq, List.filterMap_map]
    exact congrFun List.filterMap_eq_map _
  rw [hblocks] at hpush
  have hhashes := hpush.map K.hash
  rw [List.map_append, List.map_map] at hhashes
  exact hhashes

/-- **A counted vote confirms the blocks it takes to a majority**, where it
takes none away. -/
theorem Signals.of_count (h : Signals K es c) (hc : Standing K B c) {stake : ℕ} {v : Vote H}
    {target : TreeNode H D} (htarget : target ∈ nodesL c.forktrees)
    (hsteady : Steady K c (.count stake v target)) :
    Signals K (es ++ []) (c.count K stake v target) := by
  have hforest : ∀ n ∈ c.confirms K stake v target, n ∈ nodesL c.forktrees := fun n hn =>
    (mem_nodes_of_mem_path hc.allocated.located hc.linked htarget (List.mem_of_mem_filter hn)).1
  have hperm : (confirmedHashes K (es ++ []) (c.count K stake v target)).Perm
      ((c.confirms K stake v target).map (hash K) ++ confirmedHashes K es c) :=
    confirmedHashes_count
  refine ⟨?_, fun n' hn' => ?_⟩
  · rw [hperm.nodup_iff, List.nodup_append]
    refine ⟨?_, h.once, fun t ht u hu heq => ?_⟩
    · -- heights fall along the walk, so no block is on it twice
      have hfalls : (c.confirms K stake v target).Pairwise
          fun a b => (block b).height < (block a).height :=
        (hc.path_falls htarget).sublist List.filter_sublist
      refine List.Nodup.map_on (fun a ha b hb heq => hc.formed.hashed.eq (hforest a ha)
        (hforest b hb) heq) (hfalls.imp fun hlt heq => ?_)
      rw [heq] at hlt
      omega
    · obtain ⟨n, hn, rfl⟩ := List.mem_map.1 ht
      have hless := ((mem_confirms_iff hc htarget (hforest n hn)).1 ht).1
      rw [← heq, h.marked n (hforest n hn)] at hu
      omega
  · rw [forktrees_count] at hn'
    obtain ⟨n, hn, rfl⟩ := Rose.mem_nodesL_map.1 hn'
    rw [hperm.mem_iff, List.mem_append, TreeNode.hash_voted, mem_confirms_iff hc htarget hn,
      h.marked n hn]
    have hkept := hsteady.le_votes hc htarget hn
    constructor
    · rintro (⟨-, hle⟩ | hle)
      · exact hle
      · exact hkept hle
    · intro hle
      rcases Nat.lt_or_ge (votes n) K.minimumMajorityStake with hless | hge
      · exact Or.inl ⟨hless, hle⟩
      · exact Or.inr hge

/-! ## Acts -/

section Act

variable [DecidableEq H] {Q : Chain H D → Deed H D → Prop}

/-- **Votes alone confirm blocks.** -/
theorem mem_confirmedHashes_of_act (hact : Act K B Q c e c') {t : H}
    (ht : t ∈ confirmedHashes K (es ++ e) c') : t ∈ confirmedHashes K es c ∨
      ∃ stake v target, Q c (.count stake v target) ∧ target ∈ nodesL c.forktrees ∧
        t ∈ (c.confirms K stake v target).map (hash K) := by
  obtain ⟨b, hb, rfl⟩ := List.mem_map.1 ht
  rcases hact.mem_issued hb with hb | ⟨ev, hev, hconf⟩
  · exact Or.inl (List.mem_map_of_mem hb)
  right
  cases hev with
  | included | vote | finalized | discarded | missing => cases hconf
  | @confirmed stake v target _ hQ htarget hev =>
    rw [confirmations_eq] at hev
    obtain ⟨n, hn, rfl⟩ := List.mem_map.1 hev
    obtain rfl := Option.some.inj hconf
    exact ⟨stake, v, target, hQ, htarget, List.mem_map_of_mem hn⟩

/-- A block that arrives was not confirmed. -/
theorem Confirming.not_mem_of_arrives (hbind : Binding K fin B) (h : Confirming K fin B es c)
    {n : TreeNode H D} (hn : Arrives K B c c' n) : hash K n ∉ confirmedHashes K es c := by
  intro hmem
  refine (h.lived.fresh hbind hn.mem hn.admitted hn.fresh (hn.parent.imp id ?_)).1
    (h.source _ hmem)
  rintro ⟨p, hp, hphash⟩
  rw [← hphash]
  exact List.mem_map_of_mem (List.mem_map_of_mem hp)

/-- **Every act keeps confirmations in step with majorities**, where no vote
takes one away. -/
theorem Confirming.signals_of_act (hbind : Binding K fin B) (hpos : 0 < K.minimumMajorityStake)
    (hQ : ∀ c d, Q c d → Steady K c d) (hact : Act K B Q c e c') (hc : Standing K B c)
    (h : Confirming K fin B es c) : Signals K (es ++ e) c' := by
  rcases hact.count_or_keeps hc.formed es with ⟨stake, v, target, hq, htarget, rfl, rfl⟩ |
    ⟨hconfirmed, hnodes⟩
  · exact h.toSignals.of_count hc htarget (hQ _ _ hq)
  · have hperm : (confirmedHashes K (es ++ e) c').Perm (confirmedHashes K es c) :=
      hconfirmed.map K.hash
    refine ⟨hperm.nodup_iff.2 h.once, fun n' hn' => ?_⟩
    rw [hperm.mem_iff]
    rcases hnodes n' hn' with ⟨n, hn, hhash, hvotes⟩ | hnew
    · rw [hhash, hvotes]
      exact h.marked n hn
    · -- a new block was not confirmed, and has no votes
      refine iff_of_false (h.not_mem_of_arrives hbind hnew) ?_
      rw [hnew.votes]
      omega

/-- A root that is finalized was confirmed. -/
theorem Signals.of_split (h : Signals K es c) {before after : List (TreeNode H D)}
    {root : TreeNode H D}
    (hsplit : splitRoots (c.finalizable K) c.forktrees = some (before, root, after)) :
    hash K root ∈ confirmedHashes K es c := by
  rw [h.marked root (Rose.mem_nodesL_of_mem (sublist_splitRoots hsplit).1)]
  have hconf := confirmed_of_split hsplit
  simpa only [confirmed, decide_eq_true_eq] using hconf

/-- **Every act keeps them**, where no vote takes a majority away. -/
theorem Confirming.of_act (hbind : Binding K fin B) (hpos : 0 < K.minimumMajorityStake)
    (hQ : ∀ c d, Q c d → Steady K c d) (hact : Act K B Q c e c') (hc : Standing K B c)
    (h : Confirming K fin B es c) : Confirming K fin B (es ++ e) c' := by
  have hincluded : ∀ {t}, t ∈ (issued inclusion es c).map K.hash →
      t ∈ (issued inclusion (es ++ e) c').map K.hash := by
    intro t ht
    obtain ⟨b, hb, rfl⟩ := List.mem_map.1 ht
    exact List.mem_map_of_mem (hact.issued_mono hb)
  have hconfirmed : ∀ {t}, t ∈ confirmedHashes K es c → t ∈ confirmedHashes K (es ++ e) c' := by
    intro t ht
    obtain ⟨b, hb, rfl⟩ := List.mem_map.1 ht
    exact List.mem_map_of_mem (hact.issued_mono hb)
  refine ⟨h.signals_of_act hbind hpos hQ hact hc, lived_of_act hbind hact hc h.lived,
    fun t ht => ?_, fun b hb => ?_⟩
  · rcases mem_confirmedHashes_of_act hact ht with ht | ⟨stake, v, target, -, htarget, ht⟩
    · exact hincluded (h.source t ht)
    · -- a block of the forest was included
      obtain ⟨n, hn, rfl⟩ := List.mem_map.1 ht
      have hforest := (mem_nodes_of_mem_path hc.allocated.located hc.linked htarget
        (List.mem_of_mem_filter hn)).1
      refine hincluded (List.mem_map_of_mem ?_)
      rw [h.lived.places.mem_iff, List.mem_append]
      exact Or.inl (List.mem_map_of_mem hforest)
  · rcases hact.mem_finality hb with hb | ⟨before, after, root, hsplit, rfl⟩
    · exact hconfirmed (h.final b hb)
    · exact hconfirmed (h.toSignals.of_split hsplit)

/-! ## Runs -/

/-- **A vote takes a block to a majority.** -/
def Reaches (K : Config H D) (c : Chain H D) (v : Vote H) (t : H) : Prop :=
  ∃ n ∈ nodesL c.forktrees, ∃ n' ∈ nodesL (c.injestVote K v).forktrees,
    hash K n = t ∧ hash K n' = t ∧ votes n < K.minimumMajorityStake ∧
      K.minimumMajorityStake ≤ votes n'

theorem reaches_of_mem_confirms (hc : Standing K B c) {stake : ℕ} {v : Vote H}
    {target : TreeNode H D} (hcounts : c.counts K v = some (stake, target)) {t : H}
    (ht : t ∈ (c.confirms K stake v target).map (hash K)) : Reaches K c v t := by
  obtain ⟨-, -, -, hget, -, heq⟩ := counts_some hcounts
  have htarget := (TreeNode.get_some hget).1
  obtain ⟨n, hn, rfl⟩ := List.mem_map.1 ht
  have hforest : n ∈ nodesL c.forktrees := (mem_nodes_of_mem_path hc.allocated.located
    hc.linked htarget (List.mem_of_mem_filter hn)).1
  obtain ⟨hless, hle⟩ := (mem_confirms_iff hc htarget hforest).1 ht
  refine ⟨n, hforest, Rose.map (TreeNode.voted c.forktrees stake v.validator target) n, ?_, rfl,
    TreeNode.hash_voted n, hless, hle⟩
  rw [heq, forktrees_count]
  exact Rose.mem_nodesL_map.2 ⟨n, hforest, rfl⟩

/-- **The blocks a vote confirms are those it takes to a majority**, before
and after which confirmations tell who has one. -/
theorem Signals.of_counts (h : Signals K es c) (hc : Standing K B c) {stake : ℕ}
    {v : Vote H} {target : TreeNode H D} (hcounts : c.counts K v = some (stake, target))
    (hsteady : Steady K c (.count stake v target)) :
    Signals K es (c.injestVote K v) ∧ ∀ t, Reaches K c v t ↔
      t ∉ confirmedHashes K es c ∧ t ∈ confirmedHashes K es (c.injestVote K v) := by
  obtain ⟨-, -, -, hget, -, heq⟩ := counts_some hcounts
  have hafter := h.of_count hc (TreeNode.get_some hget).1 hsteady
  rw [List.append_nil, ← heq] at hafter
  refine ⟨hafter, fun t => ⟨?_, ?_⟩⟩
  · rintro ⟨n, hn, n', hn', rfl, hhash, hless, hle⟩
    rw [h.marked n hn, ← hhash, hafter.marked n' hn']
    omega
  · rintro ⟨hbefore, hmem⟩
    have hperm : (confirmedHashes K (es ++ []) (c.count K stake v target)).Perm
        ((c.confirms K stake v target).map (hash K) ++ confirmedHashes K es c) :=
      confirmedHashes_count
    rw [heq, ← List.append_nil es, hperm.mem_iff, List.mem_append] at hmem
    exact reaches_of_mem_confirms hc hcounts (hmem.resolve_right hbefore)

end Act

section Run

variable [DecidableEq H]

/-- The calls of `injest_vote` that take a block to a majority. -/
def ReachedIn (K : Config H D) (fin : Finalized H D) (inputs : List (Input H D)) (t : H) : Prop :=
  ∃ pre i post s stake v target, inputs = pre ++ i :: post ∧
    (s, .count stake v target) ∈ ((Chain.new fin).run K pre).deeds K i ∧ Reaches K s v t

/-- Every confirmation comes from a vote that took its block to a
majority. -/
theorem reachedIn_of_mem {inputs : List (Input H D)} {t : H}
    (ht : t ∈ confirmedHashes K ((Chain.new fin).delivered K inputs)
      ((Chain.new fin).run K inputs)) : ReachedIn K fin inputs t := by
  have hdeed : (Chain.new fin).Throughout K (fun s d => Done K s d ∧ ∃ pre i post,
      inputs = pre ++ i :: post ∧ (s, d) ∈ ((Chain.new fin).run K pre).deeds K i) inputs := by
    rintro ⟨s, d⟩ hp
    obtain ⟨pre, i, post, hsplit, hp⟩ := exists_of_mem_logged hp
    obtain ⟨-, -, hdone⟩ := deed_rule (P := fun _ _ => True) (fun p _ => calm_true p.2) trivial
      (fun _ _ _ _ _ _ => trivial) hsplit hp
    exact ⟨hdone, pre, i, post, hsplit, hp⟩
  refine run_standing (P := fun es c => ∀ t ∈ confirmedHashes K es c, ReachedIn K fin inputs t)
    hdeed (fun t ht => absurd ht List.not_mem_nil) (fun es c e c' hact hc h t ht => ?_) t ht
  rcases mem_confirmedHashes_of_act hact ht with ht | ⟨stake, v, target, hq, -, ht⟩
  · exact h t ht
  · obtain ⟨hcounts, pre, i, post, hsplit, hp⟩ := hq
    exact ⟨pre, i, post, c, stake, v, target, hsplit, hp, reaches_of_mem_confirms hc hcounts ht⟩

/-- **Every block is confirmed once, by the vote that takes it to a
majority.** In every run whose votes take no majority away, no hash is
confirmed twice, the blocks of the forest with a majority are those of it
that were confirmed, every block that is final was confirmed, and every
confirmation comes from a vote that took its block to a majority; before
and after each vote that is counted confirmations tell who has a majority,
what it confirms is what it takes to one, and a root was confirmed before it
is finalized. -/
theorem confirmedOnce_run (K : Config H D) (fin : Finalized H D) (inputs : List (Input H D))
    (hfree : CollisionFree K fin (inputBlocks inputs)) (hpos : 0 < K.minimumMajorityStake)
    (hQ : (Chain.new fin).Throughout K (Steady K) inputs) :
    let es := (Chain.new fin).delivered K inputs
    let c := (Chain.new fin).run K inputs
    Signals K es c ∧ (∀ b ∈ issued finality es c, K.hash b ∈ confirmedHashes K es c) ∧
      (∀ t ∈ confirmedHashes K es c, ReachedIn K fin inputs t) ∧
      ∀ pre i post, inputs = pre ++ i :: post →
        let es := (Chain.new fin).delivered K (pre ++ [i])
        let deeds := ((Chain.new fin).run K pre).deeds K i
        (∀ s stake v target, (s, .count stake v target) ∈ deeds → Signals K es s ∧
          Signals K es (s.injestVote K v) ∧ ∀ t, Reaches K s v t ↔
            t ∉ confirmedHashes K es s ∧ t ∈ confirmedHashes K es (s.injestVote K v)) ∧
        ∀ s root, (s, .finalize root) ∈ deeds → hash K root ∈ confirmedHashes K es s := by
  intro es c
  have hact : ∀ es c e c', Act K (inputBlocks inputs) (Steady K) c e c' →
      Standing K (inputBlocks inputs) c ∧ Confirming K fin (inputBlocks inputs) es c →
      Standing K (inputBlocks inputs) c' ∧ Confirming K fin (inputBlocks inputs) (es ++ e) c' :=
    fun es c e c' hact h =>
      ⟨h.1.of_act hact, h.2.of_act hfree.binding hpos (fun _ _ hq => hq) hact h.1⟩
  have hrun : Standing K (inputBlocks inputs) c ∧ Confirming K fin (inputBlocks inputs) es c :=
    run_rule hQ ⟨standing_new fin, confirming_new fin⟩ hact
  refine ⟨hrun.2.toSignals, hrun.2.final, fun t ht => reachedIn_of_mem ht, ?_⟩
  intro pre i post hsplit es deeds
  refine ⟨fun s stake v target hp => ?_, fun s root hp => ?_⟩
  · obtain ⟨⟨hc, h⟩, hsteady, hcounts⟩ :=
      deed_rule hQ ⟨standing_new fin, confirming_new fin⟩ hact hsplit hp
    exact ⟨h.toSignals, h.toSignals.of_counts hc hcounts hsteady⟩
  · obtain ⟨⟨-, h⟩, -, before, after, hroot⟩ :=
      deed_rule hQ ⟨standing_new fin, confirming_new fin⟩ hact hsplit hp
    exact h.toSignals.of_split hroot

end Run

open Sample in
/-- One vote confirms two blocks, the first of which is finalized. -/
theorem confirmedOnce_threeBlocks :
    let K := single .inPlace
    let es := (Chain.new genesis).delivered K threeBlocks
    let c := (Chain.new genesis).run K threeBlocks
    confirmedHashes K es c = [K.hash second, K.hash first] ∧
      issued finality es c = [first] ∧ Signals K es c := by
  have hfree : CollisionFree (single .inPlace) genesis (inputBlocks threeBlocks) :=
    .of_genesis rfl selfDelimiting_uvarint (by decide +kernel) (by decide +kernel)
  exact ⟨by decide +kernel, by decide +kernel, (confirmedOnce_run (single .inPlace) genesis
    threeBlocks hfree (by decide +kernel) (by decide +kernel)).1⟩

namespace Sample

/-- Two validators whose stakes sum up to 2 ^ 64, and one beside them. -/
def beside : Config ℕ Unit :=
  config .inPlace [(7, 2 ^ 63), (8, 2 ^ 63), (9, 1000)] fun _ _ => .ok {}

/-- A block with the votes of all of them for its parent. -/
def votedByAll : Produced ℕ Unit :=
  produce beside 7 (beside.hash first) 2 () [vote 7 (beside.hash first),
    vote 8 (beside.hash first), vote 9 (beside.hash first)]

/-- It arrives after its parent, and their inclusions are taken. -/
def allVote : List (Input ℕ Unit) :=
  [.include 0 first, .include 0 votedByAll] ++ List.replicate 3 (.pollNext 0)

end Sample

open Sample in
/-- The second vote takes the majority away that the first has made, and
the third makes it again: the block is confirmed twice. -/
theorem not_confirmedOnce_allVote : 0 < beside.minimumMajorityStake ∧
    Linked ((Chain.new genesis).run beside allVote).forktrees ∧
    ¬ (confirmedHashes beside ((Chain.new genesis).delivered beside allVote)
      ((Chain.new genesis).run beside allVote)).Nodup := by
  decide +kernel

end Chain

end Consensus

end Rensa
