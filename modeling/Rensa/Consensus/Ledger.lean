import Rensa.Common.Handed
import Rensa.Consensus.Deeds
import Rensa.Consensus.Transparency
/-!
# The chain as a ledger

What a validator is there for: a list of final blocks, each the child of
the one before it and executed on the accounts that one left (`replay`). The
chain gets there in another way. It executes a block when the block arrives,
on what it reads through the forest, and puts the change into the store when
the block is final, perhaps much later and after other forks were dropped.
Where every block was hung under a node that reads the accounts the ledger
has there (`Sees`), the chain is such a ledger (`ledger_run`).
-/

namespace Rensa

namespace Consensus

open Rose (nodes nodesL Path Handed handed)
open TreeNode (block diff hash path)
open ChainEvent (finality)

variable {H D : Type} [DecidableEq H] {K : Config H D}

/-! ## The ledger -/

namespace Finalized

variable {s : Finalized H D} {b : Produced H D} {x : Executed H D}

variable (K s) in
/-- One final block more: a child of the last one, executed on its
accounts. -/
def extend (b : Produced H D) : Option (Finalized H D) :=
  if b.parent = s.hash K ∧ b.height = s.height + 1 then
    match K.newExecuted s.store.get b with
    | .ok x => some (s.apply x)
    | .error _ => none
  else none

variable (K s) in
/-- **The ledger**: the last final block and the accounts, after a list of
final blocks. -/
def replay (bs : List (Produced H D)) : Option (Finalized H D) := bs.foldlM (extend K) s

variable (K) in
/-- The block is the next one of the ledger, with its outcome there. -/
def Executes (s : Finalized H D) (x : Executed H D) : Prop :=
  s.extend K x.underlying = some (s.apply x)

theorem executes_of_ok (hparent : b.parent = s.hash K) (hheight : b.height = s.height + 1)
    (hx : K.newExecuted s.store.get b = .ok x) : s.Executes K x := by
  obtain ⟨rfl, -⟩ := Chain.newExecuted_ok hx
  rw [Executes, extend, if_pos ⟨hparent, hheight⟩, hx]

@[simp] theorem replay_nil : s.replay K [] = some s := rfl

theorem replay_append (bs bs' : List (Produced H D)) :
    s.replay K (bs ++ bs') = (s.replay K bs).bind fun s => s.replay K bs' :=
  List.foldlM_append

/-- One block more at the end. -/
theorem replay_concat {fin : Finalized H D} {bs : List (Produced H D)}
    (h : fin.replay K bs = some s) (hx : s.Executes K x) :
    fin.replay K (bs ++ [x.underlying]) = some (s.apply x) := by
  rw [replay_append, h]
  show ((s.extend K x.underlying).bind fun s => some s) = _
  rw [hx]
  rfl

end Finalized

/-! ## Where blocks are executed -/

namespace Chain

section Sites

variable (K) (c : Chain H D)

/-- The node `try_include` hangs a block under, if it is not a root. -/
def parentNode (b : Produced H D) : Option (TreeNode H D) :=
  if c.knows K (K.hash b) then none
  else if b.parent = c.finalized.hash K then none
  else TreeNode.get K c.forktrees b.parent

/-- The nodes `include` and its nested calls hang blocks under, each with
the state in which they do. -/
def includeSites (now : ℕ) : ℕ → Chain H D → Produced H D → List (Chain H D × TreeNode H D)
  | 0, _, _ => []
  | fuel + 1, c, b =>
    if c.admits K b then
      match c.tryInclude K b with
      | .error _ => []
      | .ok none => []
      | .ok (some c') =>
        let c' := c'.voteIfHead K (K.hash b)
        let (waiting, orphans) := c'.orphans.consumeBlocks (K.hash b)
        ((c.parentNode K b).map fun p => (c, p)).toList ++
          logged (includeFrom K now fuel) (includeSites now fuel) (c'.withOrphans orphans) waiting
    else []

/-- Those of a call. -/
def sites : Input H D → List (Chain H D × TreeNode H D)
  | .include now b => includeSites K now (c.orphans.size + 1) c b
  | .pollNext _ => []

end Sites

/-- **A block hung under the node reads what the ledger has there**: no
account that the node or a block above it deletes or makes executable reads
otherwise through the forest. -/
def Sees (c : Chain H D) (p : TreeNode H D) : Prop :=
  ∀ l, Path c.forktrees (p :: l) → ∀ k,
    Transparent c.finalized.store k (path c.forktrees p).length ((p :: l).map diff)

variable {S : Chain H D → TreeNode H D → Prop} {c c' : Chain H D} {es e : List (ChainEvent H D)}

/-- **The acts of a chain**, with what has to hold where a block is hung
under another. -/
inductive Sighted (K : Config H D) (S : Chain H D → TreeNode H D → Prop) :
    Chain H D → List (ChainEvent H D) → Chain H D → Prop
  | wait {c : Chain H D} (o : Orphans H D) : Sighted K S c [] (c.withOrphans o)
  | root {c : Chain H D} {b : Produced H D} {x : Executed H D} (hadm : c.admits K b = true)
      (hnew : c.knows K (K.hash b) = false) (hparent : b.parent = c.finalized.hash K)
      (hheight : b.height = c.finalized.height + 1)
      (hx : K.newExecuted c.finalized.store.get b = .ok x) : Sighted K S c [] (c.addRoot x)
  | child {c : Chain H D} {b : Produced H D} {x : Executed H D} {p : TreeNode H D} (hS : S c p)
      (hadm : c.admits K b = true) (hnew : c.knows K (K.hash b) = false)
      (hparent : TreeNode.get K c.forktrees b.parent = some p)
      (hheight : b.height = p.block.height + 1)
      (hx : K.newExecuted (overlayed c.finalized.store.get (TreeNode.state c.forktrees p)) b =
        .ok x) : Sighted K S c [] (c.addUnder K p x)
  | cast {c : Chain H D} {n : TreeNode H D} (hhead : n.hash K = c.headHash K)
      (hget : TreeNode.get K c.forktrees (n.hash K) = some n) (hmay : c.mayVote K n = true) :
      Sighted K S c [] (c.cast K n)
  | count {c : Chain H D} {v : Vote H} {stake : ℕ} {target : TreeNode H D}
      (hcounts : c.counts K v = some (stake, target)) :
      Sighted K S c [] (c.count K stake v target)
  | finalize {c : Chain H D} {before after : List (TreeNode H D)} {root : TreeNode H D}
      (hsplit : splitRoots (c.finalizable K) c.forktrees = some (before, root, after)) :
      Sighted K S c [] (c.finalizeNext K (before ++ after) root)
  | miss {c : Chain H D} (missing : List H) :
      Sighted K S c []
        { c with events := missing.foldl (fun es h => .blockMissing h :: es) c.events }
  | pop {c : Chain H D} {event : ChainEvent H D} (hlast : c.events.getLast? = some event) :
      Sighted K S c [event] c.pop
  | record {c : Chain H D} (b : Produced H D) : Sighted K S c [] (c.postBlockFinalized K b)

theorem Sighted.act (h : Sighted K S c e c') : Act K Set.univ (fun _ _ => True) c e c' := by
  cases h with
  | wait o => exact .wait o
  | root hadm hnew hparent hheight hx => exact .root trivial hadm hnew hparent hheight hx
  | child _ hadm hnew hparent hheight hx => exact .child trivial hadm hnew hparent hheight hx
  | cast hhead hget hmay => exact .cast trivial hhead hget hmay
  | @count v stake target hcounts =>
    obtain ⟨hstake, hmin, hverify, htarget, hjust, -⟩ := counts_some hcounts
    exact .count trivial ⟨{ block target with votes := [v] }, trivial, List.mem_singleton_self v⟩
      hstake hmin hverify htarget hjust
  | finalize hsplit => exact .finalize trivial hsplit
  | miss missing => exact .miss missing
  | pop hlast => exact .pop hlast
  | record b => exact .record b

/-! ## Calls are sequences of acts -/

private abbrev Sights (K : Config H D) (S : Chain H D → TreeNode H D → Prop) (c c' : Chain H D) :
    Prop :=
  Trace (Sighted K S) c [] c'

private theorem sights_injestVote (c : Chain H D) (v : Vote H) :
    Sights K S c (c.injestVote K v) := by
  cases hcounts : c.counts K v with
  | none =>
    obtain ⟨o, -, heq⟩ := injestVote_none hcounts
    rw [heq]
    exact .single (.wait o)
  | some p =>
    obtain ⟨-, -, -, -, -, heq⟩ := counts_some hcounts
    rw [heq]
    exact .single (.count hcounts)

private theorem sights_countVotes (c : Chain H D) (votes : List (Vote H)) :
    Sights K S c (c.countVotes K votes) := by
  unfold countVotes
  induction votes generalizing c with
  | nil => exact .refl c
  | cons v votes ih => exact (sights_injestVote c v).trans_silent (ih _)

private theorem sights_finalizeLoop (fuel : ℕ) (c : Chain H D) :
    Sights K S c (finalizeLoop K fuel c) := by
  induction fuel generalizing c with
  | zero => exact .refl c
  | succ fuel ih =>
    simp only [finalizeLoop]
    split
    · exact .refl c
    · rename_i c' hc'
      obtain ⟨before, after, root, hsplit, rfl⟩ := tryFinalizeRoots_some hc'
      exact (Trace.single (.finalize hsplit)).trans_silent (ih _)

private theorem sights_postBlockIncluded (now : ℕ) (b : Produced H D) :
    Sights K S c (c.postBlockIncluded K now b) := by
  have hcount : Sights K S c (c.countAll K b) :=
    ((sights_countVotes c b.votes).trans_silent (.single (.wait _))).trans_silent
      (sights_countVotes _ _)
  have hfinal := hcount.trans_silent (sights_finalizeLoop (nodesL (c.countAll K b).forktrees).length
    (c.countAll K b))
  exact (hfinal.trans_silent (.single (.wait _))).trans_silent (.single (.miss _))

private theorem sights_pollNext (now : ℕ) :
    Trace (Sighted K S) c (c.pollNext K now).1.toList (c.pollNext K now).2 := by
  unfold pollNext
  split
  · exact .refl c
  · rename_i event hlast
    have hpop : Trace (Sighted K S) c [event] c.pop := .single (.pop hlast)
    dsimp only
    split
    · exact hpop.trans (sights_postBlockIncluded now _)
    · exact hpop.trans (.single (.record _))
    · exact hpop

private theorem sights_voteIfHead (h : H) : Sights K S c (c.voteIfHead K h) := by
  unfold voteIfHead commitAndVote
  split
  · rename_i hhead
    split
    · exact .refl c
    · rename_i n hn
      split
      · rename_i hmay
        have hhash : n.hash K = h := (TreeNode.get_some hn).2
        exact .single (.cast (hhash.trans hhead) (by rw [hhash]; exact hn) hmay)
      · exact .refl c
  · exact .refl c

private theorem sights_tryInclude {b : Produced H D} (hadm : c.admits K b = true)
    (hc' : c.tryInclude K b = .ok (some c')) (hS : ∀ p ∈ c.parentNode K b, S c p) :
    Sights K S c c' := by
  rcases tryInclude_ok hc' with ⟨rfl, -⟩ | ⟨hnew, ⟨x, hparent, hheight, hx, rfl⟩ |
    ⟨p, x, hparent, hget, hheight, hx, rfl⟩⟩
  · exact .refl c'
  · exact .single (.root hadm hnew hparent hheight hx)
  · have hp : c.parentNode K b = some p := by
      rw [parentNode, hnew, if_neg Bool.false_ne_true, if_neg hparent, hget]
    exact .single (.child (hS p hp) hadm hnew hget hheight hx)

private theorem sights_includeFrom {now : ℕ} (fuel : ℕ) (b : Produced H D)
    (hS : ∀ s ∈ includeSites K now fuel c b, S s.1 s.2) :
    Sights K S c (includeFrom K now fuel c b) := by
  induction fuel generalizing c b with
  | zero => exact .refl c
  | succ fuel ih =>
    simp only [includeSites] at hS
    simp only [includeFrom]
    split
    · rename_i hadm
      rw [if_pos hadm] at hS
      split
      · exact .refl c
      · exact .single (.wait _)
      · rename_i c' hc'
        rw [hc'] at hS
        dsimp only at hS
        have htaken : Sights K S c ((c'.voteIfHead K (K.hash b)).withOrphans
            ((c'.voteIfHead K (K.hash b)).orphans.consumeBlocks (K.hash b)).2) := by
          refine ((sights_tryInclude hadm hc' fun p hp => hS (c, p) ?_).trans_silent
            (sights_voteIfHead _)).trans_silent (.single (.wait _))
          rw [hp]
          exact List.mem_append_left _ List.mem_cons_self
        refine htaken.trans_silent (Trace.foldl (I := fun _ => True) trivial
          (fun s hs => hS s (List.mem_append_right _ hs)) fun d _ x _ hx => ?_).1
        exact ⟨ih x hx, trivial⟩
    · exact .refl c

/-- **Every run is a sequence of acts** with the condition at its sites. -/
theorem run_sighted (c : Chain H D) (inputs : List (Input H D))
    (hS : ∀ s ∈ logged (step K) (fun c i => c.sites K i) c inputs, S s.1 s.2) :
    Trace (Sighted K S) c (c.delivered K inputs) (c.run K inputs) := by
  induction inputs generalizing c with
  | nil => exact .refl c
  | cons i inputs ih =>
    have hstep : Trace (Sighted K S) c (c.returned K i) (c.step K i) := by
      cases i with
      | «include» now b =>
        exact sights_includeFrom _ b fun s hs => hS s (List.mem_append_left _ hs)
      | pollNext now => exact sights_pollNext now
    exact hstep.trans (ih _ fun s hs => hS s (List.mem_append_right _ hs))

/-! ## Executed one after the other -/

/-- **Every branch of the forest is a ledger** from the finalized block
on. -/
def Sequential (K : Config H D) (c : Chain H D) : Prop :=
  ∀ t ∈ c.forktrees, t.Handed (fun s a => s.apply a.value.block)
    (fun s a => s.Executes K a.value.block) c.finalized

/-- The ledger at a node, `l` being the path to it. -/
abbrev ledgerAt (c : Chain H D) (l : List (TreeNode H D)) : Finalized H D :=
  handed (fun s a => s.apply a.value.block) c.finalized l

omit [DecidableEq H] in
/-- The accounts there are the store with the diffs of the path applied. -/
theorem store_ledgerAt (c : Chain H D) (l : List (TreeNode H D)) :
    (c.ledgerAt l).store = c.finalized.store.applyAll (l.map diff) := by
  induction l with
  | nil => rfl
  | cons n l ih =>
    rw [List.map_cons, PersistentState.applyAll_cons, ← ih]
    rfl

theorem sequential_addRoot {x : Executed H D} (h : Sequential K c)
    (hx : c.finalized.Executes K x) : Sequential K (c.addRoot x) := by
  intro t ht
  rcases List.mem_append.1 ht with ht | ht
  · exact h t ht
  · rw [List.mem_singleton.1 ht]
    exact .leaf hx

/-- **A block hung under a node** where it reads what the ledger has. -/
theorem sequential_addUnder {b : Produced H D} {x : Executed H D} {p : TreeNode H D}
    (hc : Standing K Set.univ c) (h : Sequential K c) (hS : c.Sees p)
    (hget : TreeNode.get K c.forktrees b.parent = some p) (hheight : b.height = p.block.height + 1)
    (hx : K.newExecuted (overlayed c.finalized.store.get (TreeNode.state c.forktrees p)) b =
      .ok x) : Sequential K (c.addUnder K p x) := by
  obtain ⟨hp, hhash⟩ := TreeNode.get_some hget
  refine Rose.handed_graft h fun n l hpath hloc => .leaf ?_
  -- the block hangs under one node only
  obtain rfl : n = p := hc.allocated.located.eq (hpath.mem_nodesL n List.mem_cons_self) hp
    (of_decide_eq_true hloc)
  refine Finalized.executes_of_ok hhash.symm hheight ?_
  have hread : overlayed c.finalized.store.get (TreeNode.state c.forktrees n) =
      (c.ledgerAt (n :: l)).store.get := by
    obtain ⟨rest, hrest⟩ := prefix_path hc.allocated.located hc.linked hpath
    have hstate : TreeNode.state c.forktrees n =
        cascade (((n :: l).map diff).take (path c.forktrees n).length) := by
      rw [← List.map_take, ← hrest, List.take_left]
      exact state_eq_cascade _ _
    funext k
    rw [hstate, store_ledgerAt]
    exact (overlayed_cascade_iff _).2 (hS l hpath k)
  rw [hread] at hx
  exact hx

theorem sequential_count {stake : ℕ} {v : Vote H} {target : TreeNode H D} (h : Sequential K c) :
    Sequential K (c.count K stake v target) := by
  intro t ht
  obtain ⟨u, hu, rfl⟩ := List.mem_map.1 ht
  have hvalue : ∀ a : TreeCell H D,
      (TreeNode.voted c.forktrees stake v.validator target a).value.block = a.value.block :=
    fun a => (TreeNode.voted_fixed a).1
  refine (h u hu).map (fun s a => ?_) fun s a ha => ?_
  · exact congrArg s.apply (hvalue a)
  · exact (congrArg (s.Executes K) (hvalue a)).mpr ha

/-- **A root that is made final** was the next block of the ledger, and the
branches go on from there. -/
theorem sequential_finalizeNext {before after : List (TreeNode H D)} {root : TreeNode H D}
    (h : Sequential K c)
    (hsplit : splitRoots (c.finalizable K) c.forktrees = some (before, root, after)) :
    c.finalized.Executes K root.label.value.block ∧
      Sequential K (c.finalizeNext K (before ++ after) root) := by
  have hroot : root ∈ c.forktrees := by
    rw [(splitRoots_some hsplit).1]
    exact List.mem_append_right _ List.mem_cons_self
  refine ⟨(h root hroot).label, fun t ht => ?_⟩
  obtain ⟨u, hu, l, rfl⟩ := TreeNode.mem_of_mem_moveRoots ht
  have hchild := (h root hroot).children u hu
  rw [← Rose.node_eta u] at hchild
  exact hchild.relabel rfl id

/-! ## The final blocks in order -/

omit [DecidableEq H] in
/-- The blocks that were made final, in order: those whose events were
returned, `es`, and those whose events wait. -/
def log (es : List (ChainEvent H D)) (c : Chain H D) : List (Produced H D) :=
  (es ++ c.events.reverse).filterMap finality

omit [DecidableEq H] in
/-- Events in front of those that wait, and others behind them that make
nothing final. -/
private theorem log_push {l r : List (ChainEvent H D)} (hevents : c'.events = l ++ c.events ++ r)
    (hr : ∀ ev ∈ r, finality ev = none) :
    log (es ++ []) c' = log es c ++ l.reverse.filterMap finality := by
  have hquiet : r.reverse.filterMap finality = [] :=
    List.filterMap_eq_nil_iff.2 fun ev hev => hr ev (List.mem_reverse.1 hev)
  unfold log
  rw [hevents, List.append_nil, List.reverse_append, List.reverse_append]
  simp only [List.filterMap_append, hquiet, List.nil_append, List.append_assoc]

omit [DecidableEq H] in
private theorem log_silent {l r : List (ChainEvent H D)} (hevents : c'.events = l ++ c.events ++ r)
    (hl : ∀ ev ∈ l, finality ev = none) (hr : ∀ ev ∈ r, finality ev = none) :
    log (es ++ []) c' = log es c := by
  have hquiet : l.reverse.filterMap finality = [] :=
    List.filterMap_eq_nil_iff.2 fun ev hev => hl ev (List.mem_reverse.1 hev)
  rw [log_push hevents hr, hquiet, List.append_nil]

/-- **The chain is a ledger** that was started from `fin`. -/
structure Ledgered (K : Config H D) (fin : Finalized H D) (es : List (ChainEvent H D))
    (c : Chain H D) : Prop where
  standing : Standing K Set.univ c
  replayed : fin.replay K (log es c) = some c.finalized
  sequential : Sequential K c

theorem ledgered_new (fin : Finalized H D) : Ledgered K fin [] (Chain.new fin) :=
  ⟨standing_new fin, rfl, fun _ ht => absurd ht List.not_mem_nil⟩

/-- **Every act keeps the ledger.** -/
theorem Ledgered.of_sighted {fin : Finalized H D} (h : Ledgered K fin es c)
    (hact : Sighted K Sees c e c') : Ledgered K fin (es ++ e) c' := by
  have hstanding : Standing K Set.univ c' := h.standing.of_act hact.act
  -- the acts that leave the log and the finalized block alone
  have hsame : log (es ++ e) c' = log es c → c'.finalized = c.finalized → Sequential K c' →
      Ledgered K fin (es ++ e) c' := by
    intro hlog hfin hseq
    refine ⟨hstanding, ?_, hseq⟩
    rw [hlog, hfin]
    exact h.replayed
  cases hact with
  | wait | record =>
    exact hsame (log_silent (l := []) (r := []) (List.append_nil _).symm (by simp) (by simp)) rfl
      h.sequential
  | cast =>
    exact hsame (log_silent (l := [.vote _ _]) (r := []) (List.append_nil _).symm (by simp)
      (by simp)) rfl h.sequential
  | root hadm hnew hparent hheight hx =>
    exact hsame (log_silent (l := [.blockIncluded _]) (r := []) (List.append_nil _).symm (by simp)
      (by simp)) rfl
        (sequential_addRoot h.sequential (Finalized.executes_of_ok hparent hheight hx))
  | child hS hadm hnew hget hheight hx =>
    exact hsame (log_silent (l := [.blockIncluded _]) (r := []) (List.append_nil _).symm (by simp)
      (by simp)) rfl (sequential_addUnder h.standing h.sequential hS hget hheight hx)
  | count =>
    refine hsame (log_silent (l := []) rfl (by simp) fun ev hev => ?_) rfl
      (sequential_count h.sequential)
    obtain ⟨x, votes, rfl⟩ := mem_confirmations hev
    rfl
  | miss missing =>
    refine hsame (log_silent (l := (missing.map .blockMissing).reverse) (r := []) ?_ ?_ (by simp))
      rfl h.sequential
    · rw [List.append_nil]
      exact foldl_push _ _ _
    · intro ev hev
      obtain ⟨t, -, rfl⟩ := List.mem_map.1 (List.mem_reverse.1 hev)
      rfl
  | @pop event hlast =>
    refine hsame ?_ rfl h.sequential
    have hsplit : c.events.dropLast ++ [event] = c.events :=
      List.dropLast_append_getLast? event hlast
    unfold log
    conv_rhs => rw [← hsplit, List.reverse_append]
    rw [List.append_assoc]
    rfl
  | @finalize before after root hsplit =>
    obtain ⟨hroot, hrest⟩ := sequential_finalizeNext h.sequential hsplit
    refine ⟨hstanding, ?_, hrest⟩
    have hevents := events_finalizeNext h.standing.formed hsplit
    rw [← List.cons_append, ← List.append_nil (_ ++ c.events)] at hevents
    have hdiscards : ((nodesL (before ++ after)).map fun n =>
        ChainEvent.blockDiscarded (block n)).filterMap finality = ([] : List (Produced H D)) := by
      refine List.filterMap_eq_nil_iff.2 fun ev hev => ?_
      obtain ⟨n, -, rfl⟩ := List.mem_map.1 hev
      rfl
    rw [log_push hevents (by simp), List.reverse_cons, List.filterMap_append,
      List.reverse_reverse, hdiscards]
    exact Finalized.replay_concat h.replayed hroot

/-- **A branch of the forest goes on with the ledger.** -/
theorem Ledgered.branch {fin : Finalized H D} (h : Ledgered K fin es c)
    {l : List (TreeNode H D)} (hl : l = [] ∨ Path c.forktrees l) :
    fin.replay K (log es c ++ (l.map block).reverse) = some (c.ledgerAt l) := by
  induction l with
  | nil =>
    rw [List.map_nil, List.reverse_nil, List.append_nil]
    exact h.replayed
  | cons n l ih =>
    obtain hpath : Path c.forktrees (n :: l) := hl.resolve_left (List.cons_ne_nil n l)
    have hrest : l = [] ∨ Path c.forktrees l := by
      cases hpath with
      | root => exact .inl rfl
      | step hpath _ => exact .inr hpath
    rw [List.map_cons, List.reverse_cons, ← List.append_assoc]
    exact Finalized.replay_concat (ih hrest) (Rose.handed_path h.sequential hpath).label

/-- **The chain is a ledger.** In every run in which every block is hung
under a node that reads what the ledger has there: replaying the blocks
that were made final, in order, gives the finalized block and the store; and
replaying the blocks of a branch of the forest after them gives the last one
of these and the store with the changes of the branch. -/
theorem ledger_run (K : Config H D) (fin : Finalized H D) (inputs : List (Input H D))
    (hS : ∀ s ∈ logged (step K) (fun c i => c.sites K i) (Chain.new fin) inputs, Sees s.1 s.2) :
    let c := (Chain.new fin).run K inputs
    let final := log ((Chain.new fin).delivered K inputs) c
    fin.replay K final = some c.finalized ∧
      ∀ n l, Path c.forktrees (n :: l) →
        fin.replay K (final ++ ((n :: l).map block).reverse) =
          some ⟨some (block n), c.finalized.store.applyAll ((n :: l).map diff)⟩ := by
  have h := (run_sighted (Chain.new fin) inputs hS).rule (P := Ledgered K fin) (ledgered_new fin)
    fun _ _ _ _ hact h => h.of_sighted hact
  refine ⟨h.replayed, fun n l hpath => ?_⟩
  rw [h.branch (.inr hpath), ← store_ledgerAt]
  rfl

/-! ## Changes that read the same -/

/-- The change deletes no account and makes none executable. -/
def Plain (d : StateDiff) : Prop :=
  d.deletes.toList = [] ∧ ∀ p ∈ d.data.toList, p.2.executable = false

instance (d : StateDiff) : Decidable (Plain d) :=
  inferInstanceAs (Decidable (_ ∧ _))

omit [DecidableEq H] in
/-- **Blocks with such changes read the same** where the walk goes all the
way up. -/
theorem transparent_of_plain {s : PersistentState} {k : Pubkey} {ds : List StateDiff}
    (h : ∀ d ∈ ds, Plain d) : Transparent s k ds.length ds := by
  induction ds with
  | nil => trivial
  | cons d ds ih =>
    obtain ⟨hdeletes, hdata⟩ := h d List.mem_cons_self
    have hk : k ∉ d.deletes := by
      rw [← Std.ExtTreeSet.mem_toList, hdeletes]
      exact List.not_mem_nil
    rw [List.length_cons, Transparent, if_neg hk]
    cases hget : d.get k with
    | none => exact ih fun e he => h e (List.mem_cons_of_mem _ he)
    | some a =>
      exact hdata (k, a) (Std.ExtTreeMap.mem_toList_iff_getElem?_eq_some.2 hget)

omit [DecidableEq H] in
/-- A forest of such blocks in which every walk goes all the way up. -/
structure Clear (c : Chain H D) : Prop where
  located : Located c.forktrees
  linked : Linked c.forktrees
  plain : ∀ n ∈ nodesL c.forktrees, Plain (diff n)

omit [DecidableEq H] in
instance (c : Chain H D) : Decidable (Clear c) :=
  decidable_of_iff (((Rose.labels c.forktrees).map TreeCell.loc).Nodup ∧ Linked c.forktrees ∧
    ∀ n ∈ nodesL c.forktrees, Plain (diff n))
    ⟨fun h => ⟨h.1, h.2.1, h.2.2⟩, fun h => ⟨h.located, h.linked, h.plain⟩⟩

omit [DecidableEq H] in
theorem Clear.sees (h : Clear c) {p : TreeNode H D} : c.Sees p := by
  intro l hpath k
  rw [path_eq h.located h.linked p l hpath, ← List.length_map]
  refine transparent_of_plain fun d hd => ?_
  obtain ⟨n, hn, rfl⟩ := List.mem_map.1 hd
  exact h.plain n (hpath.mem_nodesL n hn)

namespace Sample

/-- One validator, and blocks that count in an account. -/
def counter : Config ℕ Unit := config .inPlace [(7, 1000)] fun s _ =>
  .ok { state := ({} : StateDiff).set 200 { nonce := ((s 200).map Account.nonce).getD 0 + 1 } }

end Sample

/-- The first of three blocks that count is final, the others are a branch
above it. -/
theorem ledger_threeBlocks :
    let c := (Chain.new Sample.genesis).run Sample.counter Sample.threeBlocks
    let final := log ((Chain.new Sample.genesis).delivered Sample.counter Sample.threeBlocks) c
    final = [Sample.first] ∧ Sample.genesis.replay Sample.counter final = some c.finalized ∧
      ∀ n l, Path c.forktrees (n :: l) →
        Sample.genesis.replay Sample.counter (final ++ ((n :: l).map block).reverse) =
          some ⟨some (block n), c.finalized.store.applyAll ((n :: l).map diff)⟩ := by
  refine ⟨by decide +kernel, ledger_run Sample.counter Sample.genesis Sample.threeBlocks ?_⟩
  have hsites : ∀ s ∈ logged (step Sample.counter) (fun c i => c.sites Sample.counter i)
      (Chain.new Sample.genesis) Sample.threeBlocks, Clear s.1 := by
    decide +kernel
  exact fun s hs => (hsites s hs).sees

end Chain

end Consensus

end Rensa
