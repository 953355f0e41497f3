import Rensa.Consensus.Links
/-!
# What a chain has issued

The events a chain has issued are those it returned and those that still
wait in its queue; an act adds some and takes none away. `run_standing` is
the rule for runs with what every run keeps of the forest (`Standing`) at
hand for each act.
-/

open Relation (ReflTransGen)

namespace Rensa

namespace Consensus

open Rose (nodes nodesL labels)
open TreeNode (block hash)

variable {H D β : Type}

namespace ChainEvent

/-- The block of a `BlockIncluded` event. -/
@[simp] def inclusion : ChainEvent H D → Option (Produced H D)
  | .blockIncluded x => some x.underlying
  | _ => none

/-- The block of a `BlockConfirmed` event. -/
@[simp] def confirmation : ChainEvent H D → Option (Produced H D)
  | .blockConfirmed x _ => some x.underlying
  | _ => none

/-- The block of a `BlockFinalized` event. -/
@[simp] def finality : ChainEvent H D → Option (Produced H D)
  | .blockFinalized x _ => some x.underlying
  | _ => none

/-- The block of a `BlockDiscarded` event. -/
@[simp] def discarding : ChainEvent H D → Option (Produced H D)
  | .blockDiscarded b => some b
  | _ => none

/-- The justification and the target of a `Vote` event. -/
@[simp] def ballot : ChainEvent H D → Option (H × H)
  | .vote target justification => some (justification, target)
  | _ => none

end ChainEvent

open ChainEvent (confirmation ballot)

namespace Chain

variable {K : Config H D} {B : Set (Produced H D)} {Q : Chain H D → Deed H D → Prop}
  {c c' : Chain H D} {es e : List (ChainEvent H D)} {f : ChainEvent H D → Option β}

/-- What `f` reads in the events that were returned, `es`, and in those
that wait. -/
def issued (f : ChainEvent H D → Option β) (es : List (ChainEvent H D)) (c : Chain H D) : List β :=
  (es ++ c.events).filterMap f

theorem mem_issued {b : β} :
    b ∈ issued f es c ↔ ∃ ev, (ev ∈ es ∨ ev ∈ c.events) ∧ f ev = some b := by
  simp only [issued, List.mem_filterMap, List.mem_append]

/-- Events put into the queue, at whichever end. -/
theorem issued_push {l : List (ChainEvent H D)} (h : c'.events.Perm (l ++ c.events)) :
    (issued f (es ++ []) c').Perm (l.filterMap f ++ issued f es c) := by
  have hperm : (es ++ [] ++ c'.events).Perm (l ++ (es ++ c.events)) := by
    rw [List.append_nil]
    refine (h.append_left es).trans ?_
    rw [← List.append_assoc, ← List.append_assoc]
    exact List.perm_append_comm.append_right _
  have hread := hperm.filterMap f
  rwa [List.filterMap_append (l := l)] at hread

/-- Nothing put into the queue that `f` reads. -/
theorem issued_silent {l : List (ChainEvent H D)} (h : c'.events.Perm (l ++ c.events))
    (hl : ∀ ev ∈ l, f ev = none) : (issued f (es ++ []) c').Perm (issued f es c) := by
  have hread : (issued f (es ++ []) c').Perm (l.filterMap f ++ issued f es c) := issued_push h
  rwa [List.filterMap_eq_nil_iff.2 hl, List.nil_append] at hread

/-- An event that is returned was in the queue. -/
theorem issued_pop {event : ChainEvent H D} (h : c.events.getLast? = some event) :
    (issued f (es ++ [event]) c.pop).Perm (issued f es c) := by
  have hsplit : c.events.dropLast ++ [event] = c.events := List.dropLast_append_getLast? event h
  have hperm : (es ++ [event] ++ c.pop.events).Perm (es ++ c.events) := by
    rw [List.append_assoc]
    exact List.Perm.append_left es (List.perm_append_comm.trans (.of_eq hsplit))
  exact hperm.filterMap f

theorem foldl_push {α : Type} (g : α → ChainEvent H D) (l : List α) (q : List (ChainEvent H D)) :
    l.foldl (fun es a => g a :: es) q = (l.map g).reverse ++ q := by
  induction l generalizing q with
  | nil => rfl
  | cons a l ih =>
    rw [List.foldl_cons, ih, List.map_cons, List.reverse_cons, List.append_assoc,
      List.singleton_append]

/-- Requests for missing blocks are all that is put into the queue. -/
theorem issued_miss (missing : List H) (hf : ∀ t, f (.blockMissing t) = none) :
    (issued f (es ++ [])
      { c with events := missing.foldl (fun es h => .blockMissing h :: es) c.events }).Perm
      (issued f es c) := by
  refine issued_silent (.of_eq (foldl_push _ _ _)) fun ev hev => ?_
  rw [List.mem_reverse, List.mem_map] at hev
  obtain ⟨t, -, rfl⟩ := hev
  exact hf t

/-- Confirmations are all that a counted vote puts into the queue. -/
theorem issued_count {stake : ℕ} {v : Vote H} {target : TreeNode H D}
    (hf : ∀ x votes, f (.blockConfirmed x votes) = none) :
    (issued f (es ++ []) (c.count K stake v target)).Perm (issued f es c) := by
  refine issued_silent List.perm_append_comm fun ev hev => ?_
  obtain ⟨x, votes, rfl⟩ := mem_confirmations hev
  exact hf x votes

variable [DecidableEq H]

/-! ## The events of each act -/

/-- What a finalized root puts into the queue. -/
theorem events_finalizeNext {before after : List (TreeNode H D)} {root : TreeNode H D}
    (h : WellFormed K c)
    (hsplit : splitRoots (c.finalizable K) c.forktrees = some (before, root, after)) :
    (c.finalizeNext K (before ++ after) root).events =
      .blockFinalized root.label.value.block root.votes ::
        (((nodesL (before ++ after)).map fun n => .blockDiscarded (block n)).reverse ++
          c.events) := by
  -- no other root has the hash of the root that is finalized
  have hothers : (before ++ after).filter (fun t => hash K t ≠ hash K root) = before ++ after := by
    rw [List.filter_eq_self]
    intro t ht
    have hforest : c.forktrees = before ++ root :: after := (splitRoots_some hsplit).1
    have hperm := Rose.perm_nodesL_middle before after root
    have hnodup := h.hashed.nodup
    rw [hforest, hperm.nodup_iff, List.nodup_cons] at hnodup
    have ht' : t ∈ nodesL (before ++ after) := Rose.mem_nodesL_of_mem ht
    have hin : ∀ n, n = root ∨ n ∈ nodesL (before ++ after) → n ∈ nodesL c.forktrees := by
      intro n hn
      rw [hforest, hperm.mem_iff, List.mem_cons, List.mem_append]
      exact hn.imp id Or.inr
    simp only [ne_eq, decide_not, Bool.not_eq_true', decide_eq_false_iff_not]
    intro heq
    obtain rfl := h.hashed.eq (hin t (Or.inr ht')) (hin root (Or.inl rfl)) heq
    exact hnodup.1 (List.mem_append_right _ ht')
  rw [finalizeNext, finalizeRoot, hothers, foldl_push]

/-- What is read in the events of a finalized root. -/
theorem issued_finalizeNext (f : ChainEvent H D → Option β) (es : List (ChainEvent H D))
    {before after : List (TreeNode H D)} {root : TreeNode H D} (h : WellFormed K c)
    (hsplit : splitRoots (c.finalizable K) c.forktrees = some (before, root, after)) :
    (issued f (es ++ []) (c.finalizeNext K (before ++ after) root)).Perm
      ((f (.blockFinalized root.label.value.block root.votes)).toList ++
        ((nodesL (before ++ after)).filterMap fun n => f (.blockDiscarded (block n))) ++
        issued f es c) := by
  have hpush : (c.finalizeNext K (before ++ after) root).events.Perm
      (([.blockFinalized root.label.value.block root.votes] ++
        ((nodesL (before ++ after)).map fun n => .blockDiscarded (block n)).reverse) ++ c.events) :=
    .of_eq (events_finalizeNext h hsplit)
  refine (issued_push hpush).trans (List.Perm.append_right _ ?_)
  rw [List.filterMap_append, List.filterMap_reverse, List.filterMap_map]
  refine List.Perm.append (.of_eq ?_) (List.reverse_perm _)
  cases hf : f (.blockFinalized root.label.value.block root.votes) <;> simp [hf]

/-- **The events an act puts into the queue**, with what led to them. -/
inductive Issues (K : Config H D) (B : Set (Produced H D)) (Q : Chain H D → Deed H D → Prop)
    (c : Chain H D) : ChainEvent H D → Prop
  | included {x : Executed H D} (hB : x.underlying ∈ B) : Issues K B Q c (.blockIncluded x)
  | vote {n : TreeNode H D} (hn : n ∈ nodesL c.forktrees) (hQ : Q c (.vote n)) :
      Issues K B Q c (.vote (hash K n) (c.finalized.hash K))
  | confirmed {stake : ℕ} {v : Vote H} {target : TreeNode H D} {ev : ChainEvent H D}
      (hQ : Q c (.count stake v target)) (htarget : target ∈ nodesL c.forktrees)
      (hev : ev ∈ confirmations K stake v.validator (TreeNode.path c.forktrees target)) :
      Issues K B Q c ev
  | finalized {before after : List (TreeNode H D)} {root : TreeNode H D}
      (hsplit : splitRoots (c.finalizable K) c.forktrees = some (before, root, after)) :
      Issues K B Q c (.blockFinalized root.label.value.block root.votes)
  | discarded {n : TreeNode H D} (hn : n ∈ nodesL c.forktrees) :
      Issues K B Q c (.blockDiscarded (block n))
  | missing (t : H) : Issues K B Q c (.blockMissing t)

/-- **What an act puts into the queue**, at whichever end. -/
theorem Act.issues (hact : Act K B Q c e c') : ∃ l, (e ++ c'.events).Perm (l ++ c.events) ∧
    ∀ ev ∈ l, Issues K B Q c ev := by
  cases hact with
  | wait | record => exact ⟨[], .refl _, fun _ hev => absurd hev List.not_mem_nil⟩
  | @root b x hB _ _ _ _ hx | @child b x p hB _ _ _ _ hx =>
    obtain ⟨rfl, -⟩ := newExecuted_ok hx
    refine ⟨[.blockIncluded x], .refl _, fun ev hev => ?_⟩
    obtain rfl := List.mem_singleton.1 hev
    exact .included hB
  | @cast n hQ _ hget _ =>
    refine ⟨[.vote (hash K n) (c.finalized.hash K)], .refl _, fun ev hev => ?_⟩
    obtain rfl := List.mem_singleton.1 hev
    exact .vote (TreeNode.get_some hget).1 hQ
  | @count v stake target hQ _ _ _ _ htarget _ =>
    refine ⟨confirmations K stake v.validator (TreeNode.path c.forktrees target), ?_,
      fun ev hev => .confirmed hQ (TreeNode.get_some htarget).1 hev⟩
    rw [List.nil_append]
    exact List.perm_append_comm
  | @finalize before after root _ hsplit =>
    refine ⟨.blockFinalized root.label.value.block root.votes ::
      ((nodesL ((before ++ after).filter fun t => hash K t ≠ hash K root)).map
        fun n => .blockDiscarded (block n)).reverse, ?_, fun ev hev => ?_⟩
    · rw [finalizeNext, finalizeRoot, foldl_push]
      exact .refl _
    · rcases List.mem_cons.1 hev with rfl | hev
      · exact .finalized hsplit
      · rw [List.mem_reverse, List.mem_map] at hev
        obtain ⟨n, hn, rfl⟩ := hev
        -- the trees beside the root are trees of the forest
        obtain ⟨t, ht, hnt⟩ := Rose.mem_nodesL.1 hn
        refine .discarded (Rose.mem_nodesL.2 ⟨t, ?_, hnt⟩)
        rw [(splitRoots_some hsplit).1, List.mem_append, List.mem_cons]
        rcases List.mem_append.1 (List.mem_of_mem_filter ht) with ht | ht
        · exact Or.inl ht
        · exact Or.inr (Or.inr ht)
  | miss missing =>
    refine ⟨_, .of_eq (foldl_push _ _ _), fun ev hev => ?_⟩
    rw [List.mem_reverse, List.mem_map] at hev
    obtain ⟨t, -, rfl⟩ := hev
    exact .missing t
  | @pop event hlast =>
    refine ⟨[], ?_, fun _ hev => absurd hev List.not_mem_nil⟩
    exact List.perm_append_comm.trans (.of_eq (List.dropLast_append_getLast? event hlast))

/-- No act takes an event away that it does not return. -/
theorem Act.keeps (hact : Act K B Q c e c') {ev : ChainEvent H D} (hev : ev ∈ c.events) :
    ev ∈ e ∨ ev ∈ c'.events := by
  obtain ⟨l, hperm, -⟩ := hact.issues
  rw [← List.mem_append, hperm.mem_iff]
  exact List.mem_append_right l hev

/-- What was issued stays issued. -/
theorem Act.issued_mono (hact : Act K B Q c e c') {b : β} (hb : b ∈ issued f es c) :
    b ∈ issued f (es ++ e) c' := by
  obtain ⟨ev, hev, hfev⟩ := mem_issued.1 hb
  refine mem_issued.2 ⟨ev, ?_, hfev⟩
  rw [List.mem_append]
  rcases hev with hev | hev
  · exact Or.inl (Or.inl hev)
  · rcases hact.keeps hev with hev | hev
    · exact Or.inl (Or.inr hev)
    · exact Or.inr hev

/-- What is read in the events after an act was read before it, or in what
the act has put into the queue. -/
theorem Act.mem_issued (hact : Act K B Q c e c') {b : β} (hb : b ∈ issued f (es ++ e) c') :
    b ∈ issued f es c ∨ ∃ ev, Issues K B Q c ev ∧ f ev = some b := by
  obtain ⟨l, hperm, hl⟩ := hact.issues
  obtain ⟨ev, hev, hfev⟩ := List.mem_filterMap.1 hb
  rw [List.append_assoc, (hperm.append_left es).mem_iff, List.mem_append, List.mem_append] at hev
  rcases hev with hev | hev | hev
  · exact Or.inl (Chain.mem_issued.2 ⟨ev, Or.inl hev, hfev⟩)
  · exact Or.inr ⟨ev, hl ev hev, hfev⟩
  · exact Or.inl (Chain.mem_issued.2 ⟨ev, Or.inr hev, hfev⟩)

/-- **A block that an act makes final** is that of a root which is split off
the forest. -/
theorem Act.mem_finality (hact : Act K B Q c e c') {b : Produced H D}
    (hb : b ∈ issued ChainEvent.finality (es ++ e) c') :
    b ∈ issued ChainEvent.finality es c ∨ ∃ before after root,
      splitRoots (c.finalizable K) c.forktrees = some (before, root, after) ∧ block root = b := by
  rcases hact.mem_issued hb with hb | ⟨ev, hev, hfinal⟩
  · exact .inl hb
  cases hev with
  | included | vote | discarded | missing => cases hfinal
  | confirmed _ _ hev =>
    obtain ⟨x, n, rfl⟩ := mem_confirmations hev
    cases hfinal
  | @finalized before after root hsplit =>
    exact .inr ⟨before, after, root, hsplit, Option.some.inj hfinal⟩

/-- **A node of a block that was included**, with the checks it passed. -/
structure Arrives (K : Config H D) (B : Set (Produced H D)) (c c' : Chain H D)
    (n : TreeNode H D) : Prop where
  mem : block n ∈ B
  admitted : c.admits K (block n) = true
  fresh : c.knows K (hash K n) = false
  parent : (block n).parent = c.finalized.hash K ∨
    ∃ p ∈ nodesL c.forktrees, hash K p = (block n).parent
  event : .blockIncluded n.label.value.block ∈ c'.events
  votes : n.votes = 0

/-- **What an act does to blocks and votes**: it counts a vote, or it
confirms nothing and every node has the block and the votes of one that was
there, or is new. -/
theorem Act.count_or_keeps (hact : Act K B Q c e c') (hc : WellFormed K c)
    (es : List (ChainEvent H D)) :
    (∃ stake v target, Q c (.count stake v target) ∧ target ∈ nodesL c.forktrees ∧ e = [] ∧
      c' = c.count K stake v target) ∨
    (issued confirmation (es ++ e) c').Perm (issued confirmation es c) ∧
      ∀ n' ∈ nodesL c'.forktrees,
        (∃ n ∈ nodesL c.forktrees, hash K n' = hash K n ∧ TreeNode.votes n' = TreeNode.votes n) ∨
          Arrives K B c c' n' := by
  have hkept : ∀ n ∈ nodesL c.forktrees,
      (∃ m ∈ nodesL c.forktrees, hash K n = hash K m ∧ TreeNode.votes n = TreeNode.votes m) ∨
        Arrives K B c c' n := fun n hn => Or.inl ⟨n, hn, rfl, rfl⟩
  cases hact with
  | wait | record =>
    refine Or.inr ⟨?_, hkept⟩
    rw [List.append_nil]
    exact .refl _
  | @root b x hB hadm hnew hparent _ hx =>
    obtain ⟨rfl, -⟩ := newExecuted_ok hx
    refine Or.inr ⟨issued_silent (l := [.blockIncluded x]) (.refl _) (by simp), fun n hn => ?_⟩
    change n ∈ nodesL (c.forktrees ++ [TreeNode.leaf c.nextLoc x none]) at hn
    rw [Rose.nodesL_append, List.mem_append] at hn
    rcases hn with hn | hn
    · exact hkept n hn
    · obtain rfl : n = TreeNode.leaf c.nextLoc x none := by
        simpa [TreeNode.leaf, Rose.nodes_node] using hn
      exact Or.inr ⟨hB, hadm, hnew, Or.inl hparent, List.mem_cons_self, rfl⟩
  | @child b x p hB hadm hnew hparent _ hx =>
    obtain ⟨rfl, -⟩ := newExecuted_ok hx
    obtain ⟨hp, hphash⟩ := TreeNode.get_some hparent
    refine Or.inr ⟨issued_silent (l := [.blockIncluded x]) (.refl _) (by simp), fun n hn => ?_⟩
    rcases (TreeNode.mem_addChild hp).1 hn with ⟨m, hm, rfl⟩ | rfl
    · refine Or.inl ⟨m, hm, TreeNode.hash_grown, ?_⟩
      rw [TreeNode.votes, TreeNode.label_grown, TreeNode.votes]
    · exact Or.inr ⟨hB, hadm, hnew, Or.inr ⟨p, hp, hphash⟩, List.mem_cons_self, rfl⟩
  | cast => exact Or.inr ⟨issued_silent (l := [.vote _ _]) (.refl _) (by simp), hkept⟩
  | miss missing => exact Or.inr ⟨issued_miss missing fun _ => rfl, hkept⟩
  | pop hlast => exact Or.inr ⟨issued_pop hlast, hkept⟩
  | @count v stake target hQ _ _ _ _ htarget _ =>
    exact Or.inl ⟨stake, v, target, hQ, (TreeNode.get_some htarget).1, rfl, rfl⟩
  | finalize _ hsplit =>
    have hread := issued_finalizeNext confirmation es hc hsplit
    refine Or.inr ⟨by simpa using hread, fun n' hn' => Or.inl ?_⟩
    -- the children that become roots keep their votes, and so do the nodes below them
    have hroot := Rose.mem_nodesL_of_mem (sublist_splitRoots hsplit).1
    obtain ⟨n, hn, hvalue, -, -⟩ := TreeNode.exists_of_mem_moveRoots hn'
    refine ⟨n, Rose.mem_nodesL_of_mem_below hroot hn, ?_, ?_⟩
    · simp only [TreeNode.hash, block, hvalue]
    · simp only [TreeNode.votes, hvalue]

/-! ## Runs -/

/-- What was issued stays issued, however a run goes on. -/
theorem issued_mono {fin : Finalized H D} {pre post : List (Input H D)} {b : β}
    (hb : b ∈ issued f ((Chain.new fin).delivered K pre) ((Chain.new fin).run K pre)) :
    b ∈ issued f ((Chain.new fin).delivered K (pre ++ post))
      ((Chain.new fin).run K (pre ++ post)) := by
  have hwithin : Within (inputBlocks (pre ++ post)) ((Chain.new fin).run K pre) :=
    (run_moves (within_new fin) fun b ⟨now, hb⟩ => ⟨now, List.mem_append_left _ hb⟩).2
  have hpost : Acts K (inputBlocks (pre ++ post)) (Calm True) ((Chain.new fin).run K pre)
      (((Chain.new fin).run K pre).delivered K post) (((Chain.new fin).run K pre).run K post) :=
    run_acts hwithin (fun b ⟨now, hb⟩ => ⟨now, List.mem_append_right _ hb⟩) fun _ _ => calm_true _
  have hsplit : (Chain.new fin).run K (pre ++ post) = ((Chain.new fin).run K pre).run K post :=
    List.foldl_append
  have hsplit' : (Chain.new fin).delivered K (pre ++ post) = (Chain.new fin).delivered K pre ++
      ((Chain.new fin).run K pre).delivered K post := logged_append _ _ _ _ _
  rw [hsplit, hsplit']
  refine hpost.1.rule (P := fun es c => b ∈ issued f (((Chain.new fin).delivered K pre) ++ es) c)
    (by rwa [List.append_nil]) fun es c e c' hact hmem => ?_
  rw [← List.append_assoc]
  exact hact.issued_mono hmem

/-- **What every run keeps of the forest**: its nodes are apart, it is well
formed, its links lead up or nowhere, and its blocks come from `B`. -/
structure Standing (K : Config H D) (B : Set (Produced H D)) (c : Chain H D) : Prop where
  allocated : Allocated c
  formed : WellFormed K c
  linked : HalfLinked c
  forest : ∀ n ∈ nodesL c.forktrees, block n ∈ B

omit [DecidableEq H] in
theorem standing_new (fin : Finalized H D) : Standing K B (Chain.new fin) :=
  ⟨allocated_new fin, wellFormed_new fin, halfLinked_new fin,
    fun _ hn => absurd hn List.not_mem_nil⟩

theorem Standing.of_act (hact : Act K B Q c e c') (h : Standing K B c) : Standing K B c' := by
  have hmoves : ReflTransGen (Move K B True) c c' := (hact.mono fun _ d _ => calm_true d).moves
  clear hact
  induction hmoves with
  | refl => exact h
  | tail _ hm ih =>
    refine ⟨allocated_of_move hm ih.allocated, wellFormed_of_move hm ih.allocated ih.formed,
      halfLinked_of_move hm ih.allocated ih.linked, fun n hn => ?_⟩
    rcases block_of_move hm n hn with ⟨m, hm, hblock⟩ | hB
    · exact hblock ▸ ih.forest m hm
    · exact hB

/-- **What an act does to the votes**: it casts one, it finalizes a root, or
it leaves them, their records and the finalized block as they are. -/
theorem Act.ballot_cases (hact : Act K B Q c e c') (hc : Standing K B c)
    (es : List (ChainEvent H D)) :
    (∃ n ∈ nodesL c.forktrees, Q c (.vote n) ∧ c.mayVote K n = true ∧ c' = c.cast K n ∧
      (issued ballot (es ++ e) c').Perm ((c.finalized.hash K, hash K n) :: issued ballot es c)) ∨
    (∃ rest, ∃ root ∈ c.forktrees, c' = c.finalizeNext K rest root ∧
      (issued ballot (es ++ e) c').Perm (issued ballot es c)) ∨
    (c'.ownvotes = c.ownvotes ∧ c'.finalized = c.finalized ∧
      (issued ballot (es ++ e) c').Perm (issued ballot es c)) := by
  cases hact with
  | wait | record =>
    refine Or.inr (Or.inr ⟨rfl, rfl, ?_⟩)
    rw [List.append_nil]
    exact .refl _
  | root | child =>
    exact Or.inr (Or.inr ⟨rfl, rfl, issued_silent (l := [.blockIncluded _]) (.of_eq rfl) (by simp)⟩)
  | @cast n hQ hhead hget hmay =>
    refine Or.inl ⟨n, (TreeNode.get_some hget).1, hQ, hmay, rfl, ?_⟩
    exact issued_push (l := [.vote (hash K n) (c.finalized.hash K)]) (.of_eq rfl)
  | count => exact Or.inr (Or.inr ⟨rfl, rfl, issued_count fun _ _ => rfl⟩)
  | finalize _ hsplit =>
    refine Or.inr (Or.inl ⟨_, _, (sublist_splitRoots hsplit).1, rfl, ?_⟩)
    have hread := issued_finalizeNext ballot es hc.formed hsplit
    simpa using hread
  | miss missing => exact Or.inr (Or.inr ⟨rfl, rfl, issued_miss missing fun _ => rfl⟩)
  | pop hlast => exact Or.inr (Or.inr ⟨rfl, rfl, issued_pop hlast⟩)

/-- **The rule for runs**, with what is known of the forest before each
act. -/
theorem run_standing {P : List (ChainEvent H D) → Chain H D → Prop} {fin : Finalized H D}
    {inputs : List (Input H D)} (hQ : (Chain.new fin).Throughout K Q inputs)
    (hnew : P [] (Chain.new fin))
    (hact : ∀ es c e c', Act K (inputBlocks inputs) Q c e c' → Standing K (inputBlocks inputs) c →
      P es c → P (es ++ e) c') :
    P ((Chain.new fin).delivered K inputs) ((Chain.new fin).run K inputs) := by
  have hrun := run_rule (P := fun es c => Standing K (inputBlocks inputs) c ∧ P es c) hQ
    ⟨standing_new fin, hnew⟩ fun es c e c' h hc => ⟨hc.1.of_act h, hact es c e c' h hc.1 hc.2⟩
  exact hrun.2

/-- Every run keeps of the forest what an act keeps, and what waits comes
from `B`. -/
theorem standing_run (fin : Finalized H D) {inputs : List (Input H D)}
    (hB : ∀ b ∈ inputBlocks inputs, b ∈ B) :
    Within B ((Chain.new fin).run K inputs) ∧ Standing K B ((Chain.new fin).run K inputs) := by
  have hacts : Acts K B (fun _ _ => True) (Chain.new fin) _ ((Chain.new fin).run K inputs) :=
    run_acts (within_new fin) hB fun _ _ => trivial
  exact ⟨hacts.2, hacts.1.invariant (standing_new fin) fun _ _ _ hact h => h.of_act hact⟩

end Chain

end Consensus

end Rensa
