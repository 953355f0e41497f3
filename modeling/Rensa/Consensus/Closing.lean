import Rensa.Consensus.Upright
/-!
# What a block brings about

The votes in a block are counted, which leaves the blocks where they are,
with more voters (`counting_countAll`). The finalizing loop makes blocks final that
are two epochs below the last one, and stops with none left
(`closes_finalizeLoop`, `epoch_of_ended`). Taking the events records what is
final (`polled_run`).
-/

namespace Rensa

namespace Consensus

open Relation (ReflTransGen)
open Rose (nodes nodesL line line_cons Path)
open TreeNode (block hash votes voters path)

variable {H D : Type} {K : Config H D}

namespace Chain

variable {c c' : Chain H D} {bs : List (Produced H D)} {b : Produced H D}
variable [DecidableEq H]

/-! ## Counting the votes -/

/-- **What counting votes leaves as it is**, and that voters stay. -/
structure Counting (c c' : Chain H D) : Prop where
  finalized : c'.finalized = c.finalized
  finalizedHistory : c'.finalizedHistory = c.finalizedHistory
  ownvotes : c'.ownvotes = c.ownvotes
  waiting : c'.orphans.blocks = c.orphans.blocks
  events : ∀ ev ∈ c'.events, ev ∈ c.events ∨ ∃ x votes, ev = .blockConfirmed x votes
  forest : ∃ g : TreeCell H D → TreeCell H D, c'.forktrees = c.forktrees.map (Rose.map g) ∧
    ∀ a, (g a).value.block = a.value.block ∧ a.value.voters ⊆ (g a).value.voters

omit [DecidableEq H] in
theorem counting_withOrphans {o : Orphans H D} (ho : o.blocks = c.orphans.blocks) :
    Counting c (c.withOrphans o) := by
  have hself : c.forktrees.map (Rose.map fun a => a) = c.forktrees := by
    rw [List.map_congr_left fun t _ => Rose.map_eq_self (fun _ => rfl) t, List.map_id']
  exact ⟨rfl, rfl, rfl, ho, fun _ hev => Or.inl hev, fun a => a, hself.symm,
    fun _ => ⟨rfl, subset_rfl⟩⟩

omit [DecidableEq H] in
theorem Counting.trans {c'' : Chain H D} (h : Counting c c') (h' : Counting c' c'') :
    Counting c c'' where
  finalized := h'.finalized.trans h.finalized
  finalizedHistory := h'.finalizedHistory.trans h.finalizedHistory
  ownvotes := h'.ownvotes.trans h.ownvotes
  waiting := h'.waiting.trans h.waiting
  events := fun ev hev => (h'.events ev hev).elim (h.events ev) Or.inr
  forest := by
    obtain ⟨g, hg, hkeep⟩ := h.forest
    obtain ⟨g', hg', hkeep'⟩ := h'.forest
    refine ⟨fun a => g' (g a), ?_, fun a => ⟨(hkeep' _).1.trans (hkeep a).1,
      (hkeep a).2.trans (hkeep' _).2⟩⟩
    rw [hg', hg, List.map_map]
    exact List.map_congr_left fun t _ => Rose.map_map g g' t

theorem subset_voters_tally (v : Vote H) (a : TreeCell H D) :
    a.value.voters ⊆ (c.tally K a v).value.voters := by
  unfold tally TreeCell.addVote
  split
  · split
    · exact subset_rfl
    · exact Finset.subset_insert _ _
  · exact subset_rfl

theorem counting_injestVote (v : Vote H) : Counting c (c.injestVote K v) where
  finalized := (injestVote_keeps v).1
  finalizedHistory := (injestVote_keeps v).2.1
  ownvotes := by
    cases hcounts : c.counts K v with
    | none =>
      obtain ⟨o, -, heq⟩ := injestVote_none hcounts
      rw [heq]
      rfl
    | some p =>
      rw [(counts_some hcounts).2.2.2.2.2]
      rfl
  waiting := (injestVote_keeps v).2.2.1
  events := fun ev hev => by
    cases hcounts : c.counts K v with
    | none =>
      obtain ⟨o, -, heq⟩ := injestVote_none hcounts
      rw [heq] at hev
      exact Or.inl hev
    | some p =>
      rw [(counts_some hcounts).2.2.2.2.2] at hev
      exact (List.mem_append.1 hev).imp_right mem_confirmations
  forest := ⟨fun a => c.tally K a v, forktrees_injestVote v,
    fun a => ⟨(fixes_tally v a).1, subset_voters_tally v a⟩⟩

theorem counting_countVotes (l : List (Vote H)) : Counting c (c.countVotes K l) := by
  unfold countVotes
  induction l generalizing c with
  | nil => exact counting_withOrphans rfl
  | cons v l ih => exact (counting_injestVote v).trans ih

theorem subset_voters_tallies (l : List (Vote H)) (a : TreeCell H D) :
    a.value.voters ⊆ (c.tallies K a l).value.voters := by
  induction l generalizing a with
  | nil => exact subset_rfl
  | cons v l ih => exact (subset_voters_tally v a).trans (ih _)

theorem block_tallies (l : List (Vote H)) (a : TreeCell H D) :
    (c.tallies K a l).value.block = a.value.block := by
  induction l generalizing a with
  | nil => rfl
  | cons v l ih => exact (ih _).trans (fixes_tally v a).1

/-- A vote that reaches a node makes a voter of it. -/
theorem mem_voters_tallies {v : Vote H} {l : List (Vote H)} (hv : v ∈ l) {a : TreeCell H D}
    (hreached : a.loc ∈ c.reached K v) : v.validator ∈ (c.tallies K a l).value.voters := by
  induction l generalizing a with
  | nil => cases hv
  | cons w l ih =>
    rcases List.mem_cons.1 hv with rfl | hv
    · refine subset_voters_tallies l _ ?_
      rw [tally, if_pos hreached, TreeCell.addVote]
      split
      · assumption
      · exact Finset.mem_insert_self _ _
    · exact ih hv (a := c.tally K a w) (by rwa [loc_tally])

/-- **The votes in a block are counted**: those that reach a node have voters of
it. -/
theorem counting_countAll : Counting c (c.countAll K b) ∧
    ∃ g : TreeCell H D → TreeCell H D, (c.countAll K b).forktrees = c.forktrees.map (Rose.map g) ∧
      ∀ a, (g a).value.block = a.value.block ∧ a.value.voters ⊆ (g a).value.voters ∧
        ∀ v ∈ b.votes, a.loc ∈ c.reached K v → v.validator ∈ (g a).value.voters := by
  have hconsumed : Counting (c.countVotes K b.votes) ((c.countVotes K b.votes).withOrphans
      ((c.countVotes K b.votes).orphans.consumeVotes (K.hash b)).2) := counting_withOrphans rfl
  have hlate : Counting (c.countVotes K b.votes) (c.countAll K b) :=
    hconsumed.trans (counting_countVotes _)
  refine ⟨(counting_countVotes b.votes).trans hlate, ?_⟩
  obtain ⟨g, hg, hkeep⟩ := hlate.forest
  refine ⟨fun a => g (c.tallies K a b.votes), ?_, fun a => ⟨?_, ?_, fun v hv hreached => ?_⟩⟩
  · rw [hg, forktrees_countVotes, List.map_map]
    exact List.map_congr_left fun t _ => Rose.map_map _ g t
  · exact (hkeep _).1.trans (block_tallies b.votes a)
  · exact (subset_voters_tallies b.votes a).trans (hkeep _).2
  · exact (hkeep _).2 (mem_voters_tallies hv hreached)

omit [DecidableEq H] in
theorem Upright.of_counting (h : Upright bs c) (hc : Counting c c') : Upright bs c' := by
  obtain ⟨cs, hf, hcs⟩ := h.forest
  obtain ⟨g, hg, hkeep⟩ := hc.forest
  refine ⟨⟨cs.map g, by rw [hg, hf, Rose.map_line], ?_⟩, ?_, ?_⟩
  · rw [hc.finalized, ← hcs, List.map_map]
    exact List.map_congr_left fun a _ => congrArg Executed.underlying (hkeep a).1
  · rw [hc.finalized]
    exact h.final
  · rw [hc.finalized]
    exact h.le

/-- A vote for a block that passes the checks reaches it. -/
theorem mem_reached {n : TreeNode H D} {v : Vote H} (hs : Orderly K c) (hn : n ∈ nodesL c.forktrees)
    (hk : K.Eligible v.validator) (hverify : K.verifyVote v = true)
    (htarget : v.target = TreeNode.hash K n)
    (hjust : c.inFinalizedHistory K v.justification = true) : n.label.loc ∈ c.reached K v := by
  obtain ⟨stake, hstake, hmin⟩ := hk
  have hget := TreeNode.get_of_mem hs.formed.hashed hn
  have hself : n ∈ path c.forktrees n := by
    unfold path
    cases (nodesL c.forktrees).length <;> simp [TreeNode.pathFrom]
  have hcounts : c.counts K v = some (stake, n) := by
    rw [counts, hstake]
    simp only [if_neg (Nat.not_lt.2 hmin), hverify, htarget, hget, hjust, Bool.not_true,
      Bool.false_and, Bool.false_eq_true, if_false]
  rw [reached, hcounts]
  exact List.mem_map_of_mem hself

/-- **With the votes of the next block counted, all but that block are
carried**, where they were or those votes are for them. -/
theorem carried_countAll {cs : List (TreeCell H D)} {d : TreeCell H D}
    (hf : c.forktrees = line (cs ++ [d]))
    (hvotes : ∀ a ∈ cs, ∃ V : Finset Pubkey, K.minimumMajorityStake ≤ ∑ k ∈ V, K.stake k ∧
      ∀ k ∈ V, k ∈ a.value.voters ∨ ∃ v ∈ b.votes, v.validator = k ∧ a.loc ∈ c.reached K v) :
    Carried K (c.countAll K b) := by
  obtain ⟨-, g, hg, hkeep⟩ := counting_countAll (K := K) (c := c) (b := b)
  intro cs' d' hline e he
  have hlabels : cs' ++ [d'] = cs.map g ++ [g d] := by
    rw [← Rose.labels_line (cs' ++ [d']), ← hline, hg, hf, Rose.map_line, Rose.labels_line,
      List.map_append, List.map_singleton]
  obtain ⟨rfl, -⟩ := List.append_inj' hlabels rfl
  obtain ⟨a, ha, rfl⟩ := List.mem_map.1 he
  obtain ⟨V, hV, hvoters⟩ := hvotes a ha
  refine hV.trans (Finset.sum_le_sum_of_subset fun k hk => ?_)
  rcases hvoters k hk with hk | ⟨v, hv, rfl, hreached⟩
  · exact (hkeep a).2.1 hk
  · exact (hkeep a).2.2 v hv hreached

/-! ## Finalizing -/

omit [DecidableEq H] in
/-- A root split off a line is the first block of it. -/
theorem splitRoots_line {p : TreeNode H D → Bool} {cs : List (TreeCell H D)}
    {before after : List (TreeNode H D)} {root : TreeNode H D}
    (h : splitRoots p (line cs) = some (before, root, after)) :
    ∃ a cs', cs = a :: cs' ∧ before = [] ∧ root = .node a (line cs') ∧ after = [] := by
  have hsplit := (splitRoots_some h).1
  cases cs with
  | nil => cases h
  | cons a cs =>
    rw [line_cons] at hsplit
    cases before with
    | nil =>
      obtain ⟨rfl, rfl⟩ := List.cons.inj hsplit
      exact ⟨a, cs, rfl, rfl, rfl, rfl⟩
    | cons t before => simp at hsplit

omit [DecidableEq H] in
/-- What is moved is a line again, of the same blocks and votes. -/
theorem exists_moveRoots_line (alloc : Alloc) (next : ℕ) (cs : List (TreeCell H D)) :
    ∃ cs', moveRoots alloc next (line cs) = line cs' ∧
      cs'.map TreeCell.value = cs.map TreeCell.value := by
  cases cs with
  | nil => exact ⟨[], rfl, rfl⟩
  | cons a cs => exact ⟨{ a with parent := none, loc := alloc.place next a.loc } :: cs, rfl, rfl⟩

/-- **What the finalizing loop does**: the chain stays as it is, or blocks two
epochs below the last one become final, and an event tells of the last of them. -/
structure Closes (K : Config H D) (bs : List (Produced H D)) (c c' : Chain H D) : Prop where
  sound : Orderly K c'
  upright : Upright bs c'
  carried : Carried K c'
  finalizedHistory : c'.finalizedHistory = c.finalizedHistory
  orphans : c'.orphans = c.orphans
  ownvotes : ∀ e, K.epoch bs.length < e + 2 → c'.ownvotes e = c.ownvotes e
  included : ∀ x, .blockIncluded x ∈ c'.events → .blockIncluded x ∈ c.events
  rises : c' = c ∨ c.finalized.height < c'.finalized.height ∧
    K.epoch c'.finalized.height + 2 ≤ K.epoch bs.length ∧
    ∃ x votes, .blockFinalized x votes ∈ c'.events ∧ K.hash x.underlying = c'.finalized.hash K

omit [DecidableEq H] in
theorem Closes.trans {c'' : Chain H D} (h : Closes K bs c c') (h' : Closes K bs c' c'') :
    Closes K bs c c'' where
  sound := h'.sound
  upright := h'.upright
  carried := h'.carried
  finalizedHistory := h'.finalizedHistory.trans h.finalizedHistory
  orphans := h'.orphans.trans h.orphans
  ownvotes := fun e he => (h'.ownvotes e he).trans (h.ownvotes e he)
  included := fun x hx => h.included x (h'.included x hx)
  rises := by
    rcases h'.rises with rfl | ⟨hlt', hrises'⟩
    · exact h.rises
    · rcases h.rises with rfl | ⟨hlt, -⟩
      · exact Or.inr ⟨hlt', hrises'⟩
      · exact Or.inr ⟨hlt.trans hlt', hrises'⟩

/-- **One root.** -/
theorem closes_finalizeNext {before after : List (TreeNode H D)} {root : TreeNode H D}
    (hs : Orderly K c) (h : Upright bs c) (hcarried : Carried K c) (hK : K.alloc = .inPlace)
    (hstakes : K.eligibleStake < 2 ^ 64)
    (hsplit : splitRoots (c.finalizable K) c.forktrees = some (before, root, after)) :
    Closes K bs c (c.finalizeNext K (before ++ after) root) := by
  have hfinal := (splitRoots_some hsplit).2
  have hmem := (sublist_splitRoots hsplit).1
  have hheight := (hs.formed.roots root hmem).2
  have hsound : Orderly K (c.finalizeNext K (before ++ after) root) := hs.of_moves (q := True)
    (finalizeNext_acts hs.within (calm_true _) hsplit).moves
  -- the root is two epochs below the last block
  have hepoch : K.epoch (block root).height + 2 ≤ K.epoch bs.length := by
    rcases h.cases with ⟨hf, -⟩ | ⟨-, cs, a, hf, hcs, -⟩
    · rw [hf] at hmem
      cases hmem
    · have hconfirmed := fun n hn => hcarried.confirmed hs.balanced.accounted hstakes hf (n := n) hn
      rw [← h.height_last hs.formed hf hcs]
      exact (finalizable_line_iff hs.formed hs.balanced.allocated.located (hs.balanced.placed hK) hf
        hconfirmed hmem).1 hfinal
  obtain ⟨cs, hf, hcs⟩ := h.forest
  have hevents := events_finalizeNext hs.formed hsplit
  rw [hf] at hsplit
  obtain ⟨a, cs', rfl, rfl, rfl, rfl⟩ := splitRoots_line hsplit
  obtain ⟨cs'', hmoved, hvalues⟩ := exists_moveRoots_line K.alloc c.nextLoc cs'
  have hrise : (c.finalizeNext K ([] ++ []) (.node a (line cs'))).finalized.height =
      c.finalized.height + 1 := hheight
  have hnext : bs[c.finalized.height]? = some (produced a) := by
    rw [← List.head?_drop, ← hcs]
    rfl
  refine ⟨hsound, ⟨⟨cs'', hmoved, ?_⟩, ?_, ?_⟩, fun cs₀ a₀ hline e he => ?_, rfl, rfl,
    fun e he => ownvotes_finalizeNext_of_ne (by omega), fun x hx => ?_,
    Or.inr ⟨?_, hepoch, a.value.block, a.value.votes, ?_, rfl⟩⟩
  · have hproduced : cs''.map produced = cs'.map produced := by
      have h := congrArg (List.map fun v => v.block.underlying) hvalues
      rwa [List.map_map, List.map_map] at h
    rw [hrise, hproduced, ← List.tail_drop, ← hcs]
    rfl
  · rw [hrise, List.take_add_one, hnext]
    exact List.getLast?_concat.symm
  · rw [hrise]
    exact (List.getElem?_eq_some_iff.1 hnext).1
  · -- the votes are those of before
    obtain rfl : cs'' = cs₀ ++ [a₀] := by
      rw [← Rose.labels_line cs'', ← Rose.labels_line (cs₀ ++ [a₀]), ← hline, ← hmoved]
      rfl
    rcases List.eq_nil_or_concat cs' with rfl | ⟨cs₁, a₁, rfl⟩
    · simp at hvalues
    · rw [List.concat_eq_append] at hvalues hf
      rw [List.map_append, List.map_append] at hvalues
      obtain ⟨hsame, -⟩ := List.append_inj' hvalues rfl
      obtain ⟨e', he', hvalue⟩ : ∃ e' ∈ cs₁, e'.value = e.value := by
        have hmem := List.mem_map_of_mem (f := TreeCell.value) he
        rw [hsame] at hmem
        exact List.mem_map.1 hmem
      rw [← hvalue]
      exact hcarried (a :: cs₁) a₁ hf e' (List.mem_cons_of_mem _ he')
  · rw [hevents] at hx
    simpa using hx
  · rw [hrise]
    exact Nat.lt_succ_self _
  · rw [hevents]
    exact List.mem_cons_self

/-- **The loop.** -/
theorem closes_finalizeLoop (fuel : ℕ) (hs : Orderly K c) (h : Upright bs c)
    (hcarried : Carried K c) (hK : K.alloc = .inPlace) (hstakes : K.eligibleStake < 2 ^ 64) :
    Closes K bs c (finalizeLoop K fuel c) := by
  induction fuel generalizing c with
  | zero => exact ⟨hs, h, hcarried, rfl, rfl, fun _ _ => rfl, fun _ hx => hx, Or.inl rfl⟩
  | succ fuel ih =>
    rw [finalizeLoop]
    cases hnext : c.tryFinalizeRoots K with
    | none => exact ⟨hs, h, hcarried, rfl, rfl, fun _ _ => rfl, fun _ hx => hx, Or.inl rfl⟩
    | some c' =>
      obtain ⟨before, after, root, hsplit, rfl⟩ := tryFinalizeRoots_some hnext
      have hstep := closes_finalizeNext hs h hcarried hK hstakes hsplit
      exact hstep.trans (ih hstep.sound hstep.upright hstep.carried)

/-- **When the loop has ended**, what is not final is of the last two epochs. -/
theorem epoch_of_ended (hs : Orderly K c) (h : Upright bs c) (hcarried : Carried K c)
    (hK : K.alloc = .inPlace) (hstakes : K.eligibleStake < 2 ^ 64)
    (hended : c.tryFinalizeRoots K = none) :
    K.epoch bs.length < K.epoch (c.finalized.height + 1) + 2 := by
  rcases h.cases with ⟨-, hall⟩ | ⟨-, cs, a, hf, hcs, -⟩
  · have hmono := K.epoch_mono (Nat.le_add_right bs.length 1)
    rw [hall]
    omega
  · obtain ⟨r, hr⟩ : ∃ r, r ∈ c.forktrees := by
      rw [hf]
      cases cs <;> exact ⟨_, List.mem_cons_self⟩
    have hnot : ¬ c.finalizable K r = true := fun hfin => by
      have hsome := tryFinalizeRoots_isSome.2 ⟨r, hr, hfin⟩
      rw [hended] at hsome
      cases hsome
    rw [finalizable_line_iff hs.formed hs.balanced.allocated.located (hs.balanced.placed hK) hf
      (fun n hn => hcarried.confirmed hs.balanced.accounted hstakes hf hn) hr] at hnot
    rw [← (hs.formed.roots r hr).2, ← h.height_last hs.formed hf hcs]
    exact Nat.lt_of_not_le hnot

/-! ## Taking the events -/

/-- **What taking events does** where none of them is of a block included:
blocks that were made final are recorded under the epoch of what is final. -/
structure Polled (K : Config H D) (c c' : Chain H D) : Prop where
  finalized : c'.finalized = c.finalized
  forktrees : c'.forktrees = c.forktrees
  ownvotes : c'.ownvotes = c.ownvotes
  orphans : c'.orphans = c.orphans
  events : c'.events ⊆ c.events
  keys : (c.finalizedHistory.map Prod.fst).Nodup → (c'.finalizedHistory.map Prod.fst).Nodup
  epochs : ∀ e ∈ c'.finalizedHistory.map Prod.fst, e ∈ c.finalizedHistory.map Prod.fst ∨
    e = K.epoch c.finalized.height
  idle : (∀ x votes, .blockFinalized x votes ∉ c.events) →
    c'.finalizedHistory = c.finalizedHistory
  keeps : (c.finalizedHistory.map Prod.fst).Nodup → ∀ e t,
    K.epoch c.finalized.height ≤ e + K.genesis.limits.maxJustificationAge →
      Records c.finalizedHistory e t → Records c'.finalizedHistory e t
  records : (c.finalizedHistory.map Prod.fst).Nodup → ∀ x votes,
    .blockFinalized x votes ∈ c.events → .blockFinalized x votes ∈ c'.events ∨
      Records c'.finalizedHistory (K.epoch c.finalized.height) (K.hash x.underlying)

omit [DecidableEq H] in
theorem Polled.refl (c : Chain H D) : Polled K c c :=
  ⟨rfl, rfl, rfl, rfl, List.Subset.refl _, id, fun _ => Or.inl, fun _ => rfl,
    fun _ _ _ _ => id, fun _ _ _ => Or.inl⟩

omit [DecidableEq H] in
theorem Polled.trans {c'' : Chain H D} (h : Polled K c c') (h' : Polled K c' c'') :
    Polled K c c'' where
  finalized := h'.finalized.trans h.finalized
  forktrees := h'.forktrees.trans h.forktrees
  ownvotes := h'.ownvotes.trans h.ownvotes
  orphans := h'.orphans.trans h.orphans
  events := List.Subset.trans h'.events h.events
  keys := fun hm => h'.keys (h.keys hm)
  epochs := fun e he => by
    rcases h'.epochs e he with he | he
    · exact h.epochs e he
    · exact Or.inr (h.finalized ▸ he)
  idle := fun hidle =>
    (h'.idle fun x votes hx => hidle x votes (h.events hx)).trans (h.idle hidle)
  keeps := fun hm e t hage ht =>
    h'.keeps (h.keys hm) e t (h.finalized ▸ hage) (h.keeps hm e t hage ht)
  records := fun hm x votes hx => by
    rcases h.records hm x votes hx with hx | hx
    · rw [← h.finalized]
      exact h'.records (h.keys hm) x votes hx
    · exact Or.inr (h'.keeps (h.keys hm) _ _ (h.finalized ▸ Nat.le_add_right _ _) hx)

omit [DecidableEq H] in
/-- An event that waits is taken now, or goes on to wait. -/
theorem mem_pop {ev ev' : ChainEvent H D} (hev : c.events.getLast? = some ev)
    (hmem : ev' ∈ c.events) : ev' = ev ∨ ev' ∈ c.pop.events := by
  rw [← List.dropLast_append_getLast? ev hev, List.mem_append, List.mem_singleton] at hmem
  exact hmem.symm

omit [DecidableEq H] in
/-- An event that tells of nothing final. -/
theorem polled_pop {ev : ChainEvent H D} (hev : c.events.getLast? = some ev)
    (hother : ∀ x votes, ev ≠ .blockFinalized x votes) : Polled K c c.pop where
  finalized := rfl
  forktrees := rfl
  ownvotes := rfl
  orphans := rfl
  events := List.dropLast_subset _
  keys := id
  epochs := fun _ => Or.inl
  idle := fun _ => rfl
  keeps := fun _ _ _ _ => id
  records := fun _ x votes hx =>
    Or.inl ((mem_pop hev hx).resolve_left fun heq => hother x votes heq.symm)

/-- The event of a final block. -/
theorem polled_record {x : Executed H D} {votes : ℕ}
    (hev : c.events.getLast? = some (.blockFinalized x votes)) :
    Polled K c (c.pop.postBlockFinalized K x.underlying) where
  finalized := rfl
  forktrees := rfl
  ownvotes := rfl
  orphans := rfl
  events := List.dropLast_subset _
  keys := nodup_remember
  epochs := fun e he => (keys_remember.1 he).2
  idle := fun hidle => absurd (List.mem_of_getLast? hev) (hidle x votes)
  keeps := fun hm e t hage ht =>
    (records_remember hm).2 ⟨Nat.sub_le_iff_le_add.2 hage, Or.inl ht⟩
  records := fun hm y votes' hy => by
    rcases mem_pop hev hy with heq | hy
    · obtain ⟨rfl, -⟩ := ChainEvent.blockFinalized.inj heq
      exact Or.inr ((records_remember hm).2 ⟨Nat.sub_le _ _, Or.inr ⟨rfl, rfl⟩⟩)
    · exact Or.inl hy

/-- **One event.** -/
theorem polled_pollNext (now : ℕ) (hnone : ∀ x, .blockIncluded x ∉ c.events) :
    Polled K c (c.pollNext K now).2 := by
  unfold pollNext
  cases hev : c.events.getLast? with
  | none => exact .refl c
  | some ev =>
    cases ev with
    | blockIncluded x => exact absurd (List.mem_of_getLast? hev) (hnone x)
    | blockFinalized x votes => exact polled_record hev
    | vote | blockDiscarded | blockMissing | blockConfirmed =>
      exact polled_pop hev fun _ _ heq => by cases heq

/-- **Any number of events.** -/
theorem polled_run (polls : List ℕ) (hnone : ∀ x, .blockIncluded x ∉ c.events) :
    Polled K c (c.run K (polls.map .pollNext)) := by
  induction polls generalizing c with
  | nil => exact .refl c
  | cons now polls ih =>
    have hstep := polled_pollNext (K := K) now hnone
    exact hstep.trans (ih fun x hx => hnone x (hstep.events hx))

theorem events_pollNext (now : ℕ) (hnone : ∀ x, .blockIncluded x ∉ c.events) :
    (c.pollNext K now).2.events = c.events.dropLast := by
  unfold pollNext
  cases hev : c.events.getLast? with
  | none => rw [List.getLast?_eq_none_iff.1 hev, List.dropLast_nil]
  | some ev =>
    cases ev with
    | blockIncluded x => exact absurd (List.mem_of_getLast? hev) (hnone x)
    | vote | blockDiscarded | blockMissing | blockConfirmed | blockFinalized => rfl

/-- The queue can be emptied. -/
theorem exists_polls (hnone : ∀ x, .blockIncluded x ∉ c.events) :
    ∃ polls : List ℕ, (c.run K (polls.map .pollNext)).events = [] := by
  induction hlen : c.events.length generalizing c with
  | zero => exact ⟨[], List.eq_nil_of_length_eq_zero hlen⟩
  | succ n ih =>
    have hstep := polled_pollNext (K := K) 0 hnone
    obtain ⟨polls, hpolls⟩ := ih (c := (c.pollNext K 0).2)
      (fun x hx => hnone x (hstep.events hx))
      (by rw [events_pollNext 0 hnone, List.length_dropLast, hlen, Nat.add_sub_cancel])
    exact ⟨0 :: polls, hpolls⟩

end Chain

end Consensus

end Rensa
