import Rensa.Common.Trace
import Rensa.Consensus.ForkTree
import Rensa.Consensus.Orphans
/-!
# What a call does, act by act

Every call of `include` or `pollNext` is a sequence of acts (`Act`): a
block becomes a root or hangs under another, a vote is cast or counted, a
root is finalized, an event is taken, or only what waits changes. Three
of them, the *deeds*, commit the chain to something; `deeds` lists those
of a call with the states they are done in, so that a condition `Q` on
them can be asked of a run (`Throughout`) and used at each of them. `B` is
a set of blocks that holds all the chain was given, and `Within` says that
what waits in the chain comes from it.
-/

namespace Rensa

namespace Consensus

namespace Chain

variable {H D : Type}

/-- What a chain commits itself to. -/
inductive Deed (H D : Type)
  /-- A vote for a block. -/
  | vote (target : TreeNode H D)
  /-- A vote of a validator with that stake, counted for a block. -/
  | count (stake : ℕ) (v : Vote H) (target : TreeNode H D)
  /-- A root made final. -/
  | finalize (root : TreeNode H D)

section Deeds

variable (K : Config H D) [DecidableEq H] (c : Chain H D)

/-- The chain without the event that is taken next. -/
def pop (c : Chain H D) : Chain H D := { c with events := c.events.dropLast }

/-- The vote `commit_and_vote` casts, where it casts one. -/
def cast (n : TreeNode H D) : Chain H D :=
  { c with
    ownvotes := Function.update c.ownvotes (K.epoch n.block.height)
      (some (c.finalized.hash K, n.hash K))
    events := .vote (n.hash K) (c.finalized.hash K) :: c.events }

/-- What `try_finalize_roots` does with the root it found. -/
def finalizeNext (rest : List (TreeNode H D)) (root : TreeNode H D) : Chain H D :=
  let c := c.finalizeRoot K rest root
  { c with
    ownvotes := Function.update c.ownvotes (K.epoch root.block.height) none
    events := .blockFinalized root.label.value.block root.votes :: c.events }

/-- The target of a vote and the stake behind it, where the vote is
counted. -/
def counts (v : Vote H) : Option (ℕ × TreeNode H D) :=
  match K.stakeOf v.validator with
  | none => none
  | some stake =>
    if stake < K.genesis.limits.minimumStake then none
    else if !K.verifyVote v then none
    else match TreeNode.get K c.forktrees v.target with
    | none => none
    | some target =>
      if !c.inFinalizedHistory K v.justification &&
          !TreeNode.isDescendantOf K c.forktrees target v.justification then none
      else some (stake, target)

/-- The deed of `injest_vote`. -/
def injestDeeds (v : Vote H) : List (Chain H D × Deed H D) :=
  match c.counts K v with
  | none => []
  | some (stake, target) => [(c, .count stake v target)]

/-- The deeds of `count_votes`. -/
def countDeeds (votes : List (Vote H)) : List (Chain H D × Deed H D) :=
  logged (fun c v => c.injestVote K v) (fun c v => c.injestDeeds K v) c votes

/-- The deed of `include` for a block that became the head. -/
def voteDeeds (h : H) : List (Chain H D × Deed H D) :=
  if h = c.headHash K then
    match TreeNode.get K c.forktrees h with
    | none => []
    | some n => if c.mayVote K n then [(c, .vote n)] else []
  else []

/-- The deeds of `include` and its nested calls. -/
def includeDeeds (now : ℕ) : ℕ → Chain H D → Produced H D → List (Chain H D × Deed H D)
  | 0, _, _ => []
  | fuel + 1, c, b =>
    if c.admits K b then
      match c.tryInclude K b with
      | .error _ => []
      | .ok none => []
      | .ok (some c) =>
        let c' := c.voteIfHead K (K.hash b)
        let (waiting, orphans) := c'.orphans.consumeBlocks (K.hash b)
        c.voteDeeds K (K.hash b) ++
          logged (includeFrom K now fuel) (includeDeeds now fuel) (c'.withOrphans orphans) waiting
    else []

/-- The deeds of `while try_finalize_roots`. -/
def finalizeDeeds : ℕ → Chain H D → List (Chain H D × Deed H D)
  | 0, _ => []
  | fuel + 1, c =>
    match splitRoots (c.finalizable K) c.forktrees with
    | none => []
    | some (before, root, after) =>
      (c, .finalize root) :: finalizeDeeds fuel (c.finalizeNext K (before ++ after) root)

/-- The deeds of the part of `post_block_included` that counts votes. -/
def countAllDeeds (b : Produced H D) : List (Chain H D × Deed H D) :=
  let counted := c.countVotes K b.votes
  let (votes, orphans) := counted.orphans.consumeVotes (K.hash b)
  c.countDeeds K b.votes ++ (counted.withOrphans orphans).countDeeds K votes

/-- The deeds of `post_block_included`. -/
def postDeeds (b : Produced H D) : List (Chain H D × Deed H D) :=
  c.countAllDeeds K b ++
    finalizeDeeds K (Rose.nodesL (c.countAll K b).forktrees).length (c.countAll K b)

/-- The deeds of a call, each with the state it is done in. -/
def deeds : Input H D → List (Chain H D × Deed H D)
  | .include now b => includeDeeds K now (c.orphans.size + 1) c b
  | .pollNext _ =>
    match c.events.getLast? with
    | some (.blockIncluded b) => c.pop.postDeeds K b.underlying
    | _ => []

/-- The event a call returns. -/
def returned : Input H D → List (ChainEvent H D)
  | .include _ _ => []
  | .pollNext now => (c.pollNext K now).1.toList

/-- The events a run returns. -/
def delivered (inputs : List (Input H D)) : List (ChainEvent H D) :=
  logged (step K) (fun c i => c.returned K i) c inputs

/-- **Every deed of the run meets `Q`**, in the state it is done in. -/
def Throughout (Q : Chain H D → Deed H D → Prop) (inputs : List (Input H D)) : Prop :=
  ∀ p ∈ logged (step K) (fun c i => c.deeds K i) c inputs, Q p.1 p.2

instance (Q : Chain H D → Deed H D → Prop) [∀ c d, Decidable (Q c d)]
    (inputs : List (Input H D)) : Decidable (c.Throughout K Q inputs) :=
  inferInstanceAs (Decidable (∀ p ∈ _, _))

end Deeds

variable [DecidableEq H] {K : Config H D} {B : Set (Produced H D)}
  {Q : Chain H D → Deed H D → Prop} {c c' : Chain H D}

/-- **The acts of a chain**, with the checks each of them passed and the
event it returns, if any. -/
inductive Act (K : Config H D) (B : Set (Produced H D)) (Q : Chain H D → Deed H D → Prop) :
    Chain H D → List (ChainEvent H D) → Chain H D → Prop
  /-- Other blocks and votes wait. -/
  | wait {c : Chain H D} (o : Orphans H D) : Act K B Q c [] (c.withOrphans o)
  /-- A block becomes a root. -/
  | root {c : Chain H D} {b : Produced H D} {x : Executed H D} (hB : b ∈ B)
      (hadm : c.admits K b = true) (hnew : c.knows K (K.hash b) = false)
      (hparent : b.parent = c.finalized.hash K) (hheight : b.height = c.finalized.height + 1)
      (hx : K.newExecuted c.finalized.store.get b = .ok x) : Act K B Q c [] (c.addRoot x)
  /-- A block is hung under another. -/
  | child {c : Chain H D} {b : Produced H D} {x : Executed H D} {p : TreeNode H D} (hB : b ∈ B)
      (hadm : c.admits K b = true) (hnew : c.knows K (K.hash b) = false)
      (hparent : TreeNode.get K c.forktrees b.parent = some p)
      (hheight : b.height = p.block.height + 1)
      (hx : K.newExecuted (overlayed c.finalized.store.get (TreeNode.state c.forktrees p)) b =
        .ok x) : Act K B Q c [] (c.addUnder K p x)
  /-- A vote is cast for the head. -/
  | cast {c : Chain H D} {n : TreeNode H D} (hQ : Q c (.vote n))
      (hhead : n.hash K = c.headHash K) (hget : TreeNode.get K c.forktrees (n.hash K) = some n)
      (hmay : c.mayVote K n = true) : Act K B Q c [] (c.cast K n)
  /-- A vote is counted. -/
  | count {c : Chain H D} {v : Vote H} {stake : ℕ} {target : TreeNode H D}
      (hQ : Q c (.count stake v target)) (hB : ∃ b ∈ B, v ∈ b.votes)
      (hstake : K.stakeOf v.validator = some stake)
      (hmin : K.genesis.limits.minimumStake ≤ stake) (hverify : K.verifyVote v = true)
      (htarget : TreeNode.get K c.forktrees v.target = some target)
      (hjust : c.inFinalizedHistory K v.justification = true ∨
        TreeNode.isDescendantOf K c.forktrees target v.justification = true) :
      Act K B Q c [] (c.count K stake v target)
  /-- A root is finalized. -/
  | finalize {c : Chain H D} {before after : List (TreeNode H D)} {root : TreeNode H D}
      (hQ : Q c (.finalize root))
      (hsplit : splitRoots (c.finalizable K) c.forktrees = some (before, root, after)) :
      Act K B Q c [] (c.finalizeNext K (before ++ after) root)
  /-- Missing blocks are asked for. -/
  | miss {c : Chain H D} (missing : List H) :
      Act K B Q c [] { c with events := missing.foldl (fun es h => .blockMissing h :: es) c.events }
  /-- An event is returned. -/
  | pop {c : Chain H D} {event : ChainEvent H D} (hlast : c.events.getLast? = some event) :
      Act K B Q c [event] c.pop
  /-- A block that was finalized is recorded. -/
  | record {c : Chain H D} (b : Produced H D) : Act K B Q c [] (c.postBlockFinalized K b)

theorem Act.mono {Q' : Chain H D → Deed H D → Prop} {es : List (ChainEvent H D)}
    (h : Act K B Q c es c') (hQ : ∀ c d, Q c d → Q' c d) : Act K B Q' c es c' := by
  cases h with
  | wait o => exact .wait o
  | root hB hadm hnew hparent hheight hx => exact .root hB hadm hnew hparent hheight hx
  | child hB hadm hnew hparent hheight hx => exact .child hB hadm hnew hparent hheight hx
  | cast h hhead hget hmay => exact .cast (hQ _ _ h) hhead hget hmay
  | count h hB hstake hmin hverify htarget hjust =>
    exact .count (hQ _ _ h) hB hstake hmin hverify htarget hjust
  | finalize h hsplit => exact .finalize (hQ _ _ h) hsplit
  | miss missing => exact .miss missing
  | pop hlast => exact .pop hlast
  | record b => exact .record b

/-- What waits in the chain comes from `B`. -/
structure Within (B : Set (Produced H D)) (c : Chain H D) : Prop where
  orphans : ∀ b ∈ orphanBlocks c.orphans.blocks, b ∈ B
  votes : ∀ h, ∀ v ∈ c.orphans.votes h, ∃ b ∈ B, v ∈ b.votes
  events : ∀ x, ChainEvent.blockIncluded x ∈ c.events → x.underlying ∈ B

/-- A sequence of acts that keeps the chain within `B`. -/
def Acts (K : Config H D) (B : Set (Produced H D)) (Q : Chain H D → Deed H D → Prop)
    (c : Chain H D) (es : List (ChainEvent H D)) (c' : Chain H D) : Prop :=
  Trace (Act K B Q) c es c' ∧ Within B c'

namespace Acts

variable {c'' : Chain H D} {es es' : List (ChainEvent H D)}

theorem refl (h : Within B c) : Acts K B Q c [] c := ⟨.refl c, h⟩

theorem trans (h : Acts K B Q c es c') (h' : Acts K B Q c' es' c'') :
    Acts K B Q c (es ++ es') c'' :=
  ⟨h.1.trans h'.1, h'.2⟩

theorem trans_silent (h : Acts K B Q c [] c') (h' : Acts K B Q c' es c'') : Acts K B Q c es c'' :=
  ⟨h.1.trans_silent h'.1, h'.2⟩

theorem single (hact : Act K B Q c es c') (h : Within B c') : Acts K B Q c es c' :=
  ⟨.single hact, h⟩

/-- Other orphans, from `B` as well. -/
theorem wait {o : Orphans H D} (h : Within B c) (hblocks : ∀ b ∈ orphanBlocks o.blocks, b ∈ B)
    (hvotes : ∀ t, ∀ v ∈ o.votes t, ∃ b ∈ B, v ∈ b.votes) :
    Acts K B Q c [] (c.withOrphans o) :=
  single (.wait o) ⟨hblocks, hvotes, h.events⟩

end Acts

omit [DecidableEq H] in
theorem newExecuted_ok [DecidableEq H] {s : State} {b : Produced H D} {x : Executed H D}
    (h : K.newExecuted s b = .ok x) :
    x.underlying = b ∧ K.execute s b.data = .ok x.output ∧ K.hashOutput x.output = b.stateHash := by
  unfold Config.newExecuted at h
  split at h
  · cases h
  · split at h
    · rename_i hout hhash
      obtain rfl := Except.ok.inj h
      exact ⟨rfl, hout, hhash⟩
    · cases h

/-! ## Votes -/

omit [DecidableEq H] in
/-- A counted vote puts nothing but confirmations into the queue. -/
theorem mem_confirmations {stake : ℕ} {voter : Pubkey} {path : List (TreeNode H D)}
    {ev : ChainEvent H D} (h : ev ∈ confirmations K stake voter path) :
    ∃ x votes, ev = .blockConfirmed x votes := by
  unfold confirmations at h
  rw [List.mem_filterMap] at h
  obtain ⟨cell, -, hcell⟩ := h
  split at hcell
  · exact ⟨_, _, (Option.some.inj hcell).symm⟩
  · cases hcell

/-- The checks a counted vote passed. -/
theorem counts_some {v : Vote H} {stake : ℕ} {target : TreeNode H D}
    (h : c.counts K v = some (stake, target)) :
    K.stakeOf v.validator = some stake ∧ K.genesis.limits.minimumStake ≤ stake ∧
      K.verifyVote v = true ∧ TreeNode.get K c.forktrees v.target = some target ∧
      (c.inFinalizedHistory K v.justification = true ∨
        TreeNode.isDescendantOf K c.forktrees target v.justification = true) ∧
      c.injestVote K v = c.count K stake v target := by
  unfold counts at h
  split at h
  · cases h
  rename_i s hs
  split at h
  · cases h
  rename_i hmin
  split at h
  · cases h
  rename_i hverify
  split at h
  · cases h
  rename_i t ht
  split at h
  · cases h
  rename_i hjust
  obtain ⟨rfl, rfl⟩ := Prod.mk.inj (Option.some.inj h)
  refine ⟨hs, Nat.le_of_not_lt hmin, by simpa using hverify, ht, ?_, ?_⟩
  · simp only [Bool.and_eq_true, Bool.not_eq_true', not_and, Bool.not_eq_false] at hjust
    by_cases hj : c.inFinalizedHistory K v.justification = true
    · exact Or.inl hj
    · exact Or.inr (hjust (by simpa using hj))
  · simp only [injestVote, hs, hmin, hverify, ht, if_neg hjust, if_false, Bool.false_eq_true]

/-- A vote that is not counted is dropped or waits for its target. -/
theorem counts_none {v : Vote H} (h : c.counts K v = none) :
    c.injestVote K v = c ∨ c.injestVote K v = c.withOrphans (c.orphans.addVote v) := by
  unfold counts at h
  unfold injestVote
  cases hs : K.stakeOf v.validator with
  | none => exact Or.inl rfl
  | some s =>
    rw [hs] at h
    dsimp only at h ⊢
    by_cases hmin : s < K.genesis.limits.minimumStake
    · rw [if_pos hmin]
      exact Or.inl rfl
    rw [if_neg hmin] at h ⊢
    by_cases hverify : (!K.verifyVote v) = true
    · rw [if_pos hverify]
      exact Or.inl rfl
    rw [if_neg hverify] at h ⊢
    cases ht : TreeNode.get K c.forktrees v.target with
    | none => exact Or.inr rfl
    | some t =>
      rw [ht] at h
      dsimp only at h ⊢
      split at h
      next hjust =>
        rw [if_pos hjust]
        exact Or.inl rfl
      · cases h

/-- Such a vote changes no more than what waits. -/
theorem injestVote_none {v : Vote H} (h : c.counts K v = none) :
    ∃ o : Orphans H D, o.blocks = c.orphans.blocks ∧ c.injestVote K v = c.withOrphans o := by
  rcases counts_none h with heq | heq
  · exact ⟨c.orphans, rfl, heq⟩
  · exact ⟨c.orphans.addVote v, rfl, heq⟩

/-- **What a vote leaves as it is**: what is final and the history of it, and
the blocks that wait; events come after those that were there. -/
theorem injestVote_keeps (v : Vote H) : (c.injestVote K v).finalized = c.finalized ∧
    (c.injestVote K v).finalizedHistory = c.finalizedHistory ∧
    (c.injestVote K v).orphans.blocks = c.orphans.blocks ∧
    ∃ es, (c.injestVote K v).events = c.events ++ es := by
  cases hcounts : c.counts K v with
  | none =>
    obtain ⟨o, ho, heq⟩ := injestVote_none hcounts
    rw [heq]
    exact ⟨rfl, rfl, ho, [], (List.append_nil _).symm⟩
  | some p =>
    obtain ⟨-, -, -, -, -, heq⟩ := counts_some hcounts
    rw [heq]
    exact ⟨rfl, rfl, rfl, _, rfl⟩

theorem injestVote_acts {v : Vote H} (h : Within B c) (hv : ∃ b ∈ B, v ∈ b.votes)
    (hQ : ∀ p ∈ c.injestDeeds K v, Q p.1 p.2) : Acts K B Q c [] (c.injestVote K v) := by
  cases hcounts : c.counts K v with
  | none =>
    rcases counts_none hcounts with heq | heq
    · rw [heq]
      exact .refl h
    · rw [heq]
      refine .wait h h.orphans fun t w hw => ?_
      simp only [Orphans.addVote] at hw
      by_cases ht : t = v.target
      · subst ht
        rw [Function.update_self, List.mem_append, List.mem_singleton] at hw
        rcases hw with hw | rfl
        · exact h.votes _ w hw
        · exact hv
      · rw [Function.update_of_ne ht] at hw
        exact h.votes t w hw
  | some p =>
    obtain ⟨stake, target⟩ := p
    obtain ⟨hstake, hmin, hverify, htarget, hjust, heq⟩ := counts_some hcounts
    have hdeed : Q c (.count stake v target) := hQ (c, .count stake v target) (by
      rw [injestDeeds, hcounts]
      exact List.mem_cons_self)
    rw [heq]
    refine .single (.count hdeed hv hstake hmin hverify htarget hjust)
      ⟨h.orphans, h.votes, fun x hx => ?_⟩
    rcases List.mem_append.1 hx with hx | hx
    · exact h.events x hx
    · obtain ⟨_, _, heq⟩ := mem_confirmations hx
      cases heq

theorem countVotes_acts {votes : List (Vote H)} (h : Within B c)
    (hvotes : ∀ v ∈ votes, ∃ b ∈ B, v ∈ b.votes) (hQ : ∀ p ∈ c.countDeeds K votes, Q p.1 p.2) :
    Acts K B Q c [] (c.countVotes K votes) :=
  Trace.foldl (I := Within B) h hQ fun _ hc v hv hq => injestVote_acts hc (hvotes v hv) hq

/-! ## Blocks -/

theorem voteIfHead_acts {t : H} (h : Within B c) (hQ : ∀ p ∈ c.voteDeeds K t, Q p.1 p.2) :
    Acts K B Q c [] (c.voteIfHead K t) := by
  unfold voteDeeds at hQ
  unfold voteIfHead commitAndVote
  split
  · rename_i hhead
    rw [if_pos hhead] at hQ
    split
    · exact .refl h
    · rename_i n hn
      rw [hn] at hQ
      dsimp only at hQ
      split
      · rename_i hmay
        rw [if_pos hmay] at hQ
        have hhash : n.hash K = t := (TreeNode.get_some hn).2
        have hcast : Act K B Q c [] (c.cast K n) := .cast (hQ _ List.mem_cons_self)
          (hhash.trans hhead) (by rw [hhash]; exact hn) hmay
        refine .single hcast ⟨h.orphans, h.votes, fun x hx => ?_⟩
        rcases List.mem_cons.1 hx with hx | hx
        · cases hx
        · exact h.events x hx
      · exact .refl h
  · exact .refl h

/-- What `try_include` does to a chain, where it takes the block. -/
theorem tryInclude_ok {b : Produced H D} (h : c.tryInclude K b = .ok (some c')) :
    (c' = c ∧ c.knows K (K.hash b) = true) ∨ c.knows K (K.hash b) = false ∧
      ((∃ x, b.parent = c.finalized.hash K ∧ b.height = c.finalized.height + 1 ∧
        K.newExecuted c.finalized.store.get b = .ok x ∧ c' = c.addRoot x) ∨
      (∃ p x, b.parent ≠ c.finalized.hash K ∧ TreeNode.get K c.forktrees b.parent = some p ∧
        b.height = p.block.height + 1 ∧
        K.newExecuted (overlayed c.finalized.store.get (TreeNode.state c.forktrees p)) b = .ok x ∧
        c' = c.addUnder K p x)) := by
  unfold tryInclude at h
  split at h
  · rename_i hknows
    obtain rfl := Option.some.inj (Except.ok.inj h)
    exact Or.inl ⟨rfl, hknows⟩
  rename_i hknows
  refine Or.inr ⟨by simpa using hknows, ?_⟩
  split at h
  · rename_i hparent
    split at h
    · cases h
    rename_i hheight
    split at h
    · cases h
    rename_i x hx
    obtain rfl := Option.some.inj (Except.ok.inj h)
    exact Or.inl ⟨x, hparent, not_not.1 hheight, hx, rfl⟩
  · rename_i hparent
    split at h
    · cases h
    rename_i p hp
    split at h
    · cases h
    rename_i hheight
    split at h
    · cases h
    rename_i x hx
    obtain rfl := Option.some.inj (Except.ok.inj h)
    exact Or.inr ⟨p, x, hparent, hp, not_not.1 hheight, hx, rfl⟩

theorem tryInclude_acts {b : Produced H D} (h : Within B c) (hb : b ∈ B)
    (hadm : c.admits K b = true) (hc' : c.tryInclude K b = .ok (some c')) :
    Acts K B Q c [] c' := by
  have hevents : ∀ x : Executed H D, x.underlying = b → ∀ y,
      ChainEvent.blockIncluded y ∈ ChainEvent.blockIncluded x :: c.events → y.underlying ∈ B := by
    intro x hx y hy
    rcases List.mem_cons.1 hy with hy | hy
    · obtain rfl : y = x := by simpa using hy
      rwa [hx]
    · exact h.events y hy
  rcases tryInclude_ok hc' with ⟨rfl, -⟩ | ⟨hnew, ⟨x, hparent, hheight, hx, rfl⟩ |
    ⟨p, x, -, hparent, hheight, hx, rfl⟩⟩
  · exact .refl h
  · exact .single (.root hb hadm hnew hparent hheight hx)
      ⟨h.orphans, h.votes, hevents x (newExecuted_ok hx).1⟩
  · exact .single (.child hb hadm hnew hparent hheight hx)
      ⟨h.orphans, h.votes, hevents x (newExecuted_ok hx).1⟩

/-- A block that is taken, with the vote for it, up to the blocks that
waited for it. -/
theorem includeNext_acts {b : Produced H D} (h : Within B c) (hb : b ∈ B)
    (hadm : c.admits K b = true) (hc' : c.tryInclude K b = .ok (some c'))
    (hQ : ∀ p ∈ c'.voteDeeds K (K.hash b), Q p.1 p.2) :
    Acts K B Q c [] ((c'.voteIfHead K (K.hash b)).withOrphans
        ((c'.voteIfHead K (K.hash b)).orphans.consumeBlocks (K.hash b)).2) ∧
      ∀ x ∈ ((c'.voteIfHead K (K.hash b)).orphans.consumeBlocks (K.hash b)).1, x ∈ B := by
  have hinc : Acts K B Q c [] c' := tryInclude_acts h hb hadm hc'
  have hvote := hinc.trans_silent (voteIfHead_acts (t := K.hash b) hinc.2 hQ)
  obtain ⟨hwaiting, hleft⟩ := Orphans.mem_consumeBlocks
    (o := (c'.voteIfHead K (K.hash b)).orphans) (h := K.hash b)
  refine ⟨hvote.trans_silent (.wait hvote.2 (fun x hx => hvote.2.orphans x (hleft x hx))
    fun t v hv => ?_), fun x hx => hvote.2.orphans x (hwaiting x hx)⟩
  rw [Orphans.votes_consumeBlocks] at hv
  exact hvote.2.votes t v hv

/-- **`include` is a sequence of acts**, whatever waits for the block. -/
theorem includeFrom_acts {now fuel : ℕ} {b : Produced H D} (h : Within B c) (hb : b ∈ B)
    (hQ : ∀ p ∈ includeDeeds K now fuel c b, Q p.1 p.2) :
    Acts K B Q c [] (includeFrom K now fuel c b) := by
  induction fuel generalizing c b with
  | zero => exact .refl h
  | succ fuel ih =>
    simp only [includeDeeds] at hQ
    simp only [includeFrom]
    split
    · rename_i hadm
      rw [if_pos hadm] at hQ
      split
      · exact .refl h
      · refine .wait h (fun x hx => ?_) fun t v hv => ?_
        · rcases Orphans.mem_addBlock hx with rfl | hx
          · exact hb
          · exact h.orphans x hx
        · simp only [Orphans.votes_addBlock] at hv
          exact h.votes t v hv
      · rename_i c' hc'
        rw [hc'] at hQ
        dsimp only at hQ
        obtain ⟨htaken, hwaiting⟩ := includeNext_acts h hb hadm hc'
          fun p hp => hQ p (List.mem_append_left _ hp)
        exact htaken.trans_silent (Trace.foldl (I := Within B) htaken.2
          (fun p hp => hQ p (List.mem_append_right _ hp)) fun d hd x hx hq =>
            ih hd (hwaiting x hx) hq)
    · exact .refl h

/-! ## Events -/

omit [DecidableEq H] in
private theorem included_mem_foldl {α : Type} {g : α → ChainEvent H D} (l : List α)
    (es : List (ChainEvent H D)) (x : Executed H D) (hg : ∀ a, g a ≠ .blockIncluded x) :
    ChainEvent.blockIncluded x ∈ l.foldl (fun es a => g a :: es) es ↔
      ChainEvent.blockIncluded x ∈ es := by
  induction l generalizing es with
  | nil => rfl
  | cons a l ih =>
    rw [List.foldl_cons, ih, List.mem_cons]
    simp [(hg a).symm]

/-- The root `try_finalize_roots` finalizes. -/
theorem tryFinalizeRoots_some (h : c.tryFinalizeRoots K = some c') :
    ∃ before after root, splitRoots (c.finalizable K) c.forktrees = some (before, root, after) ∧
      c' = c.finalizeNext K (before ++ after) root := by
  unfold tryFinalizeRoots at h
  split at h
  · cases h
  · rename_i before root after hsplit
    obtain rfl := Option.some.inj h
    exact ⟨before, after, root, hsplit, rfl⟩

/-- `try_finalize_roots`, where it finalizes a root. -/
theorem finalizeNext_acts {before after : List (TreeNode H D)} {root : TreeNode H D}
    (h : Within B c) (hQ : Q c (.finalize root))
    (hsplit : splitRoots (c.finalizable K) c.forktrees = some (before, root, after)) :
    Acts K B Q c [] (c.finalizeNext K (before ++ after) root) := by
  refine .single (.finalize hQ hsplit) ⟨h.orphans, h.votes, fun x hx => ?_⟩
  rcases List.mem_cons.1 hx with hx | hx
  · cases hx
  · exact h.events x ((included_mem_foldl _ _ x (by simp)).1 hx)

theorem finalizeLoop_acts (fuel : ℕ) (h : Within B c)
    (hQ : ∀ p ∈ finalizeDeeds K fuel c, Q p.1 p.2) :
    Acts K B Q c [] (finalizeLoop K fuel c) := by
  induction fuel generalizing c with
  | zero => exact .refl h
  | succ fuel ih =>
    simp only [finalizeLoop]
    split
    · exact .refl h
    · rename_i c' hc'
      obtain ⟨before, after, root, hsplit, rfl⟩ := tryFinalizeRoots_some hc'
      rw [finalizeDeeds, hsplit] at hQ
      have hfin : Acts K B Q c [] (c.finalizeNext K (before ++ after) root) :=
        finalizeNext_acts h (hQ _ List.mem_cons_self) hsplit
      exact hfin.trans_silent (ih hfin.2 fun p hp => hQ p (List.mem_cons_of_mem _ hp))

/-- The votes in a block, up to those that waited for it. -/
theorem countNext_acts {b : Produced H D} (h : Within B c) (hb : b ∈ B)
    (hQ : ∀ p ∈ c.countDeeds K b.votes, Q p.1 p.2) :
    Acts K B Q c [] ((c.countVotes K b.votes).withOrphans
        ((c.countVotes K b.votes).orphans.consumeVotes (K.hash b)).2) ∧
      ∀ v ∈ ((c.countVotes K b.votes).orphans.consumeVotes (K.hash b)).1,
        ∃ b ∈ B, v ∈ b.votes := by
  have hcount : Acts K B Q c [] (c.countVotes K b.votes) :=
    countVotes_acts h (fun v hv => ⟨b, hb, hv⟩) hQ
  refine ⟨hcount.trans_silent (.wait hcount.2 hcount.2.orphans fun t v hv => ?_),
    fun v hv => hcount.2.votes (K.hash b) v hv⟩
  simp only [Orphans.consumeVotes] at hv
  by_cases ht : t = K.hash b
  · subst ht
    simp at hv
  · rw [Function.update_of_ne ht] at hv
    exact hcount.2.votes t v hv

theorem countAll_acts {b : Produced H D} (h : Within B c) (hb : b ∈ B)
    (hQ : ∀ p ∈ c.countAllDeeds K b, Q p.1 p.2) : Acts K B Q c [] (c.countAll K b) := by
  obtain ⟨htaken, hwaiting⟩ := countNext_acts h hb fun p hp => hQ p (List.mem_append_left _ hp)
  exact htaken.trans_silent (countVotes_acts htaken.2 hwaiting
    fun p hp => hQ p (List.mem_append_right _ hp))

theorem postBlockIncluded_acts {now : ℕ} {b : Produced H D} (h : Within B c) (hb : b ∈ B)
    (hQ : ∀ p ∈ c.postDeeds K b, Q p.1 p.2) :
    Acts K B Q c [] (c.postBlockIncluded K now b) := by
  have hcount : Acts K B Q c [] (c.countAll K b) :=
    countAll_acts h hb fun p hp => hQ p (List.mem_append_left _ hp)
  have hfin := hcount.trans_silent (finalizeLoop_acts
    (Rose.nodesL (c.countAll K b).forktrees).length hcount.2
    fun p hp => hQ p (List.mem_append_right _ hp))
  have hwait : Acts K B Q _ [] _ := .wait (o := ((finalizeLoop K
    (Rose.nodesL (c.countAll K b).forktrees).length (c.countAll K b)).orphans.missingBlocks K now
      (finalizeLoop K (Rose.nodesL (c.countAll K b).forktrees).length
        (c.countAll K b)).finalized.height).2) hfin.2
    (fun x hx => hfin.2.orphans x (Orphans.mem_missingBlocks hx)) hfin.2.votes
  refine (hfin.trans_silent hwait).trans_silent (.single (.miss _)
    ⟨hwait.2.orphans, hwait.2.votes, fun x hx => ?_⟩)
  exact hfin.2.events x ((included_mem_foldl _ _ x (by simp)).1 hx)

/-- **`poll_next` is a sequence of acts.** -/
theorem pollNext_acts {now : ℕ} (h : Within B c)
    (hQ : ∀ p ∈ c.deeds K (.pollNext now), Q p.1 p.2) :
    Acts K B Q c (c.pollNext K now).1.toList (c.pollNext K now).2 := by
  unfold pollNext
  split
  · exact .refl h
  · rename_i event hevent
    have hpop : Acts K B Q c [event] c.pop :=
      .single (.pop hevent)
        ⟨h.orphans, h.votes, fun x hx => h.events x (List.dropLast_subset _ hx)⟩
    have hmem : event ∈ c.events := List.mem_of_getLast? hevent
    dsimp only
    split
    · rename_i x
      rw [deeds, hevent] at hQ
      exact hpop.trans (postBlockIncluded_acts hpop.2 (h.events _ hmem) hQ)
    · exact hpop.trans (.single (.record _) ⟨hpop.2.orphans, hpop.2.votes, hpop.2.events⟩)
    · exact hpop

/-! ## Runs -/

/-- The blocks the calls of a run are given. -/
def inputBlocks (inputs : List (Input H D)) : Set (Produced H D) :=
  {b | ∃ now, Input.include now b ∈ inputs}

/-- **Every call is a sequence of acts.** -/
theorem step_acts {i : Input H D} (h : Within B c)
    (hi : ∀ now b, i = .include now b → b ∈ B) (hQ : ∀ p ∈ c.deeds K i, Q p.1 p.2) :
    Acts K B Q c (c.returned K i) (c.step K i) := by
  cases i with
  | «include» now b => exact includeFrom_acts h (hi now b rfl) hQ
  | pollNext now => exact pollNext_acts h hQ

theorem run_acts {inputs : List (Input H D)} (h : Within B c)
    (hB : ∀ b ∈ inputBlocks inputs, b ∈ B) (hQ : c.Throughout K Q inputs) :
    Acts K B Q c (c.delivered K inputs) (c.run K inputs) := by
  induction inputs generalizing c with
  | nil => exact .refl h
  | cons i inputs ih =>
    have hstep : Acts K B Q c (c.returned K i) (c.step K i) :=
      step_acts h (fun now b hib => hB b ⟨now, hib ▸ List.mem_cons_self⟩)
        fun p hp => hQ p (List.mem_append_left _ hp)
    exact hstep.trans (ih hstep.2 (fun b ⟨now, hb⟩ => hB b ⟨now, List.mem_cons_of_mem _ hb⟩)
      fun p hp => hQ p (List.mem_append_right _ hp))

omit [DecidableEq H] in
/-- Nothing waits in a new chain. -/
theorem within_new (fin : Finalized H D) : Within B (Chain.new fin) :=
  ⟨by simp [Chain.new], by simp [Chain.new], by simp [Chain.new]⟩

/-- **The rule for runs.** What holds of a new chain that has returned
nothing, and is kept by every act, holds after every run whose deeds meet
`Q`. -/
theorem run_rule {P : List (ChainEvent H D) → Chain H D → Prop} {fin : Finalized H D}
    {inputs : List (Input H D)} (hQ : (Chain.new fin).Throughout K Q inputs)
    (hnew : P [] (Chain.new fin))
    (hact : ∀ es c e c', Act K (inputBlocks inputs) Q c e c' → P es c → P (es ++ e) c') :
    P ((Chain.new fin).delivered K inputs) ((Chain.new fin).run K inputs) :=
  (run_acts (within_new fin) (fun _ hb => hb) hQ).1.rule hnew hact

end Chain

end Consensus

end Rensa
