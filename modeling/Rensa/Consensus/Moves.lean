import Rensa.Consensus.Acts
/-!
# What a call can do to the forest

The acts of a call change the forest in moves of four kinds: a block
becomes a root, a block is hung under another, a vote is counted, a root
is finalized (`Move`, `step_moves`). The invariants of the forest are
proved of one move and follow for every run (`run_induction`). `q` is what
has to hold for a root to be finalized: a call finalizes one only where it
comes to find one (`finalizes`).
-/

open Relation (ReflTransGen)

namespace Rensa

namespace Consensus

namespace Chain

variable {H D : Type} [DecidableEq H] {K : Config H D} {B : Set (Produced H D)}
  {q : Prop} {c c' : Chain H D}

omit [DecidableEq H] in
/-- The forest, and what is recorded about it, is the same. -/
structure SameForest (c c' : Chain H D) : Prop where
  finalized : c'.finalized = c.finalized
  forktrees : c'.forktrees = c.forktrees
  nextLoc : c'.nextLoc = c.nextLoc
  panicked : c'.panicked = c.panicked
  counted : c'.counted = c.counted

/-- The vote for a new head leaves forest and orphans alone. -/
theorem sameForest_voteIfHead (h : H) :
    SameForest c (c.voteIfHead K h) ∧ (c.voteIfHead K h).orphans = c.orphans := by
  have hrefl : SameForest c c ∧ c.orphans = c.orphans := ⟨⟨rfl, rfl, rfl, rfl, rfl⟩, rfl⟩
  unfold voteIfHead commitAndVote
  split
  · split
    · exact hrefl
    · split
      · exact ⟨⟨rfl, rfl, rfl, rfl, rfl⟩, rfl⟩
      · exact hrefl
  · exact hrefl

/-- **The moves of a chain**, with the checks each of them passed. -/
inductive Move (K : Config H D) (B : Set (Produced H D)) (q : Prop) : Chain H D → Chain H D → Prop
  /-- The forest stays as it is. -/
  | idle {c c' : Chain H D} (hsame : SameForest c c') : Move K B q c c'
  /-- A block becomes a root. -/
  | root {c : Chain H D} {b : Produced H D} {x : Executed H D} (hB : b ∈ B)
      (hadm : c.admits K b = true) (hnew : c.knows K (K.hash b) = false)
      (hparent : b.parent = c.finalized.hash K) (hheight : b.height = c.finalized.height + 1)
      (hx : K.newExecuted c.finalized.store.get b = .ok x) : Move K B q c (c.addRoot x)
  /-- A block is hung under another. -/
  | child {c : Chain H D} {b : Produced H D} {x : Executed H D} {p : TreeNode H D} (hB : b ∈ B)
      (hadm : c.admits K b = true) (hnew : c.knows K (K.hash b) = false)
      (hparent : TreeNode.get K c.forktrees b.parent = some p)
      (hheight : b.height = p.block.height + 1)
      (hx : K.newExecuted (overlayed c.finalized.store.get (TreeNode.state c.forktrees p)) b =
        .ok x) : Move K B q c (c.addUnder K p x)
  /-- A vote is counted. -/
  | vote {c : Chain H D} {v : Vote H} {stake : ℕ} {target : TreeNode H D}
      (hB : ∃ b ∈ B, v ∈ b.votes) (hstake : K.stakeOf v.validator = some stake)
      (hmin : K.genesis.limits.minimumStake ≤ stake) (hverify : K.verifyVote v = true)
      (htarget : TreeNode.get K c.forktrees v.target = some target)
      (hjust : c.inFinalizedHistory K v.justification = true ∨
        TreeNode.isDescendantOf K c.forktrees target v.justification = true) :
      Move K B q c (c.count K stake v target)
  /-- A root is finalized. -/
  | finalize {c : Chain H D} {before after : List (TreeNode H D)} {root : TreeNode H D}
      (hq : q) (hsplit : splitRoots (c.finalizable K) c.forktrees = some (before, root, after)) :
      Move K B q c (c.finalizeRoot K (before ++ after) root)

/-- A move finalizes a root, or it would be a move where none may be. -/
theorem Move.calm_or_finalize (hm : Move K B q c c') : Move K B False c c' ∨
    ∃ before after root, q ∧
      splitRoots (c.finalizable K) c.forktrees = some (before, root, after) ∧
      c' = c.finalizeRoot K (before ++ after) root := by
  cases hm with
  | idle hsame => exact Or.inl (.idle hsame)
  | root hB hadm hnew hparent hheight hx =>
    exact Or.inl (.root hB hadm hnew hparent hheight hx)
  | child hB hadm hnew hparent hheight hx =>
    exact Or.inl (.child hB hadm hnew hparent hheight hx)
  | vote hB hstake hmin hverify htarget hjust =>
    exact Or.inl (.vote hB hstake hmin hverify htarget hjust)
  | finalize hq hsplit => exact Or.inr ⟨_, _, _, hq, hsplit, rfl⟩

/-- A sequence of moves that keeps the chain within `B`. -/
def Moves (K : Config H D) (B : Set (Produced H D)) (q : Prop) (c c' : Chain H D) : Prop :=
  ReflTransGen (Move K B q) c c' ∧ Within B c'

namespace Moves

theorem trans {c'' : Chain H D} (h : Moves K B q c c') (h' : Moves K B q c' c'') :
    Moves K B q c c'' :=
  ⟨h.1.trans h'.1, h'.2⟩

/-- A step that only changes what waits. -/
theorem idle (hsame : SameForest c c') (h : Within B c') : Moves K B q c c' :=
  ⟨.single (.idle hsame), h⟩

end Moves

/-! ## Acts and moves -/

omit [DecidableEq H] in
/-- A root may be made final where `q` holds. -/
def Calm (q : Prop) (_ : Chain H D) : Deed H D → Prop
  | .finalize _ => q
  | _ => True

omit [DecidableEq H] in
theorem calm_true (d : Deed H D) : Calm True c d := by
  cases d <;> trivial

/-- **Every act is a sequence of moves.** -/
theorem Act.moves {es : List (ChainEvent H D)} (h : Act K B (Calm q) c es c') :
    ReflTransGen (Move K B q) c c' := by
  cases h with
  | root hB hadm hnew hparent hheight hx => exact .single (.root hB hadm hnew hparent hheight hx)
  | child hB hadm hnew hparent hheight hx => exact .single (.child hB hadm hnew hparent hheight hx)
  | count _ hB hstake hmin hverify htarget hjust =>
    exact .single (.vote hB hstake hmin hverify htarget hjust)
  | finalize hQ hsplit =>
    -- the own vote of the epoch and the event come after the move
    exact .tail (.single (.finalize hQ hsplit)) (.idle ⟨rfl, rfl, rfl, rfl, rfl⟩)
  | wait | cast | miss | pop | record => exact .single (.idle ⟨rfl, rfl, rfl, rfl, rfl⟩)

theorem Acts.moves {es : List (ChainEvent H D)} (h : Acts K B (Calm q) c es c') :
    Moves K B q c c' := by
  refine ⟨?_, h.2⟩
  exact h.1.invariant (I := ReflTransGen (Move K B q) c) .refl fun _ _ _ hact hc =>
    hc.trans hact.moves

/-! ## What a call finalizes -/

theorem calm_countDeeds {votes : List (Vote H)} : ∀ p ∈ c.countDeeds K votes, Calm q p.1 p.2 := by
  refine logged_forall (fun c v p hp => ?_) c votes
  unfold injestDeeds at hp
  split at hp
  · cases hp
  · rw [List.mem_singleton] at hp
    subst hp
    trivial

theorem calm_countAllDeeds {b : Produced H D} : ∀ p ∈ c.countAllDeeds K b, Calm q p.1 p.2 := by
  intro p hp
  rcases List.mem_append.1 hp with hp | hp
  · exact calm_countDeeds p hp
  · exact calm_countDeeds p hp

theorem calm_voteDeeds {t : H} : ∀ p ∈ c.voteDeeds K t, Calm q p.1 p.2 := by
  intro p hp
  unfold voteDeeds at hp
  split at hp
  · split at hp
    · cases hp
    · split at hp
      · rw [List.mem_singleton] at hp
        subst hp
        trivial
      · cases hp
  · cases hp

/-- Nothing is finalized by `include`. -/
theorem calm_includeDeeds {now fuel : ℕ} {b : Produced H D} :
    ∀ p ∈ includeDeeds K now fuel c b, Calm q p.1 p.2 := by
  induction fuel generalizing c b with
  | zero => simp [includeDeeds]
  | succ fuel ih =>
    intro p hp
    simp only [includeDeeds] at hp
    split at hp
    · split at hp
      · cases hp
      · cases hp
      · rcases List.mem_append.1 hp with hp | hp
        · exact calm_voteDeeds p hp
        · exact logged_forall (fun c b => ih (c := c) (b := b)) _ _ p hp
    · cases hp

omit [DecidableEq H] in
private theorem splitRoots_isSome {p : TreeNode H D → Bool} {f : List (TreeNode H D)} :
    (splitRoots p f).isSome = true ↔ ∃ root ∈ f, p root = true := by
  induction f with
  | nil => simp [splitRoots]
  | cons t ts ih =>
    simp only [splitRoots]
    split
    · rename_i hp
      simp [hp]
    · rename_i hp
      rw [Option.isSome_map, ih]
      simp [hp]

/-- `try_finalize_roots` finalizes a root where it finds one. -/
theorem tryFinalizeRoots_isSome : (c.tryFinalizeRoots K).isSome = true ↔
    ∃ root ∈ c.forktrees, c.finalizable K root = true := by
  rw [← splitRoots_isSome]
  unfold tryFinalizeRoots
  split
  · rename_i hsplit
    simp [hsplit]
  · rename_i hsplit
    simp [hsplit]

theorem calm_finalizeDeeds {fuel : ℕ}
    (hq : (∃ root ∈ c.forktrees, c.finalizable K root = true) → q) :
    ∀ p ∈ finalizeDeeds K fuel c, Calm q p.1 p.2 := by
  by_cases hroot : ∃ root ∈ c.forktrees, c.finalizable K root = true
  · rw [eq_true (hq hroot)]
    exact fun p _ => calm_true p.2
  · intro p hp
    have hnone : splitRoots (c.finalizable K) c.forktrees = none := by
      rwa [← Option.not_isSome_iff_eq_none, splitRoots_isSome]
    cases fuel with
    | zero => cases hp
    | succ fuel =>
      rw [finalizeDeeds, hnone] at hp
      cases hp

/-- The call comes to finalize a root: it takes a `BlockIncluded` event,
and with the votes for that block counted there is a root to finalize. -/
def finalizes (K : Config H D) (c : Chain H D) : Input H D → Prop
  | .include _ _ => False
  | .pollNext _ => ∃ x, c.events.getLast? = some (.blockIncluded x) ∧
      ∃ root ∈ (c.pop.countAll K x.underlying).forktrees,
        (c.pop.countAll K x.underlying).finalizable K root = true

/-- A call that does not come to finalize a root finalizes none. -/
theorem calm_deeds {i : Input H D} (hq : c.finalizes K i → q) :
    ∀ p ∈ c.deeds K i, Calm q p.1 p.2 := by
  cases i with
  | «include» now b => exact calm_includeDeeds
  | pollNext now =>
    intro p hp
    simp only [deeds] at hp
    split at hp
    · rename_i x hx
      rcases List.mem_append.1 hp with hp | hp
      · exact calm_countAllDeeds p hp
      · exact calm_finalizeDeeds (fun hroot => hq ⟨x, hx, hroot⟩) p hp
    · cases hp

/-! ## Runs -/

/-- **Every call is a sequence of moves.** -/
theorem step_moves {i : Input H D} (h : Within B c)
    (hi : ∀ now b, i = .include now b → b ∈ B) (hq : c.finalizes K i → q) :
    Moves K B q c (c.step K i) :=
  (step_acts h hi (calm_deeds hq)).moves

theorem run_moves {inputs : List (Input H D)} (h : Within B c)
    (hB : ∀ b ∈ inputBlocks inputs, b ∈ B) : Moves K B True c (c.run K inputs) :=
  (run_acts h hB fun _ _ => calm_true _).moves

theorem countAll_moves {b : Produced H D} (h : Within B c) (hb : b ∈ B) :
    Moves K B q c (c.countAll K b) :=
  (countAll_acts h hb calm_countAllDeeds).moves

theorem finalizeLoop_moves (fuel : ℕ) (h : Within B c) : Moves K B True c (finalizeLoop K fuel c) :=
  (finalizeLoop_acts fuel h fun _ _ => calm_true _).moves

/-- **The rule for runs.** What holds of a new chain and is kept by every
move holds after every run. -/
theorem run_induction {P : Chain H D → Prop} {fin : Finalized H D} {inputs : List (Input H D)}
    (hnew : P (Chain.new fin))
    (hmove : ∀ c c', Move K (inputBlocks inputs) True c c' → P c → P c') :
    P ((Chain.new fin).run K inputs) := by
  have hall : ∀ c, ReflTransGen (Move K (inputBlocks inputs) True) (Chain.new fin) c → P c := by
    intro c hc
    induction hc with
    | refl => exact hnew
    | tail _ hm ih => exact hmove _ _ hm ih
  exact hall _ (run_moves (within_new fin) fun b hb => hb).1

end Chain

end Consensus

end Rensa
