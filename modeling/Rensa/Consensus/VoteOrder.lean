import Rensa.Common.Tally
import Rensa.Consensus.Confirmations
/-!
# Votes in any order

Which votes are counted, and for which nodes, depends on the blocks of the
forest and on what is final, so that no vote of a list decides about
another (`reached_injestVote`). A voter counts once for a node, and two
voters count in either order: the forest after a list of votes depends on
the set of votes alone. The blocks that pass the majority on the way may
depend on the order as well, where the stakes of the new voters of a node
wrap (`orderFree_iff`).
-/

namespace Rensa

namespace Consensus

open Rose (nodes nodesL)
open TreeNode (block hash votes path voters deref)

variable {H D : Type}

/-! ## A forest with other votes -/

/-- The cell keeps its block, its place and its link. -/
def TreeCell.Fixes (g : TreeCell H D → TreeCell H D) : Prop :=
  ∀ c, (g c).value.block = c.value.block ∧ (g c).loc = c.loc ∧ (g c).parent = c.parent

namespace TreeNode

variable {K : Config H D} {f : List (TreeNode H D)} {g : TreeCell H D → TreeCell H D}

theorem hash_map (hg : TreeCell.Fixes g) (n : TreeNode H D) :
    hash K (Rose.map g n) = hash K n := by
  rw [hash, block, Rose.label_map, (hg n.label).1]
  rfl

theorem get_map [DecidableEq H] (hg : TreeCell.Fixes g) (h : H) :
    get K (f.map (Rose.map g)) h = (get K f h).map (Rose.map g) := by
  unfold get
  rw [Rose.nodesL_map, List.find?_map]
  simp only [Function.comp_def, hash_map hg]

theorem deref_map (hg : TreeCell.Fixes g) (l : ℕ) :
    deref (f.map (Rose.map g)) l = (deref f l).map (Rose.map g) := by
  unfold deref
  rw [Rose.nodesL_map, List.find?_map]
  simp only [Function.comp_def, Rose.label_map, (hg _).2.1]

theorem pathFrom_map (hg : TreeCell.Fixes g) (fuel : ℕ) (n : TreeNode H D) :
    pathFrom (f.map (Rose.map g)) fuel (Rose.map g n) =
      (pathFrom f fuel n).map (Rose.map g) := by
  induction fuel generalizing n with
  | zero => rfl
  | succ fuel ih =>
    rw [pathFrom, pathFrom, Rose.label_map, (hg n.label).2.2, List.map_cons]
    cases hparent : n.label.parent with
    | none => rfl
    | some l =>
      simp only [Option.bind_some, deref_map hg]
      cases deref f l with
      | none => rfl
      | some p => exact congrArg _ (ih p)

/-- Wherever the links lead, the walk stays in the forest. -/
theorem mem_nodesL_of_mem_path {n m : TreeNode H D} (hn : n ∈ nodesL f) (hm : m ∈ path f n) :
    m ∈ nodesL f := by
  unfold path at hm
  generalize (nodesL f).length = fuel at hm
  induction fuel generalizing n with
  | zero => exact List.mem_singleton.1 hm ▸ hn
  | succ fuel ih =>
    rw [pathFrom, List.mem_cons] at hm
    rcases hm with rfl | hm
    · exact hn
    · split at hm
      · exact absurd hm List.not_mem_nil
      · rename_i p hp
        obtain ⟨l, -, hl⟩ := Option.bind_eq_some_iff.1 hp
        exact ih (deref_some hl).1 hm

/-- The walk up from a node, with the new votes. -/
theorem path_map (hg : TreeCell.Fixes g) (n : TreeNode H D) :
    path (f.map (Rose.map g)) (Rose.map g n) = (path f n).map (Rose.map g) := by
  unfold path
  rw [pathFrom_map hg, Rose.nodesL_map, List.length_map]

theorem isDescendantOf_map [DecidableEq H] (hg : TreeCell.Fixes g) (n : TreeNode H D) (h : H) :
    isDescendantOf K (f.map (Rose.map g)) (Rose.map g n) h = isDescendantOf K f n h := by
  unfold isDescendantOf
  rw [path_map hg, ← List.map_tail, List.any_map]
  simp only [Function.comp_def, hash_map hg]

end TreeNode

namespace Chain

variable [DecidableEq H] {K : Config H D} {c : Chain H D} {l l' : List (Vote H)}

/-! ## Which nodes a vote counts for -/

/-- Where the nodes are that a vote counts for. -/
def reached (K : Config H D) (c : Chain H D) (v : Vote H) : List ℕ :=
  match c.counts K v with
  | none => []
  | some (_, target) => (path c.forktrees target).map fun m => m.label.loc

/-- What a vote makes of a cell. -/
def tally (K : Config H D) (c : Chain H D) (cell : TreeCell H D) (v : Vote H) : TreeCell H D :=
  if cell.loc ∈ c.reached K v then cell.addVote (K.stake v.validator) v.validator else cell

theorem fixes_tally (v : Vote H) : TreeCell.Fixes fun cell => c.tally K cell v := by
  intro cell
  dsimp only [tally]
  split
  · exact TreeNode.addVote_fixed _ _ cell
  · exact ⟨rfl, rfl, rfl⟩

theorem forktrees_injestVote (v : Vote H) :
    (c.injestVote K v).forktrees = c.forktrees.map (Rose.map fun cell => c.tally K cell v) := by
  unfold tally reached
  cases hcounts : c.counts K v with
  | none =>
    obtain ⟨o, -, heq⟩ := injestVote_none hcounts
    have hself : ∀ t : TreeNode H D,
        Rose.map (fun cell => if cell.loc ∈ ([] : List ℕ) then
          cell.addVote (K.stake v.validator) v.validator else cell) t = t :=
      Rose.map_eq_self fun _ => if_neg List.not_mem_nil
    rw [heq, List.map_congr_left fun t _ => hself t, List.map_id']
    rfl
  | some p =>
    obtain ⟨stake, target⟩ := p
    obtain ⟨hstake, -, -, -, -, heq⟩ := counts_some hcounts
    have hof : K.stake v.validator = stake := by
      rw [Config.stake, hstake]
      rfl
    rw [heq, hof]
    rfl

/-- **No vote decides about another**: whether it is counted, and for which
nodes. -/
theorem reached_injestVote (v w : Vote H) : (c.injestVote K w).reached K v = c.reached K v := by
  have hg : TreeCell.Fixes fun cell => c.tally K cell w := fixes_tally w
  obtain ⟨hfinalized, hhistory, -⟩ := injestVote_keeps (K := K) (c := c) w
  have hjust : (c.injestVote K w).inFinalizedHistory K v.justification =
      c.inFinalizedHistory K v.justification := by
    rw [inFinalizedHistory, inFinalizedHistory, hfinalized, hhistory]
  have hcounts : (c.injestVote K w).counts K v =
      (c.counts K v).map fun p => (p.1, Rose.map (fun cell => c.tally K cell w) p.2) := by
    unfold counts
    rw [forktrees_injestVote, hjust, TreeNode.get_map hg]
    cases K.stakeOf v.validator with
    | none => rfl
    | some stake =>
      by_cases hmin : stake < K.genesis.limits.minimumStake
      · simp [hmin]
      cases hverify : K.verifyVote v with
      | false => simp [hmin]
      | true =>
        cases TreeNode.get K c.forktrees v.target with
        | none => simp [hmin]
        | some target =>
          simp only [hmin, if_false, Bool.not_true, Bool.false_eq_true, Option.map_some,
            TreeNode.isDescendantOf_map hg]
          split
          · rfl
          · rfl
  unfold reached
  rw [hcounts]
  cases c.counts K v with
  | none => rfl
  | some p =>
    simp only [Option.map_some]
    rw [forktrees_injestVote, TreeNode.path_map hg, List.map_map]
    refine List.map_congr_left fun n _ => ?_
    rw [Function.comp_apply, Rose.label_map, (hg n.label).2.1]

/-! ## A list of votes -/

/-- The votes of a list, one after another. -/
def tallies (K : Config H D) (c : Chain H D) (cell : TreeCell H D) (l : List (Vote H)) :
    TreeCell H D :=
  l.foldl (c.tally K) cell

theorem tally_injestVote (v : Vote H) : (c.injestVote K v).tally K = c.tally K := by
  funext cell w
  unfold tally
  rw [reached_injestVote]

/-- **The forest after a list of votes**: every cell counts them by
itself. -/
theorem forktrees_countVotes : (c.countVotes K l).forktrees =
    c.forktrees.map (Rose.map fun cell => c.tallies K cell l) := by
  unfold countVotes
  induction l generalizing c with
  | nil =>
    have hself : ∀ t : TreeNode H D, Rose.map (fun cell => c.tallies K cell []) t = t :=
      Rose.map_eq_self fun _ => rfl
    rw [List.map_congr_left fun t _ => hself t, List.map_id']
    rfl
  | cons v l ih =>
    rw [List.foldl_cons, ih, forktrees_injestVote, List.map_map]
    refine List.map_congr_left fun t _ => ?_
    rw [Function.comp_apply, Rose.map_map]
    unfold tallies
    rw [tally_injestVote]
    rfl

omit [DecidableEq H] in
theorem addVote_comm (stake : Pubkey → ℕ) (cell : TreeCell H D) (k k' : Pubkey) :
    (cell.addVote (stake k) k).addVote (stake k') k' =
      (cell.addVote (stake k') k').addVote (stake k) k := by
  by_cases hkk : k = k'
  · rw [hkk]
  · have hkk' : k' ≠ k := fun h => hkk h.symm
    unfold TreeCell.addVote
    by_cases hk : k ∈ cell.value.voters
    · by_cases hk' : k' ∈ cell.value.voters
      · simp [hk, hk']
      · simp [hk, hk', hkk]
    · by_cases hk' : k' ∈ cell.value.voters
      · simp [hk, hk', hkk']
      · simp only [hk, hk', if_false, Finset.mem_insert, hkk, hkk', or_self]
        congr 2
        · omega
        · exact Finset.insert_comm _ _ _

omit [DecidableEq H] in
theorem addVote_idem (stake : ℕ) (cell : TreeCell H D) (k : Pubkey) :
    (cell.addVote stake k).addVote stake k = cell.addVote stake k := by
  unfold TreeCell.addVote
  by_cases hk : k ∈ cell.value.voters
  · simp [hk]
  · simp [hk]

theorem loc_tally (cell : TreeCell H D) (v : Vote H) : (c.tally K cell v).loc = cell.loc :=
  (fixes_tally v cell).2.1

/-- Votes count in either order. -/
theorem tally_comm (cell : TreeCell H D) (v w : Vote H) :
    c.tally K (c.tally K cell v) w = c.tally K (c.tally K cell w) v := by
  by_cases hv : cell.loc ∈ c.reached K v
  · by_cases hw : cell.loc ∈ c.reached K w
    · have hfixed := fun k => (TreeNode.addVote_fixed (K.stake k) k cell).2.1
      simp only [tally, if_pos hv, if_pos hw, hfixed]
      exact addVote_comm _ _ _ _
    · have hfixed := (TreeNode.addVote_fixed (K.stake v.validator) v.validator cell).2.1
      simp only [tally, if_pos hv, if_neg hw, hfixed]
  · by_cases hw : cell.loc ∈ c.reached K w
    · have hfixed := (TreeNode.addVote_fixed (K.stake w.validator) w.validator cell).2.1
      simp only [tally, if_neg hv, if_pos hw, hfixed]
    · simp only [tally, if_neg hv, if_neg hw]

/-- A vote counts once. -/
theorem tally_idem (cell : TreeCell H D) (v : Vote H) :
    c.tally K (c.tally K cell v) v = c.tally K cell v := by
  by_cases hv : cell.loc ∈ c.reached K v
  · have hfixed := (TreeNode.addVote_fixed (K.stake v.validator) v.validator cell).2.1
    simp only [tally, if_pos hv, hfixed]
    exact addVote_idem _ _ _
  · simp only [tally, if_neg hv]

/-- **The forest does not depend on the order of the votes**, or on how
often they come. -/
theorem forktrees_countVotes_congr (h : ∀ v, v ∈ l ↔ v ∈ l') :
    (c.countVotes K l).forktrees = (c.countVotes K l').forktrees := by
  rw [forktrees_countVotes, forktrees_countVotes]
  unfold tallies
  simp only [fun cell => foldl_eq_of_mem_iff (s := cell) (tally_comm (K := K) (c := c))
    tally_idem h]

/-! ## The blocks that are confirmed on the way -/

/-- The blocks for which a list of votes puts a confirmation into the
queue. -/
def newlyConfirmed (K : Config H D) (c : Chain H D) (l : List (Vote H)) : Set (Executed H D) :=
  {x | ∃ n, ChainEvent.blockConfirmed x n ∈ (c.countVotes K l).events.drop c.events.length}

omit [DecidableEq H] in
/-- The cell has a majority. -/
def Majority (K : Config H D) (cell : TreeCell H D) : Prop :=
  K.minimumMajorityStake ≤ cell.value.votes

instance (K : Config H D) : DecidablePred (Majority K) := fun cell =>
  inferInstanceAs (Decidable (K.minimumMajorityStake ≤ cell.value.votes))

/-- The events of a list of votes come after those that were there. -/
theorem events_countVotes : ∃ es, (c.countVotes K l).events = c.events ++ es := by
  unfold countVotes
  induction l generalizing c with
  | nil => exact ⟨[], (List.append_nil _).symm⟩
  | cons v l ih =>
    obtain ⟨es, hes⟩ := @ih (c.injestVote K v)
    obtain ⟨-, -, -, es', hes'⟩ := injestVote_keeps (K := K) (c := c) v
    refine ⟨es' ++ es, ?_⟩
    rw [List.foldl_cons, hes, hes', List.append_assoc]

theorem newlyConfirmed_cons (v : Vote H) :
    newlyConfirmed K c (v :: l) =
      newlyConfirmed K c [v] ∪ newlyConfirmed K (c.injestVote K v) l := by
  obtain ⟨es, hes⟩ := events_countVotes (K := K) (c := c) (l := [v])
  obtain ⟨es', hes'⟩ := events_countVotes (K := K) (c := c.injestVote K v) (l := l)
  have hone : c.countVotes K [v] = c.injestVote K v := rfl
  have hall : c.countVotes K (v :: l) = (c.injestVote K v).countVotes K l := rfl
  rw [hone] at hes
  ext x
  simp only [newlyConfirmed, Set.mem_union, Set.mem_ofPred_eq, hone, hall, hes', hes,
    List.append_assoc, List.drop_left, List.mem_append, exists_or]
  rw [← List.append_assoc, ← hes, List.drop_left]

/-- **The blocks one vote confirms**: those it takes to a majority. -/
theorem mem_newlyConfirmed_singleton (hloc : Located c.forktrees) {v : Vote H}
    {x : Executed H D} : x ∈ newlyConfirmed K c [v] ↔ ∃ n ∈ nodesL c.forktrees,
      n.label.value.block = x ∧ ¬ Majority K n.label ∧ Majority K (c.tally K n.label v) := by
  have hone : c.countVotes K [v] = c.injestVote K v := rfl
  unfold newlyConfirmed tally reached
  rw [hone]
  cases hcounts : c.counts K v with
  | none =>
    obtain ⟨o, -, heq⟩ := injestVote_none hcounts
    have hevents : (c.injestVote K v).events = c.events := heq ▸ rfl
    simp [hevents]
  | some p =>
    obtain ⟨stake, target⟩ := p
    obtain ⟨hstake, -, -, hget, -, heq⟩ := counts_some hcounts
    have hof : K.stake v.validator = stake := by
      rw [Config.stake, hstake]
      rfl
    have hpath : ∀ m ∈ path c.forktrees target, m ∈ nodesL c.forktrees := fun m hm =>
      TreeNode.mem_nodesL_of_mem_path (TreeNode.get_some hget).1 hm
    rw [heq, hof]
    simp only [count, List.drop_left, confirmations_eq, Set.mem_ofPred_eq, List.mem_map,
      ChainEvent.blockConfirmed.injEq, confirms, List.mem_filter, Bool.and_eq_true,
      Bool.not_eq_true', confirmed, decide_eq_false_iff_not, decide_eq_true_eq]
    constructor
    · rintro ⟨a, n, ⟨hn, hless, hle⟩, hblock, -⟩
      refine ⟨n, hpath n hn, hblock, hless, ?_⟩
      rwa [if_pos ⟨n, hn, rfl⟩]
    · rintro ⟨n, hn, hblock, hless, hle⟩
      split at hle
      · rename_i hreached
        obtain ⟨m, hm, heq⟩ := hreached
        obtain rfl := hloc.eq (hpath m hm) hn heq
        exact ⟨_, m, ⟨hm, hless, hle⟩, hblock, rfl⟩
      · exact absurd hle hless

/-- **The blocks a list of votes confirms**: those that some vote of it
takes to a majority. -/
theorem mem_newlyConfirmed (hloc : Located c.forktrees) {x : Executed H D} :
    x ∈ newlyConfirmed K c l ↔ ∃ n ∈ nodesL c.forktrees,
      n.label.value.block = x ∧ Rises (c.tally K) (Majority K) n.label l := by
  induction l generalizing c with
  | nil =>
    have hnone : c.countVotes K [] = c := rfl
    simp [newlyConfirmed, hnone, Rises]
  | cons v l ih =>
    have hforest := forktrees_injestVote (K := K) (c := c) v
    have hloc' : Located (c.injestVote K v).forktrees := by
      rw [hforest]
      unfold Located Rose.Keyed
      rw [Rose.labels_map, List.map_map]
      have hsame : (TreeCell.loc ∘ fun cell => c.tally K cell v) = TreeCell.loc :=
        funext fun cell => loc_tally cell v
      rw [hsame]
      exact hloc
    rw [newlyConfirmed_cons, Set.mem_union, mem_newlyConfirmed_singleton hloc, ih hloc',
      tally_injestVote]
    constructor
    · rintro (⟨n, hn, hx, hone⟩ | ⟨n', hn', hx, hrest⟩)
      · exact ⟨n, hn, hx, Or.inl hone⟩
      · rw [hforest] at hn'
        obtain ⟨n, hn, rfl⟩ := Rose.mem_nodesL_map.1 hn'
        rw [Rose.label_map] at hx hrest
        exact ⟨n, hn, (fixes_tally v n.label).1.symm.trans hx, Or.inr hrest⟩
    · rintro ⟨n, hn, hx, hone | hrest⟩
      · exact Or.inl ⟨n, hn, hx, hone⟩
      · refine Or.inr ⟨Rose.map (fun cell => c.tally K cell v) n, ?_, ?_, ?_⟩
        · rw [hforest]
          exact Rose.mem_nodesL_map.2 ⟨n, hn, rfl⟩
        · rw [Rose.label_map]
          exact (fixes_tally v n.label).1.trans hx
        · rwa [Rose.label_map]

/-! ## The stakes of the new voters -/

/-- The majority is passed when the stakes are added to the votes one after
another, in the arithmetic of a release build. -/
def Passes (majority : ℕ) (votes : ℕ) (stakes : List ℕ) : Prop :=
  Rises (fun a stake => (a + stake) % 2 ^ 64) (majority ≤ ·) votes stakes

/-- Whether the majority is passed does not depend on the order in which
the new voters come. -/
def Settled (majority : ℕ) (votes : ℕ) (stake : Pubkey → ℕ) (new : Finset Pubkey) : Prop :=
  (∀ p : List Pubkey, p.Nodup → p.toFinset = new → Passes majority votes (p.map stake)) ∨
    ∀ p : List Pubkey, p.Nodup → p.toFinset = new → ¬ Passes majority votes (p.map stake)

/-- Who votes for a node by a list of votes, and has not done so before. -/
def newVoters (K : Config H D) (c : Chain H D) (n : TreeNode H D) (l : List (Vote H)) :
    Finset Pubkey :=
  ((l.filter fun v => n.label.loc ∈ c.reached K v).map Vote.validator).toFinset \ voters n

/-- Without a wrap the majority is passed if the votes are below it and the
sum is not. -/
theorem passes_iff_of_lt {majority : ℕ} (stakes : List ℕ) (votes : ℕ)
    (h : votes + stakes.sum < 2 ^ 64) :
    Passes majority votes stakes ↔ votes < majority ∧ majority ≤ votes + stakes.sum := by
  induction stakes generalizing votes with
  | nil => simp [Passes, Rises]
  | cons s stakes ih =>
    rw [List.sum_cons] at h
    have hmod : (votes + s) % 2 ^ 64 = votes + s := Nat.mod_eq_of_lt (by omega)
    have hrest := ih (votes + s) (by omega)
    unfold Passes at hrest ⊢
    rw [Rises, hmod, hrest, List.sum_cons]
    omega

/-- **Without a wrap it is settled.** -/
theorem settled_of_lt {majority votes : ℕ} {stake : Pubkey → ℕ} {new : Finset Pubkey}
    (h : votes + ∑ k ∈ new, stake k < 2 ^ 64) : Settled majority votes stake new := by
  have hsum : ∀ p : List Pubkey, p.Nodup → p.toFinset = new →
      (p.map stake).sum = ∑ k ∈ new, stake k := by
    rintro p hp rfl
    exact (List.sum_toFinset stake hp).symm
  by_cases hends : votes < majority ∧ majority ≤ votes + ∑ k ∈ new, stake k
  · refine Or.inl fun p hp hnew => (passes_iff_of_lt _ _ ?_).2 ?_
    · rwa [hsum p hp hnew]
    · rwa [hsum p hp hnew]
  · refine Or.inr fun p hp hnew hpass => hends ?_
    rw [← hsum p hp hnew]
    exact (passes_iff_of_lt _ _ (by rwa [hsum p hp hnew])).1 hpass

theorem mem_newVoters {n : TreeNode H D} {k : Pubkey} : k ∈ newVoters K c n l ↔
    k ∉ voters n ∧ ∃ v ∈ l, n.label.loc ∈ c.reached K v ∧ v.validator = k := by
  simp only [newVoters, Finset.mem_sdiff, List.mem_toFinset, List.mem_map, List.mem_filter,
    decide_eq_true_eq, and_assoc]
  exact and_comm

/-- The new voters depend on the set of votes alone. -/
theorem newVoters_congr (h : ∀ v, v ∈ l ↔ v ∈ l') (n : TreeNode H D) :
    newVoters K c n l = newVoters K c n l' := by
  ext k
  simp only [mem_newVoters, h]

/-- A vote of a new voter for a cell. -/
theorem tally_of_new {cell : TreeCell H D} {v : Vote H} (hreached : cell.loc ∈ c.reached K v)
    (hnew : v.validator ∉ cell.value.voters) :
    (c.tally K cell v).loc = cell.loc ∧
      (c.tally K cell v).value.votes = (cell.value.votes + K.stake v.validator) % 2 ^ 64 ∧
      (c.tally K cell v).value.voters = insert v.validator cell.value.voters := by
  refine ⟨loc_tally cell v, ?_, ?_⟩
  · simp [tally, hreached, TreeCell.addVote, hnew]
  · simp [tally, hreached, TreeCell.addVote, hnew]

/-- Any other vote. -/
theorem tally_of_not_new {cell : TreeCell H D} {v : Vote H}
    (h : cell.loc ∈ c.reached K v → v.validator ∈ cell.value.voters) : c.tally K cell v = cell := by
  unfold tally
  split
  · rename_i hreached
    exact if_pos (h hreached)
  · rfl

/-- Votes by those who have voted pass nothing. -/
theorem not_rises_of_voted {cell : TreeCell H D}
    (h : ∀ v ∈ l, cell.loc ∈ c.reached K v → v.validator ∈ cell.value.voters) :
    ¬ Rises (c.tally K) (Majority K) cell l := by
  induction l with
  | nil => exact id
  | cons v l ih =>
    rw [rises_cons_of_eq (tally_of_not_new (h v List.mem_cons_self))]
    exact ih fun w hw => h w (List.mem_cons_of_mem _ hw)

/-- **A list of votes gives an order of the new voters**: the one of their
first votes for the cell. -/
theorem exists_order (cell : TreeCell H D) (l : List (Vote H)) :
    ∃ p : List Pubkey, p.Nodup ∧
      (∀ k, k ∈ p ↔ k ∉ cell.value.voters ∧
        ∃ v ∈ l, cell.loc ∈ c.reached K v ∧ v.validator = k) ∧
      (Rises (c.tally K) (Majority K) cell l ↔
        Passes K.minimumMajorityStake cell.value.votes (p.map K.stake)) := by
  induction l generalizing cell with
  | nil => exact ⟨[], List.nodup_nil, by simp, Iff.rfl⟩
  | cons v l ih =>
    by_cases hnew : cell.loc ∈ c.reached K v ∧ v.validator ∉ cell.value.voters
    · obtain ⟨hloc, hvotes, hvoters⟩ := tally_of_new hnew.1 hnew.2
      obtain ⟨p, hp, hmem, hrises⟩ := ih (c.tally K cell v)
      rw [hvoters, hloc] at hmem
      rw [hvotes] at hrises
      refine ⟨v.validator :: p, List.nodup_cons.2 ⟨fun h => ?_, hp⟩, fun k => ?_, ?_⟩
      · exact ((hmem _).1 h).1 (Finset.mem_insert_self _ _)
      · rw [List.mem_cons, hmem, Finset.mem_insert]
        constructor
        · rintro (rfl | ⟨hk, w, hw, hreached⟩)
          · exact ⟨hnew.2, v, List.mem_cons_self, hnew.1, rfl⟩
          · exact ⟨fun h => hk (Or.inr h), w, List.mem_cons_of_mem _ hw, hreached⟩
        · rintro ⟨hk, w, hw, hreached, rfl⟩
          by_cases hsame : w.validator = v.validator
          · exact Or.inl hsame
          · refine Or.inr ⟨fun h => h.elim hsame hk, w, ?_, hreached, rfl⟩
            exact (List.mem_cons.1 hw).resolve_left fun h => hsame (h ▸ rfl)
      · unfold Passes at hrises ⊢
        rw [Rises, hrises, List.map_cons, Rises]
        unfold Majority
        rw [hvotes]
    · have hidle : c.tally K cell v = cell :=
        tally_of_not_new fun h => by_contra fun hk => hnew ⟨h, hk⟩
      obtain ⟨p, hp, hmem, hrises⟩ := ih cell
      refine ⟨p, hp, fun k => ?_, (rises_cons_of_eq hidle).trans hrises⟩
      rw [hmem]
      refine and_congr_right fun hk =>
        ⟨fun h => h.imp fun w => And.imp_left (List.mem_cons_of_mem _), ?_⟩
      rintro ⟨w, hw, hreached, rfl⟩
      refine ⟨w, (List.mem_cons.1 hw).resolve_left ?_, hreached, rfl⟩
      rintro rfl
      exact hnew ⟨hreached, hk⟩

/-- **Every order of the new voters is that of a list of votes**: those
that bring them in this order, and then any votes of voters among them. -/
theorem rises_of_order {cell : TreeCell H D} {loc : ℕ} (hcell : cell.loc = loc)
    {p : List Pubkey} {q rest : List (Vote H)}
    (hq : List.Forall₂ (fun v k => v.validator = k ∧ loc ∈ c.reached K v) q p)
    (hp : p.Nodup) (hnew : ∀ k ∈ p, k ∉ cell.value.voters)
    (hrest : ∀ v ∈ rest, loc ∈ c.reached K v →
      v.validator ∈ cell.value.voters ∨ v.validator ∈ p) :
    Rises (c.tally K) (Majority K) cell (q ++ rest) ↔
      Passes K.minimumMajorityStake cell.value.votes (p.map K.stake) := by
  induction hq generalizing cell with
  | nil =>
    refine iff_of_false (not_rises_of_voted fun v hv h => ?_) id
    exact (hrest v hv (hcell ▸ h)).resolve_right List.not_mem_nil
  | @cons v k q p hv hq ih =>
    obtain ⟨rfl, hreached⟩ := hv
    obtain ⟨hfirst, hp⟩ := List.nodup_cons.1 hp
    obtain ⟨hloc, hvotes, hvoters⟩ :=
      tally_of_new (hcell.symm ▸ hreached) (hnew _ List.mem_cons_self)
    have hih := @ih (c.tally K cell v) (hloc.trans hcell) hp ?_ ?_
    · rw [hvotes] at hih
      unfold Passes at hih ⊢
      rw [List.cons_append, Rises, hih, List.map_cons, Rises]
      unfold Majority
      rw [hvotes]
    · intro k hk
      rw [hvoters, Finset.mem_insert, not_or]
      exact ⟨fun h => hfirst (h ▸ hk), hnew k (List.mem_cons_of_mem _ hk)⟩
    · intro w hw h
      rw [hvoters, Finset.mem_insert]
      rcases hrest w hw h with hvoted | hmem
      · exact Or.inl (Or.inr hvoted)
      · rcases List.mem_cons.1 hmem with heq | hmem
        · exact Or.inl (Or.inl heq)
        · exact Or.inr hmem

/-- **The order does not matter** for two lists of votes: they leave the same
forest, and confirm the same blocks. -/
structure OrderFree (K : Config H D) (c : Chain H D) (l l' : List (Vote H)) : Prop where
  forktrees : (c.countVotes K l).forktrees = (c.countVotes K l').forktrees
  confirmed : newlyConfirmed K c l = newlyConfirmed K c l'

/-- A block is confirmed by a list of votes exactly where the stakes pass
the majority in the order of the list. -/
theorem block_mem_newlyConfirmed (hloc : Located c.forktrees) (hhash : Hashed K c.forktrees)
    {n : TreeNode H D} (hn : n ∈ nodesL c.forktrees) :
    n.label.value.block ∈ newlyConfirmed K c l ↔ Rises (c.tally K) (Majority K) n.label l := by
  rw [mem_newlyConfirmed hloc]
  constructor
  · rintro ⟨m, hm, hblock, hrises⟩
    have hsame : TreeCell.hash K m.label = TreeCell.hash K n.label := by
      rw [TreeCell.hash, TreeCell.hash, hblock]
    rwa [← hhash.eq hm hn hsame]
  · exact fun hrises => ⟨n, hn, rfl, hrises⟩

/-- Every order of the new voters is that of some list with the same
votes. -/
theorem exists_list_of_order {n : TreeNode H D} {p : List Pubkey} (hp : p.Nodup)
    (hnew : p.toFinset = newVoters K c n l) :
    ∃ l', (∀ v, v ∈ l' ↔ v ∈ l) ∧ (Rises (c.tally K) (Majority K) n.label l' ↔
      Passes K.minimumMajorityStake (votes n) (p.map K.stake)) := by
  have hmem : ∀ k ∈ p, k ∉ voters n ∧ ∃ v ∈ l, n.label.loc ∈ c.reached K v ∧ v.validator = k := by
    intro k hk
    rw [← mem_newVoters, ← hnew]
    exact List.mem_toFinset.2 hk
  obtain ⟨q, hq, hsub⟩ : ∃ q : List (Vote H),
      List.Forall₂ (fun v k => v.validator = k ∧ n.label.loc ∈ c.reached K v) q p ∧
        ∀ v ∈ q, v ∈ l := by
    clear hp hnew
    induction p with
    | nil => exact ⟨[], .nil, by simp⟩
    | cons k p ih =>
      obtain ⟨q, hq, hsub⟩ := ih fun k hk => hmem k (List.mem_cons_of_mem _ hk)
      obtain ⟨-, v, hv, hreached, hk⟩ := hmem k List.mem_cons_self
      refine ⟨v :: q, .cons ⟨hk, hreached⟩ hq, fun w hw => ?_⟩
      rcases List.mem_cons.1 hw with rfl | hw
      · exact hv
      · exact hsub w hw
  refine ⟨q ++ l, fun v => ?_, rises_of_order rfl hq hp (fun k hk => (hmem k hk).1) ?_⟩
  · rw [List.mem_append]
    exact ⟨fun h => h.elim (hsub v) id, Or.inr⟩
  · intro v hv hreached
    by_cases hvoted : v.validator ∈ voters n
    · exact Or.inl hvoted
    · refine Or.inr (List.mem_toFinset.1 ?_)
      rw [hnew, mem_newVoters]
      exact ⟨hvoted, v, hv, hreached, rfl⟩

/-- **Votes in any order.** All lists with the votes of `l`, in any order
and any number, leave the same forest; and they confirm the same blocks
exactly where it is settled for every block whether the stakes of its new
voters pass the majority. -/
theorem orderFree_iff (K : Config H D) (c : Chain H D) (hloc : Located c.forktrees)
    (hhash : Hashed K c.forktrees) (votes : List (Vote H)) :
    (∀ l l' : List (Vote H), (∀ v, v ∈ l ↔ v ∈ l') →
      (c.countVotes K l).forktrees = (c.countVotes K l').forktrees) ∧
    ((∀ l l' : List (Vote H), (∀ v, v ∈ l ↔ v ∈ votes) → (∀ v, v ∈ l' ↔ v ∈ votes) →
      OrderFree K c l l') ↔
      ∀ n ∈ nodesL c.forktrees, Settled K.minimumMajorityStake (TreeNode.votes n) K.stake
        (newVoters K c n votes)) := by
  refine ⟨fun l l' h => forktrees_countVotes_congr h, fun hfree n hn => ?_, fun hsettled => ?_⟩
  · -- two orders of the new voters are those of two lists
    by_cases hsome : ∃ p : List Pubkey, p.Nodup ∧ p.toFinset = newVoters K c n votes ∧
        Passes K.minimumMajorityStake (TreeNode.votes n) (p.map K.stake)
    · obtain ⟨p, hp, hnew, hpass⟩ := hsome
      obtain ⟨l, hl, hrises⟩ := exists_list_of_order hp hnew
      refine Or.inl fun p' hp' hnew' => ?_
      obtain ⟨l', hl', hrises'⟩ := exists_list_of_order hp' hnew'
      rw [← hrises', ← block_mem_newlyConfirmed hloc hhash hn, ← (hfree l l' hl hl').confirmed,
        block_mem_newlyConfirmed hloc hhash hn, hrises]
      exact hpass
    · exact Or.inr fun p hp hnew hpass => hsome ⟨p, hp, hnew, hpass⟩
  · -- two lists give two orders of the same new voters
    have horder : ∀ l : List (Vote H), (∀ v, v ∈ l ↔ v ∈ votes) → ∀ n : TreeNode H D,
        ∃ p : List Pubkey, p.Nodup ∧ p.toFinset = newVoters K c n votes ∧
          (Rises (c.tally K) (Majority K) n.label l ↔
            Passes K.minimumMajorityStake (TreeNode.votes n) (p.map K.stake)) := by
      intro l hl n
      obtain ⟨p, hp, hmem, hrises⟩ := exists_order (K := K) (c := c) n.label l
      refine ⟨p, hp, ?_, hrises⟩
      ext k
      rw [List.mem_toFinset, hmem, ← newVoters_congr hl, mem_newVoters]
      rfl
    intro l l' hl hl'
    refine ⟨forktrees_countVotes_congr fun v => (hl v).trans (hl' v).symm, ?_⟩
    ext x
    rw [mem_newlyConfirmed hloc, mem_newlyConfirmed hloc]
    refine exists_congr fun n => and_congr_right fun hn => and_congr_right fun _ => ?_
    obtain ⟨p, hp, hnew, hrises⟩ := horder l hl n
    obtain ⟨p', hp', hnew', hrises'⟩ := horder l' hl' n
    rw [hrises, hrises']
    rcases hsettled n hn with hall | hnone
    · exact iff_of_true (hall p hp hnew) (hall p' hp' hnew')
    · exact iff_of_false (hnone p hp hnew) (hnone p' hp' hnew')

namespace Sample

/-- The vote of validator 7 for the first block, in the block above it. -/
def votedByOne : Produced ℕ Unit :=
  produce beside 7 (beside.hash first) 2 () [vote 7 (beside.hash first)]

/-- It arrives after its parent, and the first `polls` events are taken. -/
def halfVoted (polls : ℕ) : Chain ℕ Unit := (Chain.new genesis).run beside
  ([.include 0 first, .include 0 votedByOne] ++ List.replicate polls (.pollNext 0))

end Sample

open Sample in
/-- Two validators with stakes 2 ^ 63 and 1000 vote for a block. -/
theorem orderFree_beside : (halfVoted 0).forktrees.length = 1 ∧
    ∀ l l' : List (Vote ℕ),
      (∀ v, v ∈ l ↔ v ∈ [vote 7 (beside.hash first), vote 9 (beside.hash first)]) →
      (∀ v, v ∈ l' ↔ v ∈ [vote 7 (beside.hash first), vote 9 (beside.hash first)]) →
      OrderFree beside (halfVoted 0) l l' := by
  obtain ⟨halloc, hformed⟩ := run_forest beside genesis
    ([.include 0 first, .include 0 votedByOne] ++ List.replicate 0 (.pollNext 0))
  refine ⟨by decide +kernel, (orderFree_iff beside (halfVoted 0) halloc.located hformed.hashed
    [vote 7 (beside.hash first), vote 9 (beside.hash first)]).2.2 fun n hn => settled_of_lt ?_⟩
  revert n
  decide +kernel

open Sample in
/-- With one vote of 2 ^ 63 counted, the vote of the other such validator
takes the majority away and that of a third makes it again; the other way
round the block keeps its majority. -/
theorem not_orderFree_halfVoted :
    Linked (halfVoted 3).forktrees ∧ ∃ l l' : List (Vote ℕ), (∀ v, v ∈ l ↔ v ∈ l') ∧
      ¬ OrderFree beside (halfVoted 3) l l' := by
  obtain ⟨halloc, hformed⟩ := run_forest beside genesis
    ([.include 0 first, .include 0 votedByOne] ++ List.replicate 3 (.pollNext 0))
  obtain ⟨n, hn, hrises, hnot⟩ : ∃ n ∈ nodesL (halfVoted 3).forktrees,
      Rises ((halfVoted 3).tally beside) (Majority beside) n.label
        [vote 8 (beside.hash first), vote 9 (beside.hash first)] ∧
      ¬ Rises ((halfVoted 3).tally beside) (Majority beside) n.label
        [vote 9 (beside.hash first), vote 8 (beside.hash first)] := by
    decide +kernel
  refine ⟨by decide +kernel, [vote 8 (beside.hash first), vote 9 (beside.hash first)],
    [vote 9 (beside.hash first), vote 8 (beside.hash first)], fun v => ?_, fun hfree => hnot ?_⟩
  · simp only [List.mem_cons, List.not_mem_nil, or_false]
    exact or_comm
  · have hmem := (block_mem_newlyConfirmed halloc.located hformed.hashed hn).2 hrises
    exact (block_mem_newlyConfirmed halloc.located hformed.hashed hn).1 (hfree.confirmed ▸ hmem)

end Chain

end Consensus

end Rensa
