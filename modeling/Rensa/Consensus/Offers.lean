import Rensa.Consensus.VoteOrder
import Rensa.Consensus.Votes
/-!
# Which votes count

`injest_vote` is called for the votes in a block whose inclusion is taken,
and once more for those that came before their target (`offers`). What is
counted in a run is what passes its checks in one of these calls
(`mem_counted_run`), and a vote that comes too early stays until the
inclusion of its target is taken (`offered_again`). With the books in order
this says who the voters of a node are (`voters_run`).
-/

namespace Rensa

namespace Consensus

open Rose (nodes nodesL)
open TreeNode (hash votes voters)

variable {H D : Type}

namespace Chain

section Offers

variable (K : Config H D) [DecidableEq H] (c : Chain H D)

/-- The calls of `injest_vote` by `count_votes`, each with the state it is
made in. -/
def countOffers (votes : List (Vote H)) : List (Chain H D × Vote H) :=
  logged (fun c v => c.injestVote K v) (fun c v => [(c, v)]) c votes

/-- The calls of `injest_vote` for a block: for its votes, then for those
that waited for it. -/
def countAllOffers (b : Produced H D) : List (Chain H D × Vote H) :=
  let counted := c.countVotes K b.votes
  let (votes, orphans) := counted.orphans.consumeVotes (K.hash b)
  c.countOffers K b.votes ++ (counted.withOrphans orphans).countOffers K votes

/-- The calls of `injest_vote` by one call of the chain. -/
def offers : Input H D → List (Chain H D × Vote H)
  | .include _ _ => []
  | .pollNext _ =>
    match c.events.getLast? with
    | some (.blockIncluded b) => c.pop.countAllOffers K b.underlying
    | _ => []

/-- The calls of `injest_vote` of a run. -/
def offered (inputs : List (Input H D)) : List (Chain H D × Vote H) :=
  logged (step K) (fun c i => c.offers K i) c inputs

end Offers

/-- The call takes the inclusion of the block. -/
def Taking (c : Chain H D) (x : Executed H D) : Input H D → Prop
  | .include _ _ => False
  | .pollNext _ => c.events.getLast? = some (.blockIncluded x)

variable [DecidableEq H] {K : Config H D} {B : Set (Produced H D)} {fin : Finalized H D}
  {c c' : Chain H D} {v w : Vote H} {t : TreeNode H D} {h : H}

/-- **The vote passes the checks of `injest_vote`**, its target found at the
node. -/
structure Acceptable (K : Config H D) (c : Chain H D) (v : Vote H) (t : TreeNode H D) :
    Prop where
  eligible : K.Eligible v.validator
  signed : K.verifyVote v = true
  found : TreeNode.get K c.forktrees v.target = some t
  justified : c.inFinalizedHistory K v.justification = true ∨
    TreeNode.isDescendantOf K c.forktrees t v.justification = true

/-- **The vote comes too early**: its sender is fine, and its target is not in
the forest. -/
structure Early (K : Config H D) (c : Chain H D) (v : Vote H) : Prop where
  eligible : K.Eligible v.validator
  signed : K.verifyVote v = true
  missing : TreeNode.get K c.forktrees v.target = none

/-! ## One vote -/

/-- The checks are those after which the source counts the vote. -/
theorem acceptable_iff : Acceptable K c v t ↔ c.counts K v = some (K.stake v.validator, t) := by
  constructor
  · rintro ⟨⟨stake, hstake, hmin⟩, hverify, hfound, hjust⟩
    have hof : K.stake v.validator = stake := by rw [Config.stake, hstake, Option.getD_some]
    have hnot : ¬ (!c.inFinalizedHistory K v.justification &&
        !TreeNode.isDescendantOf K c.forktrees t v.justification) = true := by
      rcases hjust with hjust | hjust <;> simp [hjust]
    rw [counts, hstake, hof]
    simp only [if_neg (Nat.not_lt.2 hmin), hverify, hfound, if_neg hnot, Bool.not_true,
      Bool.false_eq_true, if_false]
  · intro hcounts
    obtain ⟨hstake, hmin, hverify, hfound, hjust, -⟩ := counts_some hcounts
    exact ⟨⟨_, hstake, hmin⟩, hverify, hfound, hjust⟩

/-- A vote that is counted is counted with the stake of its validator. -/
theorem acceptable_of_counts {stake : ℕ} (hcounts : c.counts K v = some (stake, t)) :
    Acceptable K c v t := by
  obtain ⟨hstake, hmin, hverify, hfound, hjust, -⟩ := counts_some hcounts
  exact ⟨⟨_, hstake, hmin⟩, hverify, hfound, hjust⟩

/-- A vote that comes too early waits. -/
theorem Early.injestVote_eq (he : Early K c v) :
    c.injestVote K v = c.withOrphans (c.orphans.addVote v) := by
  obtain ⟨⟨stake, hstake, hmin⟩, hverify, hmissing⟩ := he
  simp only [injestVote, hstake, if_neg (Nat.not_lt.2 hmin), hverify, hmissing, Bool.not_true,
    Bool.false_eq_true, if_false]

/-- Counting votes puts no target into the forest. -/
theorem Early.injestVote (he : Early K c v) : Early K (c.injestVote K w) v := by
  refine ⟨he.eligible, he.signed, ?_⟩
  rw [forktrees_injestVote, TreeNode.get_map (fixes_tally w), he.missing, Option.map_none]

theorem Early.countVotes {l : List (Vote H)} (he : Early K c v) :
    Early K (c.countVotes K l) v := by
  induction l generalizing c with
  | nil => exact he
  | cons w l ih => exact ih he.injestVote

/-- What one vote adds to the votes that were counted. -/
theorem mem_counted_injestVote {e : Vote H × ℕ} : e ∈ (c.injestVote K v).counted ↔
    e ∈ c.counted ∨ ∃ t, Acceptable K c v t ∧ e = (v, t.label.loc) := by
  cases hcounts : c.counts K v with
  | none =>
    have hnone : ∀ t, ¬ Acceptable K c v t := by
      intro t ht
      rw [acceptable_iff.1 ht] at hcounts
      cases hcounts
    rcases counts_none hcounts with heq | heq
    · rw [heq]
      simp [hnone]
    · rw [heq]
      simp [hnone, withOrphans]
  | some p =>
    obtain ⟨stake, t⟩ := p
    obtain ⟨-, -, -, hfound, -, heq⟩ := counts_some hcounts
    rw [heq, Chain.count, List.mem_cons, or_comm]
    refine or_congr_right ⟨fun he => ⟨t, acceptable_of_counts hcounts, he⟩, ?_⟩
    rintro ⟨t', ht', rfl⟩
    obtain rfl : t = t' := Option.some.inj (hfound.symm.trans ht'.found)
    rfl

/-- A vote that waits is not lost to another vote. -/
theorem mem_votes_injestVote (hw : w ∈ c.orphans.votes h) :
    w ∈ (c.injestVote K v).orphans.votes h := by
  cases hcounts : c.counts K v with
  | none =>
    rcases counts_none hcounts with heq | heq
    · rwa [heq]
    · rw [heq]
      change w ∈ Function.update c.orphans.votes v.target (c.orphans.votes v.target ++ [v]) h
      by_cases hh : h = v.target
      · subst hh
        rw [Function.update_self]
        exact List.mem_append_left _ hw
      · rwa [Function.update_of_ne hh]
  | some p =>
    obtain ⟨-, -, -, -, -, heq⟩ := counts_some hcounts
    rw [heq]
    exact hw

theorem Early.mem_votes (he : Early K c v) :
    v ∈ (c.injestVote K v).orphans.votes v.target := by
  rw [he.injestVote_eq]
  change v ∈ Function.update c.orphans.votes v.target (c.orphans.votes v.target ++ [v]) v.target
  rw [Function.update_self]
  exact List.mem_append_right _ (List.mem_singleton_self v)

/-! ## A list of votes -/

theorem mem_votes_countVotes {l : List (Vote H)} (hw : w ∈ c.orphans.votes h) :
    w ∈ (c.countVotes K l).orphans.votes h := by
  induction l generalizing c with
  | nil => exact hw
  | cons v l ih => exact ih (mem_votes_injestVote hw)

/-- Every vote of a list is offered. -/
theorem map_snd_countOffers (l : List (Vote H)) : (c.countOffers K l).map Prod.snd = l := by
  induction l generalizing c with
  | nil => rfl
  | cons v l ih =>
    rw [countOffers, logged, List.map_append]
    exact congrArg (v :: ·) ih

/-- **What a list of votes adds to the votes that were counted.** -/
theorem mem_counted_countVotes {l : List (Vote H)} {e : Vote H × ℕ} :
    e ∈ (c.countVotes K l).counted ↔ e ∈ c.counted ∨
      ∃ p ∈ c.countOffers K l, ∃ t, Acceptable K p.1 p.2 t ∧ e = (p.2, t.label.loc) := by
  induction l generalizing c with
  | nil => simp [Chain.countVotes, countOffers, logged]
  | cons v l ih =>
    have hcons : c.countOffers K (v :: l) = (c, v) :: (c.injestVote K v).countOffers K l := rfl
    have hcount : c.countVotes K (v :: l) = (c.injestVote K v).countVotes K l := rfl
    rw [hcount, ih, mem_counted_injestVote, hcons, List.exists_mem_cons_iff, or_assoc]

/-- A vote of a list that comes too early is among those that wait after it. -/
theorem mem_votes_of_early {l : List (Vote H)} {p : Chain H D × Vote H}
    (hp : p ∈ c.countOffers K l) (he : Early K p.1 p.2) :
    p.2 ∈ (c.countVotes K l).orphans.votes p.2.target ∧ Early K (c.countVotes K l) p.2 := by
  obtain ⟨pre, v, post, rfl, hlog⟩ := exists_of_mem_logged hp
  obtain rfl := List.mem_singleton.1 hlog
  have hsplit : c.countVotes K (pre ++ v :: post) =
      ((c.countVotes K pre).injestVote K v).countVotes K post := by
    rw [Chain.countVotes, List.foldl_append]
    rfl
  rw [hsplit]
  exact ⟨mem_votes_countVotes he.mem_votes, he.injestVote.countVotes⟩

/-! ## The votes of a block -/

theorem mem_counted_countAll {b : Produced H D} {e : Vote H × ℕ} :
    e ∈ (c.countAll K b).counted ↔ e ∈ c.counted ∨
      ∃ p ∈ c.countAllOffers K b, ∃ t, Acceptable K p.1 p.2 t ∧ e = (p.2, t.label.loc) := by
  rw [Chain.countAll, mem_counted_countVotes, countAllOffers]
  simp only [List.mem_append, or_and_right, exists_or]
  rw [← or_assoc]
  exact or_congr_left mem_counted_countVotes

/-- A vote that waits for another block goes on waiting. -/
theorem mem_votes_countAll {b : Produced H D} (hne : K.hash b ≠ h) (hw : w ∈ c.orphans.votes h) :
    w ∈ (c.countAll K b).orphans.votes h := by
  refine mem_votes_countVotes ?_
  change w ∈ Function.update (c.countVotes K b.votes).orphans.votes (K.hash b) [] h
  rw [Function.update_of_ne hne.symm]
  exact mem_votes_countVotes hw

/-- A vote that waits for the block is offered. -/
theorem mem_offers_of_waits {b : Produced H D} (hw : w ∈ c.orphans.votes (K.hash b)) :
    w ∈ (c.countAllOffers K b).map Prod.snd := by
  rw [countAllOffers, List.map_append, map_snd_countOffers, map_snd_countOffers]
  exact List.mem_append_right _ (mem_votes_countVotes hw)

/-- A vote that comes too early waits after the votes of the block. -/
theorem mem_votes_of_early_countAll {b : Produced H D} {p : Chain H D × Vote H}
    (hp : p ∈ c.countAllOffers K b) (he : Early K p.1 p.2) :
    p.2 ∈ (c.countAll K b).orphans.votes p.2.target := by
  rw [countAllOffers] at hp
  rcases List.mem_append.1 hp with hp | hp
  · obtain ⟨hwaits, hearly⟩ := mem_votes_of_early hp he
    by_cases htarget : K.hash b = p.2.target
    · -- it is among those that waited for the block, and waits for it again
      rw [← htarget] at hwaits
      have hlate : Early K ((c.countVotes K b.votes).withOrphans
          ((c.countVotes K b.votes).orphans.consumeVotes (K.hash b)).2) p.2 :=
        ⟨hearly.eligible, hearly.signed, hearly.missing⟩
      obtain ⟨pre, post, hsplit⟩ := List.append_of_mem hwaits
      have hoffered := mem_votes_of_early (c := (c.countVotes K b.votes).withOrphans
          ((c.countVotes K b.votes).orphans.consumeVotes (K.hash b)).2)
        (l := (c.countVotes K b.votes).orphans.votes (K.hash b))
        (p := (((c.countVotes K b.votes).withOrphans
          ((c.countVotes K b.votes).orphans.consumeVotes (K.hash b)).2).countVotes K pre, p.2))
        (by rw [hsplit, countOffers, logged_append]
            exact List.mem_append_right _ List.mem_cons_self) hlate.countVotes
      exact hoffered.1
    · refine mem_votes_countVotes ?_
      change p.2 ∈ Function.update (c.countVotes K b.votes).orphans.votes (K.hash b) [] p.2.target
      rwa [Function.update_of_ne (Ne.symm htarget)]
  · exact (mem_votes_of_early hp he).1

/-! ## A call -/

/-- `include` counts no votes, and leaves those that wait as they are. -/
theorem kept_includeFrom {now fuel : ℕ} {b : Produced H D} :
    (includeFrom K now fuel c b).counted = c.counted ∧
      (includeFrom K now fuel c b).orphans.votes = c.orphans.votes := by
  induction fuel generalizing c b with
  | zero => exact ⟨rfl, rfl⟩
  | succ fuel ih =>
    have hwaiting : ∀ (xs : List (Produced H D)) (d : Chain H D),
        (xs.foldl (includeFrom K now fuel) d).counted = d.counted ∧
          (xs.foldl (includeFrom K now fuel) d).orphans.votes = d.orphans.votes := by
      intro xs
      induction xs with
      | nil => exact fun d => ⟨rfl, rfl⟩
      | cons x xs ihs =>
        intro d
        obtain ⟨hcounted, hvotes⟩ := ihs (includeFrom K now fuel d x)
        exact ⟨hcounted.trans ih.1, hvotes.trans ih.2⟩
    simp only [includeFrom]
    split
    · split
      · exact ⟨rfl, rfl⟩
      · exact ⟨rfl, Orphans.votes_addBlock⟩
      · rename_i c' hc'
        obtain ⟨hcounted, hvotes⟩ := hwaiting
          ((c'.voteIfHead K (K.hash b)).orphans.consumeBlocks (K.hash b)).1
          ((c'.voteIfHead K (K.hash b)).withOrphans
            ((c'.voteIfHead K (K.hash b)).orphans.consumeBlocks (K.hash b)).2)
        have htaken : c'.counted = c.counted ∧ c'.orphans = c.orphans := by
          rcases tryInclude_ok hc' with ⟨rfl, -⟩ | ⟨-, ⟨x, -, -, -, rfl⟩ | ⟨p, x, -, -, -, -, rfl⟩⟩
          · exact ⟨rfl, rfl⟩
          · exact ⟨rfl, rfl⟩
          · exact ⟨rfl, rfl⟩
        have hvote : (c'.voteIfHead K (K.hash b)).counted = c'.counted ∧
            (c'.voteIfHead K (K.hash b)).orphans = c'.orphans := by
          unfold voteIfHead commitAndVote
          split
          · split
            · exact ⟨rfl, rfl⟩
            · split
              · exact ⟨rfl, rfl⟩
              · exact ⟨rfl, rfl⟩
          · exact ⟨rfl, rfl⟩
        refine ⟨hcounted.trans (hvote.1.trans htaken.1), hvotes.trans ?_⟩
        change ((c'.voteIfHead K (K.hash b)).orphans.consumeBlocks (K.hash b)).2.votes = _
        rw [Orphans.votes_consumeBlocks, hvote.2, htaken.2]
    · exact ⟨rfl, rfl⟩

/-- Finalizing counts no votes either. -/
theorem kept_finalizeLoop (fuel : ℕ) : (finalizeLoop K fuel c).counted = c.counted ∧
    (finalizeLoop K fuel c).orphans = c.orphans := by
  induction fuel generalizing c with
  | zero => exact ⟨rfl, rfl⟩
  | succ fuel ih =>
    simp only [finalizeLoop]
    split
    · exact ⟨rfl, rfl⟩
    · rename_i d hd
      obtain ⟨before, after, root, -, rfl⟩ := tryFinalizeRoots_some hd
      exact ih

/-- A call that takes the inclusion of a block counts the votes for it. -/
theorem step_of_taking {i : Input H D} {x : Executed H D} (hi : c.Taking x i) :
    (c.step K i).counted = (c.pop.countAll K x.underlying).counted ∧
      (c.step K i).orphans.votes = (c.pop.countAll K x.underlying).orphans.votes ∧
      c.offers K i = c.pop.countAllOffers K x.underlying := by
  cases i with
  | «include» now b => exact hi.elim
  | pollNext now =>
    change c.events.getLast? = some (.blockIncluded x) at hi
    obtain ⟨hcounted, horphans⟩ := kept_finalizeLoop (K := K)
      (c := c.pop.countAll K x.underlying)
      (nodesL (c.pop.countAll K x.underlying).forktrees).length
    have hstep : c.step K (.pollNext now) = c.pop.postBlockIncluded K now x.underlying := by
      simp only [step, pollNext, hi]
      rfl
    refine ⟨?_, ?_, ?_⟩
    · rw [hstep, ← hcounted]
      rfl
    · rw [hstep, ← horphans]
      rfl
    · simp only [offers, hi]

/-- Any other call offers none. -/
theorem step_of_not_taking {i : Input H D} (hi : ∀ x, ¬ c.Taking x i) :
    (c.step K i).counted = c.counted ∧ (c.step K i).orphans.votes = c.orphans.votes ∧
      c.offers K i = [] := by
  cases i with
  | «include» now b => exact ⟨kept_includeFrom.1, kept_includeFrom.2, rfl⟩
  | pollNext now =>
    cases hlast : c.events.getLast? with
    | none =>
      have hstep : c.step K (.pollNext now) = c := by simp only [step, pollNext, hlast]
      rw [hstep]
      exact ⟨rfl, rfl, by simp only [offers, hlast]⟩
    | some event =>
      cases event with
      | blockIncluded x => exact absurd hlast (hi x)
      | _ =>
        exact ⟨by simp only [step, pollNext, hlast, postBlockFinalized],
          by simp only [step, pollNext, hlast, postBlockFinalized], by simp only [offers, hlast]⟩

/-- **What a call adds to the votes that were counted.** -/
theorem mem_counted_step {i : Input H D} {e : Vote H × ℕ} : e ∈ (c.step K i).counted ↔
    e ∈ c.counted ∨
      ∃ p ∈ c.offers K i, ∃ t, Acceptable K p.1 p.2 t ∧ e = (p.2, t.label.loc) := by
  by_cases hi : ∃ x, c.Taking x i
  · obtain ⟨x, hx⟩ := hi
    obtain ⟨hcounted, -, hoffers⟩ := step_of_taking (K := K) hx
    rw [hcounted, hoffers]
    exact mem_counted_countAll
  · obtain ⟨hcounted, -, hoffers⟩ := step_of_not_taking (K := K) fun x hx => hi ⟨x, hx⟩
    rw [hcounted, hoffers]
    simp

/-- A vote goes on waiting until the inclusion of its target is taken. -/
theorem mem_votes_step {i : Input H D} (hi : ∀ x, c.Taking x i → K.hash x.underlying ≠ h)
    (hw : w ∈ c.orphans.votes h) : w ∈ (c.step K i).orphans.votes h := by
  by_cases htaking : ∃ x, c.Taking x i
  · obtain ⟨x, hx⟩ := htaking
    rw [(step_of_taking (K := K) hx).2.1]
    exact mem_votes_countAll (hi x hx) hw
  · rwa [(step_of_not_taking (K := K) fun x hx => htaking ⟨x, hx⟩).2.1]

/-! ## Runs -/

/-- **What was counted in a run** is what passed the checks when it was
offered. -/
theorem mem_counted_run {inputs : List (Input H D)} {e : Vote H × ℕ} :
    e ∈ (c.run K inputs).counted ↔ e ∈ c.counted ∨
      ∃ p ∈ c.offered K inputs, ∃ t, Acceptable K p.1 p.2 t ∧ e = (p.2, t.label.loc) := by
  induction inputs generalizing c with
  | nil => simp [Chain.run, offered, logged]
  | cons i inputs ih =>
    have hcons : c.offered K (i :: inputs) = c.offers K i ++ (c.step K i).offered K inputs := rfl
    have hrun : c.run K (i :: inputs) = (c.step K i).run K inputs := rfl
    rw [hrun, ih, mem_counted_step, hcons, or_assoc]
    simp only [List.mem_append, or_and_right, exists_or]

theorem run_append (pre post : List (Input H D)) :
    c.run K (pre ++ post) = (c.run K pre).run K post :=
  List.foldl_append

/-- A vote waits through every call that does not take the inclusion of its
target. -/
theorem mem_votes_run {mid : List (Input H D)}
    (hmid : ∀ l k r x, mid = l ++ k :: r → (c.run K l).Taking x k → K.hash x.underlying ≠ h)
    (hw : w ∈ c.orphans.votes h) : w ∈ (c.run K mid).orphans.votes h := by
  induction mid generalizing c with
  | nil => exact hw
  | cons i mid ih =>
    refine ih (fun l k r x hsplit hx => hmid (i :: l) k r x (by rw [hsplit]; rfl) hx) ?_
    exact mem_votes_step (fun x hx => hmid [] i mid x rfl hx) hw

/-- **Every vote in a block of a run is offered, and offered again as long as
it comes too early.** -/
structure OffersAll (K : Config H D) (fin : Finalized H D) (inputs : List (Input H D)) :
    Prop where
  /-- The votes in a block, when its inclusion is taken. -/
  included : ∀ pre i post x, inputs = pre ++ i :: post → ((Chain.new fin).run K pre).Taking x i →
    ∀ v ∈ x.underlying.votes, v ∈ (((Chain.new fin).run K pre).offers K i).map Prod.snd
  /-- A vote that came too early, when the inclusion of its target is next
  taken. -/
  again : ∀ pre i mid j post p x, inputs = pre ++ i :: (mid ++ j :: post) →
    p ∈ ((Chain.new fin).run K pre).offers K i → Early K p.1 p.2 →
    (∀ l k r y, mid = l ++ k :: r → ((Chain.new fin).run K (pre ++ i :: l)).Taking y k →
      K.hash y.underlying ≠ p.2.target) →
    ((Chain.new fin).run K (pre ++ i :: mid)).Taking x j → K.hash x.underlying = p.2.target →
      p.2 ∈ (((Chain.new fin).run K (pre ++ i :: mid)).offers K j).map Prod.snd
  /-- No other votes than those in blocks. -/
  source : ∀ p ∈ (Chain.new fin).offered K inputs, ∃ b ∈ inputBlocks inputs, p.2 ∈ b.votes

theorem mem_offers_of_taking {i : Input H D} {x : Executed H D} (hi : c.Taking x i)
    (hv : v ∈ x.underlying.votes) : v ∈ (c.offers K i).map Prod.snd := by
  rw [(step_of_taking (K := K) hi).2.2, countAllOffers, List.map_append, map_snd_countOffers]
  exact List.mem_append_left _ hv

/-- A vote that came too early is offered again. -/
theorem offered_again {i j : Input H D} {mid : List (Input H D)} {p : Chain H D × Vote H}
    {x : Executed H D} (hp : p ∈ c.offers K i) (he : Early K p.1 p.2)
    (hmid : ∀ l k r y, mid = l ++ k :: r → ((c.step K i).run K l).Taking y k →
      K.hash y.underlying ≠ p.2.target)
    (hj : ((c.step K i).run K mid).Taking x j) (hx : K.hash x.underlying = p.2.target) :
    p.2 ∈ (((c.step K i).run K mid).offers K j).map Prod.snd := by
  have hwaits : p.2 ∈ (c.step K i).orphans.votes p.2.target := by
    by_cases hi : ∃ y, c.Taking y i
    · obtain ⟨y, hy⟩ := hi
      obtain ⟨-, hvotes, hoffers⟩ := step_of_taking (K := K) hy
      rw [hvotes]
      rw [hoffers] at hp
      exact mem_votes_of_early_countAll hp he
    · rw [(step_of_not_taking (K := K) fun y hy => hi ⟨y, hy⟩).2.2] at hp
      cases hp
  rw [(step_of_taking (K := K) hj).2.2]
  refine mem_offers_of_waits ?_
  rw [hx]
  exact mem_votes_run hmid hwaits

/-- Votes that are offered are in blocks. -/
theorem exists_block_of_mem_offers (hc : Within B c) {i : Input H D} {p : Chain H D × Vote H}
    (hp : p ∈ c.offers K i) : ∃ b ∈ B, p.2 ∈ b.votes := by
  by_cases hi : ∃ x, c.Taking x i
  · obtain ⟨x, hx⟩ := hi
    have hpop : Within B c.pop :=
      ⟨hc.orphans, hc.votes, fun y hy => hc.events y (List.dropLast_subset _ hy)⟩
    have hxB : x.underlying ∈ B := by
      cases i with
      | «include» now b => exact hx.elim
      | pollNext now => exact hc.events x (List.mem_of_getLast? hx)
    have hmem := List.mem_map_of_mem (f := Prod.snd) hp
    rw [(step_of_taking (K := K) hx).2.2, countAllOffers, List.map_append, map_snd_countOffers,
      map_snd_countOffers] at hmem
    rcases List.mem_append.1 hmem with hmem | hmem
    · exact ⟨_, hxB, hmem⟩
    · exact (countNext_acts (Q := fun _ _ => True) hpop hxB fun _ _ => trivial).2 _ hmem
  · rw [(step_of_not_taking (K := K) fun x hx => hi ⟨x, hx⟩).2.2] at hp
    cases hp

theorem offersAll_run (K : Config H D) (fin : Finalized H D) (inputs : List (Input H D)) :
    OffersAll K fin inputs := by
  refine ⟨fun pre i post x _ hx v hv => mem_offers_of_taking hx hv,
    fun pre i mid j post p x _ hp he hmid hj hx => ?_, fun p hp => ?_⟩
  · have hrun : ∀ l, (Chain.new fin).run K (pre ++ i :: l) =
        (((Chain.new fin).run K pre).step K i).run K l := fun l => run_append pre (i :: l)
    rw [hrun] at hj ⊢
    exact offered_again hp he (fun l k r y hsplit hy => hmid l k r y hsplit (by rwa [hrun])) hj hx
  · obtain ⟨pre, i, post, hsplit, hp⟩ := exists_of_mem_logged hp
    have hB : ∀ b ∈ inputBlocks pre, b ∈ inputBlocks inputs := by
      rintro b ⟨now, hb⟩
      rw [hsplit]
      exact ⟨now, List.mem_append_left _ hb⟩
    exact exists_block_of_mem_offers (standing_run (K := K) fin hB).1 hp

/-- **Vote accounting.** After every run, where links lead to the parents
and the stakes do not wrap: the votes of a node are the stakes of its
voters, who are those with a vote for the node or one below it that passed
the checks when it was offered, so that votes only grow towards the root and
never exceed the total. The votes that are offered are those in the blocks
that are included, once more when their target arrives after them. -/
theorem voters_run (K : Config H D) (fin : Finalized H D) (inputs : List (Input H D))
    (hlinked : Linked ((Chain.new fin).run K inputs).forktrees)
    (hstakes : K.eligibleStake < 2 ^ 64) :
    (∀ n ∈ nodesL ((Chain.new fin).run K inputs).forktrees,
      votes n = ∑ k ∈ voters n, K.stake k ∧
      (∀ k, k ∈ voters n ↔ ∃ p ∈ (Chain.new fin).offered K inputs, p.2.validator = k ∧
        ∃ t, Acceptable K p.1 p.2 t ∧
          ∃ m ∈ nodes n, hash K m = p.2.target ∧ m.label.loc = t.label.loc) ∧
      (∀ m ∈ n.children, voters m ⊆ voters n ∧ votes m ≤ votes n) ∧
      votes n ≤ K.totalStake) ∧
    OffersAll K fin inputs := by
  have h := run_accounted K fin inputs
  have hcounted : ∀ e, e ∈ ((Chain.new fin).run K inputs).counted ↔
      ∃ p ∈ (Chain.new fin).offered K inputs,
        ∃ t, Acceptable K p.1 p.2 t ∧ e = (p.2, t.label.loc) := by
    intro e
    rw [mem_counted_run]
    exact or_iff_right List.not_mem_nil
  refine ⟨?_, offersAll_run K fin inputs⟩
  generalize (Chain.new fin).run K inputs = c at h hlinked hcounted ⊢
  have hbound : ∀ n ∈ nodesL c.forktrees, ∑ k ∈ voters n, K.stake k ≤ K.eligibleStake :=
    fun n hn => Config.sum_stake_le (h.eligible n hn)
  have hsum : ∀ n ∈ nodesL c.forktrees, votes n = ∑ k ∈ voters n, K.stake k := by
    intro n hn
    rw [h.sum n hn, Nat.mod_eq_of_lt ((hbound n hn).trans_lt hstakes)]
  have hiff : ∀ n ∈ nodesL c.forktrees, ∀ k, k ∈ voters n ↔
      ∃ p ∈ (Chain.new fin).offered K inputs, p.2.validator = k ∧ ∃ t, Acceptable K p.1 p.2 t ∧
        ∃ m ∈ nodes n, hash K m = p.2.target ∧ m.label.loc = t.label.loc := by
    intro n hn k
    constructor
    · intro hk
      obtain ⟨e, he, hek, m, hm, htarget, hloc⟩ := h.voters n hn k hk
      obtain ⟨p, hp, t, ht, rfl⟩ := (hcounted e).1 he
      exact ⟨p, hp, hek, t, ht, m, hm, htarget.symm, (hloc hlinked).symm⟩
    · rintro ⟨p, hp, rfl, t, ht, m, hm, -, hloc⟩
      exact h.counted hlinked n hn m hm _ ((hcounted _).2 ⟨p, hp, t, ht, rfl⟩) hloc.symm
  intro n hn
  refine ⟨hsum n hn, hiff n hn, fun m hm => ?_, ?_⟩
  · have hm' : m ∈ nodesL c.forktrees := Rose.mem_nodesL_of_mem_children hn hm
    have hsub : voters m ⊆ voters n := by
      intro k hk
      obtain ⟨p, hp, hpk, t, ht, m', hm'', hmatch⟩ := (hiff m hm' k).1 hk
      exact (hiff n hn k).2 ⟨p, hp, hpk, t, ht, m',
        Rose.mem_nodes_trans hm'' (Rose.mem_nodes_of_mem_children hm), hmatch⟩
    refine ⟨hsub, ?_⟩
    rw [hsum m hm', hsum n hn]
    exact Finset.sum_le_sum_of_subset hsub
  · rw [hsum n hn, Config.totalStake_eq, Nat.mod_eq_of_lt hstakes]
    exact hbound n hn

/-! ## A vote that comes too early -/

namespace Sample

/-- A block beside the second one, with a vote for it. -/
def besideSecond : Produced ℕ Unit :=
  produce (single .inPlace) 7 ((single .inPlace).hash first) 2 ()
    [vote 7 ((single .inPlace).hash second)]

/-- The vote is offered before the second block arrives. -/
def votedEarly : List (Input ℕ Unit) :=
  [.include 0 first, .include 0 besideSecond] ++ List.replicate 4 (.pollNext 0) ++
    [.include 0 second] ++ List.replicate 4 (.pollNext 0)

end Sample

open Sample in
/-- The vote is counted when its target has arrived. -/
theorem voters_votedEarly :
    (∃ n ∈ nodesL ((Chain.new genesis).run (single .inPlace) votedEarly).forktrees,
      hash (single .inPlace) n = (single .inPlace).hash second ∧ voters n = {7}) ∧
    (∃ p ∈ (Chain.new genesis).offered (single .inPlace) votedEarly,
      TreeNode.get (single .inPlace) p.1.forktrees p.2.target = none) ∧
    ∀ n ∈ nodesL ((Chain.new genesis).run (single .inPlace) votedEarly).forktrees,
      votes n = ∑ k ∈ voters n, (single .inPlace).stake k :=
  ⟨by decide +kernel, by decide +kernel, fun n hn => ((voters_run (single .inPlace) genesis
    votedEarly (by decide +kernel) (by decide +kernel)).1 n hn).1⟩

end Chain

end Consensus

end Rensa
