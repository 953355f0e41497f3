import Rensa.Consensus.Issued
/-!
# The states in which deeds are done

A call may count many votes and finalize many roots, one after another, so
most deeds are done in states no call ends in. They are all reached by
acts, so what every act keeps holds in them as well (`deed_rule`), and each
deed passed the checks of the source in the state it is done in (`Done`).
-/

namespace Rensa

namespace Consensus

namespace Chain

variable {H D : Type} [DecidableEq H] {K : Config H D} {B : Set (Produced H D)}
  {Q : Chain H D → Deed H D → Prop} {c c' : Chain H D}

variable (K) in
/-- **The checks a deed passes** in the state it is done in. -/
def Done (c : Chain H D) : Deed H D → Prop
  | .vote n => n.hash K = c.headHash K ∧ TreeNode.get K c.forktrees (n.hash K) = some n ∧
      c.mayVote K n = true
  | .count stake v target => c.counts K v = some (stake, target)
  | .finalize root => ∃ before after,
      splitRoots (c.finalizable K) c.forktrees = some (before, root, after)

theorem done_injestDeeds {v : Vote H} {p : Chain H D × Deed H D} (hp : p ∈ c.injestDeeds K v) :
    p.1 = c ∧ Done K p.1 p.2 := by
  unfold injestDeeds at hp
  split at hp
  · cases hp
  · rename_i stake target hcounts
    rw [List.mem_singleton] at hp
    subst hp
    exact ⟨rfl, hcounts⟩

theorem done_voteDeeds {t : H} {p : Chain H D × Deed H D} (hp : p ∈ c.voteDeeds K t) :
    p.1 = c ∧ Done K p.1 p.2 := by
  unfold voteDeeds at hp
  split at hp
  · rename_i hhead
    split at hp
    · cases hp
    · rename_i n hn
      split at hp
      · rename_i hmay
        rw [List.mem_singleton] at hp
        subst hp
        have hhash : n.hash K = t := (TreeNode.get_some hn).2
        exact ⟨rfl, hhash.trans hhead, by rw [hhash]; exact hn, hmay⟩
      · cases hp
  · cases hp

/-- The deeds of `count_votes`. -/
theorem countDeeds_acts {votes : List (Vote H)} (h : Within B c)
    (hvotes : ∀ v ∈ votes, ∃ b ∈ B, v ∈ b.votes) (hQ : ∀ p ∈ c.countDeeds K votes, Q p.1 p.2)
    {p : Chain H D × Deed H D} (hp : p ∈ c.countDeeds K votes) :
    Acts K B Q c [] p.1 ∧ Done K p.1 p.2 := by
  obtain ⟨d, v, hd, hv, -, hp⟩ := Trace.of_mem_logged (I := Within B) h hQ
    (fun _ hc v hv hq => injestVote_acts hc (hvotes v hv) hq) hp
  obtain ⟨rfl, hdone⟩ := done_injestDeeds hp
  exact ⟨hd, hdone⟩

/-- The deeds of `while try_finalize_roots`. -/
theorem finalizeDeeds_acts {fuel : ℕ} (h : Within B c)
    (hQ : ∀ p ∈ finalizeDeeds K fuel c, Q p.1 p.2) {p : Chain H D × Deed H D}
    (hp : p ∈ finalizeDeeds K fuel c) : Acts K B Q c [] p.1 ∧ Done K p.1 p.2 := by
  induction fuel generalizing c with
  | zero => cases hp
  | succ fuel ih =>
    rw [finalizeDeeds] at hp hQ
    cases hsplit : splitRoots (c.finalizable K) c.forktrees with
    | none =>
      rw [hsplit] at hp
      cases hp
    | some found =>
      obtain ⟨before, root, after⟩ := found
      rw [hsplit] at hp hQ
      rcases List.mem_cons.1 hp with rfl | hp
      · exact ⟨.refl h, before, after, hsplit⟩
      · have hfin : Acts K B Q c [] (c.finalizeNext K (before ++ after) root) :=
          finalizeNext_acts h (hQ _ List.mem_cons_self) hsplit
        obtain ⟨hacts, hdone⟩ := ih hfin.2 (fun p hp => hQ p (List.mem_cons_of_mem _ hp)) hp
        exact ⟨hfin.trans_silent hacts, hdone⟩

/-- The deeds of `include` and its nested calls. -/
theorem includeDeeds_acts {now fuel : ℕ} {b : Produced H D} (h : Within B c) (hb : b ∈ B)
    (hQ : ∀ p ∈ includeDeeds K now fuel c b, Q p.1 p.2) {p : Chain H D × Deed H D}
    (hp : p ∈ includeDeeds K now fuel c b) : Acts K B Q c [] p.1 ∧ Done K p.1 p.2 := by
  induction fuel generalizing c b with
  | zero => cases hp
  | succ fuel ih =>
    simp only [includeDeeds] at hp hQ
    split at hp
    · rename_i hadm
      rw [if_pos hadm] at hQ
      split at hp
      · cases hp
      · cases hp
      · rename_i c' hc'
        rw [hc'] at hQ
        dsimp only at hQ
        rcases List.mem_append.1 hp with hp | hp
        · obtain ⟨rfl, hdone⟩ := done_voteDeeds hp
          exact ⟨tryInclude_acts h hb hadm hc', hdone⟩
        · obtain ⟨htaken, hwaiting⟩ := includeNext_acts h hb hadm hc'
            fun p hp => hQ p (List.mem_append_left _ hp)
          obtain ⟨d, x, hd, hx, hq, hp⟩ := Trace.of_mem_logged (I := Within B) htaken.2
            (fun p hp => hQ p (List.mem_append_right _ hp))
            (fun d hd x hx hq => includeFrom_acts hd (hwaiting x hx) hq) hp
          obtain ⟨hacts, hdone⟩ := ih hd.2 (hwaiting x hx) hq hp
          exact ⟨(htaken.trans_silent hd).trans_silent hacts, hdone⟩
    · cases hp

/-- The deeds of `post_block_included`. -/
theorem postDeeds_acts {b : Produced H D} (h : Within B c) (hb : b ∈ B)
    (hQ : ∀ p ∈ c.postDeeds K b, Q p.1 p.2) {p : Chain H D × Deed H D}
    (hp : p ∈ c.postDeeds K b) : Acts K B Q c [] p.1 ∧ Done K p.1 p.2 := by
  have hcount : ∀ p ∈ c.countAllDeeds K b, Q p.1 p.2 := fun p hp =>
    hQ p (List.mem_append_left _ hp)
  rcases List.mem_append.1 hp with hp | hp
  · rcases List.mem_append.1 hp with hp | hp
    · exact countDeeds_acts h (fun v hv => ⟨b, hb, hv⟩)
        (fun p hp => hcount p (List.mem_append_left _ hp)) hp
    · obtain ⟨htaken, hwaiting⟩ := countNext_acts h hb
        fun p hp => hcount p (List.mem_append_left _ hp)
      obtain ⟨hacts, hdone⟩ := countDeeds_acts htaken.2 hwaiting
        (fun p hp => hcount p (List.mem_append_right _ hp)) hp
      exact ⟨htaken.trans_silent hacts, hdone⟩
  · have hall : Acts K B Q c [] (c.countAll K b) := countAll_acts h hb hcount
    obtain ⟨hacts, hdone⟩ := finalizeDeeds_acts hall.2
      (fun p hp => hQ p (List.mem_append_right _ hp)) hp
    exact ⟨hall.trans_silent hacts, hdone⟩

/-- **The state of a deed is reached by acts**, after the event of the call
is taken. -/
theorem deeds_acts {i : Input H D} (h : Within B c) (hi : ∀ now b, i = .include now b → b ∈ B)
    (hQ : ∀ p ∈ c.deeds K i, Q p.1 p.2) {p : Chain H D × Deed H D} (hp : p ∈ c.deeds K i) :
    Acts K B Q c (c.returned K i) p.1 ∧ Done K p.1 p.2 := by
  cases i with
  | «include» now b => exact includeDeeds_acts h (hi now b rfl) hQ hp
  | pollNext now =>
    cases hlast : c.events.getLast? with
    | none =>
      rw [deeds, hlast] at hp
      cases hp
    | some event =>
      have hreturned : c.returned K (.pollNext now) = [event] := by
        simp [returned, pollNext, hlast]
      have hpop : Acts K B Q c [event] c.pop :=
        .single (.pop hlast)
          ⟨h.orphans, h.votes, fun x hx => h.events x (List.dropLast_subset _ hx)⟩
      rw [hreturned]
      rw [deeds, hlast] at hp hQ
      cases event with
      | blockIncluded x =>
        obtain ⟨hacts, hdone⟩ :=
          postDeeds_acts hpop.2 (h.events _ (List.mem_of_getLast? hlast)) hQ hp
        exact ⟨hpop.trans hacts, hdone⟩
      | _ => cases hp

theorem delivered_append_singleton (c : Chain H D) (pre : List (Input H D)) (i : Input H D) :
    c.delivered K (pre ++ [i]) = c.delivered K pre ++ (c.run K pre).returned K i := by
  rw [delivered, logged_append, logged, logged, List.append_nil]
  rfl

/-- **The rule for deeds.** What holds of a new chain, and is kept by every
act, holds of the state of every deed of a run whose deeds meet `Q`. -/
theorem deed_rule {P : List (ChainEvent H D) → Chain H D → Prop} {fin : Finalized H D}
    {inputs : List (Input H D)} (hQ : (Chain.new fin).Throughout K Q inputs)
    (hnew : P [] (Chain.new fin))
    (hact : ∀ es c e c', Act K (inputBlocks inputs) Q c e c' → P es c → P (es ++ e) c')
    {pre post : List (Input H D)} {i : Input H D} (hsplit : inputs = pre ++ i :: post)
    {p : Chain H D × Deed H D} (hp : p ∈ ((Chain.new fin).run K pre).deeds K i) :
    P ((Chain.new fin).delivered K (pre ++ [i])) p.1 ∧ Q p.1 p.2 ∧ Done K p.1 p.2 := by
  unfold Throughout at hQ
  rw [hsplit, logged_append] at hQ
  have hi : ∀ p ∈ ((Chain.new fin).run K pre).deeds K i, Q p.1 p.2 := fun p hp =>
    hQ p (List.mem_append_right _ (List.mem_append_left _ hp))
  have hpre : Acts K (inputBlocks inputs) Q (Chain.new fin) ((Chain.new fin).delivered K pre)
      ((Chain.new fin).run K pre) := by
    refine run_acts (within_new fin) (fun b ⟨now, hb⟩ => ⟨now, ?_⟩)
      fun p hp => hQ p (List.mem_append_left _ hp)
    rw [hsplit]
    exact List.mem_append_left _ hb
  obtain ⟨hacts, hdone⟩ := deeds_acts hpre.2
    (fun now b hib => ⟨now, by rw [hsplit, hib]; simp⟩) hi hp
  rw [delivered_append_singleton]
  exact ⟨(hpre.trans hacts).1.rule hnew hact, hi p hp, hdone⟩

end Chain

end Consensus

end Rensa
