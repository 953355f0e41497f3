import Rensa.Consensus.Ancestry
import Rensa.Consensus.Deeds
import Rensa.Consensus.Votes
/-!
# What stands behind a final block

A root is finalized with a majority, and each of its voters has a vote for
it or for a descendant in some block that has arrived (`certified_run`).
The votes a validator casts itself are for blocks on one line where none of
them is for a fork of an earlier target (`Loyal`, `onLine_run`); the source
looks at the last vote of the same epoch only.
-/

open Relation (ReflTransGen)

namespace Rensa

namespace Consensus

open Rose (nodes nodesL)
open TreeNode (block hash votes voters)
open ChainEvent (finality ballot)

namespace Chain

variable {H D : Type} {K : Config H D} {B : Set (Produced H D)} {fin : Finalized H D}
  {c c' : Chain H D} {es e : List (ChainEvent H D)}

/-! ## Votes behind a block -/

/-- **A majority stands behind a block**: validators with a majority of the
stake, each with a vote for it or a descendant in a block of `B`. -/
def Certified (K : Config H D) (B : Set (Produced H D)) (t : H) : Prop :=
  ∃ s : Finset Pubkey, (∀ k ∈ s, K.Eligible k) ∧ K.minimumMajorityStake ≤ ∑ k ∈ s, K.stake k ∧
    ∀ k ∈ s, ∃ v : Vote H, v.validator = k ∧ K.verifyVote v = true ∧
      (∃ x ∈ B, v ∈ x.votes) ∧ Anc K B t v.target

theorem Certified.mono {B' : Set (Produced H D)} (hB : ∀ b ∈ B, b ∈ B') {t : H}
    (h : Certified K B t) : Certified K B' t := by
  obtain ⟨s, heligible, hstake, hvotes⟩ := h
  refine ⟨s, heligible, hstake, fun k hk => ?_⟩
  obtain ⟨v, hv, hverify, ⟨x, hx, hvx⟩, hanc⟩ := hvotes k hk
  exact ⟨v, hv, hverify, ⟨x, hB x hx, hvx⟩, hanc.mono hB⟩

/-- The votes of a node stand behind its block. -/
theorem certified_of_votes (hc : Standing K B c) (h : Accounted K c)
    (hsource : ∀ e ∈ c.counted, ∃ x ∈ B, e.1 ∈ x.votes) {n : TreeNode H D}
    (hn : n ∈ nodesL c.forktrees) (hle : K.minimumMajorityStake ≤ votes n) :
    Certified K B (hash K n) := by
  refine ⟨voters n, h.eligible n hn, hle.trans ?_, fun k hk => ?_⟩
  · rw [h.sum n hn]
    exact Nat.mod_le _ _
  · obtain ⟨e, he, hek, m, hm, htarget, -⟩ := h.voters n hn k hk
    refine ⟨e.1, hek, (h.passed e he).2, hsource e he, ?_⟩
    rw [htarget]
    exact hc.anc_of_mem_nodes hn hm

/-- **What is final is certified**, and the votes that were counted come
from blocks. -/
structure Backed (K : Config H D) (B : Set (Produced H D)) (es : List (ChainEvent H D))
    (c : Chain H D) : Prop where
  balanced : Balanced K c
  source : ∀ e ∈ c.counted, ∃ x ∈ B, e.1 ∈ x.votes
  final : ∀ b ∈ issued finality es c, b ∈ B ∧ Certified K B (K.hash b)

theorem backed_new (fin : Finalized H D) : Backed K B [] (Chain.new fin) where
  balanced := balanced_new fin
  source := fun _ he => absurd he List.not_mem_nil
  final := fun _ hb => absurd hb List.not_mem_nil

section Run

variable [DecidableEq H] {Q : Chain H D → Deed H D → Prop}

theorem Backed.of_act (hact : Act K B Q c e c') (hc : Standing K B c) (h : Backed K B es c) :
    Backed K B (es ++ e) c' := by
  refine ⟨?_, ?_, fun b hb => ?_⟩
  · have hmoves : ReflTransGen (Move K B True) c c' := (hact.mono fun _ d _ => calm_true d).moves
    exact hmoves.rec h.balanced fun _ hm ih => ih.of_move hm
  · cases hact with
    | wait | root | child | cast | finalize | miss | pop | record => exact h.source
    | count _ hB =>
      intro e he
      rcases List.mem_cons.1 he with rfl | he
      · exact hB
      · exact h.source e he
  · rcases hact.mem_finality hb with hb | ⟨before, after, root, hsplit, rfl⟩
    · exact h.final b hb
    · -- a root is final only with a majority of the votes
      have hroot := Rose.mem_nodesL_of_mem (sublist_splitRoots hsplit).1
      have hle := (finalizable_some (splitRoots_some hsplit).2).1
      rw [confirmed, decide_eq_true_eq] at hle
      exact ⟨hc.forest _ hroot, certified_of_votes hc h.balanced.accounted h.source hroot hle⟩

/-- **A majority stands behind every block that is finalized.** -/
theorem certified_run (K : Config H D) (fin : Finalized H D) (inputs : List (Input H D)) :
    ∀ b ∈ issued finality ((Chain.new fin).delivered K inputs) ((Chain.new fin).run K inputs),
      b ∈ inputBlocks inputs ∧ Certified K (inputBlocks inputs) (K.hash b) :=
  (run_standing (P := Backed K (inputBlocks inputs)) (fun p _ => calm_true p.2) (backed_new fin)
    fun _ _ _ _ hact hc h => h.of_act hact hc).final

/-! ## The head -/

omit [DecidableEq H] in
theorem mem_of_headNode {n : TreeNode H D} (h : c.headNode = some n) : n ∈ nodesL c.forktrees := by
  have hmem : n ∈ (c.forktrees.map (TreeNode.head c.forktrees)).insertionSort
      fun a b => c.headLe a b = true := List.mem_of_getLast? h
  rw [(List.perm_insertionSort _ _).mem_iff, List.mem_map] at hmem
  obtain ⟨t, ht, rfl⟩ := hmem
  exact Rose.mem_nodesL.2 ⟨t, ht, head_mem_nodes t⟩

/-- The finalized block has arrived, or the run started from it. -/
theorem HeightOf.of_act (hact : Act K B Q c e c') (hc : Standing K B c)
    (h : HeightOf K fin B (c.finalized.hash K) c.finalized.height) :
    HeightOf K fin B (c'.finalized.hash K) c'.finalized.height := by
  cases hact with
  | wait | root | child | cast | count | miss | pop | record => exact h
  | @finalize before after root _ hsplit =>
    have hroot := Rose.mem_nodesL_of_mem (sublist_splitRoots hsplit).1
    exact Or.inl ⟨block root, hc.forest root hroot, rfl, rfl⟩

theorem heightOf_final (K : Config H D) (fin : Finalized H D) (inputs : List (Input H D)) :
    HeightOf K fin (inputBlocks inputs) (((Chain.new fin).run K inputs).finalized.hash K)
      ((Chain.new fin).run K inputs).finalized.height :=
  run_standing (P := fun _ c => HeightOf K fin (inputBlocks inputs) (c.finalized.hash K)
      c.finalized.height) (fun p _ => calm_true p.2) (Or.inr ⟨rfl, rfl⟩)
    fun _ _ _ _ hact hc h => h.of_act hact hc

/-- **`with_head` passes on a block that has arrived**, or what the run
started from. -/
theorem heightOf_head (K : Config H D) (fin : Finalized H D) (inputs : List (Input H D)) :
    HeightOf K fin (inputBlocks inputs) (((Chain.new fin).run K inputs).headHash K)
      ((Chain.new fin).run K inputs).headHeight := by
  have hc : Standing K (inputBlocks inputs) ((Chain.new fin).run K inputs) :=
    (standing_run fin fun _ hb => hb).2
  cases hhead : ((Chain.new fin).run K inputs).headNode with
  | none =>
    simp only [headHash, headHeight, hhead]
    exact heightOf_final K fin inputs
  | some n =>
    simp only [headHash, headHeight, hhead]
    exact Or.inl ⟨block n, hc.forest n (mem_of_headNode hhead), rfl, rfl⟩

/-! ## The votes a validator casts -/

/-- **No vote is cast for a fork** of what was voted for before, but for an
ancestor or a descendant of it, or for the same block. -/
def Loyal (K : Config H D) (fin : Finalized H D) (B : Set (Produced H D))
    (inputs : List (Input H D)) : Prop :=
  ∀ pre i post, inputs = pre ++ i :: post → ∀ c n,
    (c, .vote n) ∈ ((Chain.new fin).run K pre).deeds K i →
      ∀ v ∈ issued ballot ((Chain.new fin).delivered K (pre ++ [i])) c,
        Anc K B v.2 (hash K n) ∨ Anc K B (hash K n) v.2

omit [DecidableEq H] in
/-- **The targets of the votes that were cast are on one line.** -/
def OnLine (K : Config H D) (B : Set (Produced H D)) (es : List (ChainEvent H D))
    (c : Chain H D) : Prop :=
  ∀ v ∈ issued ballot es c, ∀ w ∈ issued ballot es c, Anc K B v.2 w.2 ∨ Anc K B w.2 v.2

/-- An act keeps them on one line, where it does not vote for a fork. -/
theorem OnLine.of_act {B' : Set (Produced H D)} (hact : Act K B' Q c e c') (hc : Standing K B' c)
    (h : OnLine K B es c)
    (hQ : ∀ n, Q c (.vote n) → ∀ v ∈ issued ballot es c,
      Anc K B v.2 (hash K n) ∨ Anc K B (hash K n) v.2) :
    OnLine K B (es ++ e) c' := by
  have hsame : (issued ballot (es ++ e) c').Perm (issued ballot es c) →
      OnLine K B (es ++ e) c' := fun hperm v hv w hw =>
    h v (hperm.mem_iff.1 hv) w (hperm.mem_iff.1 hw)
  rcases hact.ballot_cases hc es with ⟨n, -, hq, -, -, hperm⟩ | ⟨-, -, -, -, hperm⟩ |
    ⟨-, -, hperm⟩
  · intro v hv w hw
    rcases List.mem_cons.1 (hperm.mem_iff.1 hv) with rfl | hv
    · rcases List.mem_cons.1 (hperm.mem_iff.1 hw) with rfl | hw
      · exact Or.inl .refl
      · exact (hQ n hq w hw).symm
    · rcases List.mem_cons.1 (hperm.mem_iff.1 hw) with rfl | hw
      · exact hQ n hq v hv
      · exact h v hv w hw
  · exact hsame hperm
  · exact hsame hperm

/-- **The votes of a loyal validator are on one line.** -/
theorem onLine_run {inputs : List (Input H D)} (h : Loyal K fin B inputs) :
    OnLine K B ((Chain.new fin).delivered K inputs) ((Chain.new fin).run K inputs) := by
  induction inputs using List.reverseRecOn with
  | nil => exact fun v hv => absurd hv List.not_mem_nil
  | append_singleton pre i ih =>
    have hpre : Loyal K fin B pre := by
      rintro pre' i' post rfl
      exact h pre' i' (post ++ [i]) (by simp)
    have hrun : (Chain.new fin).run K (pre ++ [i]) = ((Chain.new fin).run K pre).step K i :=
      List.foldl_concat ..
    have hstart : Acts K Set.univ (Calm True) (Chain.new fin) ((Chain.new fin).delivered K pre)
        ((Chain.new fin).run K pre) :=
      run_acts (within_new fin) (fun _ _ => trivial) fun p _ => calm_true p.2
    have hstep : Acts K Set.univ (fun c d => (c, d) ∈ ((Chain.new fin).run K pre).deeds K i)
        ((Chain.new fin).run K pre) (((Chain.new fin).run K pre).returned K i)
        (((Chain.new fin).run K pre).step K i) :=
      step_acts hstart.2 (fun _ _ _ => trivial) fun _ hp => hp
    rw [hrun, delivered_append_singleton]
    -- along the call, as far as its events were returned
    refine (hstep.1.rule (P := fun es c => Standing K Set.univ c ∧
      (es <+: ((Chain.new fin).run K pre).returned K i →
        OnLine K B ((Chain.new fin).delivered K pre ++ es) c)) ⟨?_, fun _ => ?_⟩ ?_).2
      (List.prefix_refl _)
    · exact hstart.1.invariant (standing_new fin) fun _ _ _ hact hc => hc.of_act hact
    · rw [List.append_nil]
      exact ih hpre
    · rintro es c e c' hact ⟨hc, hline⟩
      refine ⟨hc.of_act hact, fun hes => ?_⟩
      have hes' : es <+: ((Chain.new fin).run K pre).returned K i :=
        (List.prefix_append es e).trans hes
      rw [← List.append_assoc]
      refine (hline hes').of_act hact hc fun n hn v hv => h pre i [] rfl c n hn v ?_
      obtain ⟨ev, hev, hballot⟩ := mem_issued.1 hv
      rw [delivered_append_singleton]
      refine mem_issued.2 ⟨ev, hev.imp (fun hev => ?_) id, hballot⟩
      exact ((List.prefix_append_right_inj _).2 hes').subset hev

/-- Votes are cast for blocks that have arrived. -/
theorem ballot_of_act (hact : Act K B Q c e c') (hc : Standing K B c)
    (h : ∀ v ∈ issued ballot es c, ∃ b ∈ B, K.hash b = v.2) :
    ∀ v ∈ issued ballot (es ++ e) c', ∃ b ∈ B, K.hash b = v.2 := by
  intro v hv
  rcases hact.mem_issued hv with hv | ⟨ev, hev, hballot⟩
  · exact h v hv
  cases hev with
  | included | finalized | discarded | missing => cases hballot
  | confirmed _ _ hev =>
    obtain ⟨x, n, rfl⟩ := mem_confirmations hev
    cases hballot
  | vote hn =>
    obtain rfl := Option.some.inj hballot
    exact ⟨_, hc.forest _ hn, rfl⟩

/-- **Where blocks do not fork no vote is cast for a fork.** -/
theorem loyal_of_isChain {inputs : List (Input H D)} {bs : List (Produced H D)}
    (hB : ∀ b ∈ bs, b ∈ B) (hchain : bs.IsChain fun a b => b.parent = K.hash a)
    (hinputs : ∀ b ∈ inputBlocks inputs, b ∈ bs) : Loyal K fin B inputs := by
  intro pre i post hsplit c n hp v hv
  obtain ⟨⟨hc, hballots⟩, -, hdone⟩ :=
    deed_rule (P := fun es c => Standing K (inputBlocks inputs) c ∧
        ∀ v ∈ issued ballot es c, ∃ b ∈ inputBlocks inputs, K.hash b = v.2)
      (fun p _ => calm_true p.2) ⟨standing_new fin, fun v hv => absurd hv List.not_mem_nil⟩
      (fun _ _ _ _ hact h => ⟨h.1.of_act hact, ballot_of_act hact h.1 h.2⟩) hsplit hp
  obtain ⟨b, hb, hhash⟩ := hballots v hv
  have hn := (TreeNode.get_some hdone.2.1).1
  rw [← hhash]
  exact anc_of_isChain hB hchain (hinputs b hb) (hinputs _ (hc.forest n hn))

end Run

end Chain

end Consensus

end Rensa
