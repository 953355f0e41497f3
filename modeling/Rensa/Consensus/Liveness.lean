import Rensa.Consensus.Closing
/-!
# A chain without forks is finalized

Where every block is hung under the head, and brings votes of a majority for
it, all epochs but the last two are final (`final_rounds`): the head is the
newest block, every block is voted for, and nothing is turned down.
-/

namespace Rensa

namespace Consensus

open Relation (ReflTransGen)
open Rose (nodes nodesL line line_cons Path)
open TreeNode (block hash votes voters path)

variable {H D : Type} {K : Config H D}

namespace Chain

variable {c c' : Chain H D} {bs : List (Produced H D)} {b : Produced H D}
variable [DecidableEq H]

/-! ## A round -/

omit [DecidableEq H] in
/-- **What is final is recorded**, and nothing before anything is final. -/
structure Filed (K : Config H D) (c : Chain H D) : Prop where
  keys : (c.finalizedHistory.map Prod.fst).Nodup
  nothing : c.finalized.height = 0 → c.finalizedHistory = []
  recorded : 0 < c.finalized.height →
    Records c.finalizedHistory (K.epoch c.finalized.height) (c.finalized.hash K)

/-- **A chain without forks between two blocks.** -/
structure Unforked (K : Config H D) (bs : List (Produced H D)) (c : Chain H D) : Prop where
  sound : Orderly K c
  upright : Upright bs c
  carried : Carried K c
  voted : Voted K bs c
  filed : Filed K c
  waiting : c.orphans.blocks = []
  taken : c.events = []
  risen : c.finalized.height = 0 ∨ K.epoch c.finalized.height + 2 ≤ K.epoch bs.length
  ended : K.epoch bs.length < K.epoch (c.finalized.height + 1) + 2

theorem unforked_new {fin : Finalized H D} (h : fin.underlying = none) :
    Unforked K [] (Chain.new fin) := by
  have hheight : (Chain.new fin).finalized.height = 0 := by
    change fin.height = 0
    rw [Finalized.height, h]
  refine ⟨orderly_new fin, upright_new h, fun cs a hline => ?_,
    ⟨fun hnil => absurd rfl hnil, fun _ _ => rfl⟩,
    ⟨List.nodup_nil, fun _ => rfl, fun hpos => by omega⟩, rfl, rfl, Or.inl hheight, ?_⟩
  · cases cs <;> cases hline
  · have hmono := K.epoch_mono (Nat.zero_le ((Chain.new fin).finalized.height + 1))
    change K.epoch 0 < _
    omega

theorem Unforked.height_lt (h : Unforked K bs c) (hbs : bs ≠ []) :
    c.finalized.height < bs.length := by
  have hpos := List.length_pos_iff.2 hbs
  rcases h.risen with hzero | hepoch
  · omega
  · by_contra hle
    have hmono := K.epoch_mono (Nat.le_of_not_lt hle)
    omega

/-- **The next block, included and with its votes counted.** -/
structure Brought (K : Config H D) (bs : List (Produced H D)) (b : Produced H D)
    (c f : Chain H D) : Prop where
  sound : Orderly K f
  upright : Upright (bs ++ [b]) f
  carried : Carried K f
  finalized : f.finalized = c.finalized
  finalizedHistory : f.finalizedHistory = c.finalizedHistory
  waiting : f.orphans.blocks = []
  ownvotes : f.ownvotes = Function.update c.ownvotes (K.epoch (bs.length + 1))
    (some (c.finalized.hash K, K.hash b))
  quiet : ∀ ev ∈ f.events, (∀ x, ev ≠ .blockIncluded x) ∧ ∀ x votes, ev ≠ .blockFinalized x votes

/-- **The votes in the next block are counted for the last one.** -/
theorem Unforked.carried_next (h : Unforked K bs c) (hnext : Next K c b) {e : Chain H D}
    {cs : List (TreeCell H D)} {d : TreeCell H D} (hf : c.forktrees = line cs) (he : Orderly K e)
    (hf' : e.forktrees = line (cs ++ [d])) (hfinal : e.finalized = c.finalized)
    (hhistory : e.finalizedHistory = c.finalizedHistory) : Carried K (e.countAll K b) := by
  refine carried_countAll hf' fun a ha => ?_
  rcases h.upright.cases with ⟨hnil, -⟩ | ⟨hlt, cs', a', hf'', -, hlast⟩
  · rw [← Rose.labels_line cs, ← hf, hnil] at ha
    cases ha
  obtain rfl : cs = cs' ++ [a'] := by
    rw [← Rose.labels_line cs, ← hf, hf'', Rose.labels_line]
  rcases List.mem_append.1 ha with ha | ha
  · exact ⟨a.value.voters, h.carried cs' a' hf a ha, fun k hk => Or.inl hk⟩
  · obtain rfl := List.mem_singleton.1 ha
    have hbs : bs ≠ [] := List.ne_nil_of_length_pos (by omega)
    have hne : c.forktrees ≠ [] := by
      rw [hf]
      cases cs' <;> exact List.cons_ne_nil _ _
    obtain ⟨V, hV, hvotes⟩ := hnext.votes hne
    obtain ⟨j, hown, hj⟩ := h.voted.last hbs
    rw [h.upright.headHeight h.sound.formed, hown] at hvotes
    have hmem : (.node a (line [d]) : TreeNode H D) ∈ nodesL e.forktrees := by
      rw [hf', List.append_assoc, List.singleton_append]
      exact (Rose.suffix_nodesL_line cs' [a, d]).subset List.mem_cons_self
    have hjust : e.inFinalizedHistory K j = true := by
      rwa [inFinalizedHistory, hfinal, hhistory, ← inFinalizedHistory]
    refine ⟨V, hV, fun k hk => Or.inr ?_⟩
    obtain ⟨helig, v, hv, rfl, hverify, hvote⟩ := hvotes k hk
    obtain ⟨rfl, htarget⟩ := Prod.mk.inj (Option.some.inj hvote)
    refine ⟨v, hv, rfl, mem_reached he hmem helig hverify ?_ hjust⟩
    rw [← htarget, tipHash, hlast]
    rfl

/-- With no blocks waiting, none are asked for. -/
theorem postBlockIncluded_eq (now : ℕ)
    (h : (finalizeLoop K (nodesL (c.countAll K b).forktrees).length
      (c.countAll K b)).orphans.blocks = []) :
    c.postBlockIncluded K now b =
      finalizeLoop K (nodesL (c.countAll K b).forktrees).length (c.countAll K b) := by
  unfold postBlockIncluded
  dsimp only
  generalize finalizeLoop K _ _ = l at h ⊢
  have hmissing : l.orphans.missingBlocks K now l.finalized.height = ([], l.orphans) := by
    have hself : ({ l.orphans with blocks := [] } : Orphans H D) = l.orphans := by rw [← h]
    rw [Orphans.missingBlocks, h]
    exact congrArg (Prod.mk []) hself
  rw [hmissing]
  rfl

/-- **A block comes in**, up to the finalizing loop. -/
theorem Unforked.brought (h : Unforked K bs c) (hnext : Next K c b) (hK : K.alloc = .inPlace)
    (hstakes : K.eligibleStake < 2 ^ 64) (now : ℕ) :
    ∃ f, Brought K bs b c f ∧ (c.include K now b).events ≠ [] ∧ ∀ now',
      ((c.include K now b).pollNext K now').2 = finalizeLoop K (nodesL f.forktrees).length f := by
  obtain ⟨d, x, a, hx, hd, hupright, hab, heq⟩ :=
    h.voted.include_eq h.upright h.sound h.height_lt h.waiting hK hnext now
  have hsound : Orderly K (c.include K now b) := h.sound.step (.include now b)
  have hevents : (c.include K now b).events =
      [.vote (K.hash b) (c.finalized.hash K), .blockIncluded x] := by
    rw [heq, cast, hd.events, h.taken, hd.finalized, ← hab]
    rfl
  have hlast : (c.include K now b).events.getLast? = some (.blockIncluded x) := by
    rw [hevents]
    rfl
  -- the chain without that event
  obtain ⟨e, he⟩ : ∃ e, e = (c.include K now b).pop := ⟨_, rfl⟩
  have hpop : Orderly K e := he ▸ hsound.of_moves (q := False)
    (Moves.idle ⟨rfl, rfl, rfl, rfl, rfl⟩ ⟨hsound.within.orphans, hsound.within.votes,
      fun _ _ => Set.mem_univ _⟩)
  have hvote : e.events = [.vote (K.hash b) (c.finalized.hash K)] := by
    rw [he, pop, hevents]
    rfl
  have hown : e.ownvotes = Function.update c.ownvotes (K.epoch (bs.length + 1))
      (some (c.finalized.hash K, K.hash b)) := by
    rw [← hd.ownvotes, ← hd.finalized, ← h.upright.headHeight h.sound.formed, ← hnext.height, ← hab,
      he, heq]
    rfl
  rw [heq] at he
  have hfinal : e.finalized = c.finalized := he ▸ hd.finalized
  have hhistory : e.finalizedHistory = c.finalizedHistory := he ▸ hd.finalizedHistory
  have hwaiting : e.orphans.blocks = [] := by
    rw [he, ← h.waiting, ← hd.orphans]
    rfl
  obtain ⟨cs, hf, -⟩ := h.upright.forest
  obtain ⟨a', hf', -⟩ := hd.forest cs hf
  have hcount := (counting_countAll (K := K) (c := e) (b := b)).1
  have hsound' : Orderly K (e.countAll K b) :=
    hpop.of_moves (q := False) (countAll_moves hpop.within (Set.mem_univ b))
  have hupright' : Upright (bs ++ [b]) e := by
    rw [he]
    exact ⟨hupright.forest, hupright.final, hupright.le⟩
  have hcarried : Carried K (e.countAll K b) :=
    h.carried_next hnext hf hpop (by rw [he]; exact hf') hfinal hhistory
  refine ⟨e.countAll K b, ⟨hsound', hupright'.of_counting hcount, hcarried,
    hcount.finalized.trans hfinal, hcount.finalizedHistory.trans hhistory,
    hcount.waiting.trans hwaiting, hcount.ownvotes.trans hown, fun ev hev => ?_⟩, ?_,
    fun now' => ?_⟩
  · rcases hcount.events ev hev with hev | ⟨_, _, rfl⟩
    · rw [hvote, List.mem_singleton] at hev
      subst hev
      refine ⟨fun _ heq => ?_, fun _ _ heq => ?_⟩ <;> cases heq
    · refine ⟨fun _ heq => ?_, fun _ _ heq => ?_⟩ <;> cases heq
  · rw [hevents]
    exact List.cons_ne_nil _ _
  · have hcloses := closes_finalizeLoop (nodesL (e.countAll K b).forktrees).length hsound'
      (hupright'.of_counting hcount) hcarried hK hstakes
    unfold pollNext
    rw [hlast]
    dsimp only
    rw [hx, ← pop, heq, ← he]
    exact postBlockIncluded_eq now' (by rw [hcloses.orphans, hcount.waiting, hwaiting])

/-- **The justification of the vote for the next block** is accepted after the
round as well: it is final still, or of the epoch before, or the genesis block. -/
theorem Unforked.accepted (h : Unforked K bs c) (hage : 2 ≤ K.genesis.limits.maxJustificationAge)
    {f l : Chain H D} (hf : Brought K bs b c f) (hl : Closes K (bs ++ [b]) f l)
    (hpolled : Polled K l c') : c'.inFinalizedHistory K (c.finalized.hash K) = true := by
  have hhistory := hl.finalizedHistory.trans hf.finalizedHistory
  have hkeys : (l.finalizedHistory.map Prod.fst).Nodup := hhistory ▸ h.filed.keys
  rw [mem_inFinalizedHistory]
  rcases hl.rises with rfl | ⟨-, hepoch, -⟩
  · left
    rw [hpolled.finalized, hf.finalized]
  rcases Nat.eq_zero_or_pos c.finalized.height with hzero | hpos
  · -- one epoch is on record at most
    refine Or.inr (Or.inr ⟨?_, ?_⟩)
    · have hall : ∀ e ∈ c'.finalizedHistory.map Prod.fst, e = K.epoch l.finalized.height := by
        intro e he
        rcases hpolled.epochs e he with he | he
        · rw [hhistory, h.filed.nothing hzero] at he
          cases he
        · exact he
      have hone := hpolled.keys hkeys
      rw [List.eq_replicate_iff.2 ⟨rfl, hall⟩, List.nodup_replicate, List.length_map] at hone
      omega
    · rw [h.upright.finalized_hash, hzero]
      rfl
  · refine Or.inr (Or.inl ⟨_, hpolled.keeps hkeys _ _ ?_ (hhistory ▸ h.filed.recorded hpos)⟩)
    rw [List.length_append, List.length_singleton] at hepoch
    have hended := h.ended
    rcases K.epoch_succ (h := bs.length) rfl with hnext | hnext <;>
      rcases K.epoch_succ (h := c.finalized.height) rfl with hfinal | hfinal <;> omega

/-- **A round.** -/
theorem Unforked.of_round (h : Unforked K bs c) (hK : K.alloc = .inPlace)
    (hstakes : K.eligibleStake < 2 ^ 64) (hage : 2 ≤ K.genesis.limits.maxJustificationAge)
    {f : Chain H D} (hf : Brought K bs b c f) (hc' : Orderly K c')
    (hpolled : Polled K (finalizeLoop K (nodesL f.forktrees).length f) c')
    (hempty : c'.events = []) : Unforked K (bs ++ [b]) c' := by
  have hl := closes_finalizeLoop (nodesL f.forktrees).length hf.sound hf.upright hf.carried hK
    hstakes
  have hnone := finalizeLoop_ends (K := K) (c := f) le_rfl
  generalize finalizeLoop K (nodesL f.forktrees).length f = l at hpolled hl hnone
  have haccepted := h.accepted hage hf hl hpolled
  have hlength : (bs ++ [b]).length = bs.length + 1 := by simp
  have hmono := K.epoch_mono (Nat.le_add_right bs.length 1)
  have hhistory := hl.finalizedHistory.trans hf.finalizedHistory
  have hkeys : (l.finalizedHistory.map Prod.fst).Nodup := hhistory ▸ h.filed.keys
  -- with nothing made final, the history stays as it was
  have hidle : l = f → c'.finalizedHistory = c.finalizedHistory ∧ c'.finalized = c.finalized := by
    rintro rfl
    exact ⟨(hpolled.idle fun x votes hx => (hf.quiet _ hx).2 x votes rfl).trans hf.finalizedHistory,
      hpolled.finalized.trans hf.finalized⟩
  have hown : ∀ e, K.epoch (bs.length + 1) < e + 2 → c'.ownvotes e =
      Function.update c.ownvotes (K.epoch (bs.length + 1))
        (some (c.finalized.hash K, K.hash b)) e := by
    intro e he
    rw [hpolled.ownvotes, hl.ownvotes e (hlength ▸ he), hf.ownvotes]
  refine ⟨hc', ⟨?_, ?_, ?_⟩, ?_, ⟨fun _ => ⟨c.finalized.hash K, ?_, haccepted⟩, fun e he => ?_⟩,
    ⟨hpolled.keys hkeys, fun hzero => ?_, fun hpos => ?_⟩, ?_, hempty, ?_, ?_⟩
  · rw [hpolled.forktrees, hpolled.finalized]
    exact hl.upright.forest
  · rw [hpolled.finalized]
    exact hl.upright.final
  · rw [hpolled.finalized]
    exact hl.upright.le
  · unfold Carried
    rw [hpolled.forktrees]
    exact hl.carried
  · rw [hlength, hown _ (by omega), Function.update_self, tipHash_append]
  · rw [hlength] at he
    rcases he with he | he
    · simp at he
    · rw [hown e (by omega), Function.update_of_ne he.ne']
      exact h.voted.later e (Or.inr (by omega))
  · rcases hl.rises with heq | ⟨hlt, -⟩
    · obtain ⟨hsame, hfinal⟩ := hidle heq
      rw [hsame]
      exact h.filed.nothing (hfinal ▸ hzero)
    · rw [hpolled.finalized] at hzero
      omega
  · rcases hl.rises with heq | ⟨-, -, x, votes, hx, hhash⟩
    · obtain ⟨hsame, hfinal⟩ := hidle heq
      rw [hsame, hfinal]
      exact h.filed.recorded (hfinal ▸ hpos)
    · rcases hpolled.records hkeys x votes hx with hx | hx
      · rw [hempty] at hx
        cases hx
      · rwa [hpolled.finalized, ← hhash]
  · rw [hpolled.orphans, hl.orphans]
    exact hf.waiting
  · rcases hl.rises with heq | ⟨-, hepoch, -⟩
    · rw [(hidle heq).2, hlength]
      exact h.risen.imp_right fun hle => hle.trans hmono
    · exact Or.inr (hpolled.finalized ▸ hepoch)
  · rw [hpolled.finalized]
    exact epoch_of_ended hl.sound hl.upright hl.carried hK hstakes hnone

/-! ## Every round -/

/-- **Rounds from a new chain on**: a block comes in, and all events are taken. -/
inductive Rounds (K : Config H D) (fin : Finalized H D) : List (Produced H D) → Chain H D → Prop
  | start : Rounds K fin [] (.new fin)
  | round {bs : List (Produced H D)} {c : Chain H D} {b : Produced H D} (now : ℕ)
      (polls : List ℕ) (h : Rounds K fin bs c) (hnext : Next K c b)
      (hempty : ((c.include K now b).run K (polls.map .pollNext)).events = []) :
      Rounds K fin (bs ++ [b]) ((c.include K now b).run K (polls.map .pollNext))

theorem Unforked.round (h : Unforked K bs c) (hK : K.alloc = .inPlace)
    (hstakes : K.eligibleStake < 2 ^ 64) (hage : 2 ≤ K.genesis.limits.maxJustificationAge)
    (now : ℕ) (hnext : Next K c b) :
    (∃ polls : List ℕ, ((c.include K now b).run K (polls.map .pollNext)).events = []) ∧
      ∀ polls : List ℕ, ((c.include K now b).run K (polls.map .pollNext)).events = [] →
        Unforked K (bs ++ [b]) ((c.include K now b).run K (polls.map .pollNext)) := by
  obtain ⟨f, hf, hne, hpoll⟩ := h.brought hnext hK hstakes now
  have hl := closes_finalizeLoop (nodesL f.forktrees).length hf.sound hf.upright hf.carried hK
    hstakes
  have hquiet : ∀ x, .blockIncluded x ∉ (finalizeLoop K (nodesL f.forktrees).length f).events :=
    fun x hx => (hf.quiet _ (hl.included x hx)).1 x rfl
  constructor
  · obtain ⟨polls, hpolls⟩ := exists_polls (K := K) hquiet
    refine ⟨0 :: polls, ?_⟩
    rw [← hpoll 0] at hpolls
    exact hpolls
  · intro polls hempty
    cases polls with
    | nil => exact absurd hempty hne
    | cons now' polls =>
      have hrun : (c.include K now b).run K ((now' :: polls).map .pollNext) =
          (finalizeLoop K (nodesL f.forktrees).length f).run K (polls.map .pollNext) := by
        rw [← hpoll now']
        rfl
      rw [hrun] at hempty ⊢
      exact h.of_round hK hstakes hage hf (hl.sound.run _) (polled_run polls hquiet) hempty

/-- The height that is final in a chain without forks of some height: that of
the last block two epochs below it. -/
def finalHeight (K : Config H D) (height : ℕ) : ℕ :=
  (K.epoch height - 1) * K.genesis.epochBlocks - 1

omit [DecidableEq H] in
theorem eq_finalHeight {n k : ℕ} (hrisen : k = 0 ∨ K.epoch k + 2 ≤ K.epoch n)
    (hended : K.epoch n < K.epoch (k + 1) + 2) : k = finalHeight K n := by
  unfold finalHeight
  unfold Config.epoch at *
  generalize K.genesis.epochBlocks = e at *
  generalize n / e = q at *
  rcases Nat.eq_zero_or_pos e with rfl | hpos
  · simp only [Nat.div_zero] at hrisen hended
    simp
    omega
  · have hlow : (q - 1) * e ≤ k + 1 := by
      refine (Nat.le_div_iff_mul_le hpos).1 ?_
      generalize (k + 1) / e = m at hended ⊢
      omega
    rcases hrisen with rfl | hle
    · omega
    · have hhigh : k < (q - 1) * e := by
        refine (Nat.div_lt_iff_lt_mul hpos).1 ?_
        generalize k / e = m at hle ⊢
        omega
      omega

/-- **A chain without forks is finalized**: all but the last two epochs are
final, the last block is the head and voted for, and the next block can be
handled to the end. Blocks that move keep their place, and justifications of
two epochs ago count. -/
theorem final_rounds (K : Config H D) (fin : Finalized H D) (hK : K.alloc = .inPlace)
    (hstakes : K.eligibleStake < 2 ^ 64) (hage : 2 ≤ K.genesis.limits.maxJustificationAge)
    (hfin : fin.underlying = none) (h : Rounds K fin bs c) :
    c.headHash K = tipHash K bs ∧ c.headHeight = bs.length ∧
      c.finalized.height = finalHeight K bs.length ∧
      c.finalized.underlying = (bs.take (finalHeight K bs.length)).getLast? ∧
      (bs ≠ [] → ∃ j, c.ownvotes (K.epoch bs.length) = some (j, tipHash K bs)) ∧
      ∀ b now, Next K c b →
        ∃ polls : List ℕ, ((c.include K now b).run K (polls.map .pollNext)).events = [] := by
  have hc : Unforked K bs c := by
    induction h with
    | start => exact unforked_new hfin
    | round now polls _ hnext hempty ih =>
      exact (ih.round hK hstakes hage now hnext).2 polls hempty
  have hheight := eq_finalHeight hc.risen hc.ended
  refine ⟨hc.upright.headHash, hc.upright.headHeight hc.sound.formed, hheight,
    hheight ▸ hc.upright.final, fun hbs => ?_, fun b now hnext =>
      (hc.round hK hstakes hage now hnext).1⟩
  obtain ⟨j, hj, -⟩ := hc.voted.last hbs
  exact ⟨j, hj⟩

namespace Sample

/-- A block on top of another, with a vote for it. -/
def voting (parent : Produced ℕ Unit) : Produced ℕ Unit := onto parent [vote 7 (name parent)]

/-- The chain after one more round. -/
def afterRound (c : Chain ℕ Unit) (b : Produced ℕ Unit) : Chain ℕ Unit :=
  (c.include (single .inPlace) 0 b).run (single .inPlace) ((List.replicate 6 0).map .pollNext)

theorem next_single {c : Chain ℕ Unit} {b : Produced ℕ Unit}
    (hsigned : (single .inPlace).verifySignature b = true ∧ b.signature.1 = 7)
    (htop : b.parent = c.headHash (single .inPlace) ∧ b.height = c.headHeight + 1 ∧
      ((single .inPlace).newExecuted c.headState b).isOk = true ∧
      c.knows (single .inPlace) ((single .inPlace).hash b) = false)
    (hvotes : c.forktrees = [] ∨ ∃ v ∈ b.votes, v.validator = 7 ∧
      (single .inPlace).verifyVote v = true ∧
        c.ownvotes ((single .inPlace).epoch c.headHeight) = some (v.justification, v.target)) :
    Next (single .inPlace) c b where
  signed := ⟨hsigned.1, 1000, by rw [hsigned.2]; decide, by decide⟩
  parent := htop.1
  height := htop.2.1
  executes := by
    have hok := htop.2.2.1
    cases hx : (single .inPlace).newExecuted c.headState b with
    | error e =>
      rw [hx] at hok
      cases hok
    | ok x => exact ⟨x, rfl⟩
  new := htop.2.2.2
  votes := fun hne => by
    refine ⟨{7}, by decide, fun k hk => ?_⟩
    obtain rfl := Finset.mem_singleton.1 hk
    exact ⟨⟨1000, by decide, by decide⟩, hvotes.resolve_left hne⟩

theorem rounds_afterRound {bs bs' : List (Produced ℕ Unit)} {c : Chain ℕ Unit}
    {b : Produced ℕ Unit} (h : Rounds (single .inPlace) genesis bs c)
    (hnext : Next (single .inPlace) c b) (hempty : (afterRound c b).events = [])
    (hbs : bs ++ [b] = bs') : Rounds (single .inPlace) genesis bs' (afterRound c b) :=
  hbs ▸ .round 0 (List.replicate 6 0) h hnext hempty

end Sample

open Sample in
/-- Of four blocks, each with a vote for the one below it, two are final. -/
theorem final_rounds_upright : ∃ c, Rounds (single .inPlace) genesis
    [first, voting first, voting (voting first), voting (voting (voting first))] c ∧
      c.finalized.height = 2 := by
  have hfour : Rounds (single .inPlace) genesis
      [first, voting first, voting (voting first), voting (voting (voting first))]
      (afterRound (afterRound (afterRound (afterRound (.new genesis) first) (voting first))
        (voting (voting first))) (voting (voting (voting first)))) := by
    refine rounds_afterRound (rounds_afterRound (rounds_afterRound (rounds_afterRound .start
      (next_single ?_ ?_ ?_) ?_ rfl) (next_single ?_ ?_ ?_) ?_ rfl)
      (next_single ?_ ?_ ?_) ?_ rfl) (next_single ?_ ?_ ?_) ?_ rfl
    all_goals decide +kernel
  exact ⟨_, hfour, (final_rounds (single .inPlace) genesis rfl (by decide +kernel)
    (by decide +kernel) rfl hfour).2.2.1⟩

end Chain

end Consensus

end Rensa
