import Rensa.Storage.Model
import Rensa.Consensus.Links
/-!
# Pruning and the finalized blocks

A block that is consumed prunes what is more than the history below it,
whatever its own commitment. A finalized block never reaches itself that
way; a confirmed one reaches the latest finalized block where it is further
ahead of it than the history goes back, and then the next finalized block
is taken for one out of order. The blocks on disk follow the finalized
blocks that were consumed exactly where no confirmed block does that
(`intact_iff`).
-/

namespace Rensa

open Consensus

variable {H D : Type}

/-- The block of a message about a finalized block. -/
def final : Executed H D × Commitment → Option (Executed H D)
  | (x, .finalized) => some x
  | _ => none

/-- The finalized blocks among those that were consumed. -/
def finals (inputs : List (Executed H D × Commitment)) : List (Executed H D) :=
  inputs.filterMap final

theorem finals_append (l r : List (Executed H D × Commitment)) :
    finals (l ++ r) = finals l ++ finals r :=
  List.filterMap_append

/-- Blocks of consecutive heights, from a height on. -/
def Consecutive (height : ℕ) (l : List (Executed H D)) : Prop :=
  l.map (fun x => x.underlying.height) = List.range' height l.length

theorem Consecutive.append {h : ℕ} {l l' : List (Executed H D)} (hl : Consecutive h l)
    (hl' : Consecutive (h + l.length) l') : Consecutive h (l ++ l') := by
  rw [Consecutive, List.map_append, hl, hl', List.length_append, List.range'_append_1]

theorem Consecutive.of_cons {h : ℕ} {x : Executed H D} {l : List (Executed H D)}
    (hl : Consecutive h (x :: l)) : x.underlying.height = h ∧ Consecutive (h + 1) l := by
  rw [Consecutive, List.map_cons, List.length_cons, List.range'_succ] at hl
  exact ⟨(List.cons.inj hl).1, (List.cons.inj hl).2⟩

/-- The last of consecutive blocks, and those before it. -/
theorem Consecutive.of_concat {h : ℕ} {x : Executed H D} {l : List (Executed H D)}
    (hl : Consecutive h (l ++ [x])) : Consecutive h l ∧ x.underlying.height = h + l.length := by
  rw [Consecutive, List.map_append, List.length_append, List.length_singleton,
    List.range'_1_concat] at hl
  obtain ⟨hinit, hlast⟩ := List.append_inj' hl rfl
  exact ⟨hinit, (List.cons.inj hlast).1⟩

/-- The finalized blocks among the first of what was consumed. -/
theorem Consecutive.of_finals {h : ℕ} {l r : List (Executed H D × Commitment)}
    (hl : Consecutive h (finals (l ++ r))) : Consecutive h (finals l) := by
  rw [finals_append, Consecutive, List.map_append, List.length_append, ← List.range'_append_1] at hl
  exact List.append_inj_left hl (by simp)

namespace BlockStore

variable {s : BlockStore H D} {b : Produced H D} {k : ℕ}

/-- Finalized blocks are stored under their own heights. -/
def Keyed (s : BlockStore H D) : Prop := ∀ e ∈ s.finalized.entries, e.2.height = e.1

theorem Keyed.latestHeight {e : ℕ × Produced H D} (h : s.Keyed) (he : s.finalized.last = some e) :
    s.latestHeight = e.1 := by
  have hmem : e ∈ s.finalized.entries := List.mem_of_getLast? he
  rw [BlockStore.latestHeight, latest, he]
  exact h e hmem

/-- No finalized block is above the latest one. -/
theorem Keyed.le_latestHeight (h : s.Keyed) : ∀ e ∈ s.finalized.entries, e.1 ≤ s.latestHeight := by
  intro e he
  cases hlast : s.finalized.last with
  | none =>
    rw [List.getLast?_eq_none_iff.1 hlast] at he
    cases he
  | some x =>
    rw [h.latestHeight hlast]
    exact Tree.le_last hlast he

variable [DecidableEq H] {K : Config H D} {txs : D → List H} {x : Executed H D}
  {commitment : Commitment}

@[simp] theorem finalized_pruneOlderThan :
    (s.pruneOlderThan K k).finalized = s.finalized.above k := by
  unfold pruneOlderThan
  split
  · rfl
  · obtain rfl : k = 0 := by omega
    rw [Tree.above_zero]

omit [DecidableEq H] in
/-- What storing a block leaves of the settings. -/
theorem storeRawBlock_settings {s' : BlockStore H D}
    (h : s.storeRawBlock b commitment = some s') :
    s'.detailed = s.detailed ∧ s'.historyLen = s.historyLen := by
  cases commitment with
  | included =>
    obtain rfl := Option.some.inj h
    exact ⟨rfl, rfl⟩
  | confirmed =>
    obtain rfl := Option.some.inj h
    exact ⟨rfl, rfl⟩
  | finalized =>
    simp only [storeRawBlock] at h
    split at h
    · cases h
    · obtain rfl := Option.some.inj h
      exact ⟨rfl, rfl⟩

/-- The block is consumed to the end, once it is stored. -/
def whole (s : BlockStore H D) (txs : D → List H) (x : Executed H D) : Bool :=
  !s.detailed || recorded txs x

theorem finalized_storeRest :
    (s.storeRest K txs x).1.finalized =
      if s.whole txs x then s.finalized.above (x.underlying.height - s.historyLen)
      else s.finalized := by
  unfold storeRest whole
  by_cases hd : s.detailed = true
  · by_cases hr : recorded txs x = true
    · simp [hd, hr, storeOutputs, storeHash]
    · simp [hd, hr, storeOutputs]
  · simp [hd, storeHash]

/-- **What consuming a block leaves of the finalized ones**, once it is
stored. -/
theorem finalized_consume {s' : BlockStore H D} (hc : commitment ≠ .included)
    (h : s.storeRawBlock x.underlying commitment = some s') :
    (s.consume K txs x commitment).1.finalized =
      if s.whole txs x then s'.finalized.above (x.underlying.height - s.historyLen)
      else s'.finalized := by
  obtain ⟨hdetailed, hlen⟩ := storeRawBlock_settings h
  have hwhole : s'.whole txs x = s.whole txs x := by rw [whole, hdetailed, whole]
  rw [consume, if_neg hc, h]
  show (s'.storeRest K txs x).1.finalized = _
  rw [finalized_storeRest, hwhole, hlen]

/-- A confirmed block. -/
theorem finalized_consume_confirmed :
    (s.consume K txs x .confirmed).1.finalized =
      if s.whole txs x then s.finalized.above (x.underlying.height - s.historyLen)
      else s.finalized := by
  have hstored : s.storeRawBlock x.underlying .confirmed =
      some { s with confirmed := s.confirmed.insert x.underlying.height x.underlying } := rfl
  rw [finalized_consume (by decide) hstored]

/-- The next finalized block. -/
theorem finalized_consume_finalized (hx : x.underlying.height = s.latestHeight + 1) :
    (s.consume K txs x .finalized).1.finalized =
      if s.whole txs x then
        (s.finalized.insert x.underlying.height x.underlying).above
          (x.underlying.height - s.historyLen)
      else s.finalized.insert x.underlying.height x.underlying := by
  have hstored : s.storeRawBlock x.underlying .finalized =
      some { s with
        confirmed := s.confirmed.remove x.underlying.height
        finalized := s.finalized.insert x.underlying.height x.underlying } := by
    rw [storeRawBlock, if_neg (by simpa using hx)]
  rw [finalized_consume (by decide) hstored]

omit [DecidableEq H] in
/-- A block is put above the others. -/
theorem Keyed.entries_insert (h : s.Keyed) (hb : b.height = s.latestHeight + 1) :
    (s.finalized.insert b.height b).entries = s.finalized.entries ++ [(b.height, b)] :=
  Tree.entries_insert fun e he => by
    have := h.le_latestHeight e he
    omega

theorem Keyed.consume (h : s.Keyed) : (s.consume K txs x commitment).1.Keyed := by
  -- what is left was there, or is the block that was put
  have hcut : ∀ (t : Tree (Produced H D)) (k : ℕ), (∀ e ∈ t.entries, e.2.height = e.1) →
      ∀ e ∈ (if s.whole txs x then t.above k else t).entries, e.2.height = e.1 := by
    intro t k ht e he
    split at he
    · exact ht e (List.mem_of_mem_filter he)
    · exact ht e he
  cases commitment with
  | included => exact h
  | confirmed =>
    rw [Keyed, finalized_consume_confirmed]
    exact hcut _ _ h
  | finalized =>
    by_cases hx : x.underlying.height = s.latestHeight + 1
    · rw [Keyed, finalized_consume_finalized hx]
      refine hcut _ _ fun e he => ?_
      rw [h.entries_insert hx] at he
      rcases List.mem_append.1 he with he | he
      · exact h e he
      · rw [List.mem_singleton.1 he]
    · have hnone : s.storeRawBlock x.underlying .finalized = none := by
        rw [storeRawBlock, if_pos hx]
      rw [BlockStore.consume, if_neg (by decide), hnone]
      exact h

/-- The block does not prune the latest finalized one. -/
def Spares (s : BlockStore H D) (txs : D → List H) (x : Executed H D) : Prop :=
  s.whole txs x = true → ∀ l, s.latest .finalized = some l →
    x.underlying.height ≤ l.height + s.historyLen

/-- **A confirmed block leaves the latest finalized one** exactly where it
does not prune it. -/
theorem Keyed.latest_confirmed_iff (h : s.Keyed) :
    (s.consume K txs x .confirmed).1.latest .finalized = s.latest .finalized ↔
      s.Spares txs x := by
  have hlatest : (s.consume K txs x .confirmed).1.latest .finalized =
      ((s.consume K txs x .confirmed).1.finalized.last).map Prod.snd := rfl
  rw [hlatest, finalized_consume_confirmed, Spares]
  cases hwhole : s.whole txs x
  · simp [latest]
  cases hlast : s.finalized.last with
  | none =>
    have hnil : s.finalized.entries = [] := List.getLast?_eq_none_iff.1 hlast
    have hcut : (s.finalized.above (x.underlying.height - s.historyLen)).last = none := by
      show (s.finalized.entries.filter _).getLast? = none
      rw [hnil, List.filter_nil, List.getLast?_nil]
    simp [latest, hlast, hcut]
  | some e =>
    have hheight : e.2.height = e.1 := h e (List.mem_of_getLast? hlast)
    simp only [latest, hlast, Option.map_some, Option.some.injEq, forall_eq', forall_const, if_true,
      hheight]
    constructor
    · intro hkept
      by_contra hfar
      rw [Tree.last_above_none hlast (by omega)] at hkept
      cases hkept
    · intro hnear
      rw [Tree.last_above hlast (by omega)]
      rfl

/-- **The next finalized block is the latest one.** -/
theorem Keyed.latest_finalized (h : s.Keyed) (hx : x.underlying.height = s.latestHeight + 1) :
    (s.consume K txs x .finalized).1.latest .finalized = some x.underlying := by
  have hlast : (s.finalized.insert x.underlying.height x.underlying).last =
      some (x.underlying.height, x.underlying) := by
    rw [Tree.last, h.entries_insert hx, List.getLast?_concat]
  have hlatest : (s.consume K txs x .finalized).1.latest .finalized =
      ((s.consume K txs x .finalized).1.finalized.last).map Prod.snd := rfl
  rw [hlatest, finalized_consume_finalized hx]
  split
  · rw [Tree.last_above hlast (Nat.sub_le _ _)]
    rfl
  · rw [hlast]
    rfl

/-! ## Runs -/

variable (K txs)

/-- Any sequence of calls of `consume`. -/
def consumeAll (s : BlockStore H D) (inputs : List (Executed H D × Commitment)) :
    BlockStore H D :=
  inputs.foldl (fun s i => (s.consume K txs i.1 i.2).1) s

variable {K txs}

theorem Keyed.consumeAll (h : s.Keyed) (inputs : List (Executed H D × Commitment)) :
    (s.consumeAll K txs inputs).Keyed := by
  induction inputs generalizing s with
  | nil => exact h
  | cons i inputs ih => exact ih h.consume

theorem consumeAll_concat (pre : List (Executed H D × Commitment)) (i : Executed H D × Commitment) :
    s.consumeAll K txs (pre ++ [i]) =
      ((s.consumeAll K txs pre).consume K txs i.1 i.2).1 := by
  rw [consumeAll, List.foldl_append]
  rfl

theorem settings_pruneOlderThan : (s.pruneOlderThan K k).detailed = s.detailed ∧
    (s.pruneOlderThan K k).historyLen = s.historyLen := by
  unfold pruneOlderThan
  split <;> exact ⟨rfl, rfl⟩

theorem settings_storeRest : (s.storeRest K txs x).1.detailed = s.detailed ∧
    (s.storeRest K txs x).1.historyLen = s.historyLen := by
  unfold storeRest
  have houtputs : ∀ t : BlockStore H D, t = (if s.detailed then s.storeOutputs x else s) →
      t.detailed = s.detailed ∧ t.historyLen = s.historyLen := by
    rintro t rfl
    split <;> exact ⟨rfl, rfl⟩
  generalize ht : (if s.detailed then s.storeOutputs x else s) = t
  obtain ⟨hd, hl⟩ := houtputs t ht.symm
  dsimp only
  split
  · exact ⟨hd, hl⟩
  · obtain ⟨hd', hl'⟩ := settings_pruneOlderThan (K := K) (s := t)
      (k := x.underlying.height - t.historyLen)
    exact ⟨hd'.trans hd, hl'.trans hl⟩

theorem settings_consume : (s.consume K txs x commitment).1.detailed = s.detailed ∧
    (s.consume K txs x commitment).1.historyLen = s.historyLen := by
  unfold consume
  split
  · exact ⟨rfl, rfl⟩
  split
  · exact ⟨rfl, rfl⟩
  · rename_i s' hs'
    obtain ⟨hd, hl⟩ := storeRawBlock_settings hs'
    obtain ⟨hd', hl'⟩ : (s'.storeRest K txs x).1.detailed = s'.detailed ∧ _ := settings_storeRest
    exact ⟨hd'.trans hd, hl'.trans hl⟩

theorem settings_consumeAll (inputs : List (Executed H D × Commitment)) :
    (s.consumeAll K txs inputs).detailed = s.detailed ∧
      (s.consumeAll K txs inputs).historyLen = s.historyLen := by
  induction inputs generalizing s with
  | nil => exact ⟨rfl, rfl⟩
  | cons i inputs ih =>
    obtain ⟨hd, hl⟩ : (s.consume K txs i.1 i.2).1.detailed = s.detailed ∧ _ := settings_consume
    exact ⟨ih.1.trans hd, ih.2.trans hl⟩

variable (K txs) in
/-- **The finalized blocks stay intact** when a block is consumed after
others: the gap check passes, and the latest finalized block on disk is the
last one that was consumed. -/
def Intact (s : BlockStore H D) (pre : List (Executed H D × Commitment)) (x : Executed H D)
    (commitment : Commitment) : Prop :=
  ((s.consumeAll K txs pre).storeRawBlock x.underlying commitment).isSome = true ∧
    ((s.consumeAll K txs pre).consume K txs x commitment).1.latest .finalized =
      (finals (pre ++ [(x, commitment)])).getLast?.map Executed.underlying

variable (txs) in
/-- **The block is within the history**: not further ahead of the last
finalized block that was consumed than the history goes back, or it is not
consumed to the end. -/
def WithinHistory (s : BlockStore H D) (pre : List (Executed H D × Commitment))
    (x : Executed H D) : Prop :=
  s.whole txs x = true → ∀ l, (finals pre).getLast? = some l →
    x.underlying.height ≤ l.underlying.height + s.historyLen

/-- The latest finalized block is the last one that was consumed. -/
def Follows (s : BlockStore H D) (pre : List (Executed H D × Commitment)) : Prop :=
  s.latest .finalized = (finals pre).getLast?.map Executed.underlying

omit [DecidableEq H] in
theorem Follows.latestHeight {pre : List (Executed H D × Commitment)} (h : s.Follows pre)
    (hpre : Consecutive 1 (finals pre)) : s.latestHeight = (finals pre).length := by
  rw [BlockStore.latestHeight, h]
  rcases List.eq_nil_or_concat (finals pre) with hnil | ⟨l, y, hl⟩
  · rw [hnil]
    rfl
  · rw [hl, List.concat_eq_append] at hpre ⊢
    rw [List.getLast?_concat, List.length_append, List.length_singleton]
    have := hpre.of_concat.2
    show y.underlying.height = l.length + 1
    omega

/-- **One block after others.** -/
theorem Follows.intact_iff {pre : List (Executed H D × Commitment)} (hkeyed : s.Keyed)
    (h : (s.consumeAll K txs pre).Follows pre)
    (hpre : Consecutive 1 (finals (pre ++ [(x, commitment)]))) :
    s.Intact K txs pre x commitment ↔ (commitment = .confirmed → s.WithinHistory txs pre x) := by
  have hkeyed' : (s.consumeAll K txs pre).Keyed := hkeyed.consumeAll pre
  obtain ⟨hdetailed, hlen⟩ : (s.consumeAll K txs pre).detailed = s.detailed ∧ _ :=
    settings_consumeAll pre
  rw [Intact, finals_append] at *
  cases commitment with
  | included =>
    refine iff_of_true ⟨rfl, ?_⟩ (by simp)
    show (s.consumeAll K txs pre).latest .finalized = (finals pre ++ []).getLast?.map _
    rw [List.append_nil]
    exact h
  | confirmed =>
    have hsame : (finals pre ++ finals [(x, Commitment.confirmed)]).getLast?.map
        Executed.underlying = (s.consumeAll K txs pre).latest .finalized := by
      show (finals pre ++ []).getLast?.map _ = _
      rw [List.append_nil]
      exact h.symm
    rw [hsame, hkeyed'.latest_confirmed_iff, Spares, WithinHistory, h]
    simp [storeRawBlock, whole, hdetailed, hlen]
  | finalized =>
    obtain ⟨hbefore, hheight⟩ := Consecutive.of_concat (l := finals pre) (x := x) hpre
    have hnext : x.underlying.height = (s.consumeAll K txs pre).latestHeight + 1 := by
      rw [h.latestHeight hbefore]
      omega
    refine iff_of_true ⟨?_, ?_⟩ (by simp)
    · simp [storeRawBlock, hnext]
    · rw [hkeyed'.latest_finalized hnext]
      show _ = (finals pre ++ [x]).getLast?.map _
      rw [List.getLast?_concat]
      rfl

/-- The blocks on disk follow those consumed where each is within the
history. -/
theorem follows_consumeAll {inputs : List (Executed H D × Commitment)} (hkeyed : s.Keyed)
    (hstart : s.Follows []) (hinputs : Consecutive 1 (finals inputs))
    (h : ∀ pre x post, inputs = pre ++ (x, .confirmed) :: post → s.WithinHistory txs pre x) :
    (s.consumeAll K txs inputs).Follows inputs := by
  induction inputs using List.reverseRecOn with
  | nil => exact hstart
  | append_singleton pre i ih =>
    have hbefore : (s.consumeAll K txs pre).Follows pre := by
      refine ih (.of_finals hinputs) fun pre' x post hsplit => ?_
      exact h pre' x (post ++ [i]) (by rw [hsplit]; simp)
    have hintact := (hbefore.intact_iff hkeyed hinputs).2 fun hconf =>
      h pre i.1 [] (by rw [← hconf])
    rw [consumeAll_concat]
    exact hintact.2

/-- **Pruning and the finalized blocks.** On an empty disk, where finalized
blocks are consumed at the heights 1, 2, 3 and so on, with any blocks
between them, each of them is stored and the latest one on disk is the last
one consumed, exactly where every confirmed block is within the history. -/
theorem intact_iff_withinHistory (K : Config H D) (txs : D → List H) (detailed : Bool)
    (historyLen : ℕ) (inputs : List (Executed H D × Commitment))
    (hinputs : Consecutive 1 (finals inputs)) :
    (∀ pre x commitment post, inputs = pre ++ (x, commitment) :: post →
        Intact K txs { detailed, historyLen } pre x commitment) ↔
      ∀ pre x post, inputs = pre ++ (x, .confirmed) :: post →
        WithinHistory txs { detailed, historyLen } pre x := by
  have hkeyed : Keyed ({ detailed, historyLen } : BlockStore H D) :=
    fun _ he => absurd he List.not_mem_nil
  have hparts : ∀ pre i post, inputs = pre ++ i :: post →
      Consecutive 1 (finals (pre ++ [i])) := by
    intro pre i post hsplit
    refine .of_finals (r := post) ?_
    rwa [List.append_assoc, List.singleton_append, ← hsplit]
  constructor
  · intro h pre x post hsplit
    have hbefore : (consumeAll K txs { detailed, historyLen } pre).Follows pre := by
      rcases List.eq_nil_or_concat pre with rfl | ⟨pre', i, rfl⟩
      · rfl
      · rw [List.concat_eq_append] at hsplit ⊢
        rw [consumeAll_concat]
        exact (h pre' i.1 i.2 ((x, .confirmed) :: post) (by rw [hsplit]; simp)).2
    exact (hbefore.intact_iff hkeyed (hparts _ _ _ hsplit)).1 (h pre x _ post hsplit) rfl
  · intro h pre x commitment post hsplit
    have hbefore : (consumeAll K txs { detailed, historyLen } pre).Follows pre := by
      refine follows_consumeAll hkeyed rfl (.of_finals (r := (x, commitment) :: post)
        (hsplit ▸ hinputs)) fun pre' y post' hpre => ?_
      exact h pre' y (post' ++ (x, commitment) :: post) (by rw [hsplit, hpre]; simp)
    exact (hbefore.intact_iff hkeyed (hparts _ _ _ hsplit)).2 fun hconf =>
      h pre x post (hconf ▸ hsplit)

namespace Sample

/-- A block of a height, with nothing in it. -/
def block (height : ℕ) : Executed ℕ Unit where
  underlying := Chain.Sample.produce (Chain.Sample.single .inPlace) 7 0 height () []
  output := {}

/-- Two finalized blocks, and a confirmed one between them. -/
def between (height : ℕ) : List (Executed ℕ Unit × Commitment) :=
  [(block 1, .finalized), (block height, .confirmed), (block 2, .finalized)]

end Sample

/-- With a history of one block, a confirmed block of height 2 leaves the
finalized blocks intact. -/
theorem intact_between :
    Intact (Chain.Sample.single .inPlace) (fun _ => []) { detailed := true, historyLen := 1 }
      [(Sample.block 1, .finalized), (Sample.block 2, .confirmed)] (Sample.block 2) .finalized := by
  refine (intact_iff_withinHistory (Chain.Sample.single .inPlace) (fun _ => []) true 1
    (Sample.between 2) rfl).2 (fun pre x post hsplit _ l hl => ?_) _ _ _ [] rfl
  -- the one confirmed block is the second one
  match pre, hsplit with
  | [_], hsplit =>
    simp only [Sample.between, List.cons_append, List.nil_append, List.cons.injEq,
      Prod.mk.injEq] at hsplit
    obtain ⟨rfl, ⟨rfl, -⟩, -⟩ := hsplit
    obtain rfl := Option.some.inj hl
    decide
  | [], hsplit => simp [Sample.between] at hsplit
  | [_, _], hsplit => simp [Sample.between] at hsplit
  | _ :: _ :: _ :: _, hsplit => simp [Sample.between] at hsplit

/-- A confirmed block of height 3 prunes the finalized block, and the next
one is refused. -/
theorem not_intact_between :
    ¬ ∀ (inputs : List (Executed ℕ Unit × Commitment)), Consecutive 1 (finals inputs) →
      ∀ pre x commitment post, inputs = pre ++ (x, commitment) :: post →
        Intact (Chain.Sample.single .inPlace) (fun _ => []) { detailed := true, historyLen := 1 }
          pre x commitment := by
  intro h
  have hlast := (h (Sample.between 3) rfl [(Sample.block 1, .finalized),
    (Sample.block 3, .confirmed)] (Sample.block 2) .finalized [] rfl).1
  revert hlast
  decide

end BlockStore

end Rensa
