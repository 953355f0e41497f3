import Rensa.Storage.Coherence
/-!
# The blocks a node can replay

A node answers a request for a block from its disk. `get_by_height` joins
the block with its output, which is written only where details are kept,
so a node that keeps none has nothing to answer with. Where details are
kept, `Keeps` holds after every block of a branch: what is on disk belongs
to the blocks consumed, and the block, the output and the height under the
hash of every recent one are there.
-/

namespace Rensa

open Consensus

variable {H D : Type}

/-- The block of a message the store looks at. -/
def persisted : Executed H D × Commitment → Option (Executed H D)
  | (_, .included) => none
  | (x, _) => some x

/-- The confirmed and finalized blocks among those that were consumed. -/
def stored (inputs : List (Executed H D × Commitment)) : List (Executed H D) :=
  inputs.filterMap persisted

theorem mem_stored {inputs : List (Executed H D × Commitment)} {x : Executed H D} :
    x ∈ stored inputs ↔ ∃ commitment, commitment ≠ .included ∧ (x, commitment) ∈ inputs := by
  rw [stored, List.mem_filterMap]
  constructor
  · rintro ⟨⟨y, commitment⟩, hmem, hy⟩
    cases commitment with
    | included => cases hy
    | confirmed | finalized =>
      obtain rfl := Option.some.inj hy
      exact ⟨_, by decide, hmem⟩
  · rintro ⟨commitment, hc, hmem⟩
    refine ⟨_, hmem, ?_⟩
    cases commitment with
    | included => exact absurd rfl hc
    | confirmed | finalized => rfl

/-- **The messages are about one branch**: one block of each height, blocks
with hashes of their own, and each block confirmed before it is
finalized. -/
structure Branch (K : Config H D) (inputs : List (Executed H D × Commitment)) : Prop where
  heights : ∀ x ∈ stored inputs, ∀ y ∈ stored inputs,
    x.underlying.height = y.underlying.height → x = y
  hashes : ∀ x ∈ stored inputs, ∀ y ∈ stored inputs,
    K.hash x.underlying = K.hash y.underlying → x = y
  order : ∀ pre x post, inputs = pre ++ (x, .finalized) :: post → (x, .confirmed) ∈ pre

theorem Branch.of_append {K : Config H D} {pre post : List (Executed H D × Commitment)}
    (h : Branch K (pre ++ post)) : Branch K pre := by
  have hsub : ∀ x ∈ stored pre, x ∈ stored (pre ++ post) := by
    intro x hx
    rw [stored, List.filterMap_append]
    exact List.mem_append_left _ hx
  refine ⟨fun x hx y hy => h.heights x (hsub x hx) y (hsub y hy),
    fun x hx y hy => h.hashes x (hsub x hx) y (hsub y hy), fun pre' x post' hpre => ?_⟩
  exact h.order pre' x (post' ++ post) (by rw [hpre, List.append_assoc, List.cons_append])

/-- **The block is recent**: it was consumed, and no block that was consumed
is further above it than the history goes back. -/
def Recent (historyLen : ℕ) (seen : List (Executed H D)) (x : Executed H D) : Prop :=
  x ∈ seen ∧ ∀ y ∈ seen, y.underlying.height ≤ x.underlying.height + historyLen

namespace BlockStore

variable {s : BlockStore H D} {b : Produced H D} {h k : ℕ}

/-- The store has the block under a height, as confirmed or as finalized. -/
def Retains (s : BlockStore H D) (h : ℕ) (b : Produced H D) : Prop :=
  s.confirmed.get h = some b ∨ s.finalized.get h = some b

/-- What `get_by_height` finds. -/
theorem getByHeight_of_visible {x : Executed H D} (hvisible : s.visible h = some x.underlying)
    (houtput : s.outputs.get h = some x.output) : ∃ commitment,
      s.getByHeight h = some (x.readBack, commitment) := by
  unfold visible at hvisible
  unfold getByHeight
  cases hconf : s.confirmed.get h with
  | some b =>
    rw [hconf, Option.some_or] at hvisible
    obtain rfl := Option.some.inj hvisible
    exact ⟨.confirmed, by simp [houtput, Executed.readBack]⟩
  | none =>
    rw [hconf, Option.none_or] at hvisible
    exact ⟨.finalized, by simp [hvisible, houtput, Executed.readBack]⟩

theorem Retains.of_storeRawBlock {s' : BlockStore H D} {commitment : Commitment} {b' : Produced H D}
    (hs' : s.storeRawBlock b commitment = some s') (h' : s'.Retains h b') :
    h = b.height ∧ b' = b ∨ s.Retains h b' := by
  cases commitment with
  | included =>
    obtain rfl := Option.some.inj hs'
    exact Or.inr h'
  | confirmed =>
    obtain rfl := Option.some.inj hs'
    simp only [Retains, Tree.get_insert] at h' ⊢
    rcases h' with h' | h'
    · split at h'
      · exact Or.inl ⟨‹_›, (Option.some.inj h').symm⟩
      · exact Or.inr (Or.inl h')
    · exact Or.inr (Or.inr h')
  | finalized =>
    simp only [storeRawBlock] at hs'
    split at hs'
    · cases hs'
    obtain rfl := Option.some.inj hs'
    simp only [Retains, Tree.get_insert, Tree.get_remove] at h' ⊢
    rcases h' with h' | h'
    · split at h'
      · cases h'
      · exact Or.inr (Or.inl h')
    · split at h'
      · exact Or.inl ⟨‹_›, (Option.some.inj h').symm⟩
      · exact Or.inr (Or.inr h')

variable {K : Config H D} {x : Executed H D} {seen : List (Executed H D)}

variable (K) in
/-- **The disk keeps what is recent**: what is on it belongs to the blocks
consumed, and the records of every recent one are there. -/
structure Keeps (s : BlockStore H D) (seen : List (Executed H D)) : Prop where
  blocks : ∀ h b, s.Retains h b → b.height = h ∧ ∃ x ∈ seen, x.underlying = b
  outputs : ∀ h o, s.outputs.get h = some o → ∃ x ∈ seen, x.underlying.height = h ∧ x.output = o
  hashes : ∀ t h, s.hashes t = some h →
    ∃ x ∈ seen, K.hash x.underlying = t ∧ x.underlying.height = h
  kept : ∀ x, Recent s.historyLen seen x → s.visible x.underlying.height = some x.underlying ∧
    s.outputs.get x.underlying.height = some x.output ∧
    s.hashes (K.hash x.underlying) = some x.underlying.height

/-- The records depend on which blocks were seen, not on how often. -/
theorem Keeps.congr {seen' : List (Executed H D)} (hs : s.Keeps K seen)
    (hseen : ∀ y, y ∈ seen' ↔ y ∈ seen) : s.Keeps K seen' := by
  refine ⟨fun h b hb => ?_, fun h o ho => ?_, fun t h ht => ?_, fun y hy => hs.kept y ?_⟩
  · obtain ⟨hheight, y, hy, hyb⟩ := hs.blocks h b hb
    exact ⟨hheight, y, (hseen y).2 hy, hyb⟩
  · obtain ⟨y, hy, hyo⟩ := hs.outputs h o ho
    exact ⟨y, (hseen y).2 hy, hyo⟩
  · obtain ⟨y, hy, hyt⟩ := hs.hashes t h ht
    exact ⟨y, (hseen y).2 hy, hyt⟩
  · exact ⟨(hseen y).1 hy.1, fun z hz => hy.2 z ((hseen z).2 hz)⟩

theorem keeps_new (detailed : Bool) (historyLen : ℕ) :
    Keeps K ({ detailed, historyLen } : BlockStore H D) [] := by
  refine ⟨fun h b hb => ?_, fun h o ho => ?_, fun t h ht => ?_, fun y hy => ?_⟩
  · rcases hb with hb | hb <;> cases hb
  · cases ho
  · cases ht
  · cases hy.1

/-! ## One block -/

variable [DecidableEq H] {txs : D → List H} {commitment : Commitment}

theorem retains_pruneOlderThan :
    (s.pruneOlderThan K k).Retains h b ↔ k ≤ h ∧ s.Retains h b := by
  unfold pruneOlderThan
  split
  · simp only [Retains, Tree.get_above]
    split <;> simp_all
  · simp [show k = 0 by omega]

/-- What `get_by_height` reads after pruning, where details are kept. -/
theorem outputs_pruneOlderThan (hd : s.detailed = true) :
    (s.pruneOlderThan K k).outputs.get h = if k ≤ h then s.outputs.get h else none := by
  unfold pruneOlderThan
  split
  · exact Tree.get_above
  · rw [if_pos (by omega)]

omit [DecidableEq H] in
/-- The block and its output are stored. -/
theorem Keeps.storeOutputs {s' : BlockStore H D} (hs : s.Keeps K seen)
    (hd : s.detailed = true) (hc : commitment ≠ .included)
    (hheights : ∀ y ∈ seen, y.underlying.height = x.underlying.height → y = x)
    (hs' : s.storeRawBlock x.underlying commitment = some s') :
    (∀ h, (s'.storeOutputs x).outputs.get h =
        if h = x.underlying.height then some x.output else s.outputs.get h) ∧
      s'.detailed = true ∧ s'.historyLen = s.historyLen := by
  obtain ⟨hdetailed, hlen⟩ := storeRawBlock_settings hs'
  refine ⟨fun h => ?_, hdetailed.trans hd, hlen⟩
  have houtputs : s'.outputs = s.outputs := (visible_storeRawBlock (h := 0) hc hs').2.1
  unfold BlockStore.storeOutputs
  rw [houtputs]
  dsimp only
  split
  · -- an output under this height is the one of the block
    rename_i hsome
    obtain ⟨o, ho⟩ := Option.isSome_iff_exists.1 hsome
    obtain ⟨y, hy, hheight, rfl⟩ := hs.outputs _ o ho
    obtain rfl := hheights y hy hheight
    split
    · rename_i heq
      rw [heq, ho]
    · rfl
  · exact Tree.get_insert

/-- What is done once the block is stored, where details are kept and its
output tells of every transaction. -/
theorem storeRest_of_recorded (hd : s.detailed = true) (hrec : recorded txs x = true) :
    (s.storeRest K txs x).1 = ((s.storeOutputs x).pruneOlderThan K
      (x.underlying.height - s.historyLen)).storeHash K x.underlying := by
  have hd' : (s.storeOutputs x).detailed = true := hd
  simp only [storeRest, hd, if_true, hd', hrec, Bool.not_true, Bool.and_false, Bool.false_eq_true,
    if_false]
  rfl

/-- The height under the hash of a block, and nothing else. -/
theorem hashes_storeHash {t : H} :
    (s.storeHash K b).hashes t =
      if K.hash b = t ∧ s.hashes t = none then some b.height else s.hashes t := by
  unfold BlockStore.storeHash
  dsimp only
  by_cases heq : K.hash b = t
  · subst heq
    cases hb : s.hashes (K.hash b) <;> simp [hb]
  · split
    · simp [heq]
    · simp [heq, Function.update_of_ne (Ne.symm heq)]

omit [DecidableEq H] in
/-- The store `t` is `s` with a block and its output. -/
structure Stores (s : BlockStore H D) (x : Executed H D) (t : BlockStore H D) : Prop where
  detailed : t.detailed = true
  historyLen : t.historyLen = s.historyLen
  visible : ∀ h, t.visible h =
    if h = x.underlying.height then some x.underlying else s.visible h
  retains : ∀ h b, t.Retains h b → h = x.underlying.height ∧ b = x.underlying ∨ s.Retains h b
  outputs : ∀ h, t.outputs.get h =
    if h = x.underlying.height then some x.output else s.outputs.get h
  hashes : t.hashes = s.hashes

omit [DecidableEq H] in
/-- Its blocks were seen, and are under their heights. -/
theorem Stores.blocks {t : BlockStore H D} (ht : s.Stores x t) (hs : s.Keeps K seen)
    (hb : t.Retains h b) : b.height = h ∧ ∃ y ∈ x :: seen, y.underlying = b := by
  rcases ht.retains h b hb with ⟨rfl, rfl⟩ | hb
  · exact ⟨rfl, x, List.mem_cons_self, rfl⟩
  · obtain ⟨hheight, y, hy, hyb⟩ := hs.blocks h b hb
    exact ⟨hheight, y, List.mem_cons_of_mem _ hy, hyb⟩

/-- The hash of a block that is not pruned stays what it was. -/
theorem Stores.hashes_prune {t : BlockStore H D} (ht : s.Stores x t) (hs : s.Keeps K seen)
    (hhashes : ∀ y ∈ x :: seen, ∀ z ∈ x :: seen,
      K.hash y.underlying = K.hash z.underlying → y = z)
    {y : Executed H D} (hy : y ∈ x :: seen) (hk : k ≤ y.underlying.height) :
    (t.pruneOlderThan K k).hashes (K.hash y.underlying) = s.hashes (K.hash y.underlying) := by
  rw [← ht.hashes, hashes_pruneOlderThan, if_neg]
  -- a block that is pruned has another hash
  intro hmem
  obtain ⟨⟨h, b⟩, hb, heq⟩ := List.mem_map.1 hmem
  obtain ⟨hb, hlt⟩ := mem_pruned.1 hb
  obtain ⟨hheight, z, hz, rfl⟩ := ht.blocks hs hb
  obtain rfl := hhashes z hz y hy heq
  omega

/-- **The end of `consume`**: what is recent stays, the hash of the block
included. -/
theorem Keeps.prune {t : BlockStore H D} (hs : s.Keeps K seen) (ht : s.Stores x t)
    (hheights : ∀ y ∈ seen, y.underlying.height = x.underlying.height → y = x)
    (hhashes : ∀ y ∈ x :: seen, ∀ z ∈ x :: seen,
      K.hash y.underlying = K.hash z.underlying → y = z) :
    ((t.pruneOlderThan K (x.underlying.height - t.historyLen)).storeHash K x.underlying).Keeps K
      (x :: seen) := by
  have hold : ∀ u h, t.hashes u = some h →
      ∃ y ∈ x :: seen, K.hash y.underlying = u ∧ y.underlying.height = h := by
    intro u h hu
    rw [ht.hashes] at hu
    obtain ⟨y, hy, hyu⟩ := hs.hashes u h hu
    exact ⟨y, List.mem_cons_of_mem _ hy, hyu⟩
  refine ⟨fun h b hb => ht.blocks hs (retains_pruneOlderThan.1 hb).2, fun h o ho => ?_,
    fun u h hu => ?_, fun y hy => ?_⟩
  · change (t.pruneOlderThan K _).outputs.get h = some o at ho
    rw [outputs_pruneOlderThan ht.detailed, ht.outputs] at ho
    split at ho
    · split at ho
      · exact ⟨x, List.mem_cons_self, Eq.symm ‹_›, Option.some.inj ho⟩
      · obtain ⟨y, hy, hyo⟩ := hs.outputs h o ho
        exact ⟨y, List.mem_cons_of_mem _ hy, hyo⟩
    · cases ho
  · rw [hashes_storeHash] at hu
    split at hu
    · rename_i hx
      exact ⟨x, List.mem_cons_self, hx.1, Option.some.inj hu⟩
    · exact hold u h (hashes_of_pruneOlderThan hu)
  · have hhistory : ((t.pruneOlderThan K (x.underlying.height - t.historyLen)).storeHash K
        x.underlying).historyLen = s.historyLen := settings_pruneOlderThan.2.trans ht.historyLen
    rw [hhistory] at hy
    have hrange : x.underlying.height - t.historyLen ≤ y.underlying.height := by
      have := hy.2 x List.mem_cons_self
      have := ht.historyLen
      omega
    rw [hashes_storeHash, ht.hashes_prune hs hhashes hy.1 hrange]
    change (t.pruneOlderThan K _).visible _ = _ ∧ (t.pruneOlderThan K _).outputs.get _ = _ ∧ _
    rw [visible_pruneOlderThan, outputs_pruneOlderThan ht.detailed, if_pos hrange, if_pos hrange,
      ht.visible, ht.outputs]
    by_cases hyx : y = x
    · subst hyx
      refine ⟨if_pos rfl, if_pos rfl, ?_⟩
      cases hhash : s.hashes (K.hash y.underlying) with
      | none => rw [if_pos ⟨rfl, rfl⟩]
      | some h =>
        -- what the hash leads to is the block itself
        obtain ⟨z, hz, heq, rfl⟩ := hold _ h (ht.hashes ▸ hhash)
        rw [hhashes z hz y List.mem_cons_self heq]
        simp
    · have hseen : y ∈ seen := (List.mem_cons.1 hy.1).resolve_left hyx
      have hne : y.underlying.height ≠ x.underlying.height := fun heq => hyx (hheights y hseen heq)
      obtain ⟨hread, hout, hhash⟩ :=
        hs.kept y ⟨hseen, fun z hz => hy.2 z (List.mem_cons_of_mem _ hz)⟩
      rw [if_neg hne, if_neg hne, hhash]
      exact ⟨hread, hout, by simp⟩

/-- **A block of the branch that is consumed is kept**, and so is what is
recent after it. -/
theorem Keeps.consume (hs : s.Keeps K seen) (hd : s.detailed = true)
    (hrec : recorded txs x = true) (hc : commitment ≠ .included)
    (hheights : ∀ y ∈ seen, y.underlying.height = x.underlying.height → y = x)
    (hhashes : ∀ y ∈ x :: seen, ∀ z ∈ x :: seen,
      K.hash y.underlying = K.hash z.underlying → y = z)
    (hstored : s.storeRawBlock x.underlying commitment = none → x ∈ seen) :
    (s.consume K txs x commitment).1.Keeps K (x :: seen) := by
  unfold BlockStore.consume
  rw [if_neg hc]
  cases hs' : s.storeRawBlock x.underlying commitment with
  | none =>
    refine hs.congr fun y => ?_
    rw [List.mem_cons]
    exact ⟨fun hy => hy.elim (fun heq => heq ▸ hstored hs') id, Or.inr⟩
  | some s' =>
    obtain ⟨houtputs, hd', hlen⟩ := hs.storeOutputs hd hc hheights hs'
    have hraw := fun h => visible_storeRawBlock (h := h) hc hs'
    change (s'.storeRest K txs x).1.Keeps K (x :: seen)
    rw [storeRest_of_recorded hd' hrec]
    have hstores : s.Stores x (s'.storeOutputs x) :=
      { detailed := hd'
        historyLen := hlen
        visible := fun h => (hraw h).1
        retains := fun h b hb => Retains.of_storeRawBlock hs' hb
        outputs := houtputs
        hashes := (hraw 0).2.2 }
    exact hs.prune hstores hheights hhashes

/-! ## Runs -/

/-- **What is recent is kept after any blocks of a branch.** -/
theorem keeps_consumeAll {historyLen : ℕ} {inputs : List (Executed H D × Commitment)}
    (hbranch : Branch K inputs) (hrec : ∀ i ∈ inputs, recorded txs i.1 = true) :
    (consumeAll K txs { detailed := true, historyLen } inputs).Keeps K (stored inputs) := by
  induction inputs using List.reverseRecOn with
  | nil => exact keeps_new true historyLen
  | append_singleton pre i ih =>
    have hbefore := ih hbranch.of_append fun j hj => hrec j (List.mem_append_left _ hj)
    obtain ⟨hd, -⟩ : (consumeAll K txs ({ detailed := true, historyLen } : BlockStore H D)
      pre).detailed = true ∧ _ := settings_consumeAll pre
    rw [consumeAll_concat]
    obtain ⟨x, commitment⟩ := i
    by_cases hc : commitment = .included
    · subst hc
      rw [stored, List.filterMap_append]
      exact hbefore.congr fun y => by simp [stored, persisted]
    · have hsame : ∀ y, y ∈ stored (pre ++ [(x, commitment)]) ↔ y ∈ x :: stored pre := by
        intro y
        rw [stored, List.filterMap_append, List.mem_append, List.mem_cons, or_comm]
        cases commitment with
        | included => exact absurd rfl hc
        | confirmed | finalized => simp [persisted, stored]
      refine Keeps.congr ?_ hsame
      refine hbefore.consume hd (hrec _ (by simp)) hc (fun y hy => ?_) (fun y hy z hz => ?_) ?_
      · exact hbranch.heights y ((hsame y).2 (List.mem_cons_of_mem _ hy)) x
          ((hsame x).2 List.mem_cons_self)
      · exact hbranch.hashes y ((hsame y).2 hy) z ((hsame z).2 hz)
      · -- only a finalized block is refused, and it was confirmed before
        intro hnone
        cases commitment with
        | included => exact absurd rfl hc
        | confirmed => cases hnone
        | finalized =>
          exact mem_stored.2 ⟨.confirmed, by decide, hbranch.order pre x [] rfl⟩

/-- Without details no output is ever written. -/
theorem outputs_consumeAll {inputs : List (Executed H D × Commitment)} (hd : s.detailed = false) :
    (s.consumeAll K txs inputs).outputs = s.outputs := by
  induction inputs using List.reverseRecOn with
  | nil => rfl
  | append_singleton pre i ih =>
    have hd' : (s.consumeAll K txs pre).detailed = false := (settings_consumeAll pre).1.trans hd
    rw [consumeAll_concat, ← ih]
    generalize s.consumeAll K txs pre = t at hd' ⊢
    unfold BlockStore.consume
    split
    · rfl
    split
    · rfl
    · rename_i hc _ t' ht'
      have houtputs : t'.outputs = t.outputs := (visible_storeRawBlock (h := 0) hc ht').2.1
      have hd'' : t'.detailed = false := (storeRawBlock_settings ht').1.trans hd'
      rw [← houtputs]
      unfold storeRest
      simp only [hd'', Bool.false_eq_true, if_false, Bool.false_and]
      change (t'.pruneOlderThan K _).outputs = _
      unfold pruneOlderThan
      split
      · exact if_neg (by simp [hd''])
      · rfl

variable (K) in
/-- **Every recent block is found**, by its height and by its hash, with its
output as it is read back. -/
def Replayable (s : BlockStore H D) (seen : List (Executed H D)) : Prop :=
  ∀ x, Recent s.historyLen seen x →
    (∃ commitment, s.getByHeight x.underlying.height = some (x.readBack, commitment)) ∧
      ∃ commitment, s.getByHash (K.hash x.underlying) = some (x.readBack, commitment)

omit [DecidableEq H] in
theorem Keeps.replayable (hs : s.Keeps K seen) : s.Replayable K seen := by
  intro x hx
  obtain ⟨hvisible, houtput, hhash⟩ := hs.kept x hx
  obtain ⟨commitment, hfound⟩ := getByHeight_of_visible hvisible houtput
  refine ⟨⟨commitment, hfound⟩, commitment, ?_⟩
  rw [getByHash, hhash]
  exact hfound

omit [DecidableEq H] in
/-- Of some blocks one is recent: the highest. -/
theorem exists_recent (historyLen : ℕ) (hseen : seen ≠ []) : ∃ x, Recent historyLen seen x := by
  obtain ⟨x, hx, hmax⟩ := Multiset.exists_max_image (fun y : Executed H D => y.underlying.height)
    (s := (seen : Multiset (Executed H D))) (by simpa using hseen)
  exact ⟨x, hx, fun y hy => (hmax y hy).trans (Nat.le_add_right _ _)⟩

/-- **When recent blocks can be replayed.** Of every branch of blocks that
is consumed, each block confirmed before it is finalized, whatever the
length of the history: every recent block is found by its height and by its
hash if and only if the store keeps details, or nothing was stored. -/
theorem replayable_iff (K : Config H D) (txs : D → List H) (detailed : Bool) (historyLen : ℕ)
    (inputs : List (Executed H D × Commitment)) (hbranch : Branch K inputs)
    (hrec : ∀ i ∈ inputs, recorded txs i.1 = true) :
    Replayable K (consumeAll K txs { detailed, historyLen } inputs) (stored inputs) ↔
      detailed = true ∨ stored inputs = [] := by
  constructor
  · intro h
    by_contra hcon
    obtain ⟨hd, hne⟩ := not_or.1 hcon
    obtain ⟨x, hx⟩ := exists_recent _ hne
    obtain ⟨⟨commitment, hfound⟩, -⟩ := h x hx
    obtain ⟨-, o, ho, -⟩ := getByHeight_some hfound
    rw [outputs_consumeAll (by simpa using hd)] at ho
    cases ho
  · rintro (rfl | hnil)
    · exact (keeps_consumeAll hbranch hrec).replayable
    · intro x hx
      rw [hnil] at hx
      cases hx.1

namespace Sample

/-- Two blocks of a branch, the first of them finalized. -/
def branch : List (Executed ℕ Unit × Commitment) :=
  [(block 1, .confirmed), (block 1, .finalized), (block 2, .confirmed)]

end Sample

/-- With details and a history of one block both are found. -/
theorem replayable_branch :
    stored Sample.branch = [Sample.block 1, Sample.block 1, Sample.block 2] ∧
      Replayable (Chain.Sample.single .inPlace) (consumeAll (Chain.Sample.single .inPlace)
        (fun _ => []) { detailed := true, historyLen := 1 } Sample.branch)
        (stored Sample.branch) := by
  refine ⟨rfl, (replayable_iff (Chain.Sample.single .inPlace) (fun _ => []) true 1 Sample.branch ?_
    fun _ _ => rfl).2 (Or.inl rfl)⟩
  have hmem : ∀ x ∈ stored Sample.branch, x = Sample.block 1 ∨ x = Sample.block 2 := by
    simp [stored, Sample.branch, persisted]
  -- what tells the two blocks apart tells all of them apart
  have hapart : ∀ f : Executed ℕ Unit → ℕ, f (Sample.block 1) ≠ f (Sample.block 2) →
      ∀ x ∈ stored Sample.branch, ∀ y ∈ stored Sample.branch, f x = f y → x = y := by
    intro f hf x hx y hy heq
    rcases hmem x hx with rfl | rfl <;> rcases hmem y hy with rfl | rfl
    · rfl
    · exact absurd heq hf
    · exact absurd heq.symm hf
    · rfl
  refine ⟨hapart (fun x => x.underlying.height) (by decide),
    hapart (fun x => (Chain.Sample.single .inPlace).hash x.underlying) (by decide +kernel),
    fun pre x post hsplit => ?_⟩
  match pre, hsplit with
  | [_], hsplit =>
    simp only [Sample.branch, List.cons_append, List.nil_append, List.cons.injEq,
      Prod.mk.injEq] at hsplit
    obtain ⟨rfl, ⟨rfl, -⟩, -⟩ := hsplit
    exact List.mem_cons_self
  | [], hsplit => simp [Sample.branch] at hsplit
  | [_, _], hsplit => simp [Sample.branch] at hsplit
  | _ :: _ :: _ :: _, hsplit => simp [Sample.branch] at hsplit

/-- Without details the one block consumed is not found. -/
theorem not_replayable_plain :
    ¬ Replayable (Chain.Sample.single .inPlace) (consumeAll (Chain.Sample.single .inPlace)
      (fun _ => []) { detailed := false, historyLen := 1 } [(Sample.block 1, .confirmed)])
      [Sample.block 1] := by
  intro h
  obtain ⟨⟨commitment, hfound⟩, -⟩ := h (Sample.block 1) ⟨by simp, by simp⟩
  have hnone : ((consumeAll (Chain.Sample.single .inPlace) (fun _ => [])
      { detailed := false, historyLen := 1 } [(Sample.block 1, .confirmed)]).getByHeight
        (Sample.block 1).underlying.height).isSome = false := by
    decide
  rw [hfound] at hnone
  cases hnone

end BlockStore

end Rensa
