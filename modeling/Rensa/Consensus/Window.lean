import Rensa.Consensus.Certificates
import Rensa.Consensus.Finality
import Rensa.Consensus.Lifecycle
/-!
# The window of justifications

A final block is recorded when its event is taken, under the epoch of what
is final by then, and what is older than the window is dropped at the same
time. Where the event of a block is taken while the chain is still in its
epoch (`Prompt`), the history is what is remembered of the blocks whose
events were taken, in the order of their epochs (`Kept`). As soon as no
event waits the last of them is in the epoch of what is final, and the
history is the window below it (`windowed_run`).
-/

namespace Rensa

namespace Consensus

open Rose (nodes nodesL)
open TreeNode (block hash)
open ChainEvent (finality)

variable {H D : Type}

/-! ## The history -/

/-- The hash is recorded under the epoch. -/
def Records (m : List (ℕ × List H)) (epoch : ℕ) (h : H) : Prop :=
  ∃ hashes, (epoch, hashes) ∈ m ∧ h ∈ hashes

section Remember

variable [DecidableEq H] {m : List (ℕ × List H)} {epoch e window : ℕ} {h t : H}

/-- A hash recorded under an epoch, in a new set or in that of the epoch. -/
def enter (m : List (ℕ × List H)) (epoch : ℕ) (h : H) : List (ℕ × List H) :=
  match m.lookup epoch with
  | none => m ++ [(epoch, [h])]
  | some hashes => indexInsert m epoch (hashes.insert h)

theorem keys_enter : e ∈ (enter m epoch h).map Prod.fst ↔ e ∈ m.map Prod.fst ∨ e = epoch := by
  unfold enter
  split
  · simp
  · exact mem_keys_indexInsert

theorem nodup_enter (hm : (m.map Prod.fst).Nodup) : ((enter m epoch h).map Prod.fst).Nodup := by
  unfold enter
  split
  · rename_i hnone
    rw [List.lookup_eq_none_iff] at hnone
    rw [List.map_append, List.nodup_append]
    refine ⟨hm, by simp, fun a ha b hb heq => ?_⟩
    obtain ⟨p, hp, rfl⟩ := List.mem_map.1 ha
    obtain rfl : b = epoch := by simpa using hb
    simpa [heq] using hnone p hp
  · exact nodup_indexInsert hm

/-- **What is recorded after an entry**: one hash more. -/
theorem records_enter (hm : (m.map Prod.fst).Nodup) :
    Records (enter m epoch h) e t ↔ Records m e t ∨ e = epoch ∧ t = h := by
  unfold enter Records
  split
  · simp only [List.mem_append, List.mem_singleton, Prod.mk.injEq, or_and_right, exists_or]
    refine or_congr Iff.rfl ⟨?_, ?_⟩
    · rintro ⟨hashes, ⟨rfl, rfl⟩, ht⟩
      exact ⟨rfl, List.mem_singleton.1 ht⟩
    · rintro ⟨rfl, rfl⟩
      exact ⟨[t], ⟨rfl, rfl⟩, List.mem_singleton_self t⟩
  · rename_i hashes hlookup
    have hmem := mem_of_lookup hlookup
    have hany : (m.any fun p => p.1 == epoch) = true :=
      List.any_eq_true.2 ⟨_, hmem, beq_self_eq_true epoch⟩
    rw [indexInsert, if_pos hany]
    simp only [List.mem_map]
    constructor
    · rintro ⟨hashes', ⟨p, hp, heq⟩, ht⟩
      split at heq
      · obtain ⟨rfl, rfl⟩ := Prod.mk.inj heq
        rcases List.mem_insert_iff.1 ht with rfl | ht
        · exact Or.inr ⟨rfl, rfl⟩
        · exact Or.inl ⟨hashes, hmem, ht⟩
      · subst heq
        exact Or.inl ⟨hashes', hp, ht⟩
    · rintro (⟨hashes', hp, ht⟩ | ⟨rfl, rfl⟩)
      · by_cases he : e = epoch
        · subst he
          have hsame := lookup_of_mem hm hp
          rw [hlookup] at hsame
          obtain rfl := Option.some.inj hsame
          exact ⟨_, ⟨_, hp, if_pos rfl⟩, List.mem_insert_of_mem ht⟩
        · exact ⟨hashes', ⟨_, hp, if_neg he⟩, ht⟩
      · exact ⟨_, ⟨_, hmem, if_pos rfl⟩, List.mem_insert_self⟩

/-- The history after an event: an entry, and old epochs dropped. -/
def remember (window : ℕ) (m : List (ℕ × List H)) (epoch : ℕ) (h : H) : List (ℕ × List H) :=
  (enter m epoch h).filter fun e => epoch - window ≤ e.1

theorem keys_remember : e ∈ (remember window m epoch h).map Prod.fst ↔
    epoch - window ≤ e ∧ (e ∈ m.map Prod.fst ∨ e = epoch) := by
  rw [← keys_enter (h := h), remember]
  simp only [List.mem_map, List.mem_filter, decide_eq_true_eq]
  constructor
  · rintro ⟨p, ⟨hp, hle⟩, rfl⟩
    exact ⟨hle, p, hp, rfl⟩
  · rintro ⟨hle, p, hp, rfl⟩
    exact ⟨p, ⟨hp, hle⟩, rfl⟩

theorem nodup_remember (hm : (m.map Prod.fst).Nodup) :
    ((remember window m epoch h).map Prod.fst).Nodup :=
  (nodup_enter hm).sublist (List.filter_sublist.map _)

theorem records_remember (hm : (m.map Prod.fst).Nodup) :
    Records (remember window m epoch h) e t ↔
      epoch - window ≤ e ∧ (Records m e t ∨ e = epoch ∧ t = h) := by
  rw [← records_enter hm, remember, Records, Records]
  simp only [List.mem_filter, decide_eq_true_eq]
  tauto

/-- What is remembered of the events of a run. -/
def remembered (window : ℕ) (l : List (ℕ × H)) : List (ℕ × List H) :=
  l.foldl (fun m p => remember window m p.1 p.2) []

theorem nodup_remembered (l : List (ℕ × H)) : ((remembered window l).map Prod.fst).Nodup := by
  induction l using List.reverseRecOn with
  | nil => exact List.nodup_nil
  | append_singleton l p ih =>
    rw [remembered, List.foldl_append]
    exact nodup_remember ih

theorem keys_remembered {l : List (ℕ × H)} (he : e ∈ (remembered window l).map Prod.fst) :
    e ∈ l.map Prod.fst := by
  induction l using List.reverseRecOn with
  | nil => exact he
  | append_singleton l p ih =>
    rw [remembered, List.foldl_append] at he
    rw [List.map_append, List.mem_append]
    rcases (keys_remember.1 he).2 with he | rfl
    · exact Or.inl (ih he)
    · exact Or.inr (List.mem_singleton_self _)

/-- **Of events in the order of their epochs**, those are remembered that
are not older than the window. -/
theorem records_remembered {l : List (ℕ × H)} (hl : (l.map Prod.fst).Pairwise (· ≤ ·)) :
    Records (remembered window l) e h ↔ (e, h) ∈ l ∧ ∀ p ∈ l, p.1 - window ≤ e := by
  induction l using List.reverseRecOn with
  | nil => exact ⟨fun ⟨_, hmem, _⟩ => absurd hmem List.not_mem_nil,
      fun hmem => absurd hmem.1 List.not_mem_nil⟩
  | append_singleton l p ih =>
    rw [List.map_append, List.pairwise_append] at hl
    obtain ⟨hsorted, -, hle⟩ := hl
    have hle : ∀ q ∈ l, q.1 ≤ p.1 := fun q hq =>
      hle q.1 (List.mem_map_of_mem hq) p.1 (List.mem_singleton_self _)
    have hfold : remembered window (l ++ [p]) = remember window (remembered window l) p.1 p.2 := by
      rw [remembered, List.foldl_append]
      rfl
    rw [hfold, records_remember (nodup_remembered l), ih hsorted]
    simp only [List.mem_append, List.mem_singleton]
    constructor
    · rintro ⟨hwindow, ⟨hmem, hall⟩ | ⟨rfl, rfl⟩⟩
      · exact ⟨Or.inl hmem, fun q hq => hq.elim (hall q) fun heq => heq ▸ hwindow⟩
      · refine ⟨Or.inr rfl, fun q hq => hq.elim (fun hq => ?_) fun heq => heq ▸ hwindow⟩
        have hq := hle q hq
        omega
    · rintro ⟨hmem, hall⟩
      refine ⟨hall p (Or.inr rfl), hmem.imp (fun hmem => ⟨hmem, fun q hq => hall q (Or.inl hq)⟩)
        fun heq => ?_⟩
      exact Prod.mk.inj heq

/-- The epochs that are kept are those of the window below the last. -/
theorem window_remembered {l : List (ℕ × H)} (he : e ∈ (remembered window l).map Prod.fst) :
    ∃ p ∈ l, l.getLast? = some p ∧ p.1 - window ≤ e := by
  rcases List.eq_nil_or_concat l with rfl | ⟨l, p, rfl⟩
  · exact absurd he List.not_mem_nil
  · rw [remembered, List.concat_eq_append, List.foldl_append] at he
    exact ⟨p, by simp, by simp, (keys_remember.1 he).1⟩

end Remember

namespace Chain

variable [DecidableEq H] {K : Config H D} {B : Set (Produced H D)} {fin : Finalized H D}
  {c c' : Chain H D} {b : Produced H D} {e : ℕ}

theorem finalizedHistory_postBlockFinalized : (c.postBlockFinalized K b).finalizedHistory =
    remember K.genesis.limits.maxJustificationAge c.finalizedHistory
      (K.epoch c.finalized.height) (K.hash b) := rfl

/-! ## What leaves the history as it is -/

theorem finalizedHistory_includeFrom (now fuel : ℕ) :
    (includeFrom K now fuel c b).finalizedHistory = c.finalizedHistory := by
  induction fuel generalizing c b with
  | zero => rfl
  | succ fuel ih =>
    have hfold : ∀ (xs : List (Produced H D)) (d : Chain H D),
        (xs.foldl (includeFrom K now fuel) d).finalizedHistory = d.finalizedHistory := by
      intro xs
      induction xs with
      | nil => exact fun _ => rfl
      | cons x xs ihxs => exact fun d => (ihxs _).trans ih
    simp only [includeFrom]
    split
    · split
      · rfl
      · rfl
      · rename_i d htry
        rw [hfold]
        have hvote : (d.voteIfHead K (K.hash b)).finalizedHistory = d.finalizedHistory := by
          unfold voteIfHead commitAndVote
          split
          · split
            · rfl
            · split <;> rfl
          · rfl
        refine hvote.trans ?_
        rcases tryInclude_ok htry with ⟨rfl, -⟩ | ⟨-, ⟨x, -, -, -, rfl⟩ | ⟨p, x, -, -, -, -, rfl⟩⟩
        · rfl
        · rfl
        · rfl
    · rfl

theorem finalizedHistory_countVotes (l : List (Vote H)) :
    (c.countVotes K l).finalizedHistory = c.finalizedHistory := by
  unfold countVotes
  induction l generalizing c with
  | nil => rfl
  | cons v l ih => exact ih.trans (injestVote_keeps v).2.1

theorem finalizedHistory_finalizeLoop (fuel : ℕ) :
    (finalizeLoop K fuel c).finalizedHistory = c.finalizedHistory := by
  induction fuel generalizing c with
  | zero => rfl
  | succ fuel ih =>
    rw [finalizeLoop]
    split
    · rfl
    · rename_i d hd
      obtain ⟨before, after, root, -, rfl⟩ := tryFinalizeRoots_some hd
      exact ih

theorem finalizedHistory_postBlockIncluded (now : ℕ) :
    (c.postBlockIncluded K now b).finalizedHistory = c.finalizedHistory := by
  change (finalizeLoop K _ (c.countAll K b)).finalizedHistory = _
  rw [finalizedHistory_finalizeLoop]
  unfold countAll
  exact (finalizedHistory_countVotes _).trans (finalizedHistory_countVotes _)

/-! ## What is final, and what of it waits -/

/-- The final blocks whose events wait. -/
def pending (c : Chain H D) : List (Produced H D) := c.events.filterMap finality

/-- **What is final rises, and an event tells of it.** -/
structure Rises (c c' : Chain H D) : Prop where
  height : c.finalized.height ≤ c'.finalized.height
  waits : pending c' = [] → pending c = [] ∧ c'.finalized = c.finalized

omit [DecidableEq H] in
theorem Rises.refl (c : Chain H D) : Rises c c := ⟨le_rfl, fun h => ⟨h, rfl⟩⟩

omit [DecidableEq H] in
theorem Rises.trans {c'' : Chain H D} (h : Rises c c') (h' : Rises c' c'') : Rises c c'' where
  height := h.height.trans h'.height
  waits := fun hnone =>
    have ⟨hnone, hfinal⟩ := h'.waits hnone
    (h.waits hnone).imp_right hfinal.trans

/-- An act that returns nothing. -/
theorem rises_of_act {Q : Chain H D → Deed H D → Prop} (hact : Act K B Q c [] c')
    (hc : WellFormed K c) : Rises c c' := by
  have hkeeps : pending c' = [] → pending c = [] := by
    intro hnone
    rw [pending, List.filterMap_eq_nil_iff] at hnone ⊢
    exact fun ev hev => (hact.keeps hev).elim (fun h => absurd h List.not_mem_nil) (hnone ev)
  cases hact with
  | wait | root | child | cast | count | miss | record => exact ⟨le_rfl, fun h => ⟨hkeeps h, rfl⟩⟩
  | @finalize before after root _ hsplit =>
    have hroot := (hc.roots root (sublist_splitRoots hsplit).1).2
    refine ⟨?_, fun hnone => ?_⟩
    · change _ ≤ root.block.height
      omega
    · rw [pending, events_finalizeNext hc hsplit] at hnone
      cases hnone

/-- A sequence of acts that return nothing. -/
theorem rises_of_acts {Q : Chain H D → Deed H D → Prop} (hacts : Acts K B Q c [] c')
    (hc : Standing K B c) : Rises c c' := by
  have hall := hacts.1.rule (P := fun es d => Standing K B d ∧ (es = [] → Rises c d))
    ⟨hc, fun _ => .refl c⟩ fun es d e d' hact ⟨hd, hrises⟩ => by
      refine ⟨hd.of_act hact, fun hnil => ?_⟩
      obtain ⟨hes, rfl⟩ := List.append_eq_nil_iff.1 hnil
      exact (hrises hes).trans (rises_of_act hact hd.formed)
  exact hall.2 rfl

/-! ## What is remembered -/

/-- The epoch and the hash of a block. -/
def entry (K : Config H D) (b : Produced H D) : ℕ × H := (K.epoch b.height, K.hash b)

/-- **What a run keeps of the history**: with `bs` the final blocks whose
events were taken, the history is what is remembered of them; they are in
the order of their epochs, and when no event of a final block waits, the
last is in the epoch of what is final. -/
structure Kept (K : Config H D) (bs : List (Produced H D)) (c : Chain H D) : Prop where
  history : c.finalizedHistory =
    remembered K.genesis.limits.maxJustificationAge (bs.map (entry K))
  sorted : ((bs.map (entry K)).map Prod.fst).Pairwise (· ≤ ·)
  below : ∀ b ∈ bs, K.epoch b.height ≤ K.epoch c.finalized.height
  last : pending c = [] → ∀ b, bs.getLast? = some b →
    K.epoch b.height = K.epoch c.finalized.height

theorem kept_new (fin : Finalized H D) : Kept K [] (Chain.new fin) where
  history := rfl
  sorted := List.Pairwise.nil
  below := fun _ hb => absurd hb List.not_mem_nil
  last := fun _ _ hb => absurd hb (by simp)

variable {bs : List (Produced H D)}

theorem Kept.of_rises (h : Kept K bs c) (hhistory : c'.finalizedHistory = c.finalizedHistory)
    (hr : Rises c c') : Kept K bs c' where
  history := hhistory.trans h.history
  sorted := h.sorted
  below := fun b hb => (h.below b hb).trans (K.epoch_mono hr.height)
  last := fun hnone b hb => by
    obtain ⟨hnone, hfinal⟩ := hr.waits hnone
    rw [h.last hnone b hb, hfinal]

/-- **The event of a final block is taken while the chain is in the epoch of
the block.** -/
def Prompt (K : Config H D) (c : Chain H D) : Input H D → Prop
  | .include _ _ => True
  | .pollNext _ => ∀ x votes, c.events.getLast? = some (.blockFinalized x votes) →
      K.epoch c.finalized.height = K.epoch x.underlying.height

instance : ∀ i, Decidable (Prompt K c i)
  | .include _ _ => inferInstanceAs (Decidable True)
  | .pollNext _ =>
    match h : c.events.getLast? with
    | some (.blockFinalized x votes) =>
      decidable_of_iff (K.epoch c.finalized.height = K.epoch x.underlying.height)
        ⟨fun heq y votes hy => by rw [h] at hy; cases hy; exact heq, fun hp => hp x votes h⟩
    | none | some (.vote _ _) | some (.blockDiscarded _) | some (.blockMissing _)
    | some (.blockIncluded _) | some (.blockConfirmed _ _) =>
      isTrue fun _ _ hy => by rw [h] at hy; cases hy

/-- A final block is recorded while the chain is in its epoch. -/
theorem Kept.record (h : Kept K bs c) (hepoch : K.epoch c.finalized.height = K.epoch b.height) :
    Kept K (bs ++ [b]) (c.pop.postBlockFinalized K b) where
  history := by
    rw [finalizedHistory_postBlockFinalized]
    change remember _ c.finalizedHistory (K.epoch c.finalized.height) _ = _
    rw [h.history, hepoch, remembered, remembered, List.map_append, List.foldl_append]
    rfl
  sorted := by
    rw [List.map_append, List.map_append, List.pairwise_append]
    refine ⟨h.sorted, List.pairwise_singleton _ _, fun e he e' he' => ?_⟩
    obtain ⟨p, hp, rfl⟩ := List.mem_map.1 he
    obtain ⟨x, hx, rfl⟩ := List.mem_map.1 hp
    obtain rfl : e' = K.epoch b.height := by simpa [entry] using he'
    exact hepoch ▸ h.below x hx
  below := fun x hx => by
    rw [List.mem_append, List.mem_singleton] at hx
    rcases hx with hx | rfl
    · exact h.below x hx
    · exact hepoch.ge
  last := fun _ x hx => by
    rw [List.getLast?_concat] at hx
    exact Option.some.inj hx ▸ hepoch.symm

omit [DecidableEq H] in
/-- An event that is taken waits no longer. -/
theorem pending_pop {ev : ChainEvent H D} (hev : c.events.getLast? = some ev) :
    pending c = pending c.pop ++ (finality ev).toList := by
  have hsplit : c.events.dropLast ++ [ev] = c.events := List.dropLast_append_getLast? ev hev
  rw [pending, ← hsplit, List.filterMap_append]
  refine congrArg (_ ++ ·) ?_
  cases ev <;> rfl

theorem Kept.pop (h : Kept K bs c) {ev : ChainEvent H D} (hev : c.events.getLast? = some ev)
    (hread : finality ev = none) : Kept K bs c.pop :=
  h.of_rises rfl ⟨le_rfl, fun hnone => ⟨by rw [pending_pop hev, hnone, hread]; rfl, rfl⟩⟩

/-- **One call.** -/
theorem Kept.step (h : Kept K bs c) (hwithin : Within B c) (hc : Standing K B c) {i : Input H D}
    (hi : ∀ now b, i = .include now b → b ∈ B) (hprompt : Prompt K c i) :
    Kept K (bs ++ (c.returned K i).filterMap finality) (c.step K i) := by
  cases i with
  | «include» now b =>
    have hacts : Acts K B (fun _ _ => True) c [] (c.include K now b) :=
      step_acts (i := .include now b) hwithin hi fun _ _ => trivial
    have hout := h.of_rises (finalizedHistory_includeFrom now _) (rises_of_acts hacts hc)
    rwa [returned, List.filterMap_nil, List.append_nil]
  | pollNext now =>
    cases hev : c.events.getLast? with
    | none =>
      have hstep : c.pollNext K now = (none, c) := by
        unfold pollNext
        rw [hev]
      simpa [returned, Chain.step, hstep] using h
    | some ev =>
      have hpop : Within B c.pop :=
        ⟨hwithin.orphans, hwithin.votes, fun x hx => hwithin.events x (List.dropLast_subset _ hx)⟩
      have hc' : Standing K B c.pop :=
        hc.of_act (Act.pop (Q := fun _ _ => True) hev)
      have hreturned : c.returned K (.pollNext now) = [ev] := by
        rw [returned, pollNext, hev]
        rfl
      have hnone : ∀ {d : Chain H D}, finality ev = none → Kept K bs d →
          Kept K (bs ++ [ev].filterMap finality) d := by
        intro d hread hd
        rwa [List.filterMap_cons, hread, List.filterMap_nil, List.append_nil]
      rw [hreturned]
      change Kept K _ (c.pollNext K now).2
      rw [pollNext, hev]
      cases ev with
      | blockIncluded x =>
        have hx := hwithin.events _ (List.mem_of_getLast? hev)
        have hacts : Acts K B (fun _ _ => True) c.pop []
            (c.pop.postBlockIncluded K now x.underlying) :=
          postBlockIncluded_acts hpop hx fun _ _ => trivial
        exact hnone rfl ((h.pop hev rfl).of_rises (finalizedHistory_postBlockIncluded now)
          (rises_of_acts hacts hc'))
      | blockFinalized x votes => exact h.record (hprompt x votes hev)
      | vote | blockDiscarded | blockMissing | blockConfirmed => exact hnone rfl (h.pop hev rfl)

/-- **Every run whose events are taken in time keeps its history.** -/
theorem kept_run (fin : Finalized H D) {inputs : List (Input H D)}
    (hB : ∀ b ∈ inputBlocks inputs, b ∈ B)
    (hprompt : ∀ pre i, pre ++ [i] <+: inputs → Prompt K ((Chain.new fin).run K pre) i) :
    Kept K (((Chain.new fin).delivered K inputs).filterMap finality)
      ((Chain.new fin).run K inputs) := by
  induction inputs using List.reverseRecOn with
  | nil => exact kept_new fin
  | append_singleton inputs i ih =>
    have hB' : ∀ b ∈ inputBlocks inputs, b ∈ B := fun b ⟨now, hb⟩ =>
      hB b ⟨now, List.mem_append_left _ hb⟩
    obtain ⟨hwithin, hc⟩ := standing_run (K := K) fin hB'
    have hkept := ih hB' fun pre j hpre => hprompt pre j (hpre.trans (List.prefix_append _ _))
    have hstep := hkept.step hwithin hc (i := i)
      (fun now b hib => hB b ⟨now, hib ▸ List.mem_append_right _ (List.mem_singleton_self _)⟩)
      (hprompt inputs i (List.prefix_refl _))
    have hrun : (Chain.new fin).run K (inputs ++ [i]) = ((Chain.new fin).run K inputs).step K i :=
      List.foldl_concat ..
    rwa [hrun, delivered_append_singleton, List.filterMap_append]

/-! ## The window -/

/-- The epoch is not older than the final block by more than the limit. -/
def InWindow (K : Config H D) (c : Chain H D) (e : ℕ) : Prop :=
  e ≤ K.epoch c.finalized.height ∧
    K.epoch c.finalized.height ≤ e + K.genesis.limits.maxJustificationAge

instance (e : ℕ) : Decidable (InWindow K c e) := inferInstanceAs (Decidable (_ ∧ _))

/-- **The history is the window of the final blocks `F`**: it has no epoch
twice and none outside of the window, it has under an epoch of the window
the blocks of that epoch, and a block of `F` is accepted as a justification
where its epoch is in the window. -/
structure Windowed (K : Config H D) (F : List (Produced H D)) (c : Chain H D) : Prop where
  keys : (c.finalizedHistory.map Prod.fst).Nodup
  window : ∀ e ∈ c.finalizedHistory.map Prod.fst, InWindow K c e
  records : ∀ e h, Records c.finalizedHistory e h ↔
    InWindow K c e ∧ ∃ b ∈ F, K.epoch b.height = e ∧ K.hash b = h
  accepts : ∀ b ∈ F, c.inFinalizedHistory K (K.hash b) = true ↔ InWindow K c (K.epoch b.height)

/-- The last of the final blocks is in the epoch of what is final. -/
theorem Kept.exists_last (h : Kept K bs c) (hnone : pending c = []) (hbs : bs ≠ []) :
    ∃ b ∈ bs, bs.getLast? = some b ∧ K.epoch b.height = K.epoch c.finalized.height :=
  ⟨bs.getLast hbs, List.getLast_mem hbs, List.getLast?_eq_some_getLast hbs,
    h.last hnone _ (List.getLast?_eq_some_getLast hbs)⟩

/-- What the history records, when no event of a final block waits. -/
theorem Kept.records (h : Kept K bs c) (hnone : pending c = []) {t : H} :
    Records c.finalizedHistory e t ↔
      InWindow K c e ∧ ∃ b ∈ bs, K.epoch b.height = e ∧ K.hash b = t := by
  rw [h.history, records_remembered h.sorted]
  simp only [List.mem_map, entry, Prod.mk.injEq, forall_exists_index, and_imp,
    forall_apply_eq_imp_iff₂]
  constructor
  · rintro ⟨⟨b, hb, rfl, rfl⟩, hall⟩
    obtain ⟨x, hx, -, hepoch⟩ := h.exists_last hnone (List.ne_nil_of_mem hb)
    have hage := hall x hx
    exact ⟨⟨h.below b hb, by omega⟩, b, hb, rfl, rfl⟩
  · rintro ⟨⟨-, hage⟩, b, hb, rfl, rfl⟩
    refine ⟨⟨b, hb, rfl, rfl⟩, fun x hx => ?_⟩
    have hbelow := h.below x hx
    omega

theorem Kept.window (h : Kept K bs c) (hnone : pending c = [])
    (he : e ∈ c.finalizedHistory.map Prod.fst) : InWindow K c e := by
  rw [h.history] at he
  obtain ⟨p, hp, hlast, hage⟩ := window_remembered he
  have he := keys_remembered he
  simp only [List.map_map, List.mem_map] at he hp
  obtain ⟨b, hb, rfl⟩ := he
  obtain ⟨x, hx, hepoch⟩ : ∃ x, bs.getLast? = some x ∧ entry K x = p := by
    rw [List.getLast?_map, Option.map_eq_some_iff] at hlast
    exact hlast
  have hlast := h.last hnone x hx
  have hp : p.1 = K.epoch x.height := hepoch ▸ rfl
  have hb' : ∀ {k}, p.1 - k ≤ K.epoch b.height → K.epoch c.finalized.height ≤
      K.epoch b.height + k := fun _ => by omega
  exact ⟨h.below b hb, hb' hage⟩

theorem mem_inFinalizedHistory {t : H} : c.inFinalizedHistory K t = true ↔
    c.finalized.hash K = t ∨ (∃ e, Records c.finalizedHistory e t) ∨
      c.finalizedHistory.length < K.genesis.limits.maxJustificationAge ∧ t = K.genesis.hash := by
  simp only [inFinalizedHistory, Bool.or_eq_true, decide_eq_true_eq, List.any_eq_true,
    Bool.and_eq_true, List.contains_iff_mem, Records, Prod.exists, or_assoc]

/-- **The window of justifications.** In every run in which the events of
final blocks are taken while the chain is in their epochs, the history is,
whenever no event waits, the window of the blocks that were finalized. -/
theorem windowed_run (K : Config H D) (fin : Finalized H D) (inputs : List (Input H D))
    (hfree : CollisionFree K fin (inputBlocks inputs))
    (hprompt : ∀ pre i, pre ++ [i] <+: inputs → Prompt K ((Chain.new fin).run K pre) i) :
    ∀ pre, pre <+: inputs → ((Chain.new fin).run K pre).events = [] →
      Windowed K (issued finality ((Chain.new fin).delivered K pre) ((Chain.new fin).run K pre))
        ((Chain.new fin).run K pre) := by
  intro pre hpre hevents
  have hB : ∀ b ∈ inputBlocks pre, b ∈ inputBlocks inputs := fun b ⟨now, hb⟩ =>
    ⟨now, hpre.subset hb⟩
  have hkept := kept_run (K := K) fin hB fun pre' i h => hprompt pre' i (h.trans hpre)
  have hnone : pending ((Chain.new fin).run K pre) = [] := by rw [pending, hevents]; rfl
  have hfinal : issued finality ((Chain.new fin).delivered K pre) ((Chain.new fin).run K pre) =
      ((Chain.new fin).delivered K pre).filterMap finality := by
    rw [issued, hevents, List.append_nil]
  rw [hfinal]
  refine ⟨?_, fun e he => hkept.window hnone he, fun e t => hkept.records hnone, fun b hb => ?_⟩
  · rw [hkept.history]
    exact nodup_remembered _
  rw [mem_inFinalizedHistory]
  have hsource : ∀ x ∈ ((Chain.new fin).delivered K pre).filterMap finality,
      x ∈ inputBlocks inputs := fun x hx =>
    hB x (certified_run K fin pre x (hfinal ▸ hx)).1
  constructor
  · rintro (hfinal | ⟨e, hrecords⟩ | ⟨-, hgenesis⟩)
    · -- the block has the height of what is final
      have hheight := (heightOf_final K fin pre).mono hB
      rw [hfinal] at hheight
      have hheight' := hheight.unique hfree.binding (Or.inl ⟨b, hsource b hb, rfl, rfl⟩)
      rw [InWindow, hheight']
      exact ⟨le_rfl, Nat.le_add_right _ _⟩
    · obtain ⟨hwindow, x, hx, rfl, hhash⟩ := (hkept.records hnone).1 hrecords
      rwa [← hfree.binding.height x (hsource x hx) b (hsource b hb) hhash]
    · exact absurd hgenesis (hfree.genesis b (Or.inl (hsource b hb)))
  · exact fun hwindow => Or.inr (Or.inl ⟨_, (hkept.records hnone).2 ⟨hwindow, b, hb, rfl, rfl⟩⟩)

namespace Sample

/-- Three blocks, and all their events. -/
def polled : List (Input ℕ Unit) := threeBlocks ++ List.replicate 7 (.pollNext 0)

/-- A third block without a vote. -/
def unvoted : Produced ℕ Unit := produce (single .inPlace) 7 ((single .inPlace).hash second) 3 () []

def fourth : Produced ℕ Unit := produce (single .inPlace) 7 ((single .inPlace).hash unvoted) 4 () []

def fifth : Produced ℕ Unit :=
  produce (single .inPlace) 7 ((single .inPlace).hash fourth) 5 ()
    [vote 7 ((single .inPlace).hash fourth)]

/-- Five blocks, the last with a vote for the fourth, and all their
events. -/
def votedLate : List (Input ℕ Unit) :=
  [.include 0 first, .include 0 second, .include 0 unvoted, .include 0 fourth,
    .include 0 fifth] ++ List.replicate 30 (.pollNext 0)

end Sample

open Sample in
/-- One of three blocks is final, and recorded under its epoch. -/
theorem windowed_polled :
    let c := (Chain.new genesis).run (single .inPlace) polled
    let bs := issued finality ((Chain.new genesis).delivered (single .inPlace) polled) c
    bs.length = 1 ∧ Windowed (single .inPlace) bs c := by
  refine ⟨by decide +kernel, windowed_run (single .inPlace) genesis polled ?_ ?_ polled
    (List.prefix_refl _) (List.eq_nil_of_length_eq_zero (by decide +kernel))⟩
  · exact .of_genesis rfl selfDelimiting_uvarint (by decide +kernel) (by decide +kernel)
  · have hall : ∀ k < 15, Prompt (single .inPlace)
        ((Chain.new genesis).run (single .inPlace) (polled.take k)) (.pollNext 0) := by
      decide +kernel
    intro pre i hpre
    cases i with
    | «include» => trivial
    | pollNext now =>
      have hlen : pre.length < 15 := by
        have hle := hpre.length_le
        rwa [List.length_append] at hle
      have htake := List.prefix_iff_eq_take.1 ((List.prefix_append pre _).trans hpre)
      rw [htake]
      exact hall pre.length hlen

open Sample in
/-- With three blocks made final at once, the first is recorded under the
epoch of the third. -/
theorem not_windowed_votedLate :
    let c := (Chain.new genesis).run (single .inPlace) votedLate
    let bs := issued finality ((Chain.new genesis).delivered (single .inPlace) votedLate) c
    CollisionFree (single .inPlace) genesis (inputBlocks votedLate) ∧ c.events = [] ∧
      ¬ Windowed (single .inPlace) bs c := by
  dsimp only
  refine ⟨.of_genesis rfl selfDelimiting_uvarint (by decide +kernel) (by decide +kernel),
    List.eq_nil_of_length_eq_zero (by decide +kernel), fun hw => ?_⟩
  have hwindow : InWindow (single .inPlace)
      ((Chain.new genesis).run (single .inPlace) votedLate) 1 := by
    decide +kernel
  have hmem : ∃ b ∈ issued finality ((Chain.new genesis).delivered (single .inPlace) votedLate)
      ((Chain.new genesis).run (single .inPlace) votedLate), (single .inPlace).epoch b.height = 1 ∧
        (single .inPlace).hash b = (single .inPlace).hash first := by
    decide +kernel
  obtain ⟨hashes, hin, -⟩ := (hw.records 1 ((single .inPlace).hash first)).2 ⟨hwindow, hmem⟩
  have hkeys : 1 ∉ ((Chain.new genesis).run (single .inPlace) votedLate).finalizedHistory.map
      Prod.fst := by
    decide +kernel
  exact hkeys (List.mem_map.2 ⟨_, hin, rfl⟩)

end Chain

end Consensus

end Rensa
