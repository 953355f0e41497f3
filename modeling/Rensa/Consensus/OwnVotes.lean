import Rensa.Consensus.Ancestry
import Rensa.Consensus.Deeds
/-!
# The votes of one validator

`commit_and_vote` compares a vote with the one it has on record for the
epoch of the target, and with no other. A record is dropped as soon as any
block of its epoch is finalized, while blocks of that epoch may still be
voted for. `Recorded` is what the records tell of the votes that were cast
as long as no vote is cast for the epoch of the finalized block without a
record (`OnRecord`); under that condition no two votes of an epoch
conflict. Where moreover no vote goes back behind the epoch of a record
(`Forward`), targets rise from vote to vote and no vote surrounds another.
-/

namespace Rensa

namespace Consensus

open Rose (nodes nodesL)
open TreeNode (block hash)
open ChainEvent (ballot)

namespace Chain

variable {H D : Type} {K : Config H D} {B : Set (Produced H D)} {fin : Finalized H D}
  {c c' : Chain H D} {es e : List (ChainEvent H D)}

/-- **The vote is cast with a record for its epoch**, or no block of its
epoch is final, or none was finalized since the chain was made. -/
def OnRecord (K : Config H D) (fin : Finalized H D) (c : Chain H D) : Deed H D → Prop
  | .vote n => (c.ownvotes (K.epoch (block n).height)).isSome = true ∨
      K.epoch c.finalized.height ≠ K.epoch (block n).height ∨ c.finalized.height = fin.height
  | _ => True

/-- **The vote is cast on record, and there is no record for a later
epoch.** -/
def Forward (K : Config H D) (fin : Finalized H D) (c : Chain H D) (d : Deed H D) : Prop :=
  OnRecord K fin c d ∧ ∀ n, d = .vote n → ∀ e, K.epoch (block n).height < e → c.ownvotes e = none

instance [DecidableEq H] (K : Config H D) (fin : Finalized H D) (c : Chain H D) :
    (d : Deed H D) → Decidable (OnRecord K fin c d)
  | .vote n => inferInstanceAs (Decidable ((c.ownvotes (K.epoch (block n).height)).isSome = true ∨
      K.epoch c.finalized.height ≠ K.epoch (block n).height ∨ c.finalized.height = fin.height))
  | .count _ _ _ => .isTrue trivial
  | .finalize _ => .isTrue trivial

theorem epoch_mono (K : Config H D) {k l : ℕ} (h : k ≤ l) : K.epoch k ≤ K.epoch l :=
  Nat.div_le_div_right h

/-! ## Acts that vote or finalize -/

section Acts

variable [DecidableEq H] {Q : Chain H D → Deed H D → Prop}

omit [DecidableEq H] in
theorem ownvotes_cast_self {n : TreeNode H D} : (c.cast K n).ownvotes (K.epoch (block n).height) =
    some (c.finalized.hash K, hash K n) :=
  Function.update_self ..

omit [DecidableEq H] in
theorem ownvotes_cast_of_ne {n : TreeNode H D} {k : ℕ} (h : k ≠ K.epoch (block n).height) :
    (c.cast K n).ownvotes k = c.ownvotes k :=
  Function.update_of_ne h ..

theorem ownvotes_finalizeNext_self {rest : List (TreeNode H D)} {root : TreeNode H D} :
    (c.finalizeNext K rest root).ownvotes (K.epoch (block root).height) = none :=
  Function.update_self ..

theorem ownvotes_finalizeNext_of_ne {rest : List (TreeNode H D)} {root : TreeNode H D} {k : ℕ}
    (h : k ≠ K.epoch (block root).height) :
    (c.finalizeNext K rest root).ownvotes k = c.ownvotes k :=
  Function.update_of_ne h ..

end Acts

/-! ## Records -/

/-- **What the records tell of the votes that were cast.** -/
structure Recorded (K : Config H D) (fin : Finalized H D) (B : Set (Produced H D))
    (es : List (ChainEvent H D)) (c : Chain H D) : Prop where
  rises : fin.height ≤ c.finalized.height
  settled : HeightOf K fin B (c.finalized.hash K) c.finalized.height
  /-- The votes of an epoch are for the target on record or ancestors of it. -/
  record : ∀ v ∈ issued ballot es c, ∀ b ∈ B, K.hash b = v.2 → ∀ j t,
    c.ownvotes (K.epoch b.height) = some (j, t) → Anc K B v.2 t ∧
      ∀ a ∈ B, K.hash a = t → b.height ≤ a.height
  /-- Without a record, a block of the epoch or of a later one was finalized. -/
  forgotten : ∀ v ∈ issued ballot es c, ∀ b ∈ B, K.hash b = v.2 →
    c.ownvotes (K.epoch b.height) = none →
      fin.height < c.finalized.height ∧ K.epoch b.height ≤ K.epoch c.finalized.height

theorem recorded_new (fin : Finalized H D) : Recorded K fin B [] (Chain.new fin) where
  rises := le_rfl
  settled := Or.inr ⟨rfl, rfl⟩
  record := fun _ hv => by cases hv
  forgotten := fun _ hv => by cases hv

section Recorded

variable [DecidableEq H]

/-- **The votes of the epoch before a vote that is cast on record** are for
ancestors of its target. -/
theorem Recorded.before_cast (hc : Standing K B c) (h : Recorded K fin B es c)
    {n : TreeNode H D} (hn : n ∈ nodesL c.forktrees) (hQ : OnRecord K fin c (.vote n))
    (hmay : c.mayVote K n = true) {v : H × H} (hv : v ∈ issued ballot es c) {b : Produced H D}
    (hb : b ∈ B) (hhash : K.hash b = v.2) (hepoch : K.epoch b.height = K.epoch (block n).height) :
    Anc K B v.2 (hash K n) ∧ b.height < (block n).height := by
  have habove := hc.height_lt hn
  have hmono := epoch_mono K habove.le
  cases hrecord : c.ownvotes (K.epoch (block n).height) with
  | none =>
    -- a block of that epoch was finalized, so there would have to be a record
    obtain ⟨hmoved, hle⟩ := h.forgotten v hv b hb hhash (by rw [hepoch]; exact hrecord)
    rcases hQ with hQ | hQ | hQ
    · rw [hrecord] at hQ
      cases hQ
    · omega
    · omega
  | some r =>
    obtain ⟨j, t⟩ := r
    obtain ⟨hanc, hheight⟩ := h.record v hv b hb hhash j t (by rw [hepoch]; exact hrecord)
    unfold mayVote at hmay
    rw [hrecord] at hmay
    simp only [Bool.and_eq_true] at hmay
    refine ⟨hanc.trans (hc.anc_of_isDescendantOf hn hmay.2), ?_⟩
    obtain ⟨m, hm, hmhash, hlt⟩ := hc.height_of_isDescendantOf hn hmay.2
    have := hheight (block m) (hc.forest m hm) hmhash
    omega

/-- A vote that is cast is on record. -/
theorem Recorded.of_cast (hbind : Binding K fin B) (hc : Standing K B c)
    (h : Recorded K fin B es c) {n : TreeNode H D} (hn : n ∈ nodesL c.forktrees)
    (hQ : OnRecord K fin c (.vote n)) (hmay : c.mayVote K n = true)
    (hissued : (issued ballot (es ++ e) (c.cast K n)).Perm
      ((c.finalized.hash K, hash K n) :: issued ballot es c)) :
    Recorded K fin B (es ++ e) (c.cast K n) := by
  have hnB := hc.forest n hn
  refine ⟨h.rises, h.settled, fun v hv b hb hhash j t hrecord => ?_,
    fun v hv b hb hhash hrecord => ?_⟩
  · by_cases hkn : K.epoch b.height = K.epoch (block n).height
    · rw [hkn, ownvotes_cast_self] at hrecord
      obtain ⟨-, rfl⟩ := Prod.mk.inj (Option.some.inj hrecord)
      have htop : ∀ a ∈ B, K.hash a = hash K n → a.height = (block n).height :=
        fun a ha hahash => hbind.height a ha (block n) hnB hahash
      rcases List.mem_cons.1 (hissued.mem_iff.1 hv) with rfl | hv
      · refine ⟨.refl, fun a ha hahash => ?_⟩
        rw [htop a ha hahash, htop b hb hhash]
      · obtain ⟨hanc, hlt⟩ := h.before_cast hc hn hQ hmay hv hb hhash hkn
        refine ⟨hanc, fun a ha hahash => ?_⟩
        rw [htop a ha hahash]
        exact hlt.le
    · rw [ownvotes_cast_of_ne hkn] at hrecord
      rcases List.mem_cons.1 (hissued.mem_iff.1 hv) with rfl | hv
      · exact absurd (congrArg K.epoch (hbind.height b hb (block n) hnB hhash)) hkn
      · exact h.record v hv b hb hhash j t hrecord
  · have hkn : K.epoch b.height ≠ K.epoch (block n).height := by
      intro hkn
      rw [hkn, ownvotes_cast_self] at hrecord
      cases hrecord
    rw [ownvotes_cast_of_ne hkn] at hrecord
    rcases List.mem_cons.1 (hissued.mem_iff.1 hv) with rfl | hv
    · exact absurd (congrArg K.epoch (hbind.height b hb (block n) hnB hhash)) hkn
    · exact h.forgotten v hv b hb hhash hrecord

/-- A root that is finalized takes the record of its epoch with it. -/
theorem Recorded.of_finalized (hc : Standing K B c) (h : Recorded K fin B es c)
    {rest : List (TreeNode H D)} {root : TreeNode H D} (hroot : root ∈ c.forktrees)
    (hissued : (issued ballot (es ++ e) (c.finalizeNext K rest root)).Perm (issued ballot es c)) :
    Recorded K fin B (es ++ e) (c.finalizeNext K rest root) := by
  have hheight : (c.finalizeNext K rest root).finalized.height = c.finalized.height + 1 :=
    (hc.formed.roots root hroot).2
  have hrises := h.rises
  have hown : ∀ k r, (c.finalizeNext K rest root).ownvotes k = some r →
      c.ownvotes k = some r := by
    intro k r hk
    by_cases hkr : k = K.epoch (block root).height
    · rw [hkr, ownvotes_finalizeNext_self] at hk
      cases hk
    · rwa [ownvotes_finalizeNext_of_ne hkr] at hk
  refine ⟨by omega, Or.inl ⟨block root, hc.forest root (Rose.mem_nodesL_of_mem hroot), rfl, rfl⟩,
    fun v hv b hb hhash j t hrecord =>
      h.record v (hissued.mem_iff.1 hv) b hb hhash j t (hown _ _ hrecord),
    fun v hv b hb hhash hrecord => ⟨by omega, ?_⟩⟩
  have hmono := epoch_mono K (Nat.le_succ c.finalized.height)
  rw [hheight]
  by_cases hkr : K.epoch b.height = K.epoch (block root).height
  · rw [hkr, (hc.formed.roots root hroot).2]
  · rw [ownvotes_finalizeNext_of_ne hkr] at hrecord
    have hold := (h.forgotten v (hissued.mem_iff.1 hv) b hb hhash hrecord).2
    exact hold.trans hmono

omit [DecidableEq H] in
theorem Recorded.of_same (h : Recorded K fin B es c) (hown : c'.ownvotes = c.ownvotes)
    (hfin : c'.finalized = c.finalized)
    (hissued : (issued ballot (es ++ e) c').Perm (issued ballot es c)) :
    Recorded K fin B (es ++ e) c' := by
  refine ⟨by rw [hfin]; exact h.rises, by rw [hfin]; exact h.settled,
    fun v hv => ?_, fun v hv => ?_⟩
  · rw [hown]
    exact h.record v (hissued.mem_iff.1 hv)
  · rw [hown, hfin]
    exact h.forgotten v (hissued.mem_iff.1 hv)

/-- **Every act keeps the records**, as long as votes are cast on record. -/
theorem recorded_of_act {Q : Chain H D → Deed H D → Prop}
    (hbind : Binding K fin B) (hQ : ∀ c d, Q c d → OnRecord K fin c d)
    (hact : Act K B Q c e c') (hc : Standing K B c) (h : Recorded K fin B es c) :
    Recorded K fin B (es ++ e) c' := by
  rcases hact.ballot_cases hc es with ⟨n, hn, hq, hmay, rfl, hissued⟩ |
    ⟨rest, root, hroot, rfl, hissued⟩ | ⟨hown, hfin, hissued⟩
  · exact h.of_cast hbind hc hn (hQ _ _ hq) hmay hissued
  · exact h.of_finalized hc hroot hissued
  · exact h.of_same hown hfin hissued

end Recorded

/-! ## Conflicting votes -/

/-- **No two votes of an epoch conflict**: one target is the other one or an
ancestor of it. A vote is a justification and a target. -/
def NoConflict (K : Config H D) (B : Set (Produced H D)) (votes : List (H × H)) : Prop :=
  ∀ v ∈ votes, ∀ w ∈ votes, ∀ a ∈ B, ∀ b ∈ B, K.hash a = v.2 → K.hash b = w.2 →
    K.epoch a.height = K.epoch b.height → Anc K B v.2 w.2 ∨ Anc K B w.2 v.2

/-- **No vote surrounds another.** -/
def NoSurround (K : Config H D) (fin : Finalized H D) (B : Set (Produced H D))
    (votes : List (H × H)) : Prop :=
  ∀ v ∈ votes, ∀ w ∈ votes, ∀ i j k l, HeightOf K fin B v.1 i → HeightOf K fin B w.1 j →
    HeightOf K fin B v.2 k → HeightOf K fin B w.2 l → ¬ (i < j ∧ l < k)

section Run

variable [DecidableEq H] {Q : Chain H D → Deed H D → Prop}

theorem noConflict_of_act (hbind : Binding K fin B) (hact : Act K B (OnRecord K fin) c e c')
    (hc : Standing K B c) (hrec : Recorded K fin B es c)
    (h : NoConflict K B (issued ballot es c)) : NoConflict K B (issued ballot (es ++ e) c') := by
  rcases hact.ballot_cases hc es with ⟨n, hn, hQ, hmay, rfl, hissued⟩ |
    ⟨rest, root, -, rfl, hissued⟩ | ⟨-, -, hissued⟩
  · have hnB := hc.forest n hn
    intro v hv w hw a ha b hb hva hwb hepoch
    rcases List.mem_cons.1 (hissued.mem_iff.1 hv) with rfl | hv
    · rcases List.mem_cons.1 (hissued.mem_iff.1 hw) with rfl | hw
      · exact Or.inl .refl
      · have hheight := hbind.height a ha (block n) hnB hva
        rw [hheight] at hepoch
        exact Or.inr (hrec.before_cast hc hn hQ hmay hw hb hwb hepoch.symm).1
    · rcases List.mem_cons.1 (hissued.mem_iff.1 hw) with rfl | hw
      · have hheight := hbind.height b hb (block n) hnB hwb
        rw [hheight] at hepoch
        exact Or.inl (hrec.before_cast hc hn hQ hmay hv ha hva hepoch).1
      · exact h v hv w hw a ha b hb hva hwb hepoch
  · exact fun v hv w hw => h v (hissued.mem_iff.1 hv) w (hissued.mem_iff.1 hw)
  · exact fun v hv w hw => h v (hissued.mem_iff.1 hv) w (hissued.mem_iff.1 hw)

/-- **No two votes of an epoch conflict in a run that votes on record.** -/
theorem noConflict_run (K : Config H D) (fin : Finalized H D) (inputs : List (Input H D))
    (hfree : CollisionFree K fin (inputBlocks inputs))
    (hQ : (Chain.new fin).Throughout K (OnRecord K fin) inputs) :
    NoConflict K (inputBlocks inputs)
      (issued ballot ((Chain.new fin).delivered K inputs) ((Chain.new fin).run K inputs)) := by
  have hrun := run_standing (P := fun es c => Recorded K fin (inputBlocks inputs) es c ∧
    NoConflict K (inputBlocks inputs) (issued ballot es c)) hQ
    ⟨recorded_new fin, fun v hv => absurd hv List.not_mem_nil⟩
    fun es c e c' hact hc h => ⟨recorded_of_act hfree.binding (fun _ _ hq => hq) hact hc h.1,
      noConflict_of_act hfree.binding hact hc h.1 h.2⟩
  exact hrun.2

/-- Three blocks are voted for on record. -/
theorem noConflict_threeBlocks :
    NoConflict (Sample.single .inPlace) (inputBlocks Sample.threeBlocks) (issued ballot
      ((Chain.new Sample.genesis).delivered (Sample.single .inPlace) Sample.threeBlocks)
      ((Chain.new Sample.genesis).run (Sample.single .inPlace) Sample.threeBlocks)) := by
  have hfree : CollisionFree (Sample.single .inPlace) Sample.genesis
      (inputBlocks Sample.threeBlocks) :=
    .of_genesis rfl selfDelimiting_uvarint (by decide +kernel)
      (by decide +kernel)
  exact noConflict_run (Sample.single .inPlace) Sample.genesis Sample.threeBlocks hfree
    (by decide +kernel)

namespace Sample

/-- Blocks without a payload, in epochs of that many blocks. -/
def epochs (alloc : Alloc) (validators : List (Pubkey × ℕ)) (blocks : ℕ) : Config ℕ Unit :=
  let K := config alloc validators fun _ _ => .ok {}
  { K with genesis := { K.genesis with epochBlocks := blocks } }

/-- A block of key 7 on top of another. -/
def onto (parent : Produced ℕ Unit) (votes : List (Vote ℕ)) : Produced ℕ Unit :=
  produce (single .inPlace) 7 ((single .inPlace).hash parent) (parent.height + 1) () votes

/-- The hash of a block in all the samples. -/
def name (b : Produced ℕ Unit) : ℕ := (single .inPlace).hash b

namespace Switch

def x2 : Produced ℕ Unit := onto first []

def x3 : Produced ℕ Unit := onto x2 []

/-- A block beside `x3`. -/
def y3 : Produced ℕ Unit := onto x2 [vote 7 1]

def x4 : Produced ℕ Unit := onto x3 []

def x5 : Produced ℕ Unit := onto x4 []

/-- Brings votes with which `first` and `x2` are final. -/
def x6 : Produced ℕ Unit := onto x5 [vote 7 (name x4), vote 8 (name x3), vote 9 (name x2)]

/-- Brings a vote for `y3`, with which it is the head. -/
def x7 : Produced ℕ Unit := onto x6 [vote 7 (name y3)]

/-- `y3` arrives again after the head has switched to it. -/
def calls : List (Input ℕ Unit) :=
  [first, x2, x3, y3, x4, x5, x6].map (Input.include 0) ++ List.replicate 12 (Input.pollNext 0) ++
    [Input.include 0 x7] ++ List.replicate 12 (Input.pollNext 0) ++ [Input.include 0 y3]

/-- The votes of the run. -/
def votes (K : Config ℕ Unit) : List (ℕ × ℕ) :=
  issued ballot ((Chain.new genesis).delivered K calls) ((Chain.new genesis).run K calls)

end Switch

end Sample

open Sample in
/-- With epochs of two blocks, the chain votes for `x3`, finalizes the block
under it, which is of the same epoch and has the only majority, as the votes
for `x3` are too many for 64 bits, and then votes for `y3` beside `x3`. -/
theorem not_noConflict_switch :
    ¬ NoConflict (epochs .inPlace [(7, 2 ^ 63), (8, 2 ^ 63), (9, 1000)] 2)
      (inputBlocks Switch.calls)
      (Switch.votes (epochs .inPlace [(7, 2 ^ 63), (8, 2 ^ 63), (9, 1000)] 2)) := by
  have hvotes : Switch.votes (epochs .inPlace [(7, 2 ^ 63), (8, 2 ^ 63), (9, 1000)] 2) =
      [first, Switch.x2, Switch.x3, Switch.x4, Switch.x5, Switch.x6].map (fun b => (1, name b)) ++
        [Switch.x7, Switch.y3].map fun b => (name Switch.x2, name b) := by
    decide +kernel
  rw [hvotes]
  intro h
  have hclosed : ∀ S : List ℕ, (∀ b ∈ Switch.calls.filterMap Input.block,
      name b ∈ S → b.parent ∈ S) → ∀ b ∈ inputBlocks Switch.calls,
      (epochs .inPlace [(7, 2 ^ 63), (8, 2 ^ 63), (9, 1000)] 2).hash b ∈ S → b.parent ∈ S :=
    fun S hS b hb => hS b (mem_inputBlocks.1 hb)
  have hblock : ∀ b ∈ [Switch.x3, Switch.y3], b ∈ inputBlocks Switch.calls :=
    fun b hb => mem_inputBlocks.2 (by revert b; decide +kernel)
  have hline := h (1, name Switch.x3) (by simp) (name Switch.x2, name Switch.y3) (by simp)
    Switch.x3 (hblock _ (by simp)) Switch.y3 (hblock _ (by simp)) (by decide +kernel)
    (by decide +kernel) (by decide +kernel)
  dsimp only at hline
  rcases hline with hanc | hanc
  · have hmem : name Switch.x3 ∈ [1, name first, name Switch.x2, name Switch.y3] :=
      hanc.mem_of_closed (by simp) (hclosed _ (by decide +kernel))
    revert hmem
    decide +kernel
  · have hmem : name Switch.y3 ∈ [1, name first, name Switch.x2, name Switch.x3] :=
      hanc.mem_of_closed (by simp) (hclosed _ (by decide +kernel))
    revert hmem
    decide +kernel

/-! ## Surround votes -/

/-- **Targets rise**: a vote that goes forward is for a higher block than
any before it. -/
theorem Recorded.rising (hc : Standing K B c) (h : Recorded K fin B es c) {n : TreeNode H D}
    (hn : n ∈ nodesL c.forktrees) (hQ : Forward K fin c (.vote n)) (hmay : c.mayVote K n = true)
    {v : H × H} (hv : v ∈ issued ballot es c) {k : ℕ} (hk : HeightOf K fin B v.2 k) :
    k < (block n).height := by
  have habove := hc.height_lt hn
  have hrises := h.rises
  rcases hk with ⟨b, hb, hhash, rfl⟩ | ⟨-, rfl⟩
  · rcases lt_trichotomy (K.epoch b.height) (K.epoch (block n).height) with hlt | heq | hgt
    · by_contra hle
      have := epoch_mono K (Nat.le_of_not_lt hle)
      omega
    · exact (h.before_cast hc hn hQ.1 hmay hv hb hhash heq).2
    · -- the record of a later epoch is gone only where the epoch is over
      have hnone := hQ.2 n rfl _ hgt
      have hover := (h.forgotten v hv b hb hhash hnone).2
      have hmono := epoch_mono K habove.le
      omega
  · omega

theorem noSurround_of_act (hbind : Binding K fin B) (hact : Act K B (Forward K fin) c e c')
    (hc : Standing K B c) (hrec : Recorded K fin B es c)
    (hjust : ∀ v ∈ issued ballot es c, ∀ k, HeightOf K fin B v.1 k → k ≤ c.finalized.height)
    (h : NoSurround K fin B (issued ballot es c)) :
    (∀ v ∈ issued ballot (es ++ e) c', ∀ k, HeightOf K fin B v.1 k → k ≤ c'.finalized.height) ∧
      NoSurround K fin B (issued ballot (es ++ e) c') := by
  rcases hact.ballot_cases hc es with ⟨n, hn, hQ, hmay, rfl, hissued⟩ |
    ⟨rest, root, hroot, rfl, hissued⟩ | ⟨-, hfin, hissued⟩
  · have hfinal : ∀ k, HeightOf K fin B (c.finalized.hash K) k → k = c.finalized.height :=
      fun k hk => hk.unique hbind hrec.settled
    have htarget : ∀ k, HeightOf K fin B (hash K n) k → k = (block n).height :=
      fun k hk => hk.unique hbind (Or.inl ⟨block n, hc.forest n hn, rfl, rfl⟩)
    constructor
    · intro v hv k hk
      rcases List.mem_cons.1 (hissued.mem_iff.1 hv) with rfl | hv
      · exact (hfinal k hk).le
      · exact hjust v hv k hk
    · rintro v hv w hw i j k l hi hj hk hl ⟨hij, hlk⟩
      rcases List.mem_cons.1 (hissued.mem_iff.1 hv) with rfl | hv
      · -- the justification of the new vote is the highest
        have hi' := hfinal i hi
        rcases List.mem_cons.1 (hissued.mem_iff.1 hw) with rfl | hw
        · have hj' := hfinal j hj
          omega
        · have hj' := hjust w hw j hj
          omega
      · rcases List.mem_cons.1 (hissued.mem_iff.1 hw) with rfl | hw
        · -- and so is its target
          have hl' := htarget l hl
          have hk' := hrec.rising hc hn hQ hmay hv hk
          omega
        · exact h v hv w hw i j k l hi hj hk hl ⟨hij, hlk⟩
  · have hheight : (c.finalizeNext K rest root).finalized.height = c.finalized.height + 1 :=
      (hc.formed.roots root hroot).2
    refine ⟨fun v hv k hk => ?_, fun v hv w hw => h v (hissued.mem_iff.1 hv) w
      (hissued.mem_iff.1 hw)⟩
    have hold := hjust v (hissued.mem_iff.1 hv) k hk
    omega
  · refine ⟨fun v hv k hk => ?_, fun v hv w hw => h v (hissued.mem_iff.1 hv) w
      (hissued.mem_iff.1 hw)⟩
    rw [hfin]
    exact hjust v (hissued.mem_iff.1 hv) k hk

/-- **No vote surrounds another in a run that votes forward.** -/
theorem noSurround_run (K : Config H D) (fin : Finalized H D) (inputs : List (Input H D))
    (hfree : CollisionFree K fin (inputBlocks inputs))
    (hQ : (Chain.new fin).Throughout K (Forward K fin) inputs) :
    NoSurround K fin (inputBlocks inputs)
      (issued ballot ((Chain.new fin).delivered K inputs) ((Chain.new fin).run K inputs)) := by
  have hrun := run_standing (P := fun es c => Recorded K fin (inputBlocks inputs) es c ∧
    (∀ v ∈ issued ballot es c, ∀ k, HeightOf K fin (inputBlocks inputs) v.1 k →
      k ≤ c.finalized.height) ∧
    NoSurround K fin (inputBlocks inputs) (issued ballot es c)) hQ
    ⟨recorded_new fin, fun v hv => absurd hv List.not_mem_nil,
      fun v hv => absurd hv List.not_mem_nil⟩
    fun es c e c' hact hc h => ⟨recorded_of_act hfree.binding (fun _ _ hq => hq.1) hact hc h.1,
      noSurround_of_act hfree.binding hact hc h.1 h.2.1 h.2.2⟩
  exact hrun.2.2

/-- **Votes are on record for epochs of blocks of the run only**, in every
state a deed is done in. -/
theorem exists_block_of_ownvotes {inputs : List (Input H D)} {p : Chain H D × Deed H D}
    (hp : p ∈ logged (step K) (fun c i => c.deeds K i) (Chain.new fin) inputs) {k : ℕ} {r : H × H}
    (hk : p.1.ownvotes k = some r) : ∃ b ∈ inputBlocks inputs, K.epoch b.height = k := by
  have hact : ∀ (es : List (ChainEvent H D)) c e c',
      Act K (inputBlocks inputs) (fun _ _ => True) c e c' →
      (Standing K (inputBlocks inputs) c ∧
        ∀ k r, c.ownvotes k = some r → ∃ b ∈ inputBlocks inputs, K.epoch b.height = k) →
      Standing K (inputBlocks inputs) c' ∧
        ∀ k r, c'.ownvotes k = some r → ∃ b ∈ inputBlocks inputs, K.epoch b.height = k := by
    intro es c e c' hact h
    refine ⟨h.1.of_act hact, fun k r hk => ?_⟩
    rcases hact.ballot_cases h.1 es with ⟨n, hn, -, -, rfl, -⟩ | ⟨rest, root, -, rfl, -⟩ |
      ⟨hsame, -, -⟩
    · by_cases hkn : k = K.epoch (block n).height
      · exact ⟨block n, h.1.forest n hn, hkn.symm⟩
      · rw [ownvotes_cast_of_ne hkn] at hk
        exact h.2 k r hk
    · by_cases hkr : k = K.epoch (block root).height
      · rw [hkr, ownvotes_finalizeNext_self] at hk
        cases hk
      · rw [ownvotes_finalizeNext_of_ne hkr] at hk
        exact h.2 k r hk
    · rw [hsame] at hk
      exact h.2 k r hk
  obtain ⟨pre, i, post, hsplit, hp⟩ := exists_of_mem_logged hp
  have hrule := deed_rule (P := fun _ c => Standing K (inputBlocks inputs) c ∧
    ∀ k r, c.ownvotes k = some r → ∃ b ∈ inputBlocks inputs, K.epoch b.height = k)
    (fun _ _ => trivial) ⟨standing_new fin, fun k r hk => by cases hk⟩ hact hsplit hp
  exact hrule.1.2 k r hk

omit [DecidableEq H] in
/-- No record is for a later epoch than the vote, among those up to `last`. -/
def noneLater (K : Config H D) (last : ℕ) (c : Chain H D) : Deed H D → Bool
  | .vote n => (List.range (last + 1)).all fun k =>
      k ≤ K.epoch (block n).height || (c.ownvotes k).isNone
  | _ => true

/-- The check that a run on blocks of epochs up to `last` votes forward. -/
theorem throughout_forward {inputs : List (Input H D)} {last : ℕ}
    (hlast : ∀ b ∈ inputs.filterMap Input.block, K.epoch b.height ≤ last)
    (hQ : (Chain.new fin).Throughout K
      (fun c d => OnRecord K fin c d ∧ noneLater K last c d = true) inputs) :
    (Chain.new fin).Throughout K (Forward K fin) inputs := by
  refine fun p hp => ⟨(hQ p hp).1, fun n hn k hlt => ?_⟩
  obtain ⟨c, d⟩ := p
  obtain rfl : d = .vote n := hn
  by_contra hsome
  obtain ⟨r, hr⟩ := Option.ne_none_iff_exists'.1 hsome
  obtain ⟨b, hb, hbk⟩ := exists_block_of_ownvotes hp hr
  have hk : k ≤ last := hbk ▸ hlast b (mem_inputBlocks.1 hb)
  have hnone := List.all_eq_true.1 (hQ _ hp).2 k (List.mem_range.2 (Nat.lt_succ_of_le hk))
  rw [Bool.or_eq_true, decide_eq_true_eq, Option.isNone_iff_eq_none] at hnone
  rcases hnone with hle | hnone
  · omega
  · exact hsome hnone

namespace Sample

/-- A fourth block arrives after the first is final. -/
def fourBlocks : List (Input ℕ Unit) := threeBlocks ++ [.include 0 (onto third [])]

end Sample

open Sample in
/-- Four votes, the last of which is justified by the first block. -/
theorem noSurround_fourBlocks :
    let votes := issued ballot ((Chain.new genesis).delivered (single .inPlace) fourBlocks)
      ((Chain.new genesis).run (single .inPlace) fourBlocks)
    votes = [(1, name first), (1, name second), (name first, name (onto third [])),
        (1, name third)] ∧
      NoSurround (single .inPlace) genesis (inputBlocks fourBlocks) votes := by
  have hfree : CollisionFree (single .inPlace) genesis (inputBlocks fourBlocks) :=
    .of_genesis rfl selfDelimiting_uvarint (by decide +kernel) (by decide +kernel)
  have hlast : ∀ b ∈ fourBlocks.filterMap Input.block, (single .inPlace).epoch b.height ≤ 4 := by
    decide +kernel
  have hforward : (Chain.new genesis).Throughout (single .inPlace)
      (Forward (single .inPlace) genesis) fourBlocks :=
    throughout_forward hlast (by decide +kernel)
  exact ⟨by decide +kernel, noSurround_run (single .inPlace) genesis fourBlocks hfree hforward⟩

namespace Sample

namespace Return

open Switch (x2 x3 x4)

/-- A block beside `x3`, and before it. -/
def w3 : Produced ℕ Unit := onto x2 [vote 7 1]

/-- Brings a vote for `x3`, with which the head is above it. -/
def x5 : Produced ℕ Unit := onto x4 [vote 7 (name x3)]

def x6 : Produced ℕ Unit := onto x5 []

/-- A block beside `x4`. -/
def y4 : Produced ℕ Unit := onto x3 [vote 7 1]

/-- Brings a vote for `y4`, with which all up to `x3` is final. -/
def y5 : Produced ℕ Unit := onto y4 [vote 7 (name y4)]

/-- Brings a vote for `y5`, with which it is the head. -/
def x7 : Produced ℕ Unit := onto x6 [vote 7 (name y5)]

/-- `y5` arrives again after the head has returned to it. -/
def calls : List (Input ℕ Unit) :=
  [first, x2, w3, x3, x4, x5].map (Input.include 0) ++ List.replicate 9 (Input.pollNext 0) ++
    [x6, y4, y5].map (Input.include 0) ++ List.replicate 8 (Input.pollNext 0) ++
    [Input.include 0 x7] ++ List.replicate 8 (Input.pollNext 0) ++ [Input.include 0 y5]

end Return

end Sample

open Sample in
/-- With every block an epoch, the chain votes for `x6`, and for no block at
the height of `y5`, finalizes `x3`, and then votes for `y5`. -/
theorem not_noSurround_return :
    ¬ NoSurround (epochs .inPlace [(7, 1000)] 1) genesis (inputBlocks Return.calls)
      (issued ballot ((Chain.new genesis).delivered (epochs .inPlace [(7, 1000)] 1) Return.calls)
        ((Chain.new genesis).run (epochs .inPlace [(7, 1000)] 1) Return.calls)) := by
  intro h
  have hvotes : issued ballot
      ((Chain.new genesis).delivered (epochs .inPlace [(7, 1000)] 1) Return.calls)
      ((Chain.new genesis).run (epochs .inPlace [(7, 1000)] 1) Return.calls) =
      [first, Switch.x2, Return.w3, Return.x6].map (fun b => (1, name b)) ++
        [Return.x7, Return.y5].map fun b => (name Switch.x3, name b) := by
    decide +kernel
  rw [hvotes] at h
  have hblock : ∀ b ∈ [Switch.x3, Return.x6, Return.y5], b ∈ inputBlocks Return.calls :=
    fun b hb => mem_inputBlocks.2 (by revert b; decide +kernel)
  exact h (1, name Return.x6) (by simp) (name Switch.x3, name Return.y5) (by simp) 0 3 6 5
    (Or.inr ⟨rfl, rfl⟩)
    (Or.inl ⟨Switch.x3, hblock _ (by simp), by decide +kernel, by decide +kernel⟩)
    (Or.inl ⟨Return.x6, hblock _ (by simp), by decide +kernel, by decide +kernel⟩)
    (Or.inl ⟨Return.y5, hblock _ (by simp), by decide +kernel, by decide +kernel⟩) (by decide)

end Run

end Chain

end Consensus

end Rensa
