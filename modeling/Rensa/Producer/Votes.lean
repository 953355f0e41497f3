import Rensa.Producer.Mempool
import Rensa.Consensus.Links
/-!
# The votes a block producer keeps

A vote is kept under the bytes of its signature, and nobody looks whether
the signature is correct. A valid vote is in the way of any other one with
the same bytes for a signature: one that is recorded later takes its place,
and one in a block that is included takes it out. Where neither happens
between the time it was recorded last and the next `take_votes`, it is
taken (`keepsVotes_iff`).
-/

namespace Rensa

namespace Producer

open Consensus

variable {H : Type}

namespace VotePool

variable {p : VotePool H} {v w : Vote H}

theorem mem_remove {signature : Signature} :
    v ∈ (p.remove signature).votes ↔ v ∈ p.votes ∧ v.signature ≠ signature := by
  simp [remove]

theorem mem_insert : v ∈ (p.insert w).votes ↔
    v = w ∨ v ∈ p.votes ∧ v.signature ≠ w.signature := by
  rw [insert, List.mem_cons, mem_remove]

/-- What a block leaves of the votes. -/
theorem mem_foldl_remove (l : List (Vote H)) :
    v ∈ (l.foldl (fun votes w => votes.remove w.signature) p).votes ↔
      v ∈ p.votes ∧ ∀ w ∈ l, v.signature ≠ w.signature := by
  induction l generalizing p with
  | nil => simp
  | cons w l ih =>
    rw [List.foldl_cons, ih, mem_remove, List.forall_mem_cons, and_assoc]

end VotePool

/-- A call of a block producer. -/
inductive Call (H : Type)
  | recordVote (v : Vote H)
  | recordTransaction (tx : Transaction)
  | takeVotes
  | consume (block : Executed H (List Transaction)) (commitment : Commitment)

namespace BlockProducer

variable [DecidableEq H] {C : Crypto H} {p : BlockProducer C} {v w : Vote H} {c : Call H}
variable {calls mid : List (Call H)}

/-- What a call does to the producer. -/
def step (p : BlockProducer C) : Call H → BlockProducer C
  | .recordVote v => p.recordVote v
  | .recordTransaction tx => p.recordTransaction tx
  | .takeVotes => p.takeVotes.2
  | .consume block commitment => p.consume block commitment

/-- The producer after some calls. -/
def run (p : BlockProducer C) (calls : List (Call H)) : BlockProducer C := calls.foldl step p

omit [DecidableEq H] in
theorem validators_recordVote : (p.recordVote v).validators = p.validators := by
  unfold recordVote
  split <;> rfl

theorem validators_step : (p.step c).validators = p.validators := by
  cases c with
  | recordVote v => exact validators_recordVote
  | recordTransaction tx => rfl
  | takeVotes => rfl
  | consume block commitment => cases commitment <;> rfl

theorem validators_run : (p.run calls).validators = p.validators := by
  induction calls generalizing p with
  | nil => rfl
  | cons c calls ih => exact ih.trans validators_step

/-- The call has another vote with the signature of this one: it records it
for a validator, or includes a block that has it. -/
def Clashes (validators : List Pubkey) (v : Vote H) (c : Call H) : Prop :=
  ∃ w, w ≠ v ∧ w.signature = v.signature ∧
    (c = .recordVote w ∧ w.validator ∈ validators ∨
      ∃ block, c = .consume block .included ∧ w ∈ block.underlying.votes)

/-- The call includes a block that has the vote. -/
def Includes (v : Vote H) (c : Call H) : Prop :=
  ∃ block, c = .consume block .included ∧ v ∈ block.underlying.votes

omit [DecidableEq H] in
theorem mem_recordVote : v ∈ (p.recordVote w).votes.votes ↔
    if w.validator ∈ p.validators then v = w ∨ v ∈ p.votes.votes ∧ v.signature ≠ w.signature
    else v ∈ p.votes.votes := by
  unfold recordVote
  split
  · exact VotePool.mem_insert
  · exact Iff.rfl

omit [DecidableEq H] in
theorem clashes_recordVote {validators : List Pubkey} :
    Clashes validators v (.recordVote w) ↔
      w ≠ v ∧ w.signature = v.signature ∧ w.validator ∈ validators := by
  constructor
  · rintro ⟨w', hne, hsig, ⟨heq, hval⟩ | ⟨block, heq, -⟩⟩
    · cases heq
      exact ⟨hne, hsig, hval⟩
    · cases heq
  · rintro ⟨hne, hsig, hval⟩
    exact ⟨w, hne, hsig, .inl ⟨rfl, hval⟩⟩

omit [DecidableEq H] in
theorem clashes_consume {validators : List Pubkey} {block : Executed H (List Transaction)}
    {commitment : Commitment} : Clashes validators v (.consume block commitment) ↔
      commitment = .included ∧
        ∃ w ∈ block.underlying.votes, w ≠ v ∧ w.signature = v.signature := by
  constructor
  · rintro ⟨w, hne, hsig, ⟨heq, -⟩ | ⟨block', heq, hw⟩⟩
    · cases heq
    · cases heq
      exact ⟨rfl, w, hw, hne, hsig⟩
  · rintro ⟨rfl, w, hw, hne, hsig⟩
    exact ⟨w, hne, hsig, .inr ⟨block, rfl, hw⟩⟩

omit [DecidableEq H] in
theorem not_clashes_recordTransaction {validators : List Pubkey} {tx : Transaction} :
    ¬ Clashes validators v (.recordTransaction tx) := by
  rintro ⟨w, -, -, ⟨heq, -⟩ | ⟨block, heq, -⟩⟩ <;> cases heq

/-- **One call**: a vote it neither records, takes nor includes stays
exactly where the call has no other vote with its signature. -/
theorem mem_step (hrecord : c ≠ .recordVote v) (htake : c ≠ .takeVotes) (hinc : ¬ Includes v c) :
    v ∈ (p.step c).votes.votes ↔ v ∈ p.votes.votes ∧ ¬ Clashes p.validators v c := by
  cases c with
  | recordVote w =>
    have hne : w ≠ v := fun h => hrecord (by rw [h])
    rw [step, mem_recordVote, clashes_recordVote]
    by_cases hval : w.validator ∈ p.validators
    · rw [if_pos hval]
      constructor
      · rintro (heq | ⟨hmem, hsig⟩)
        · exact absurd heq.symm hne
        · exact ⟨hmem, fun h => hsig h.2.1.symm⟩
      · rintro ⟨hmem, hsig⟩
        exact .inr ⟨hmem, fun h => hsig ⟨hne, h.symm, hval⟩⟩
    · rw [if_neg hval]
      exact ⟨fun h => ⟨h, fun h => hval h.2.2⟩, fun h => h.1⟩
  | recordTransaction tx => exact (and_iff_left not_clashes_recordTransaction).symm
  | takeVotes => exact absurd rfl htake
  | consume block commitment =>
    rw [clashes_consume]
    cases commitment with
    | included =>
      have hstep : (p.step (.consume block .included)).votes =
        block.underlying.votes.foldl (fun votes v => votes.remove v.signature) p.votes := rfl
      rw [hstep, VotePool.mem_foldl_remove]
      refine and_congr_right fun _ => ?_
      constructor
      · rintro hall ⟨-, w, hw, -, hsig⟩
        exact hall w hw hsig.symm
      · intro hclash w hw hsig
        have hne : w ≠ v := fun h => hinc ⟨block, rfl, h ▸ hw⟩
        exact hclash ⟨rfl, w, hw, hne, hsig.symm⟩
    | confirmed => exact (and_iff_left nofun).symm
    | finalized => exact (and_iff_left nofun).symm

/-- **Calls between a vote's record and the next take.** -/
theorem mem_run (hrecord : .recordVote v ∉ mid) (htake : .takeVotes ∉ mid)
    (hinc : ∀ c ∈ mid, ¬ Includes v c) :
    v ∈ (p.run mid).votes.votes ↔
      v ∈ p.votes.votes ∧ ∀ c ∈ mid, ¬ Clashes p.validators v c := by
  induction mid generalizing p with
  | nil => simp [run]
  | cons c mid ih =>
    rw [List.mem_cons, not_or] at hrecord htake
    obtain ⟨hinc, hincs⟩ := List.forall_mem_cons.1 hinc
    have hrun : p.run (c :: mid) = (p.step c).run mid := rfl
    rw [hrun, ih hrecord.2 htake.2 hincs, validators_step,
      mem_step (Ne.symm hrecord.1) (Ne.symm htake.1) hinc, List.forall_mem_cons, and_assoc]

variable (K : Config H (List Transaction)) (q : BlockProducer K.crypto)

/-- The vote waits through these calls: it has a correct signature of a
validator of the genesis block, it is not taken, and no block that is
included has it. -/
structure Awaits (v : Vote H) (mid : List (Call H)) : Prop where
  validator : v.validator ∈ q.validators
  signed : K.verifyVote v = true
  notTaken : .takeVotes ∉ mid
  notIncluded : ∀ c ∈ mid, ¬ Includes v c

/-- **No valid vote is lost**: it is among the votes taken next after it
was recorded. -/
def KeepsVotes (calls : List (Call H)) : Prop :=
  ∀ pre v mid post, calls = pre ++ .recordVote v :: (mid ++ .takeVotes :: post) →
    q.Awaits K v mid → v ∈ (q.run (pre ++ .recordVote v :: mid)).takeVotes.1

/-- **No valid vote meets another one with its signature** after it was
recorded last, before it is taken. -/
def Undisturbed (calls : List (Call H)) : Prop :=
  ∀ pre v mid post, calls = pre ++ .recordVote v :: (mid ++ .takeVotes :: post) →
    q.Awaits K v mid → .recordVote v ∉ mid → ∀ c ∈ mid, ¬ Clashes q.validators v c

variable {K q}

/-- What is taken next after a vote was recorded last. -/
theorem mem_takeVotes {pre : List (Call H)} (hwait : q.Awaits K v mid)
    (hlast : .recordVote v ∉ mid) :
    v ∈ (q.run (pre ++ .recordVote v :: mid)).takeVotes.1 ↔
      ∀ c ∈ mid, ¬ Clashes q.validators v c := by
  have hrun : q.run (pre ++ .recordVote v :: mid) = ((q.run pre).recordVote v).run mid := by
    rw [run, List.foldl_append, List.foldl_cons]
    rfl
  -- whatever was kept under its signature, the vote is there now
  have hmem : v ∈ ((q.run pre).recordVote v).votes.votes := by
    rw [mem_recordVote, validators_run, if_pos hwait.validator]
    exact .inl rfl
  rw [hrun, takeVotes, mem_run hlast hwait.notTaken hwait.notIncluded, validators_recordVote,
    validators_run]
  exact and_iff_right hmem

/-- **The mempool keeps the valid votes** of a run of calls exactly where
none of them meets another vote with its signature. -/
theorem keepsVotes_iff (K : Config H (List Transaction)) (q : BlockProducer K.crypto)
    (calls : List (Call H)) : q.KeepsVotes K calls ↔ q.Undisturbed K calls := by
  constructor
  · intro hkeeps pre v mid post hsplit hwait hlast
    exact (mem_takeVotes hwait hlast).1 (hkeeps pre v mid post hsplit hwait)
  · intro hundisturbed pre v mid post hsplit hwait
    -- by the number of calls up to the take: only the last record matters
    induction hlen : mid.length using Nat.strong_induction_on generalizing pre mid with
    | h len ih =>
      by_cases hlast : .recordVote v ∈ mid
      · obtain ⟨before, after, rfl⟩ := List.append_of_mem hlast
        have hwait' : q.Awaits K v after :=
          { validator := hwait.validator
            signed := hwait.signed
            notTaken := fun h => hwait.notTaken (by simp [h])
            notIncluded := fun c hc => hwait.notIncluded c (by simp [hc]) }
        have htaken := ih after.length (by rw [← hlen]; simp; omega)
          (pre ++ .recordVote v :: before) after (by rw [hsplit]; simp) hwait' rfl
        rwa [List.append_assoc, List.cons_append] at htaken
      · exact (mem_takeVotes hwait hlast).2 (hundisturbed pre v mid post hsplit hwait hlast)

namespace Sample

/-- One validator. -/
def config : Config ℕ (List Transaction) :=
  Chain.Sample.config .inPlace [(7, 1000)] fun _ _ => .ok {}

/-- A producer of that chain. -/
def producer : BlockProducer config.crypto := .new config.crypto config.genesis

/-- A vote of the validator, signed, and one with the bytes of its
signature for another block. -/
def signed : Vote ℕ := Chain.Sample.vote 7 5

def copied : Vote ℕ := { signed with target := 6 }

/-- A block that has the copy. -/
def including : Executed ℕ (List Transaction) where
  underlying := Chain.Sample.produce config 7 1 1 [] [copied]
  output := {}

/-- A call between the record and the take. -/
def around (c : Call ℕ) : List (Call ℕ) := [.recordVote signed, c, .takeVotes]

theorem awaits {c : Call ℕ} (htake : c ≠ .takeVotes) (hinc : ¬ Includes signed c) :
    producer.Awaits config signed [c] where
  validator := by decide
  signed := by decide +kernel
  notTaken h := htake (List.mem_singleton.1 h).symm
  notIncluded d hd := by rwa [List.mem_singleton.1 hd]

theorem not_includes : ¬ Includes signed (.consume including .included) := by
  rintro ⟨block, heq, hmem⟩
  cases heq
  exact absurd hmem (by decide)

end Sample

/-- **Two ways to lose a valid vote.** A copy of its signature under a vote
for another block is recorded, or is in a block that is included. -/
theorem loses_signed :
    Sample.config.verifyVote Sample.signed = true ∧
      Sample.config.verifyVote Sample.copied = false ∧ ¬ Sample.producer.KeepsVotes Sample.config
      (Sample.around (.recordVote Sample.copied)) ∧
      ¬ Sample.producer.KeepsVotes Sample.config
        (Sample.around (.consume Sample.including .included)) := by
  refine ⟨by decide +kernel, by decide +kernel, fun h => ?_, fun h => ?_⟩
  · have htaken := h [] Sample.signed [.recordVote Sample.copied] [] rfl
      (Sample.awaits nofun fun ⟨_, heq, _⟩ => by cases heq)
    exact absurd htaken (by decide +kernel)
  · have htaken := h [] Sample.signed [.consume Sample.including .included] [] rfl
      (Sample.awaits nofun Sample.not_includes)
    exact absurd htaken (by decide +kernel)

/-- A vote of another signature in between takes nothing away. -/
theorem keeps_signed :
    Sample.producer.KeepsVotes Sample.config
      (Sample.around (.recordVote (Chain.Sample.vote 7 6))) ∧
      Sample.signed ∈ (Sample.producer.run
        [.recordVote Sample.signed, .recordVote (Chain.Sample.vote 7 6)]).takeVotes.1 := by
  refine ⟨(keepsVotes_iff Sample.config Sample.producer _).2 ?_, by decide +kernel⟩
  have hrecorded : ∀ w, .recordVote w ∈ Sample.around (.recordVote (Chain.Sample.vote 7 6)) →
      w = Sample.signed ∨ w = Chain.Sample.vote 7 6 := by
    intro w hw
    simpa [Sample.around] using hw
  rintro pre v mid post hsplit - - c hc ⟨w, hne, hsig, ⟨rfl, -⟩ | ⟨block, rfl, -⟩⟩
  · -- the two votes that are recorded have different signatures
    have hv := hrecorded v (by rw [hsplit]; simp)
    have hw := hrecorded w (by rw [hsplit]; simp [hc])
    rcases hv with rfl | rfl <;> rcases hw with rfl | rfl
    · exact hne rfl
    · exact absurd hsig (by decide +kernel)
    · exact absurd hsig (by decide +kernel)
    · exact hne rfl
  · have hmem : .consume block .included ∈ Sample.around (.recordVote (Chain.Sample.vote 7 6)) := by
      rw [hsplit]
      simp [hc]
    simp [Sample.around] at hmem

end BlockProducer

end Producer

end Rensa
