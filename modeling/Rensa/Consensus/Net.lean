import Rensa.Consensus.Certificates
/-!
# The nodes of one chain

Every node runs a `Chain` of its own, starting from the same finalized
block, under its own key. Blocks that were produced reach any node at any
time and any number of times, in any order; a vote a node takes from its
chain is signed with its key and may get into the blocks of every other
node. Nodes are honest: they produce blocks on top of their own head, and
sign no votes but their own (`Enabled`). `Sound` is what every step of
honest nodes keeps.
-/

namespace Rensa

namespace Consensus

open ChainEvent (ballot)
open Chain (HeightOf)

/-- What can happen among nodes. -/
inductive Action (N H D : Type)
  /-- A block reaches a node. -/
  | deliver (i : N) (now : ℕ) (b : Produced H D)
  /-- A node takes the next event from its chain. -/
  | poll (i : N) (now : ℕ)
  /-- A node produces a block. -/
  | produce (i : N) (b : Produced H D)

/-- The calls each node has made, and the blocks that were produced. -/
structure Net (N H D : Type) where
  calls : N → List (Chain.Input H D) := fun _ => []
  blocks : List (Produced H D) := []

namespace Net

variable {N H D : Type} [DecidableEq N] [DecidableEq H] (K : Config H D) (fin : Finalized H D)
  (key : N → Pubkey) (s : Net N H D)

/-- The chain of a node. -/
def chain (i : N) : Chain H D := (Chain.new fin).run K (s.calls i)

/-- The events a node has taken. -/
def taken (i : N) : List (ChainEvent H D) := (Chain.new fin).delivered K (s.calls i)

/-- A node has signed the vote with its key, when it took it from its
chain. -/
def Signed (v : Vote H) : Prop :=
  ∃ i, key i = v.validator ∧ (v.justification, v.target) ∈ (s.taken K fin i).filterMap ballot

/-- `produce`, on what `with_head` passes on: a signed block whose payload
was executed. -/
def Produces (c : Chain H D) (k : Pubkey) (b : Produced H D) : Prop :=
  b.parent = c.headHash K ∧ b.height = c.headHeight + 1 ∧ b.signature.1 = k ∧
    K.verifySignature b = true ∧ (K.newExecuted c.headState b).isOk = true

/-- **What honest nodes do.** Signatures cannot be forged, so a vote in a
block whose signature is good was signed by its validator. -/
def Enabled : Action N H D → Prop
  | .deliver _ _ b => b ∈ s.blocks
  | .poll _ _ => True
  | .produce i b => Produces K (s.chain K fin i) (key i) b ∧
      ∀ v ∈ b.votes, K.verifyVote v = true → s.Signed K fin key v

/-- A node makes a call. -/
def call (i : N) (input : Chain.Input H D) : Net N H D :=
  { s with calls := Function.update s.calls i (s.calls i ++ [input]) }

/-- One step. -/
def step (s : Net N H D) : Action N H D → Net N H D
  | .deliver i now b => s.call i (.include now b)
  | .poll i now => s.call i (.pollNext now)
  | .produce _ b => { s with blocks := b :: s.blocks }

/-- Any sequence of steps. -/
def run (as : List (Action N H D)) : Net N H D := as.foldl step s

/-- **All nodes are honest** in every step. -/
def Honest (s : Net N H D) : List (Action N H D) → Prop
  | [] => True
  | a :: as => s.Enabled K fin key a ∧ (s.step a).Honest as

instance [Fintype N] (v : Vote H) : Decidable (s.Signed K fin key v) :=
  inferInstanceAs (Decidable (∃ _, _))

instance (c : Chain H D) (k : Pubkey) (b : Produced H D) : Decidable (Produces K c k b) :=
  inferInstanceAs (Decidable (_ ∧ _))

instance [Fintype N] [DecidableEq D] : (a : Action N H D) → Decidable (s.Enabled K fin key a)
  | .deliver _ _ b => inferInstanceAs (Decidable (b ∈ s.blocks))
  | .poll _ _ => .isTrue trivial
  | .produce _ _ => inferInstanceAs (Decidable (_ ∧ _))

instance decidableHonest [Fintype N] [DecidableEq D] (s : Net N H D) :
    (as : List (Action N H D)) → Decidable (s.Honest K fin key as)
  | [] => .isTrue trivial
  | a :: as => @instDecidableAnd _ _ inferInstance (decidableHonest (s.step a) as)

variable {K fin key s}

/-- **What every step of honest nodes keeps**: what reached a node was
produced, a block is one above its parent, and its votes were signed. -/
structure Sound (K : Config H D) (fin : Finalized H D) (key : N → Pubkey) (s : Net N H D) :
    Prop where
  arrived : ∀ i, ∀ b ∈ Chain.inputBlocks (s.calls i), b ∈ s.blocks
  above : ∀ b ∈ s.blocks, ∃ k, HeightOf K fin {x | x ∈ s.blocks} b.parent k ∧ b.height = k + 1
  signed : ∀ b ∈ s.blocks, ∀ v ∈ b.votes, K.verifyVote v = true → s.Signed K fin key v

omit [DecidableEq N] in
theorem sound_empty : Sound K fin key ({} : Net N H D) where
  arrived := by
    rintro i b ⟨now, hb⟩
    cases hb
  above := fun _ hb => absurd hb List.not_mem_nil
  signed := fun _ hb => absurd hb List.not_mem_nil

omit [DecidableEq H] in
theorem calls_call_self (i : N) (input : Chain.Input H D) :
    (s.call i input).calls i = s.calls i ++ [input] := Function.update_self ..

omit [DecidableEq H] in
theorem calls_call_of_ne {i j : N} (h : j ≠ i) (input : Chain.Input H D) :
    (s.call i input).calls j = s.calls j := Function.update_of_ne h ..

/-- A vote that was signed stays signed. -/
theorem Signed.of_call {v : Vote H} (h : s.Signed K fin key v) (i : N)
    (input : Chain.Input H D) : (s.call i input).Signed K fin key v := by
  obtain ⟨j, hj, hv⟩ := h
  refine ⟨j, hj, ?_⟩
  by_cases hji : j = i
  · subst hji
    rw [taken, calls_call_self, Chain.delivered_append_singleton, List.filterMap_append]
    exact List.mem_append_left _ hv
  · rw [taken, calls_call_of_ne hji]
    exact hv

theorem Sound.of_call (h : Sound K fin key s) (i : N) {input : Chain.Input H D}
    (hinput : ∀ now b, input = .include now b → b ∈ s.blocks) :
    Sound K fin key (s.call i input) := by
  refine ⟨fun j b hb => ?_, h.above, fun b hb v hv hverify =>
    (h.signed b hb v hv hverify).of_call i input⟩
  by_cases hji : j = i
  · subst hji
    obtain ⟨now, hb⟩ := hb
    rw [calls_call_self, List.mem_append, List.mem_singleton] at hb
    rcases hb with hb | hb
    · exact h.arrived j b ⟨now, hb⟩
    · exact hinput now b hb.symm
  · rw [calls_call_of_ne hji] at hb
    exact h.arrived j b hb

omit [DecidableEq N] in
/-- A block that is produced is one above the head. -/
theorem Sound.of_produce (h : Sound K fin key s) {i : N} {b : Produced H D}
    (hb : Produces K (s.chain K fin i) (key i) b)
    (hvotes : ∀ v ∈ b.votes, K.verifyVote v = true → s.Signed K fin key v) :
    Sound K fin key { s with blocks := b :: s.blocks } := by
  refine ⟨fun j x hx => List.mem_cons_of_mem b (h.arrived j x hx), fun x hx => ?_,
    fun x hx v hv hverify => ?_⟩
  · rcases List.mem_cons.1 hx with rfl | hx
    · refine ⟨_, ?_, hb.2.1⟩
      rw [hb.1]
      exact (Chain.heightOf_head K fin (s.calls i)).mono fun x hx =>
        List.mem_cons_of_mem _ (h.arrived i x hx)
    · obtain ⟨k, hk, hheight⟩ := h.above x hx
      exact ⟨k, hk.mono fun _ hy => List.mem_cons_of_mem b hy, hheight⟩
  · rcases List.mem_cons.1 hx with rfl | hx
    · exact hvotes v hv hverify
    · exact h.signed x hx v hv hverify

theorem Sound.of_step (h : Sound K fin key s) {a : Action N H D} (ha : s.Enabled K fin key a) :
    Sound K fin key (s.step a) := by
  cases a with
  | deliver i now b =>
    refine h.of_call i fun now' b' heq => ?_
    obtain ⟨-, rfl⟩ := Chain.Input.include.inj heq
    exact ha
  | poll i now => exact h.of_call i fun _ _ heq => by cases heq
  | produce i b => exact h.of_produce ha.1 ha.2

/-- **Honest nodes keep the net sound.** -/
theorem Sound.of_honest {as : List (Action N H D)} (h : Sound K fin key s)
    (has : s.Honest K fin key as) : Sound K fin key (s.run as) := by
  induction as generalizing s with
  | nil => exact h
  | cons a as ih => exact ih (h.of_step has.1) has.2

end Net

end Consensus

end Rensa
