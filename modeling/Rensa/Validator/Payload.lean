import Rensa.Producer.Order
import Rensa.Validator.Honest
/-!
# What is in the blocks

The chain executes whatever a block holds: neither the number of its
transactions nor their limits are checked where a block is included. They are
checked where a transaction gets into a mempool and where a block is produced.
So in a network of validators that run the loop every block keeps the limits
of the genesis block, wherever it turns up (`wellMade_run`).
-/

namespace Rensa

open Consensus Network Producer
open Rose (nodesL)

variable {N H : Type} [DecidableEq H] {K : Config H (List Transaction)}

/-! ## The mempool -/

namespace Producer

variable {C : Crypto H} {m : MempoolState C} {tx : Transaction} {limits : Limits}

/-- A transaction that was checked on its way into the mempool. -/
def Checked (C : Crypto H) (limits : Limits) (tx : Transaction) : Prop :=
  tx.verifyLimits limits = .ok () ∧ tx.verifySignatures C = .ok ()

/-- **A transaction that is recorded was checked**, the others were there. -/
theorem checked_of_mem_recordTransaction {t : Transaction}
    (ht : t ∈ (m.recordTransaction limits tx).txs) : t ∈ m.txs ∨ Checked C limits t := by
  unfold MempoolState.recordTransaction at ht
  split at ht
  · exact .inl ht
  · rename_i hlimits
    unfold MempoolState.addTransaction at ht
    split at ht
    · exact .inl ht
    · rename_i hsignatures
      rcases List.mem_cons.1 ht with rfl | ht
      · exact .inr ⟨hlimits, hsignatures⟩
      · exact .inl (List.mem_of_mem_filter ht)

/-- **What is taken** is the front of the mempool, in some order. -/
theorem exists_perm_takeTransactions [Ord H] [Std.TransOrd H] [Std.LawfulEqOrd H]
    (m : MempoolState C) (count : ℕ) :
    ∃ l : List Transaction, l.Perm m.txs ∧ (m.takeTransactions count).1 = l.take count :=
  ⟨_, (arranges_sortedGroups m.distinct).flatten_perm,
    takeTransactions_eq (arranges_sortedGroups m.distinct) count⟩

end Producer

namespace Validators

/-- **A block that keeps the rules** of a block producer. -/
structure WellMade (K : Config H (List Transaction)) (b : Produced H (List Transaction)) :
    Prop where
  count : b.data.length ≤ K.genesis.limits.maxBlockTransactions
  distinct : (b.data.map (Transaction.hash K.crypto)).Nodup
  checked : ∀ tx ∈ b.data, Checked K.crypto K.genesis.limits tx
  voters : ∀ v ∈ b.votes, v.validator ∈ K.genesis.validators.map Prod.fst
  signatures : (b.votes.map Vote.signature).Nodup

/-- A producer whose mempool holds what was checked. -/
structure Stocked (p : BlockProducer K.crypto) : Prop where
  limits : p.limits = K.genesis.limits
  validators : p.validators = K.genesis.validators.map Prod.fst
  txs : ∀ tx ∈ p.txs.txs, Checked K.crypto K.genesis.limits tx
  votes : ∀ v ∈ p.votes.votes, v.validator ∈ K.genesis.validators.map Prod.fst

namespace Stocked

variable {p : BlockProducer K.crypto}

omit [DecidableEq H] in
theorem recordVote (h : Stocked p) (v : Vote H) : Stocked (p.recordVote v) := by
  unfold BlockProducer.recordVote
  split
  · rename_i hmem
    refine ⟨h.limits, h.validators, h.txs, fun w hw => ?_⟩
    rcases VotePool.mem_insert.1 hw with rfl | ⟨hw, -⟩
    · exact h.validators ▸ hmem
    · exact h.votes w hw
  · exact h

theorem recordTransaction (h : Stocked p) (tx : Transaction) :
    Stocked (p.recordTransaction tx) := by
  refine ⟨h.limits, h.validators, fun t ht => ?_, h.votes⟩
  rcases checked_of_mem_recordTransaction ht with ht | ht
  · exact h.txs t ht
  · exact h.limits ▸ ht

theorem reuseDiscarded (h : Stocked p) (b : Produced H (List Transaction)) :
    Stocked (p.reuseDiscarded b) :=
  have hvotes : Stocked (b.votes.foldl (fun p v => p.recordVote v) p) :=
    List.foldlRecOn b.votes _ h fun _ hq v _ => hq.recordVote v
  List.foldlRecOn b.data _ hvotes fun _ hq tx _ => hq.recordTransaction tx

theorem consume (h : Stocked p) (x : Executed H (List Transaction)) (commitment : Commitment) :
    Stocked (p.consume x commitment) := by
  cases commitment with
  | confirmed | finalized => exact h
  | included =>
    refine ⟨h.limits, h.validators, fun tx htx => h.txs tx (List.mem_of_mem_filter htx),
      fun v hv => ?_⟩
    exact h.votes v ((VotePool.mem_foldl_remove x.underlying.votes).1 hv).1

end Stocked

variable [Ord H] [Std.TransOrd H] [Std.LawfulEqOrd H] {n n' : Validator K} {keypair : Keypair}
  {i : N} {gossip : List (Gossip H)} {as : List (Action N H (List Transaction))}

/-- **A block that is produced keeps the rules.** -/
theorem Stocked.produce (h : Stocked n.producer) (hproduce : n.produce keypair = some n') :
    Stocked n'.producer ∧ ∀ b, n'.pending = some b → WellMade K b := by
  obtain ⟨b, output, hn, hproducer, hdata, -, hb⟩ := Validator.produce_some hproduce
  obtain ⟨l, hperm, htake⟩ := exists_perm_takeTransactions n.producer.txs
    n.producer.limits.maxBlockTransactions
  rw [htake] at hdata
  have hmem : ∀ tx ∈ b.data, tx ∈ n.producer.txs.txs := fun tx htx =>
    hperm.subset (List.mem_of_mem_take (hdata ▸ htx))
  refine ⟨?_, fun b' hb' => ?_⟩
  · rw [hproducer]
    refine ⟨h.limits, h.validators, fun tx htx => h.txs tx (List.mem_of_mem_filter htx),
      fun v hv => absurd hv List.not_mem_nil⟩
  · obtain rfl : b = b' := Option.some.inj (by rw [← hb', hn])
    refine ⟨?_, ?_, fun tx htx => h.txs tx (hmem tx htx), ?_, ?_⟩
    · rw [hdata, ← h.limits, List.length_take]
      exact Nat.min_le_left _ _
    · rw [hdata]
      exact ((hperm.map _).nodup_iff.2 n.producer.txs.distinct).sublist
        ((List.take_sublist _ _).map _)
    · rw [hb]
      exact h.votes
    · rw [hb]
      exact n.producer.votes.distinct

/-- **No turn breaks the rules.** -/
theorem Stocked.of_does {t : Turn H} (h : Stocked n.producer)
    (hdoes : Validator.Does keypair i n t n' gossip as) :
    Stocked n'.producer ∧ ∀ j b, .produce j b ∈ as → WellMade K b := by
  have hdeliver : ∀ (now : ℕ) (x : Produced H (List Transaction)) (p : Bool) j b,
      Action.produce j b ∈ (if p then [Action.deliver i now x] else []) → WellMade K b := by
    intro now x p j b hb
    split at hb
    · cases List.mem_singleton.1 hb
    · cases hb
  cases hdoes with
  | wait | replay | rpc => exact ⟨h, nofun⟩
  | @produce _ b hproduce hb =>
    obtain ⟨hstocked, hmade⟩ := h.produce hproduce
    refine ⟨hstocked, fun j b' hb' => ?_⟩
    cases List.mem_singleton.1 hb'
    exact hmade b hb
  | receive now r b => exact ⟨h, hdeliver now b _⟩
  | @own now b => exact ⟨h, hdeliver now b _⟩
  | vote now r v => exact ⟨h.recordVote v, nofun⟩
  | transaction now r tx => exact ⟨h.recordTransaction tx, nofun⟩
  | consume => exact ⟨h.consume _ _, nofun⟩
  | quiet => exact ⟨h, fun j b hb => by cases List.mem_singleton.1 hb⟩
  | @event _ _ event =>
    refine ⟨?_, fun j b hb => by cases List.mem_singleton.1 hb⟩
    cases event with
    | blockDiscarded b => exact h.reuseDiscarded b
    | vote | blockMissing | blockIncluded | blockConfirmed | blockFinalized => exact h

/-! ## Runs -/

variable [DecidableEq N] {keys : N → Keypair} {fin : Finalized H (List Transaction)}
  {s : Validators N K}

omit [DecidableEq H] [Ord H] [Std.TransOrd H] [Std.LawfulEqOrd H] in
/-- Blocks get into the net by being produced. -/
theorem mem_blocks_run {net : Net N H (List Transaction)} {b : Produced H (List Transaction)}
    (hb : b ∈ (net.run as).blocks) : b ∈ net.blocks ∨ ∃ j, .produce j b ∈ as := by
  induction as generalizing net with
  | nil => exact .inl hb
  | cons a as ih =>
    rcases ih hb with hb | ⟨j, hj⟩
    · cases a with
      | deliver | poll => exact .inl hb
      | produce j x =>
        rcases List.mem_cons.1 hb with rfl | hb
        · exact .inr ⟨j, List.mem_cons_self⟩
        · exact .inl hb
    · exact .inr ⟨j, List.mem_cons_of_mem a hj⟩

/-- Every producer is stocked, and every block keeps the rules. -/
structure Orderly (s : Validators N K) : Prop where
  producer : ∀ i n, s.nodes i = some n → Stocked n.producer
  blocks : ∀ b ∈ s.net.blocks, WellMade K b

theorem Orderly.step (h : Orderly s) (max : ℕ) (a : N × Turn H) : Orderly (s.step keys max a) := by
  rcases step_cases s keys max a with heq | heq | ⟨n, n', gossip, as, hi, hdoes, heq⟩
  · rwa [heq]
  · rw [heq]
    exact ⟨forall_update (fun j m _ hj => h.producer j m hj) nofun, h.blocks⟩
  · have hstocked := (h.producer a.1 n hi).of_does hdoes
    rw [heq]
    refine ⟨forall_update (fun j m _ hj => h.producer j m hj) fun m hm =>
      Option.some.inj hm ▸ hstocked.1, fun b hb => ?_⟩
    rw [net_advance] at hb
    rcases mem_blocks_run hb with hb | ⟨j, hb⟩
    · exact h.blocks b hb
    · exact hstocked.2 j b hb

/-- **Blocks keep the limits.** In every run of the main loops in which no
signature is forged, every block in the forest of a validator, every block
that one of them has made final and every block that one of them answers a
client with has no more transactions than the genesis block allows, no
transaction twice, only transactions that are within the limits and signed by
their payer and their signers, and votes of distinct signatures under names of
validators. -/
theorem wellMade_run (K : Config H (List Transaction)) (fin : Finalized H (List Transaction))
    (keys : N → Keypair)
    (hsign : ∀ i m, K.crypto.verifies (keys i).pubkey m ((keys i).sign m) = true)
    (responder : SwarmResponder H) (detailed : Bool) (historyLen max : ℕ)
    (turns : List (N × Turn H))
    (hturns : Along (Validators.step keys max) (Allowed fin keys)
      (start fin responder detailed historyLen : Validators N K) turns) :
    let s := (start fin responder detailed historyLen : Validators N K).run keys max turns
    (∀ i, ∀ b ∈ s.net.finals K fin i, WellMade K b) ∧
    ∀ i n, s.nodes i = some n → (∀ t ∈ nodesL n.chain.forktrees, WellMade K (TreeNode.block t)) ∧
      ∀ h x commitment, n.blocks.getByHeight h = some (x, commitment) →
        WellMade K x.underlying := by
  intro s
  have hmirrors : Mirrors fin keys s :=
    (mirrors_start fin keys responder detailed historyLen).run hsign hturns
  have horderly : Orderly s := by
    refine List.foldlRecOn turns (motive := Orderly) _ ⟨?_, fun _ hb => absurd hb List.not_mem_nil⟩
      fun s hs a _ => hs.step max a
    intro i n hn
    obtain rfl := Option.some.inj hn
    exact ⟨rfl, rfl, fun _ htx => absurd htx List.not_mem_nil,
      fun _ hv => absurd hv List.not_mem_nil⟩
  refine ⟨fun i b hb => ?_, fun i n hi => ⟨fun t ht => ?_, fun h x commitment hx => ?_⟩⟩
  · exact horderly.blocks b
      (hmirrors.sound.arrived i b (Chain.certified_run K fin _ b hb).1)
  · rw [hmirrors.chain i n hi] at ht
    exact horderly.blocks _ (hmirrors.sound.forest_mem ht)
  · refine horderly.blocks _ ((hmirrors.sourced i n hi).disk h _ ?_)
    exact (Option.or_eq_some_iff.1 (BlockStore.getByHeight_some hx).1).imp id And.right

/-- The transaction of the first of three blocks was checked. -/
theorem wellMade_turns :
    let s := Sample.begin.run Sample.keypairs 100 Sample.turns
    Sample.first ∈ s.net.finals Sample.counter Chain.Sample.genesis 1 ∧
    (∀ i, ∀ b ∈ s.net.finals Sample.counter Chain.Sample.genesis i, WellMade Sample.counter b) ∧
    ∀ i n, s.nodes i = some n →
      (∀ t ∈ nodesL n.chain.forktrees, WellMade Sample.counter (TreeNode.block t)) ∧
      ∀ h x commitment, n.blocks.getByHeight h = some (x, commitment) →
        WellMade Sample.counter x.underlying := by
  refine ⟨by decide +kernel, ?_⟩
  unfold Sample.begin
  exact wellMade_run Sample.counter Chain.Sample.genesis Sample.keypairs
    Sample.verifies_sign { low := 1, high := 2 } true 10 100 Sample.turns
    (allowed_of_relayed Sample.relayed)

end Validators

end Rensa
