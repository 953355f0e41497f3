import Rensa.Common.Along
import Rensa.Validator.Model
/-!
# What a turn does

A turn of the loop does one of a few things (`Does`), each of which touches
the chain, the mempool, the channel or the disk, and is a step of the net or
none. A fact about validators that each of them keeps holds in every run
(`run_rule`).
-/

namespace Rensa

open Consensus Network Producer

variable {N H : Type} [DecidableEq H] {K : Config H (List Transaction)}

namespace Validator

variable [Ord H] [Std.TransOrd H] {n n' : Validator K} {keypair : Keypair} {i : N}
  {gossip : List (Gossip H)}

/-- **What a turn does**: to the validator, with what it gossips, and in the
net. -/
inductive Does (keypair : Keypair) (i : N) (n : Validator K) :
    Turn H → Validator K → List (Gossip H) → List (Action N H (List Transaction)) → Prop
  /-- At most the responder notes something. -/
  | wait (t : Turn H) (responder : SwarmResponder H) :
      Does keypair i n t { n with responder } [] []
  /-- A block is replayed. -/
  | replay {now r : ℕ} {hash : H} {b : Produced H (List Transaction)}
      (responder : SwarmResponder H) (hb : n.replay hash = some b) :
      Does keypair i n (.reply now r) { n with responder } [.block b] []
  /-- A block is produced. -/
  | produce {n' : Validator K} {b : Produced H (List Transaction)}
      (h : n.produce keypair = some n') (hb : n'.pending = some b) :
      Does keypair i n (.slot keypair.pubkey) n' [] [.produce i b]
  /-- A block arrives. -/
  | receive (now r : ℕ) (b : Produced H (List Transaction)) (responder : SwarmResponder H) :
      Does keypair i n (.network now r (.block b))
        { n with responder, chain := n.chain.include K now b } []
        (if n.chain.admits K b then [.deliver i now b] else [])
  /-- A vote arrives. -/
  | vote (now r : ℕ) (v : Vote H) : Does keypair i n (.network now r (.vote v))
      { n with producer := n.producer.recordVote v } [] []
  /-- A transaction arrives. -/
  | transaction (now r : ℕ) (tx : Transaction) : Does keypair i n (.network now r (.transaction tx))
      { n with producer := n.producer.recordTransaction tx } [] []
  /-- The block that was produced is included. -/
  | own {now : ℕ} {b : Produced H (List Transaction)} (hb : n.pending = some b) :
      Does keypair i n (.produced now) { n with pending := none, chain := n.chain.include K now b }
        [.block b] (if n.chain.admits K b then [.deliver i now b] else [])
  /-- The chain has no event. -/
  | quiet {now : ℕ} {c : Chain H (List Transaction)} (hpoll : n.chain.pollNext K now = (none, c)) :
      Does keypair i n (.chain now) { n with chain := c } [] [.poll i now]
  /-- The chain has an event. -/
  | event {now : ℕ} {c : Chain H (List Transaction)} {event : ChainEvent H (List Transaction)}
      (hpoll : n.chain.pollNext K now = (some event, c)) :
      Does keypair i n (.chain now) ({ n with chain := c }.handle keypair event).1
        ({ n with chain := c }.handle keypair event).2 [.poll i now]
  /-- A client sends a transaction. -/
  | rpc (tx : Transaction) : Does keypair i n (.rpc tx) n [.transaction tx] []
  /-- A block is consumed. -/
  | consume {x : Executed H (List Transaction)} {commitment : Commitment}
      {channel : List (Executed H (List Transaction) × Commitment)}
      (hchannel : n.channel = (x, commitment) :: channel) :
      Does keypair i n .consume { n with
        channel
        producer := n.producer.consume x commitment
        blocks := (n.blocks.consume K (txHashes K) x commitment).1 } [] []

/-- What `produce` makes of a validator. -/
theorem produce_some (h : n.produce keypair = some n') :
    ∃ b output, n' = { n with producer := n'.producer, pending := some b } ∧
      n'.producer = { n.producer with
        votes := {}, txs := (n.producer.txs.takeTransactions n.producer.limits.maxBlockTransactions).2 } ∧
      b.data = (n.producer.txs.takeTransactions n.producer.limits.maxBlockTransactions).1 ∧
      K.execute n.chain.headState b.data = .ok output ∧
      b = .new K keypair (n.chain.headHeight + 1) (n.chain.headHash K) b.data
        (K.hashOutput output) n.producer.votes.votes := by
  unfold produce at h
  dsimp only at h
  split at h
  · cases h
  · rename_i output hexecute
    obtain rfl := Option.some.inj h
    exact ⟨_, output, rfl, rfl, rfl, hexecute, rfl⟩

/-- **A turn does nothing else.** -/
theorem does_of_turn {max : ℕ} {t : Turn H} (i : N)
    (h : n.turn keypair max t = some (n', gossip)) :
    Does keypair i n t n' gossip (n.actions i keypair t) := by
  unfold turn at h
  unfold actions
  cases t with
  | slot validator =>
    dsimp only at h ⊢
    split at h
    · obtain ⟨n₁, hproduce, heq⟩ := Option.map_eq_some_iff.1 h
      obtain ⟨rfl, rfl⟩ := Prod.mk.inj heq
      obtain ⟨b, output, hn, -⟩ := produce_some hproduce
      have hb : n₁.pending = some b := by rw [hn]
      subst validator
      rw [if_pos rfl, hproduce]
      dsimp only
      rw [hb]
      exact .produce hproduce hb
    · obtain ⟨rfl, rfl⟩ := Prod.mk.inj (Option.some.inj h)
      rw [if_neg ‹_›]
      exact .wait _ n.responder
  | reply now r =>
    dsimp only at h
    split at h
    · rename_i responder _
      obtain ⟨rfl, rfl⟩ := Prod.mk.inj (Option.some.inj h)
      exact .wait _ responder
    · rename_i hash responder _
      obtain ⟨rfl, rfl⟩ := Prod.mk.inj (Option.some.inj h)
      cases hb : n.replay hash with
      | none => exact .wait _ responder
      | some b => exact .replay responder hb
  | network now r message =>
    cases message with
    | block b =>
      obtain ⟨rfl, rfl⟩ := Prod.mk.inj (Option.some.inj h)
      exact .receive now r b _
    | vote v =>
      obtain ⟨rfl, rfl⟩ := Prod.mk.inj (Option.some.inj h)
      exact .vote now r v
    | missing hash =>
      obtain ⟨responder, -, heq⟩ := Option.map_eq_some_iff.1 h
      obtain ⟨rfl, rfl⟩ := Prod.mk.inj heq
      exact .wait _ responder
    | transaction tx =>
      obtain ⟨rfl, rfl⟩ := Prod.mk.inj (Option.some.inj h)
      exact .transaction now r tx
  | produced now =>
    dsimp only at h ⊢
    split at h
    · rename_i hpending
      obtain ⟨rfl, rfl⟩ := Prod.mk.inj (Option.some.inj h)
      rw [hpending]
      exact .wait _ n.responder
    · rename_i b hpending
      obtain ⟨rfl, rfl⟩ := Prod.mk.inj (Option.some.inj h)
      have hown : Does keypair i n (.produced now) _ _ _ := .own hpending
      rw [hpending]
      cases hadmits : n.chain.admits K b <;> simpa [hadmits] using hown
  | chain now =>
    dsimp only at h
    split at h
    · rename_i c hpoll
      obtain ⟨rfl, rfl⟩ := Prod.mk.inj (Option.some.inj h)
      exact .quiet hpoll
    · rename_i event c hpoll
      obtain ⟨rfl, rfl⟩ := Prod.mk.inj (Option.some.inj h)
      exact .event hpoll
  | rpc tx =>
    obtain ⟨rfl, rfl⟩ := Prod.mk.inj (Option.some.inj h)
    exact .rpc tx
  | consume =>
    dsimp only at h
    split at h
    · obtain ⟨rfl, rfl⟩ := Prod.mk.inj (Option.some.inj h)
      exact .wait _ n.responder
    · rename_i x commitment channel hchannel
      obtain ⟨rfl, rfl⟩ := Prod.mk.inj (Option.some.inj h)
      exact .consume hchannel

end Validator

namespace Validators

variable [DecidableEq N] {s : Validators N K} {i : N} {n' : Validator K}

omit [DecidableEq H] in
/-- One validator is replaced: what holds of the others, and of the new one,
holds of all. -/
theorem forall_update {nodes : N → Option (Validator K)} {J : N → Validator K → Prop}
    (hothers : ∀ j m, j ≠ i → nodes j = some m → J j m) {x : Option (Validator K)}
    (hnew : ∀ m, x = some m → J i m) :
    ∀ j m, Function.update nodes i x j = some m → J j m := by
  intro j m hj
  by_cases hji : j = i
  · subst hji
    rw [Function.update_self] at hj
    exact hnew m hj
  · rw [Function.update_of_ne hji] at hj
    exact hothers j m hji hj

/-- The validators after one of them has had a turn. -/
def advance (s : Validators N K) (i : N) (n' : Validator K) (gossip : List (Gossip H))
    (as : List (Action N H (List Transaction))) : Validators N K :=
  ⟨Function.update s.nodes i (some n'), gossip ++ s.wire, s.past ++ as⟩

omit [DecidableEq H] in
theorem net_advance {gossip : List (Gossip H)} {as : List (Action N H (List Transaction))} :
    (s.advance i n' gossip as).net = s.net.run as := List.foldl_append

variable [Ord H] [Std.TransOrd H]

/-- **A step of the validators**: one that is no more has no turn, one panics,
or one has a turn. -/
theorem step_cases (s : Validators N K) (keys : N → Keypair) (max : ℕ) (a : N × Turn H) :
    s.step keys max a = s ∨
    s.step keys max a = { s with nodes := Function.update s.nodes a.1 none } ∨
    ∃ n n' gossip as, s.nodes a.1 = some n ∧
      Validator.Does (keys a.1) a.1 n a.2 n' gossip as ∧
      s.step keys max a = s.advance a.1 n' gossip as := by
  unfold step
  split
  · exact .inl rfl
  · rename_i n hn
    split
    · exact .inr (.inl rfl)
    · rename_i n' gossip hturn
      exact .inr (.inr ⟨n, n', gossip, _, hn, Validator.does_of_turn a.1 hturn, rfl⟩)

end Validators

end Rensa
