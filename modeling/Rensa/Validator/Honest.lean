import Rensa.Consensus.Repeat
import Rensa.Consensus.Replicas
import Rensa.Producer.Votes
import Rensa.Storage.Lookup
import Rensa.Validator.Turns
/-!
# The validators are the nodes of the net

What a validator signs, it signs in its loop: a vote that its chain returned,
or a block on top of its head with the votes of its mempool. These came from
the network or out of a block that was discarded, and `record_vote` does not
look at signatures. Where nobody can forge one, every run of the validators is
a run of honest nodes, whatever the network delays, loses or repeats
(`mirrors_run`).
-/

namespace Rensa

open Consensus Network Producer
open Rose (nodesL)
open TreeNode (block)

/-! ## The blocks of events -/

namespace Consensus

namespace ChainEvent

variable {H D : Type}

/-- The block an event is about. -/
@[simp] def subject : ChainEvent H D → Option (Produced H D)
  | .blockIncluded x | .blockConfirmed x _ | .blockFinalized x _ => some x.underlying
  | .blockDiscarded b => some b
  | .vote _ _ | .blockMissing _ => none

end ChainEvent

namespace Chain

variable {H D : Type} [DecidableEq H] {K : Config H D} {B : Set (Produced H D)}
  {Q : Chain H D → Deed H D → Prop} {c : Chain H D}

/-- An event is about a block of the forest, or about the block that was
given. -/
theorem Issues.subject_mem {ev : ChainEvent H D} (hev : Issues K B Q c ev) (hc : Standing K B c)
    {b : Produced H D} (hb : ev.subject = some b) : b ∈ B := by
  cases hev with
  | vote | missing => cases hb
  | included hB => exact Option.some.inj hb ▸ hB
  | discarded hn => exact Option.some.inj hb ▸ hc.forest _ hn
  | confirmed _ htarget hev =>
    obtain ⟨cell, hcell, hev⟩ := List.mem_filterMap.1 hev
    obtain ⟨n, hn, rfl⟩ := List.mem_map.1 hcell
    split at hev
    · obtain rfl := Option.some.inj hev
      obtain rfl := Option.some.inj hb
      rw [(TreeNode.addVote_fixed _ _ _).1]
      exact hc.forest n (mem_nodes_of_mem_path hc.allocated.located hc.linked htarget
        (List.mem_of_mem_filter hn)).1
    · cases hev
  | finalized hsplit =>
    obtain rfl := Option.some.inj hb
    exact hc.forest _ (Rose.mem_nodesL_of_mem (sublist_splitRoots hsplit).1)

/-- **Events are about blocks the chain was given.** -/
theorem subject_run (K : Config H D) (fin : Finalized H D) (inputs : List (Input H D)) :
    ∀ b ∈ issued ChainEvent.subject ((Chain.new fin).delivered K inputs)
      ((Chain.new fin).run K inputs), b ∈ inputBlocks inputs := by
  refine run_standing (P := fun es c => ∀ b ∈ issued ChainEvent.subject es c, b ∈ inputBlocks inputs)
    (fun p _ => calm_true p.2) (fun _ hb => absurd hb List.not_mem_nil)
    fun es c e c' hact hc h b hb => ?_
  rcases hact.mem_issued hb with hb | ⟨ev, hev, hsubject⟩
  · exact h b hb
  · exact hev.subject_mem hc hsubject

end Chain

/-- The block that was made of an output is that of the output. -/
theorem Config.newExecuted_isOk {H D : Type} [DecidableEq H] {K : Config H D} {s : State}
    {b : Produced H D} {output : BlockOutput H} (h : K.execute s b.data = .ok output)
    (hhash : K.hashOutput output = b.stateHash) : (K.newExecuted s b).isOk = true := by
  simp only [newExecuted, h, if_pos hhash]
  rfl

/-! ## Runs of the net -/

namespace Net

variable {N H D : Type} [DecidableEq N] [DecidableEq H] {K : Config H D} {fin : Finalized H D}
  {key : N → Pubkey} {s : Net N H D} {i : N}

theorem honest_append {as as' : List (Action N H D)} :
    s.Honest K fin key (as ++ as') ↔ s.Honest K fin key as ∧ (s.run as).Honest K fin key as' := by
  induction as generalizing s with
  | nil => exact (and_iff_right trivial).symm
  | cons a as ih =>
    rw [List.cons_append, Honest, ih, ← and_assoc]
    rfl

theorem chain_call_self (input : Chain.Input H D) :
    (s.call i input).chain K fin i = (s.chain K fin i).step K input := by
  rw [chain, calls_call_self, Chain.run, List.foldl_append]
  rfl

/-- The event that the chain returned is one that the node has taken. -/
theorem mem_taken_poll {now : ℕ} {ev : ChainEvent H D}
    (h : ((s.chain K fin i).pollNext K now).1 = some ev) :
    ev ∈ (s.call i (.pollNext now)).taken K fin i := by
  rw [taken, calls_call_self, Chain.delivered_append_singleton]
  refine List.mem_append_right _ ?_
  show ev ∈ ((s.chain K fin i).pollNext K now).1.toList
  rw [h]
  exact List.mem_singleton_self ev

omit [DecidableEq N] in
/-- The events that a node has taken come from the blocks that reached it. -/
theorem Sound.subject_mem (h : Sound K fin key s) {ev : ChainEvent H D}
    (hev : ev ∈ s.taken K fin i) {b : Produced H D} (hb : ev.subject = some b) : b ∈ s.blocks :=
  h.arrived i b (Chain.subject_run K fin (s.calls i) b (Chain.mem_issued.2 ⟨ev, .inl hev, hb⟩))

omit [DecidableEq N] in
/-- And so do the blocks of its forest. -/
theorem Sound.forest_mem (h : Sound K fin key s) {n : TreeNode H D}
    (hn : n ∈ nodesL (s.chain K fin i).forktrees) : block n ∈ s.blocks :=
  (Chain.standing_run (B := {x | x ∈ s.blocks}) fin (h.arrived i)).2.forest n hn

end Net

end Consensus

/-! ## What a validator has -/

variable {N H : Type} [DecidableEq N] [DecidableEq H] {K : Config H (List Transaction)}
  {fin : Finalized H (List Transaction)} {keys : N → Keypair}
  {net net' : Net N H (List Transaction)} {i : N}

namespace Validators

/-- The addresses of the validators. -/
def pubkeys (keys : N → Keypair) (i : N) : Pubkey := (keys i).pubkey

/-- **What a validator may gossip**: blocks that were produced, and votes that
were signed. -/
def Vouched (K : Config H (List Transaction)) (fin : Finalized H (List Transaction))
    (keys : N → Keypair) (net : Net N H (List Transaction)) : Gossip H → Prop
  | .block b => b ∈ net.blocks
  | .vote v => net.Signed K fin (pubkeys keys) v
  | .missing _ | .transaction _ => True

/-- The votes in the mempool that verify were signed. -/
structure Collected (fin : Finalized H (List Transaction)) (keys : N → Keypair)
    (net : Net N H (List Transaction)) (p : BlockProducer K.crypto) : Prop where
  validators : p.validators = K.genesis.validators.map Prod.fst
  votes : ∀ v ∈ p.votes.votes, K.verifyVote v = true → net.Signed K fin (pubkeys keys) v

/-- **Everything a validator keeps comes from the net.** -/
structure Sourced (fin : Finalized H (List Transaction)) (keys : N → Keypair)
    (net : Net N H (List Transaction)) (n : Validator K) : Prop where
  pending : ∀ b, n.pending = some b → b ∈ net.blocks
  producer : Collected fin keys net n.producer
  channel : ∀ x ∈ n.channel, x.1.underlying ∈ net.blocks
  disk : ∀ h b, n.blocks.Retains h b → b ∈ net.blocks

/-- The net has grown: what was produced and what was signed is still there. -/
structure Grown (K : Config H (List Transaction)) (fin : Finalized H (List Transaction))
    (key : N → Pubkey) (net net' : Net N H (List Transaction)) : Prop where
  blocks : ∀ b ∈ net.blocks, b ∈ net'.blocks
  signed : ∀ v, net.Signed K fin key v → net'.Signed K fin key v

theorem Grown.of_step (key : N → Pubkey) (a : Action N H (List Transaction)) :
    Grown K fin key net (net.step a) := by
  cases a with
  | deliver i now b => exact ⟨fun _ h => h, fun v h => h.of_call i _⟩
  | poll i now => exact ⟨fun _ h => h, fun v h => h.of_call i _⟩
  | produce i b => exact ⟨fun x h => List.mem_cons_of_mem b h, fun v h => h⟩

/-- **A net only grows.** -/
theorem Grown.of_run (key : N → Pubkey) (as : List (Action N H (List Transaction))) :
    Grown K fin key net (net.run as) := by
  induction as generalizing net with
  | nil => exact ⟨fun _ h => h, fun _ h => h⟩
  | cons a as ih =>
    have hstep : Grown K fin key net (net.step a) := .of_step key a
    have hrest : Grown K fin key (net.step a) ((net.step a).run as) := ih
    exact ⟨fun b h => hrest.blocks b (hstep.blocks b h),
      fun v h => hrest.signed v (hstep.signed v h)⟩

omit [DecidableEq N] in
theorem Grown.vouched (h : Grown K fin (pubkeys keys) net net') {m : Gossip H}
    (hm : Vouched K fin keys net m) : Vouched K fin keys net' m := by
  cases m with
  | block b => exact h.blocks b hm
  | vote v => exact h.signed v hm
  | missing | transaction => trivial

omit [DecidableEq N] in
theorem Grown.sourced (h : Grown K fin (pubkeys keys) net net') {n : Validator K}
    (hn : Sourced fin keys net n) : Sourced fin keys net' n where
  pending b hb := h.blocks b (hn.pending b hb)
  producer := ⟨hn.producer.validators, fun v hv hverify =>
    h.signed v (hn.producer.votes v hv hverify)⟩
  channel x hx := h.blocks _ (hn.channel x hx)
  disk k b hb := h.blocks b (hn.disk k b hb)

/-! ## The mempool -/

section Mempool

omit [DecidableEq N]

variable {p : BlockProducer K.crypto}

/-- A vote that is recorded is that of a validator. -/
theorem Collected.recordVote (h : Collected fin keys net p) {v : Vote H}
    (hv : K.verifyVote v = true → v.validator ∈ K.genesis.validators.map Prod.fst →
      net.Signed K fin (pubkeys keys) v) : Collected fin keys net (p.recordVote v) := by
  refine ⟨BlockProducer.validators_recordVote.trans h.validators, fun w hw hverify => ?_⟩
  rw [BlockProducer.mem_recordVote] at hw
  split at hw
  · rename_i hmem
    rcases hw with rfl | ⟨hw, -⟩
    · exact hv hverify (h.validators ▸ hmem)
    · exact h.votes w hw hverify
  · exact h.votes w hw hverify

theorem Collected.recordTransaction (h : Collected fin keys net p) (tx : Transaction) :
    Collected fin keys net (p.recordTransaction tx) := ⟨h.validators, h.votes⟩

/-- The votes of a block that was produced were signed, those that verify. -/
theorem Collected.reuseDiscarded (h : Collected fin keys net p)
    {b : Produced H (List Transaction)}
    (hb : ∀ v ∈ b.votes, K.verifyVote v = true → net.Signed K fin (pubkeys keys) v) :
    Collected fin keys net (p.reuseDiscarded b) := by
  have hvotes : Collected fin keys net (b.votes.foldl (fun p v => p.recordVote v) p) :=
    List.foldlRecOn b.votes _ h fun q hq v hv => hq.recordVote fun hverify _ => hb v hv hverify
  exact List.foldlRecOn b.data _ hvotes fun q hq tx _ => hq.recordTransaction tx

theorem Collected.consume (h : Collected fin keys net p) (x : Executed H (List Transaction))
    (commitment : Commitment) : Collected fin keys net (p.consume x commitment) := by
  cases commitment with
  | confirmed | finalized => exact h
  | included =>
    refine ⟨h.validators, fun v hv hverify => ?_⟩
    exact h.votes v ((VotePool.mem_foldl_remove x.underlying.votes).1 hv).1 hverify

end Mempool

/-! ## One turn -/

/-- **What a turn does**: honest nodes could have done it, and what the
validator has and gossips comes from the net. -/
structure Turned (fin : Finalized H (List Transaction)) (keys : N → Keypair)
    (net : Net N H (List Transaction)) (i : N) (n' : Validator K) (gossip : List (Gossip H))
    (as : List (Action N H (List Transaction))) : Prop where
  honest : net.Honest K fin (pubkeys keys) as
  chain : n'.chain = (net.run as).chain K fin i
  others : ∀ j, j ≠ i → (net.run as).calls j = net.calls j
  sourced : Sourced fin keys (net.run as) n'
  vouched : ∀ m ∈ gossip, Vouched K fin keys (net.run as) m

variable {n n' : Validator K} {gossip : List (Gossip H)}

/-- A turn that does nothing to the net. -/
theorem Turned.still (hchain : n'.chain = net.chain K fin i) (hn : Sourced fin keys net n')
    (hgossip : ∀ m ∈ gossip, Vouched K fin keys net m) : Turned fin keys net i n' gossip [] :=
  ⟨trivial, hchain, fun _ _ => rfl, hn, hgossip⟩

/-- A block that was produced is included, if it is admitted. -/
theorem Turned.include (now : ℕ) {b : Produced H (List Transaction)} {c : Chain H (List Transaction)}
    (hc : c = net.chain K fin i) (hb : c.admits K b = true → b ∈ net.blocks)
    (hchain : n'.chain = c.include K now b) (hn : Sourced fin keys net n')
    (hgossip : ∀ m ∈ gossip, Vouched K fin keys net m) :
    Turned fin keys net i n' gossip (if c.admits K b then [.deliver i now b] else []) := by
  cases hadmits : c.admits K b with
  | false =>
    rw [Chain.include_idle now (.inl hadmits), hc] at hchain
    exact .still hchain hn hgossip
  | true =>
    have hgrown : Grown K fin (pubkeys keys) net (net.run [.deliver i now b]) := .of_run _ _
    refine ⟨⟨hb hadmits, trivial⟩, ?_, fun j hj => Net.calls_call_of_ne hj _, hgrown.sourced hn,
      fun m hm => hgrown.vouched (hgossip m hm)⟩
    rw [hchain, hc]
    exact (Net.chain_call_self (.include now b)).symm

/-- An event is taken from the chain, if there is one. -/
theorem Turned.poll (now : ℕ) (hchain : n'.chain = ((net.chain K fin i).pollNext K now).2)
    (hn : Sourced fin keys (net.call i (.pollNext now)) n')
    (hgossip : ∀ m ∈ gossip, Vouched K fin keys (net.call i (.pollNext now)) m) :
    Turned fin keys net i n' gossip [.poll i now] :=
  ⟨⟨trivial, trivial⟩, hchain.trans (Net.chain_call_self (.pollNext now)).symm,
    fun _ hj => Net.calls_call_of_ne hj _, hn, hgossip⟩

/-- What is made of an event that the chain returned. -/
theorem Turned.handle (hsound : net.Sound K fin (pubkeys keys)) (now : ℕ)
    (hn : Sourced fin keys net n) {c : Chain H (List Transaction)}
    {event : ChainEvent H (List Transaction)}
    (hpoll : (net.chain K fin i).pollNext K now = (some event, c)) :
    Turned fin keys net i ({ n with chain := c }.handle (keys i) event).1
      ({ n with chain := c }.handle (keys i) event).2 [.poll i now] := by
  have hc : c = ((net.chain K fin i).pollNext K now).2 := by rw [hpoll]
  have htaken : event ∈ (net.call i (.pollNext now)).taken K fin i :=
    Net.mem_taken_poll (by rw [hpoll])
  have hsound' : (net.call i (.pollNext now)).Sound K fin (pubkeys keys) :=
    hsound.of_step (a := .poll i now) trivial
  have hgrown : Grown K fin (pubkeys keys) net (net.call i (.pollNext now)) :=
    .of_step _ (.poll i now)
  have hn' := hgrown.sourced hn
  have hsent : ∀ x commitment, event.subject = some x.underlying →
      Turned fin keys net i { n with chain := c, channel := n.channel ++ [(x, commitment)] } []
        [.poll i now] := by
    intro x commitment hsubject
    refine .poll now hc ⟨hn'.pending, hn'.producer, fun y hy => ?_, hn'.disk⟩
      fun m hm => absurd hm List.not_mem_nil
    rcases List.mem_append.1 hy with hy | hy
    · exact hn'.channel y hy
    · obtain rfl := List.mem_singleton.1 hy
      exact hsound'.subject_mem htaken hsubject
  cases event with
  | vote target justification =>
    refine .poll now hc ⟨hn'.pending, hn'.producer, hn'.channel, hn'.disk⟩ fun m hm => ?_
    obtain rfl := List.mem_singleton.1 hm
    exact ⟨i, rfl, List.mem_filterMap.2 ⟨_, htaken, rfl⟩⟩
  | blockDiscarded b =>
    refine .poll now hc ⟨hn'.pending, ?_, hn'.channel, hn'.disk⟩
      fun m hm => absurd hm List.not_mem_nil
    exact hn'.producer.reuseDiscarded (hsound'.signed b (hsound'.subject_mem htaken rfl))
  | blockMissing hash =>
    refine .poll now hc ⟨hn'.pending, hn'.producer, hn'.channel, hn'.disk⟩ fun m hm => ?_
    obtain rfl := List.mem_singleton.1 hm
    trivial
  | blockIncluded x => exact hsent x .included rfl
  | blockConfirmed x votes => exact hsent x .confirmed rfl
  | blockFinalized x votes => exact hsent x .finalized rfl

variable [Ord H] [Std.TransOrd H]

omit [DecidableEq N] [Ord H] [Std.TransOrd H] in
/-- A block that is signed is one that `produce` passes on. -/
theorem produces_new {keypair : Keypair} {c : Chain H (List Transaction)} {txs : List Transaction}
    {output : BlockOutput H} {votes : List (Vote H)}
    (hsign : ∀ m, K.crypto.verifies keypair.pubkey m (keypair.sign m) = true)
    (hexecute : K.execute c.headState txs = .ok output) :
    Net.Produces K c keypair.pubkey (.new K keypair (c.headHeight + 1) (c.headHash K) txs
      (K.hashOutput output) votes) :=
  ⟨rfl, rfl, rfl, hsign _, Config.newExecuted_isOk hexecute rfl⟩

/-- A block is produced in a slot of the validator. -/
theorem Turned.produce (hsign : ∀ m, K.crypto.verifies (keys i).pubkey m ((keys i).sign m) = true)
    (hchain : n.chain = net.chain K fin i) (hn : Sourced fin keys net n)
    {b : Produced H (List Transaction)} (h : n.produce (keys i) = some n')
    (hpending : n'.pending = some b) : Turned fin keys net i n' [] [.produce i b] := by
  obtain ⟨b', output, hn', hproducer, -, hexecute, hb⟩ := Validator.produce_some h
  obtain rfl : b = b' := Option.some.inj (by rw [← hpending, hn'])
  have hgrown : Grown K fin (pubkeys keys) net (net.run [.produce i b]) := .of_run _ _
  have hs := hgrown.sourced hn
  refine ⟨⟨⟨?_, ?_⟩, trivial⟩, ?_, fun _ _ => rfl, ?_, fun m hm => absurd hm List.not_mem_nil⟩
  · rw [hb, ← hchain]
    exact produces_new hsign hexecute
  · -- the votes are those of the mempool
    rw [hb]
    exact hn.producer.votes
  · rw [hn']
    exact hchain
  · rw [hn']
    refine ⟨fun x hx => ?_, ⟨?_, ?_⟩, hs.channel, hs.disk⟩
    · exact Option.some.inj hx ▸ List.mem_cons_self
    · rw [hproducer]
      exact hs.producer.validators
    · rw [hproducer]
      exact fun v hv => absurd hv List.not_mem_nil

omit [DecidableEq N] [Ord H] [Std.TransOrd H] in
/-- A block that is replayed was produced. -/
theorem Sourced.replay (hsound : net.Sound K fin (pubkeys keys))
    (hchain : n.chain = net.chain K fin i) (hn : Sourced fin keys net n) {hash : H}
    {b : Produced H (List Transaction)} (hb : n.replay hash = some b) : b ∈ net.blocks := by
  rcases Option.or_eq_some_iff.1 hb with hb | ⟨-, hb⟩
  · obtain ⟨t, ht, rfl⟩ := Option.map_eq_some_iff.1 hb
    rw [hchain] at ht
    exact hsound.forest_mem (TreeNode.get_some ht).1
  · obtain ⟨x, hx, rfl⟩ := Option.map_eq_some_iff.1 hb
    unfold BlockStore.getByHash at hx
    split at hx
    · cases hx
    · rename_i h _
      refine hn.disk h _ ?_
      exact (Option.or_eq_some_iff.1 (BlockStore.getByHeight_some hx).1).imp id And.right

/-- A message that passes the checks it is put to is what it seems to be. -/
def Authentic (K : Config H (List Transaction)) (fin : Finalized H (List Transaction))
    (keys : N → Keypair) (net : Net N H (List Transaction)) : Gossip H → Prop
  | .block b => Chain.ValidlySigned K b → b ∈ net.blocks
  | .vote v => K.verifyVote v = true → v.validator ∈ K.genesis.validators.map Prod.fst →
      net.Signed K fin (pubkeys keys) v
  | .missing _ | .transaction _ => True

omit [DecidableEq N] [Ord H] [Std.TransOrd H] in
/-- The checks of `include`. -/
theorem Authentic.mem_blocks {b : Produced H (List Transaction)}
    (h : Authentic K fin keys net (.block b)) {c : Chain H (List Transaction)}
    (hb : c.admits K b = true) : b ∈ net.blocks := h (Chain.validlySigned_of_admits hb)

/-- **Every turn of a validator is one of an honest node.** -/
theorem Turned.of_does (hsign : ∀ m, K.crypto.verifies (keys i).pubkey m ((keys i).sign m) = true)
    (hsound : net.Sound K fin (pubkeys keys)) (hchain : n.chain = net.chain K fin i)
    (hn : Sourced fin keys net n) {t : Turn H}
    (ht : ∀ now r m, t = .network now r m → Authentic K fin keys net m)
    {as : List (Action N H (List Transaction))}
    (h : Validator.Does (keys i) i n t n' gossip as) : Turned fin keys net i n' gossip as := by
  have hsilent : ∀ m ∈ ([] : List (Gossip H)), Vouched K fin keys net m :=
    fun m hm => absurd hm List.not_mem_nil
  cases h with
  | wait => exact .still hchain ⟨hn.pending, hn.producer, hn.channel, hn.disk⟩ hsilent
  | replay responder hb =>
    refine .still hchain ⟨hn.pending, hn.producer, hn.channel, hn.disk⟩ fun m hm => ?_
    obtain rfl := List.mem_singleton.1 hm
    exact hn.replay hsound hchain hb
  | produce hproduce hb => exact .produce hsign hchain hn hproduce hb
  | receive now r b responder =>
    have hauth := ht now r (.block b) rfl
    exact .include now hchain hauth.mem_blocks rfl
      ⟨hn.pending, hn.producer, hn.channel, hn.disk⟩ hsilent
  | vote now r v =>
    have hauth := ht now r (.vote v) rfl
    exact .still hchain ⟨hn.pending, hn.producer.recordVote hauth, hn.channel, hn.disk⟩ hsilent
  | transaction now r tx =>
    exact .still hchain ⟨hn.pending, hn.producer.recordTransaction tx, hn.channel, hn.disk⟩ hsilent
  | @own now b hb =>
    have hmem := hn.pending b hb
    refine .include now hchain (fun _ => hmem) rfl
      ⟨nofun, hn.producer, hn.channel, hn.disk⟩ fun m hm => ?_
    obtain rfl := List.mem_singleton.1 hm
    exact hmem
  | @quiet now c hpoll =>
    have hs := (Grown.of_step (pubkeys keys) (.poll i now)).sourced hn
    refine .poll now ?_ ⟨hs.pending, hs.producer, hs.channel, hs.disk⟩
      fun m hm => absurd hm List.not_mem_nil
    rw [← hchain, hpoll]
  | event hpoll => exact .handle hsound _ hn (hchain ▸ hpoll)
  | rpc tx =>
    refine .still hchain hn fun m hm => ?_
    obtain rfl := List.mem_singleton.1 hm
    trivial
  | @consume x commitment channel hchannel =>
    have hx : x.underlying ∈ net.blocks := hn.channel (x, commitment) (by simp [hchannel])
    refine .still hchain ⟨hn.pending, hn.producer.consume x commitment, fun y hy => ?_,
      fun k b hb => ?_⟩ hsilent
    · exact hn.channel y (by simp [hchannel, hy])
    · rcases hb.of_consume with hb | ⟨-, -, rfl⟩
      · exact hn.disk k b hb
      · exact hx

/-! ## Runs -/

/-- **The validators mirror honest nodes**: what has happened so far is a run
of honest nodes, each validator that has not panicked has the chain of its
node, and what is kept or was gossiped comes from the net. -/
structure Mirrors (fin : Finalized H (List Transaction)) (keys : N → Keypair)
    (s : Validators N K) : Prop where
  honest : ({} : Net N H (List Transaction)).Honest K fin (pubkeys keys) s.past
  chain : ∀ i n, s.nodes i = some n → n.chain = s.net.chain K fin i
  sourced : ∀ i n, s.nodes i = some n → Sourced fin keys s.net n
  vouched : ∀ m ∈ s.wire, Vouched K fin keys s.net m

variable {s : Validators N K}

omit [Ord H] [Std.TransOrd H] in
theorem mirrors_start (fin : Finalized H (List Transaction)) (keys : N → Keypair)
    (responder : SwarmResponder H) (detailed : Bool) (historyLen : ℕ) :
    Mirrors fin keys (start fin responder detailed historyLen : Validators N K) where
  honest := trivial
  chain := by
    rintro i n hn
    obtain rfl := Option.some.inj hn
    rfl
  sourced := by
    rintro i n hn
    obtain rfl := Option.some.inj hn
    exact ⟨nofun, ⟨rfl, fun _ hv => absurd hv List.not_mem_nil⟩,
      fun _ hx => absurd hx List.not_mem_nil, fun h b hb => hb.elim nofun nofun⟩
  vouched := fun _ hm => absurd hm List.not_mem_nil

omit [Ord H] [Std.TransOrd H] in
theorem Mirrors.sound (h : Mirrors fin keys s) : s.net.Sound K fin (pubkeys keys) :=
  Net.sound_empty.of_honest h.honest

omit [Ord H] [Std.TransOrd H] in
/-- What arrives is what it seems to be, whether a validator gossiped it or
not. -/
theorem Mirrors.authentic (h : Mirrors fin keys s) {m : Gossip H} (hm : s.Genuine fin keys m) :
    Authentic K fin keys s.net m := by
  cases m with
  | block b => exact fun hsigned => hm.elim (h.vouched _) fun hb => hb hsigned.1 hsigned.2
  | vote v => exact fun hverify hval => hm.elim (h.vouched _) fun hv => hv hverify hval
  | missing | transaction => trivial

omit [Ord H] [Std.TransOrd H] in
/-- A validator that panics leaves the others alone. -/
theorem Mirrors.fall (h : Mirrors fin keys s) (i : N) :
    Mirrors fin keys { s with nodes := Function.update s.nodes i none } :=
  ⟨h.honest, forall_update (fun j m _ hj => h.chain j m hj) nofun,
    forall_update (fun j m _ hj => h.sourced j m hj) nofun, h.vouched⟩

omit [Ord H] [Std.TransOrd H] in
/-- And so does a turn. -/
theorem Mirrors.advance (h : Mirrors fin keys s) {as : List (Action N H (List Transaction))}
    (hturned : Turned fin keys s.net i n' gossip as) :
    Mirrors fin keys (s.advance i n' gossip as) := by
  have hgrown : Grown K fin (pubkeys keys) s.net (s.net.run as) := .of_run _ _
  refine ⟨Net.honest_append.2 ⟨h.honest, hturned.honest⟩, ?_, ?_, fun m hm => ?_⟩
  · rw [net_advance]
    refine forall_update (fun j m hji hj => ?_) fun m hm => Option.some.inj hm ▸ hturned.chain
    rw [h.chain j m hj, Net.chain, Net.chain, hturned.others j hji]
  · rw [net_advance]
    exact forall_update (fun j m _ hj => hgrown.sourced (h.sourced j m hj))
      fun m hm => Option.some.inj hm ▸ hturned.sourced
  · rw [net_advance]
    rcases List.mem_append.1 hm with hm | hm
    · exact hturned.vouched m hm
    · exact hgrown.vouched (h.vouched m hm)

/-- **A turn of a validator is a step of the honest nodes**, or none. -/
theorem Mirrors.step (hsign : ∀ i m, K.crypto.verifies (keys i).pubkey m ((keys i).sign m) = true)
    (h : Mirrors fin keys s) {max : ℕ} {a : N × Turn H} (ha : s.Allowed fin keys a) :
    Mirrors fin keys (s.step keys max a) := by
  obtain ⟨i, t⟩ := a
  rcases step_cases s keys max (i, t) with heq | heq | ⟨n, n', gossip, as, hi, hdoes, heq⟩
  · rwa [heq]
  · rw [heq]
    exact h.fall i
  · rw [heq]
    refine h.advance (.of_does (hsign i) h.sound (h.chain i n hi) (h.sourced i n hi) ?_ hdoes)
    rintro now r m rfl
    exact h.authentic ha

/-- Every run of the validators. -/
theorem Mirrors.run (hsign : ∀ i m, K.crypto.verifies (keys i).pubkey m ((keys i).sign m) = true)
    (h : Mirrors fin keys s) {max : ℕ} {turns : List (N × Turn H)}
    (hturns : Along (Validators.step keys max) (Allowed fin keys) s turns) :
    Mirrors fin keys (s.run keys max turns) :=
  hturns.rule (I := Mirrors fin keys) h fun _ _ h ha => h.step hsign ha

/-- **The validators are honest nodes.** In every run of the main loops over a
network that delays, loses, repeats and reorders what it carries and carries
anything else as well, as long as no signature is forged: what has happened is
a run of honest nodes, every validator that has not panicked has the chain of
its node, and the blocks under construction, on the way to the consumers and
on disk are blocks of the net. -/
theorem mirrors_run (K : Config H (List Transaction)) (fin : Finalized H (List Transaction))
    (keys : N → Keypair)
    (hsign : ∀ i m, K.crypto.verifies (keys i).pubkey m ((keys i).sign m) = true)
    (responder : SwarmResponder H) (detailed : Bool) (historyLen max : ℕ)
    (turns : List (N × Turn H))
    (hturns : Along (Validators.step keys max) (Allowed fin keys)
      (start fin responder detailed historyLen : Validators N K) turns) :
    Mirrors fin keys
      ((start fin responder detailed historyLen : Validators N K).run keys max turns) :=
  (mirrors_start fin keys responder detailed historyLen).run hsign hturns

/-! ## A run of two validators -/

/-- The network only carries what validators gossip. -/
def Relayed (s : Validators N K) : N × Turn H → Prop
  | (_, .network _ _ m) => m ∈ s.wire
  | _ => True

instance (s : Validators N K) : (a : N × Turn H) → Decidable (s.Relayed a)
  | (_, .network _ _ m) => inferInstanceAs (Decidable (m ∈ s.wire))
  | (_, .slot _) | (_, .reply _ _) | (_, .produced _) | (_, .chain _) | (_, .rpc _)
  | (_, .consume) => .isTrue trivial

omit [Ord H] [Std.TransOrd H] in
theorem Relayed.allowed {a : N × Turn H} (h : s.Relayed a) : s.Allowed fin keys a := by
  obtain ⟨i, t⟩ := a
  cases t with
  | network now r m =>
    cases m with
    | block | vote => exact .inl h
    | missing | transaction => trivial
  | slot | reply | produced | chain | rpc | consume => trivial

/-- A run over such a network. -/
theorem allowed_of_relayed {max : ℕ} {turns : List (N × Turn H)}
    (h : Along (Validators.step keys max) Relayed s turns) :
    Along (Validators.step keys max) (Allowed fin keys) s turns :=
  along_iff_forall.2 fun l a hl => (along_iff_forall.1 h l a hl).allowed

namespace Sample

/-- One validator has stake. Its blocks count their transactions in an
account. -/
def counter : Config ℕ (List Transaction) :=
  { Chain.Sample.config .inPlace [(7, 1000)] fun s txs => .ok
      { state := ({} : StateDiff).set 200
          { nonce := ((s 200).map Account.nonce).getD 0 + txs.length }
        logs := txs.map fun tx => (tx.hash Chain.Sample.crypto, []) } with
    hashData := fun txs => Chain.Sample.crypto.sha3
      (txs.flatMap fun tx => leBytes 8 (tx.hash Chain.Sample.crypto)) }

/-- The keys of the samples sign by putting themselves in front. -/
def keypair (k : Pubkey) : Keypair := ⟨k, fun message => k.bytes ++ message⟩

def keypairs : Fin 2 → Keypair := ![keypair 7, keypair 5]

theorem verifies_sign (i : Fin 2) (m : Bytes) :
    counter.crypto.verifies (keypairs i).pubkey m ((keypairs i).sign m) = true := by
  fin_cases i <;> exact beq_self_eq_true _

def begin : Validators (Fin 2) counter :=
  .start Chain.Sample.genesis { low := 1, high := 2 } true 10

/-- A signed transaction. -/
def payment : Transaction :=
  { contract := 1, nonce := 1, payer := 7, accounts := [], params := []
    signatures := [(keypair 7).sign (List.replicate 32 255)] }

def first : Produced ℕ (List Transaction) := .new counter (keypair 7) 1 1 [payment] 0 []

def second : Produced ℕ (List Transaction) :=
  .new counter (keypair 7) 2 (counter.hash first) [] 0 []

def ballot : Vote ℕ := .new counter (keypair 7) (counter.hash second) 1

def third : Produced ℕ (List Transaction) :=
  .new counter (keypair 7) 3 (counter.hash second) [] 0 [ballot]

local instance : NeZero 2 := ⟨two_ne_zero⟩

/-- The validator takes a transaction, produces three blocks and hears its own
vote; then the blocks reach the other one. -/
def turns : List (Fin 2 × Turn ℕ) :=
  List.flatten
    [[(0, .rpc payment), (0, .network 0 0 (.transaction payment)), (0, .slot 7), (0, .produced 0),
        (0, .slot 7), (0, .produced 0)],
      List.replicate 4 (0, .chain 0),
      [(0, .network 0 0 (.vote ballot)), (0, .slot 7), (0, .produced 0)],
      List.replicate 6 (0, .chain 0), List.replicate 6 (0, .consume),
      [(1, .network 0 0 (.block second)), (1, .network 0 0 (.block first)),
        (1, .network 0 0 (.block third))],
      List.replicate 10 (1, .chain 0), List.replicate 6 (1, .consume)]

theorem relayed : Along (Validators.step keypairs 100) Relayed begin turns := by decide +kernel

end Sample

/-- Two validators that have made the first of three blocks final. -/
theorem mirrors_turns :
    (∀ i, ((Sample.begin.run Sample.keypairs 100 Sample.turns).nodes i).map
      (fun n => n.chain.finalized.height) = some 1) ∧
    Mirrors Chain.Sample.genesis Sample.keypairs
      (Sample.begin.run Sample.keypairs 100 Sample.turns) :=
  ⟨by decide +kernel, mirrors_run Sample.counter Chain.Sample.genesis Sample.keypairs
    Sample.verifies_sign { low := 1, high := 2 } true 10 100 Sample.turns
    (allowed_of_relayed Sample.relayed)⟩

end Validators

end Rensa
