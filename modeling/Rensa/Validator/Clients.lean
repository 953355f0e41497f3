import Rensa.Validator.Honest
/-!
# What clients are told

A client asks some validator for the final block of a height, and gets what
the validator has on disk. Such a block went from the chain through the
channel to the disk, so it is final for the node of the validator, and two
validators answer alike (`answers_run`).
-/

namespace Rensa

open Consensus Network Producer
open Consensus.ChainEvent (finality)
open Consensus.Chain (CollisionFree Loyal)

/-! ## The disk -/

/-- **A final block on disk** was there, or is the block that is consumed. -/
theorem BlockStore.get_finalized_consume {H D : Type} [DecidableEq H] {K : Config H D}
    {txs : D → List H} {s : BlockStore H D} {x : Executed H D} {commitment : Commitment} {h : ℕ}
    {b : Produced H D} (hb : (s.consume K txs x commitment).1.finalized.get h = some b) :
    s.finalized.get h = some b ∨
      commitment = .finalized ∧ h = x.underlying.height ∧ b = x.underlying := by
  have hcut : ∀ (t : Tree (Produced H D)) (k : ℕ),
      (if s.whole txs x then t.above k else t).get h = some b → t.get h = some b := by
    intro t k ht
    split at ht
    · rw [Tree.get_above] at ht
      split at ht
      · exact ht
      · cases ht
    · exact ht
  cases commitment with
  | included => exact .inl hb
  | confirmed =>
    rw [finalized_consume_confirmed] at hb
    exact .inl (hcut _ _ hb)
  | finalized =>
    by_cases hx : x.underlying.height = s.latestHeight + 1
    · rw [finalized_consume_finalized hx] at hb
      have hput := hcut _ _ hb
      rw [Tree.get_insert] at hput
      split at hput
      · exact .inr ⟨rfl, ‹_›, (Option.some.inj hput).symm⟩
      · exact .inl hput
    · have hnone : s.storeRawBlock x.underlying .finalized = none := by
        rw [storeRawBlock, if_pos hx]
      rw [BlockStore.consume, if_neg (by decide), hnone] at hb
      exact .inl hb

/-- `get_by_height` reads a final block where it finds no confirmed one. -/
theorem BlockStore.getByHeight_finalized {H D : Type} {s : BlockStore H D} {x : Executed H D}
    {h : ℕ} (hx : s.getByHeight h = some (x, .finalized)) :
    s.finalized.get h = some x.underlying := by
  unfold getByHeight at hx
  cases hconf : s.confirmed.get h with
  | some b =>
    simp only [hconf, Option.map_eq_some_iff] at hx
    obtain ⟨o, -, heq⟩ := hx
    cases heq
  | none =>
    cases hfin : s.finalized.get h with
    | none => simp [hconf, hfin] at hx
    | some b =>
      simp only [hconf, hfin, Option.map_some, Option.map_eq_some_iff] at hx
      obtain ⟨o, -, heq⟩ := hx
      cases heq
      rfl

namespace Validators

variable {N H : Type} [DecidableEq N] [DecidableEq H] {K : Config H (List Transaction)}
  {fin : Finalized H (List Transaction)} {keys : N → Keypair}
  {net : Net N H (List Transaction)} {i : N} {n n' : Validator K} {gossip : List (Gossip H)}
  {as : List (Action N H (List Transaction))}

/-- The final blocks a node has taken from its chain. -/
def settled (K : Config H (List Transaction)) (fin : Finalized H (List Transaction))
    (net : Net N H (List Transaction)) (i : N) : List (Produced H (List Transaction)) :=
  (net.taken K fin i).filterMap finality

/-- **What a validator passes on as final is final**, and it is on disk under
its height. -/
structure Settled (fin : Finalized H (List Transaction)) (net : Net N H (List Transaction))
    (i : N) (n : Validator K) : Prop where
  channel : ∀ x, (x, .finalized) ∈ n.channel → x.underlying ∈ settled K fin net i
  disk : ∀ h b, n.blocks.finalized.get h = some b → b.height = h ∧ b ∈ settled K fin net i

/-- What a node has taken stays taken. -/
theorem settled_step {b : Produced H (List Transaction)} (hb : b ∈ settled K fin net i)
    (a : Action N H (List Transaction)) : b ∈ settled K fin (net.step a) i := by
  have hcall : ∀ j input, b ∈ settled K fin (net.call j input) i := by
    intro j input
    by_cases hji : i = j
    · subst hji
      rw [settled, Net.taken, Net.calls_call_self, Chain.delivered_append_singleton,
        List.filterMap_append]
      exact List.mem_append_left _ hb
    · rw [settled, Net.taken, Net.calls_call_of_ne hji]
      exact hb
  cases a with
  | deliver j now x => exact hcall j _
  | poll j now => exact hcall j _
  | produce => exact hb

theorem settled_run {b : Produced H (List Transaction)} (hb : b ∈ settled K fin net i)
    (as : List (Action N H (List Transaction))) : b ∈ settled K fin (net.run as) i := by
  induction as generalizing net with
  | nil => exact hb
  | cons a as ih => exact ih (settled_step hb a)

theorem Settled.of_run (h : Settled fin net i n) (as : List (Action N H (List Transaction))) :
    Settled fin (net.run as) i n :=
  ⟨fun x hx => settled_run (h.channel x hx) as,
    fun k b hb => (h.disk k b hb).imp id fun hb => settled_run hb as⟩

omit [DecidableEq N] in
/-- An event that is taken goes into the channel as what it is. -/
theorem Settled.handle (h : Settled fin net i n) (keypair : Keypair)
    {event : ChainEvent H (List Transaction)}
    (hevent : ∀ b, finality event = some b → b ∈ settled K fin net i) :
    Settled fin net i (n.handle keypair event).1 := by
  have hsent : ∀ x commitment, (commitment = Commitment.finalized →
      x.underlying ∈ settled K fin net i) →
      Settled fin net i { n with channel := n.channel ++ [(x, commitment)] } := by
    refine fun x commitment hx => ⟨fun y hy => ?_, h.disk⟩
    rcases List.mem_append.1 hy with hy | hy
    · exact h.channel y hy
    · obtain ⟨rfl, rfl⟩ := Prod.mk.inj (List.mem_singleton.1 hy)
      exact hx rfl
  cases event with
  | vote | blockDiscarded | blockMissing => exact ⟨h.channel, h.disk⟩
  | blockIncluded x => exact hsent x .included nofun
  | blockConfirmed x votes => exact hsent x .confirmed nofun
  | blockFinalized x votes => exact hsent x .finalized fun _ => hevent x.underlying rfl

variable [Ord H] [Std.TransOrd H]

theorem Settled.of_does (h : Settled fin net i n) (hchain : n.chain = net.chain K fin i)
    {keypair : Keypair} {t : Turn H} (hdoes : Validator.Does keypair i n t n' gossip as) :
    Settled fin (net.run as) i n' := by
  have hgrown : Settled fin (net.run as) i n := h.of_run as
  cases hdoes with
  | wait | replay | receive | vote | transaction | own | quiet | rpc =>
    exact ⟨hgrown.channel, hgrown.disk⟩
  | produce hproduce =>
    obtain ⟨b, output, hn, -⟩ := Validator.produce_some hproduce
    rw [hn]
    exact ⟨hgrown.channel, hgrown.disk⟩
  | @event now c event hpoll =>
    have hs : Settled fin (net.run [.poll i now]) i { n with chain := c } :=
      ⟨hgrown.channel, hgrown.disk⟩
    refine hs.handle keypair fun b hb => List.mem_filterMap.2 ⟨event, ?_, hb⟩
    exact Net.mem_taken_poll (by rw [← hchain, hpoll])
  | @consume x commitment channel hchannel =>
    refine ⟨fun y hy => hgrown.channel y (by simp [hchannel, hy]), fun k b hb => ?_⟩
    rcases BlockStore.get_finalized_consume hb with hb | ⟨rfl, rfl, rfl⟩
    · exact hgrown.disk k b hb
    · exact ⟨rfl, hgrown.channel x (by simp [hchannel])⟩

/-- Every run of the validators. -/
theorem settled_nodes {s : Validators N K}
    (hsign : ∀ i m, K.crypto.verifies (keys i).pubkey m ((keys i).sign m) = true)
    (hmirrors : Mirrors fin keys s) (h : ∀ i n, s.nodes i = some n → Settled fin s.net i n)
    {max : ℕ} {turns : List (N × Turn H)}
    (hturns : Along (Validators.step keys max) (Allowed fin keys) s turns) :
    ∀ i n, (s.run keys max turns).nodes i = some n →
      Settled fin (s.run keys max turns).net i n := by
  refine (hturns.rule (I := fun s => Mirrors fin keys s ∧
    ∀ i n, s.nodes i = some n → Settled fin s.net i n) ⟨hmirrors, h⟩ fun s a hs ha =>
      ⟨hs.1.step hsign ha, ?_⟩).2
  rcases step_cases s keys max a with heq | heq | ⟨n, n', gossip, as, hi, hdoes, heq⟩
  · rw [heq]
    exact hs.2
  · rw [heq]
    exact forall_update (fun j m _ hj => hs.2 j m hj) nofun
  · rw [heq, net_advance]
    refine forall_update (fun j m _ hj => (hs.2 j m hj).of_run as) fun m hm => ?_
    obtain rfl := Option.some.inj hm
    exact (hs.2 a.1 n hi).of_does (hs.1.chain a.1 n hi) hdoes

/-- **Clients are told the same.** In every run of the main loops in which no
signature is forged, no validator votes for a fork of what it voted for
before, the stakes do not wrap and no two blocks have one hash by accident:
whatever two validators answer for the final block of a height, at any time
and however much they have pruned, is a block of one hash and one list of
transactions. -/
theorem answers_run (K : Config H (List Transaction)) (fin : Finalized H (List Transaction))
    (keys : N → Keypair) (hkey : Function.Injective fun i => (keys i).pubkey)
    (hsign : ∀ i m, K.crypto.verifies (keys i).pubkey m ((keys i).sign m) = true)
    (responder : SwarmResponder H) (detailed : Bool) (historyLen max : ℕ)
    (turns : List (N × Turn H))
    (hturns : Along (Validators.step keys max) (Allowed fin keys)
      (start fin responder detailed historyLen : Validators N K) turns)
    (hpos : 0 < K.eligibleStake) (hlt : K.eligibleStake < 2 ^ 64) :
    let s := (start fin responder detailed historyLen : Validators N K).run keys max turns
    CollisionFree K fin {x | x ∈ s.net.blocks} →
    (∀ a ∈ s.net.blocks, ∀ b ∈ s.net.blocks,
      K.toBytes (K.hashData a.data) = K.toBytes (K.hashData b.data) → a.data = b.data) →
    (∀ i, Loyal K fin {x | x ∈ s.net.blocks} (s.net.calls i)) →
    ∀ i j n m, s.nodes i = some n → s.nodes j = some m → ∀ h x y,
      n.blocks.getByHeight h = some (x, .finalized) →
      m.blocks.getByHeight h = some (y, .finalized) →
      K.hash x.underlying = K.hash y.underlying ∧ x.underlying.data = y.underlying.data := by
  intro s hfree hpayload hloyal i j n m hi hj h x y hx hy
  have hstart := mirrors_start (K := K) fin keys responder detailed historyLen
  have hmirrors : Mirrors fin keys s := hstart.run hsign hturns
  have hsettled : ∀ i n, s.nodes i = some n → Settled fin s.net i n := by
    refine settled_nodes hsign hstart (fun i n hn => ?_) hturns
    obtain rfl := Option.some.inj hn
    exact ⟨fun _ hx => absurd hx List.not_mem_nil, nofun⟩
  have hfinal : ∀ i b, b ∈ settled K fin s.net i → b ∈ s.net.finals K fin i := by
    intro i b hb
    rw [Net.finals, Chain.issued, List.filterMap_append]
    exact List.mem_append_left _ hb
  obtain ⟨hheight, hmem⟩ := (hsettled i n hi).disk h _ (BlockStore.getByHeight_finalized hx)
  obtain ⟨hheight', hmem'⟩ := (hsettled j m hj).disk h _ (BlockStore.getByHeight_finalized hy)
  have hhash : K.hash x.underlying = K.hash y.underlying :=
    hmirrors.sound.hash_eq_of_final hkey hfree.binding hpos hlt hloyal (hfinal i _ hmem)
      (hfinal j _ hmem') (hheight.trans hheight'.symm)
  have hblock : ∀ i b, b ∈ settled K fin s.net i → b ∈ s.net.blocks := fun i b hb =>
    hmirrors.sound.arrived i b (Chain.certified_run K fin _ b (hfinal i b hb)).1
  exact ⟨hhash, (hfree.twin hpayload (hblock i _ hmem) (hblock j _ hmem') hhash).data⟩

/-- The first of three blocks is on the disks of two validators. -/
theorem answers_turns :
    let s := Sample.begin.run Sample.keypairs 100 Sample.turns
    (∀ i, ((s.nodes i).bind fun n => n.blocks.getByHeight 1).map
      (fun x => (x.1.underlying, x.2)) = some (Sample.first, .finalized)) ∧
    ∀ i j n m, s.nodes i = some n → s.nodes j = some m → ∀ h x y,
      n.blocks.getByHeight h = some (x, .finalized) →
      m.blocks.getByHeight h = some (y, .finalized) →
      Sample.counter.hash x.underlying = Sample.counter.hash y.underlying ∧
        x.underlying.data = y.underlying.data := by
  have hmirrors := (mirrors_start (K := Sample.counter) Chain.Sample.genesis Sample.keypairs
    { low := 1, high := 2 } true 10).run Sample.verifies_sign
      (allowed_of_relayed Sample.relayed)
  have hblocks : (Sample.begin.run Sample.keypairs 100 Sample.turns).net.blocks =
      [Sample.third, Sample.second, Sample.first] := by decide +kernel
  have hfree : CollisionFree Sample.counter Chain.Sample.genesis
      {x | x ∈ (Sample.begin.run Sample.keypairs 100 Sample.turns).net.blocks} := by
    rw [hblocks]
    exact .of_list rfl selfDelimiting_uvarint (by decide +kernel)
      (by decide +kernel)
  have hchain : [Sample.first, Sample.second, Sample.third].IsChain
      fun a b => b.parent = Sample.counter.hash a := by decide +kernel
  have hkey : Function.Injective fun i => (Sample.keypairs i).pubkey := by decide
  have hanswers := answers_run Sample.counter Chain.Sample.genesis Sample.keypairs hkey
    Sample.verifies_sign { low := 1, high := 2 } true 10 100 Sample.turns
    (allowed_of_relayed Sample.relayed) (by decide) (by decide)
  have hpayload : ∀ a ∈ [Sample.third, Sample.second, Sample.first],
      ∀ b ∈ [Sample.third, Sample.second, Sample.first],
        Sample.counter.toBytes (Sample.counter.hashData a.data) =
          Sample.counter.toBytes (Sample.counter.hashData b.data) → a.data = b.data := by
    decide +kernel
  refine ⟨by decide +kernel, ?_⟩
  unfold Sample.begin at *
  refine hanswers hfree (fun a ha b hb => hpayload a (hblocks ▸ ha) b (hblocks ▸ hb)) fun i => ?_
  refine Chain.loyal_of_isChain (fun b hb => ?_) hchain fun b hb => ?_
  · rw [Set.mem_ofPred_eq, hblocks]
    exact List.mem_reverse.2 hb
  · have hmem := hmirrors.sound.arrived i b hb
    rw [hblocks] at hmem
    exact List.mem_reverse.1 hmem

end Validators

end Rensa
