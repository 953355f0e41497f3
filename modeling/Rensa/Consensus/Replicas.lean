import Rensa.Consensus.Agreement
import Rensa.Consensus.Ledger
/-!
# Replicas

The nodes of one chain receive blocks in different orders, keep different
forests and make blocks final at different times. Where they agree on the
final blocks and each of them is a ledger, they are replicas of one state
machine: a node that is behind gets to the accounts of one that is ahead
by executing the final blocks it lacks, and two nodes at one height have the
same accounts (`replicas_run`).
-/

namespace Rensa

namespace Consensus

open ChainEvent (finality)
open Chain (CollisionFree Loyal Sees)

variable {H D : Type} [DecidableEq H] {K : Config H D}

/-! ## Ledgers of blocks that cannot be told apart -/

/-- Two blocks with one hash, and what the ledger reads of them. -/
structure Twin (K : Config H D) (b b' : Produced H D) : Prop where
  hash : K.hash b = K.hash b'
  data : b.data = b'.data

namespace Finalized

/-- The last final block has one hash and height, and the accounts are the
same. -/
structure Alike (K : Config H D) (s s' : Finalized H D) : Prop where
  hash : s.hash K = s'.hash K
  height : s.height = s'.height
  store : s.store = s'.store

variable {s s' t t' : Finalized H D} {b b' : Produced H D} {bs bs' : List (Produced H D)}

omit [DecidableEq H] in
theorem Alike.symm (h : Alike K s s') : Alike K s' s := ⟨h.hash.symm, h.height.symm, h.store.symm⟩

/-- What a block did to the ledger. -/
theorem extend_some (h : s.extend K b = some t) : b.parent = s.hash K ∧
    b.height = s.height + 1 ∧ ∃ x, K.newExecuted s.store.get b = .ok x ∧ t = s.apply x := by
  unfold extend at h
  split at h
  · rename_i hnext
    split at h
    · rename_i x hx
      exact ⟨hnext.1, hnext.2, x, hx, (Option.some.inj h).symm⟩
    · cases h
  · cases h

theorem replay_cons (h : s.replay K (b :: bs) = some t) :
    ∃ u, s.extend K b = some u ∧ u.replay K bs = some t := by
  unfold replay at h
  rw [List.foldlM_cons] at h
  exact Option.bind_eq_some_iff.1 h

/-- Ledgers that are alike take the same block to ledgers that are alike. -/
theorem Alike.extend (h : Alike K s s') (ht : s.extend K b = some t) :
    ∃ t', s'.extend K b = some t' ∧ Alike K t t' := by
  obtain ⟨hparent, hheight, x, hx, rfl⟩ := extend_some ht
  rw [h.hash] at hparent
  rw [h.height] at hheight
  rw [h.store] at hx
  refine ⟨s'.apply x, ?_, rfl, rfl, congrArg (·.apply x.output.state) h.store⟩
  rw [Finalized.extend, if_pos ⟨hparent, hheight⟩, hx]

/-- And the same blocks. -/
theorem Alike.replay (h : Alike K s s') (ht : s.replay K bs = some t) :
    ∃ t', s'.replay K bs = some t' ∧ Alike K t t' := by
  induction bs generalizing s s' with
  | nil =>
    obtain rfl := Option.some.inj ht
    exact ⟨s', rfl, h⟩
  | cons b bs ih =>
    obtain ⟨u, hu, ht⟩ := replay_cons ht
    obtain ⟨u', hu', halike⟩ := h.extend hu
    obtain ⟨t', ht', h'⟩ := ih halike ht
    refine ⟨t', ?_, h'⟩
    show (s'.extend K b).bind (·.replay K bs) = some t'
    rw [hu']
    exact ht'

/-- Two blocks that are twins do the same to ledgers that are alike. -/
theorem Alike.twin (h : Alike K s s') (hb : Twin K b b') (ht : s.extend K b = some t)
    (ht' : s'.extend K b' = some t') : Alike K t t' := by
  obtain ⟨-, hheight, x, hx, rfl⟩ := extend_some ht
  obtain ⟨-, hheight', x', hx', rfl⟩ := extend_some ht'
  obtain ⟨rfl, hout, -⟩ := Chain.newExecuted_ok hx
  obtain ⟨rfl, hout', -⟩ := Chain.newExecuted_ok hx'
  rw [← h.store, ← hb.data, hout] at hout'
  have houtput : x.output = x'.output := Except.ok.inj hout'
  refine ⟨hb.hash, ?_, ?_⟩
  · show x.underlying.height = x'.underlying.height
    rw [hheight, hheight', h.height]
  · show s.store.apply x.output.state = s'.store.apply x'.output.state
    rw [h.store, houtput]

/-- **Two ledgers of twins are alike.** -/
theorem Alike.twins (h : Alike K s s') (hbs : List.Forall₂ (Twin K) bs bs')
    (ht : s.replay K bs = some t) (ht' : s'.replay K bs' = some t') : Alike K t t' := by
  induction hbs generalizing s s' with
  | nil =>
    obtain rfl := Option.some.inj ht
    obtain rfl := Option.some.inj ht'
    exact h
  | cons hb _ ih =>
    obtain ⟨u, hu, ht⟩ := replay_cons ht
    obtain ⟨u', hu', ht'⟩ := replay_cons ht'
    exact ih (h.twin hb hu hu') ht ht'

/-- **The blocks of a ledger are at consecutive heights.** -/
theorem height_replay (h : s.replay K bs = some t) :
    t.height = s.height + bs.length ∧
      ∀ n (hn : n < bs.length), bs[n].height = s.height + n + 1 := by
  induction bs generalizing s with
  | nil =>
    obtain rfl := Option.some.inj h
    exact ⟨rfl, fun n hn => absurd hn (Nat.not_lt_zero n)⟩
  | cons b bs ih =>
    obtain ⟨u, hu, hrest⟩ := replay_cons h
    obtain ⟨-, hheight, x, hx, rfl⟩ := extend_some hu
    obtain ⟨rfl, -⟩ := Chain.newExecuted_ok hx
    obtain ⟨hlast, hmid⟩ := ih hrest
    have hnext : (s.apply x).height = s.height + 1 := hheight
    refine ⟨?_, fun n hn => ?_⟩
    · rw [hlast, hnext, List.length_cons]
      omega
    · cases n with
      | zero => exact hheight
      | succ n =>
        have hn' := hmid n (Nat.lt_of_succ_lt_succ hn)
        rw [hnext] at hn'
        rw [List.getElem_cons_succ, hn']
        omega

end Finalized

omit [DecidableEq H] in
/-- The payload is among the bytes that are hashed. -/
theorem Chain.CollisionFree.twin {fin : Finalized H D} {B : Set (Produced H D)}
    (h : CollisionFree K fin B)
    (hpayload : ∀ a ∈ B, ∀ b ∈ B, K.toBytes (K.hashData a.data) = K.toBytes (K.hashData b.data) →
      a.data = b.data) {a b : Produced H D} (ha : a ∈ B) (hb : b ∈ B)
    (heq : K.hash a = K.hash b) : Twin K a b := by
  refine ⟨heq, hpayload a ha b hb ?_⟩
  have hpre := h.digest a (.inl ha) b (.inl hb) heq
  simp only [Config.preimage, List.append_assoc] at hpre
  obtain ⟨-, hpre⟩ := List.append_inj hpre (by simp)
  obtain ⟨-, hpre⟩ := h.delimiting.unique hpre
  obtain ⟨-, hpre⟩ := h.delimiting.unique hpre
  obtain ⟨-, hpre⟩ := List.append_inj hpre (by simp)
  rw [(h.delimiting.unique hpre).1]

/-! ## The nodes of one chain -/

namespace Net

variable {N : Type} [DecidableEq N] {fin : Finalized H D} {key : N → Pubkey} {s : Net N H D}

/-- The blocks a node has made final, in order. -/
def log (K : Config H D) (fin : Finalized H D) (s : Net N H D) (i : N) : List (Produced H D) :=
  Chain.log (s.taken K fin i) (s.chain K fin i)

/-- A node hangs its blocks only where they read what the ledger has. -/
def Sees (K : Config H D) (fin : Finalized H D) (s : Net N H D) (i : N) : Prop :=
  ∀ p ∈ logged (Chain.step K) (fun c input => c.sites K input) (Chain.new fin) (s.calls i),
    Chain.Sees p.1 p.2

omit [DecidableEq N] in
theorem mem_finals_of_mem_log {i : N} {b : Produced H D} (h : b ∈ s.log K fin i) :
    b ∈ s.finals K fin i := by
  unfold log Chain.log at h
  unfold finals Chain.issued
  rw [List.mem_filterMap] at h ⊢
  obtain ⟨ev, hev, hb⟩ := h
  exact ⟨ev, by simpa using hev, hb⟩

omit [DecidableEq N] in
/-- **Two final blocks of one height are the same**, where no validator votes
for forks. -/
theorem Sound.hash_eq_of_final (h : Sound K fin key s) (hkey : Function.Injective key)
    (hbind : Chain.Binding K fin {x | x ∈ s.blocks}) (hpos : 0 < K.eligibleStake)
    (hlt : K.eligibleStake < 2 ^ 64)
    (hloyal : ∀ i, Loyal K fin {x | x ∈ s.blocks} (s.calls i)) {i j : N} {b b' : Produced H D}
    (hb : b ∈ s.finals K fin i) (hb' : b' ∈ s.finals K fin j) (hheight : b.height = b'.height) :
    K.hash b = K.hash b' := by
  obtain ⟨hmem, hcert⟩ := Chain.certified_run K fin _ b hb
  obtain ⟨hmem', hcert'⟩ := Chain.certified_run K fin _ b' hb'
  have hblock := h.arrived i b hmem
  have hblock' := h.arrived j b' hmem'
  -- an ancestor of the same height is the block itself
  rcases h.anc_of_certified hkey hbind hpos hlt hloyal (hcert.mono (h.arrived i))
      (hcert'.mono (h.arrived j)) with hanc | hanc
  · exact (h.height_lt_of_anc hbind hblock hanc b' hblock' rfl).resolve_right (by omega)
  · exact ((h.height_lt_of_anc hbind hblock' hanc b hblock rfl).resolve_right (by omega)).symm

omit [DecidableEq N] in
/-- A node that reads what the ledger has is one. -/
theorem Sees.replay {i : N} (h : s.Sees K fin i) :
    fin.replay K (s.log K fin i) = some (s.chain K fin i).finalized := by
  have hrun := (Chain.run_sighted (Chain.new fin) (s.calls i) h).rule
    (P := Chain.Ledgered K fin) (Chain.ledgered_new fin) fun _ _ _ _ hact h => h.of_sighted hact
  exact hrun.replayed

/-- **Replicas.** In every run of honest nodes in which no node votes for a
fork of what it voted for before, the stakes do not wrap, no two blocks have
one hash by accident and blocks are hung only where they read what the ledger
has: executing the final blocks that a node lacks, of those of another node
that is not behind, takes its accounts to the accounts of that node; so nodes
at one height have the same accounts. -/
theorem replicas_run (K : Config H D) (fin : Finalized H D) (key : N → Pubkey)
    (hkey : Function.Injective key) (as : List (Action N H D))
    (hhonest : ({} : Net N H D).Honest K fin key as)
    (hfree : CollisionFree K fin {x | x ∈ (({} : Net N H D).run as).blocks})
    (hpayload : ∀ a ∈ (({} : Net N H D).run as).blocks, ∀ b ∈ (({} : Net N H D).run as).blocks,
      K.toBytes (K.hashData a.data) = K.toBytes (K.hashData b.data) → a.data = b.data)
    (hpos : 0 < K.eligibleStake) (hlt : K.eligibleStake < 2 ^ 64)
    (hloyal : ∀ i, Loyal K fin {x | x ∈ (({} : Net N H D).run as).blocks}
      ((({} : Net N H D).run as).calls i))
    (hsees : ∀ i, (({} : Net N H D).run as).Sees K fin i) (i j : N)
    (hbehind : ((({} : Net N H D).run as).chain K fin i).finalized.height ≤
      ((({} : Net N H D).run as).chain K fin j).finalized.height) :
    let s := ({} : Net N H D).run as
    let lacking := (s.log K fin j).drop (s.log K fin i).length
    (∃ t, (s.chain K fin i).finalized.replay K lacking = some t ∧
      t.hash K = (s.chain K fin j).finalized.hash K ∧
      t.store = (s.chain K fin j).finalized.store) ∧
    ((s.chain K fin i).finalized.height = (s.chain K fin j).finalized.height →
      (s.chain K fin i).finalized.store = (s.chain K fin j).finalized.store) := by
  have hsound : Sound K fin key (({} : Net N H D).run as) := sound_empty.of_honest hhonest
  generalize ({} : Net N H D).run as = s at *
  dsimp only
  have hi := (hsees i).replay
  have hj := (hsees j).replay
  obtain ⟨hheighti, hati⟩ := Finalized.height_replay hi
  obtain ⟨hheightj, hatj⟩ := Finalized.height_replay hj
  have hle : (s.log K fin i).length ≤ (s.log K fin j).length := by omega
  -- the final blocks up to the height of the node behind are twins
  have htwins : List.Forall₂ (Twin K) (s.log K fin i)
      ((s.log K fin j).take (s.log K fin i).length) := by
    refine List.forall₂_iff_get.2 ⟨by rw [List.length_take, Nat.min_eq_left hle], fun n hn hn' => ?_⟩
    have hmem := mem_finals_of_mem_log (List.getElem_mem hn)
    have hmem' := mem_finals_of_mem_log (List.getElem_mem (hn.trans_le hle))
    rw [List.get_eq_getElem, List.get_eq_getElem, List.getElem_take]
    refine hfree.twin hpayload (hsound.arrived i _ (Chain.certified_run K fin _ _ hmem).1)
      (hsound.arrived j _ (Chain.certified_run K fin _ _ hmem').1) ?_
    refine hsound.hash_eq_of_final hkey hfree.binding hpos hlt hloyal hmem hmem' ?_
    rw [hati n hn, hatj n (hn.trans_le hle)]
  -- the node ahead was alike at that height, and went on from there
  rw [← List.take_append_drop (s.log K fin i).length (s.log K fin j),
    Finalized.replay_append] at hj
  obtain ⟨u, hu, hrest⟩ := Option.bind_eq_some_iff.1 hj
  have halike : Finalized.Alike K (s.chain K fin i).finalized u :=
    Finalized.Alike.twins ⟨rfl, rfl, rfl⟩ htwins hi hu
  obtain ⟨t, ht, halike'⟩ := (halike.symm).replay hrest
  refine ⟨⟨t, ht, halike'.hash.symm, halike'.store.symm⟩, fun hheight => ?_⟩
  have hnone : (s.log K fin j).drop (s.log K fin i).length = [] :=
    List.drop_eq_nil_iff.2 (by omega)
  rw [hnone] at ht
  obtain rfl := Option.some.inj ht
  exact halike'.store.symm

open Chain.Sample in
/-- A node that has made the first block final, and one that is about to. -/
theorem replicas_shared :
    let s := ({} : Net (Fin 2) ℕ Unit).run shared.dropLast
    (s.log counter genesis 0 = [first] ∧ s.log counter genesis 1 = []) ∧
    (∃ t, (s.chain counter genesis 1).finalized.replay counter
        ((s.log counter genesis 0).drop (s.log counter genesis 1).length) = some t ∧
      t.hash counter = (s.chain counter genesis 0).finalized.hash counter ∧
      t.store = (s.chain counter genesis 0).finalized.store) ∧
    ((s.chain counter genesis 1).finalized.height = (s.chain counter genesis 0).finalized.height →
      (s.chain counter genesis 1).finalized.store =
        (s.chain counter genesis 0).finalized.store) := by
  have hhonest : ({} : Net (Fin 2) ℕ Unit).Honest counter genesis twoKeys shared.dropLast := by
    decide +kernel
  have hsound := sound_empty.of_honest hhonest
  have hfree : CollisionFree counter genesis
      {x | x ∈ (({} : Net (Fin 2) ℕ Unit).run shared.dropLast).blocks} :=
    .of_list rfl selfDelimiting_uvarint (by decide +kernel) (by decide +kernel)
  have hchain : (({} : Net (Fin 2) ℕ Unit).run shared.dropLast).blocks.reverse.IsChain
      fun a b => b.parent = counter.hash a := by decide +kernel
  have hsites : ∀ i, ∀ p ∈ logged (Chain.step counter) (fun c input => c.sites counter input)
      (Chain.new genesis) ((({} : Net (Fin 2) ℕ Unit).run shared.dropLast).calls i),
      Chain.Clear p.1 := by
    decide +kernel
  refine ⟨⟨by decide +kernel, by decide +kernel⟩,
    replicas_run counter genesis twoKeys (by decide) shared.dropLast hhonest hfree
      (fun _ _ _ _ _ => rfl) (by decide +kernel) (by decide +kernel) (fun i => ?_)
      (fun i p hp => (hsites i p hp).sees) 1 0 (by decide +kernel)⟩
  exact Chain.loyal_of_isChain (fun _ hb => List.mem_reverse.1 hb) hchain fun b hb =>
    List.mem_reverse.2 (hsound.arrived i b hb)

end Net

end Consensus

end Rensa
