import Rensa.Consensus.Net
/-!
# Agreement on final blocks

Two final blocks of one height each have a majority behind them, so some
validator has voted for both or for descendants of both. Where its votes
are for blocks on one line, the two blocks are ancestors of one block, and
of one height, so they are the same (`agreement_run`). `commit_and_vote`
compares a vote with the last one of the same epoch only: a validator that
sees another fork grow votes for it in the next epoch, and two nodes may
finalize two blocks of one height (`not_agreement_forked`).
-/

namespace Rensa

namespace Consensus

open ChainEvent (finality ballot)
open Chain (Anc Binding Certified CollisionFree HeightOf Loyal)

namespace Net

variable {N H D : Type} [DecidableEq N] [DecidableEq H] {K : Config H D} {fin : Finalized H D}
  {key : N → Pubkey} {s : Net N H D}

/-- The blocks a node has finalized. -/
def finals (K : Config H D) (fin : Finalized H D) (s : Net N H D) (i : N) : List (Produced H D) :=
  Chain.issued finality (s.taken K fin i) (s.chain K fin i)

/-! ## Heights -/

omit [DecidableEq N] in
/-- **An ancestor is lower**, if it is another block. -/
theorem Sound.height_lt_of_anc (h : Sound K fin key s) (hbind : Binding K fin {x | x ∈ s.blocks})
    {b : Produced H D} (hb : b ∈ s.blocks) {t : H} (hanc : Anc K {x | x ∈ s.blocks} (K.hash b) t) :
    ∀ x ∈ s.blocks, K.hash x = t → K.hash b = t ∨ b.height < x.height := by
  induction hanc with
  | refl => exact fun _ _ _ => Or.inl rfl
  | @tail u t hanc hstep ih =>
    rintro x hx hhash
    obtain ⟨y, hy, hyhash, rfl⟩ := hstep
    obtain ⟨p, hp, hphash⟩ := Anc.exists_block hb hanc
    obtain ⟨k, hk, hheight⟩ := h.above y hy
    obtain rfl : p.height = k := HeightOf.unique hbind (Or.inl ⟨p, hp, hphash, rfl⟩) hk
    have hsame : x.height = y.height := hbind.height x hx y hy (hhash.trans hyhash.symm)
    right
    rcases ih p hp hphash with heq | hlt
    · have := hbind.height b hb p hp (heq.trans hphash.symm)
      omega
    · omega

/-! ## Agreement -/

omit [DecidableEq N] in
/-- **Two blocks with a majority are on one line**, where no validator votes
for forks. -/
theorem Sound.anc_of_certified (h : Sound K fin key s) (hkey : Function.Injective key)
    (hbind : Binding K fin {x | x ∈ s.blocks}) (hpos : 0 < K.eligibleStake)
    (hlt : K.eligibleStake < 2 ^ 64)
    (hloyal : ∀ i, Loyal K fin {x | x ∈ s.blocks} (s.calls i)) {t t' : H}
    (ht : Certified K {x | x ∈ s.blocks} t) (ht' : Certified K {x | x ∈ s.blocks} t') :
    Anc K {x | x ∈ s.blocks} t t' ∨ Anc K {x | x ∈ s.blocks} t' t := by
  obtain ⟨q, heligible, hstake, hvotes⟩ := ht
  obtain ⟨q', heligible', hstake', hvotes'⟩ := ht'
  have hmajority := Config.lt_two_mul_majority hpos hlt
  obtain ⟨k, hk, hk'⟩ := Config.exists_mem_inter heligible heligible' (by omega)
  obtain ⟨v, hvk, hverify, ⟨x, hx, hvx⟩, hanc⟩ := hvotes k hk
  obtain ⟨w, hwk, hverify', ⟨y, hy, hwy⟩, hanc'⟩ := hvotes' k hk'
  obtain ⟨i, hi, hv⟩ := h.signed x hx v hvx hverify
  obtain ⟨j, hj, hw⟩ := h.signed y hy w hwy hverify'
  -- one node has cast both votes
  obtain rfl : i = j := hkey (by rw [hi, hj, hvk, hwk])
  have hissued : ∀ u : Vote H,
      (u.justification, u.target) ∈ (s.taken K fin i).filterMap ballot →
        (u.justification, u.target) ∈ Chain.issued ballot (s.taken K fin i) (s.chain K fin i) := by
    intro u hu
    rw [Chain.issued, List.filterMap_append]
    exact List.mem_append_left _ hu
  rcases Chain.onLine_run (hloyal i) _ (hissued v hv) _ (hissued w hw) with hline | hline
  · exact Anc.total hbind (hanc.trans hline) hanc'
  · exact Anc.total hbind hanc (hanc'.trans hline)

/-- **Agreement.** In every run of honest nodes in which no node votes for a
fork of what it voted for before, and the stakes do not wrap, two blocks of
one height that any two nodes have finalized are the same. -/
theorem agreement_run (K : Config H D) (fin : Finalized H D) (key : N → Pubkey)
    (hkey : Function.Injective key) (as : List (Action N H D))
    (hhonest : ({} : Net N H D).Honest K fin key as)
    (hfree : CollisionFree K fin {x | x ∈ (({} : Net N H D).run as).blocks})
    (hpos : 0 < K.eligibleStake) (hlt : K.eligibleStake < 2 ^ 64)
    (hloyal : ∀ i, Loyal K fin {x | x ∈ (({} : Net N H D).run as).blocks}
      ((({} : Net N H D).run as).calls i)) :
    ∀ i j, ∀ b ∈ (({} : Net N H D).run as).finals K fin i,
      ∀ b' ∈ (({} : Net N H D).run as).finals K fin j,
        b.height = b'.height → K.hash b = K.hash b' := by
  have hsound : Sound K fin key (({} : Net N H D).run as) := sound_empty.of_honest hhonest
  intro i j b hb b' hb' hheight
  obtain ⟨hmem, hcert⟩ := Chain.certified_run K fin _ b hb
  obtain ⟨hmem', hcert'⟩ := Chain.certified_run K fin _ b' hb'
  have hblock := hsound.arrived i b hmem
  have hblock' := hsound.arrived j b' hmem'
  have hbind := hfree.binding
  rcases hsound.anc_of_certified hkey hbind hpos hlt hloyal (hcert.mono (hsound.arrived i))
      (hcert'.mono (hsound.arrived j)) with hanc | hanc
  · rcases hsound.height_lt_of_anc hbind hblock hanc b' hblock' rfl with heq | hless
    · exact heq
    · omega
  · rcases hsound.height_lt_of_anc hbind hblock' hanc b hblock rfl with heq | hless
    · exact heq.symm
    · omega

end Net

namespace Chain.Sample

/-- A validator and a node without stake. -/
def twoKeys : Fin 2 → Pubkey := ![7, 5]

/-- The validator produces three blocks, the last with its vote for the
second, which reach the other node as well. -/
def shared : List (Action (Fin 2) ℕ Unit) :=
  List.flatten
    [[.produce 0 first, .deliver 0 0 first, .produce 0 second, .deliver 0 0 second],
      List.replicate 4 (.poll 0 0),
      [.produce 0 third, .deliver 0 0 third, .poll 0 0, .deliver 1 0 first, .deliver 1 0 second,
        .deliver 1 0 third],
      List.replicate 5 (.poll 1 0)]

local instance : NeZero 3 := ⟨three_ne_zero⟩

/-- A validator with most of the stake, and two beside it. -/
def threeKeys : Fin 3 → Pubkey := ![7, 8, 9]

def three : Config ℕ Unit := config .inPlace [(7, 1000), (8, 100), (9, 100)] fun _ _ => .ok {}

/-- The second validator extends the blocks of the first, with its vote. -/
def thirdOf8 : Produced ℕ Unit :=
  produce three 8 (three.hash second) 3 () [vote 7 (three.hash second)]

/-- The third has heard of no other block. -/
def fork1 : Produced ℕ Unit := produce three 9 1 1 () []

def fork2 : Produced ℕ Unit := produce three 9 (three.hash fork1) 2 () []

def fork3 : Produced ℕ Unit := produce three 9 (three.hash fork2) 3 () []

/-- The first extends the fork, with its vote for it in the third epoch. -/
def fork4 : Produced ℕ Unit :=
  produce three 7 (three.hash fork3) 4 () [vote 7 (three.hash fork3)]

/-- The first validator votes for its two blocks, and before the block with
its vote reaches it for a fork that is longer. -/
def forked : List (Action (Fin 3) ℕ Unit) :=
  List.flatten
    [[.produce 0 first, .deliver 0 0 first, .produce 0 second, .deliver 0 0 second],
      List.replicate 4 (.poll 0 0),
      [.deliver 1 0 first, .deliver 1 0 second, .produce 1 thirdOf8, .deliver 1 0 thirdOf8],
      List.replicate 5 (.poll 1 0),
      [.produce 2 fork1, .deliver 2 0 fork1, .produce 2 fork2, .deliver 2 0 fork2,
        .produce 2 fork3, .deliver 2 0 fork3, .deliver 0 0 fork1, .deliver 0 0 fork2,
        .deliver 0 0 fork3],
      List.replicate 4 (.poll 0 0),
      [.produce 0 fork4, .deliver 0 0 fork4, .poll 0 0]]

end Chain.Sample

namespace Net

open Chain.Sample

/-- Two nodes have finalized the same block. -/
theorem agreement_shared :
    ∃ b ∈ (({} : Net (Fin 2) ℕ Unit).run shared).finals (single .inPlace) genesis 0,
      ∃ b' ∈ (({} : Net (Fin 2) ℕ Unit).run shared).finals (single .inPlace) genesis 1,
        b.height = b'.height ∧ (single .inPlace).hash b = (single .inPlace).hash b' := by
  have hhonest : ({} : Net (Fin 2) ℕ Unit).Honest (single .inPlace) genesis twoKeys shared := by
    decide +kernel
  have hsound := sound_empty.of_honest hhonest
  have hfree : CollisionFree (single .inPlace) genesis
      {x | x ∈ (({} : Net (Fin 2) ℕ Unit).run shared).blocks} :=
    .of_list rfl selfDelimiting_uvarint (by decide +kernel) (by decide +kernel)
  have hloyal : ∀ i, Loyal (single .inPlace) genesis
      {x | x ∈ (({} : Net (Fin 2) ℕ Unit).run shared).blocks}
      ((({} : Net (Fin 2) ℕ Unit).run shared).calls i) := by
    intro i
    -- the blocks are on one line
    have hchain : (({} : Net (Fin 2) ℕ Unit).run shared).blocks.reverse.IsChain
        fun a b => b.parent = (single .inPlace).hash a := by decide +kernel
    exact Chain.loyal_of_isChain (fun _ hb => List.mem_reverse.1 hb) hchain fun b hb =>
      List.mem_reverse.2 (hsound.arrived i b hb)
  exact ⟨first, by decide +kernel, first, by decide +kernel, rfl,
    agreement_run (single .inPlace) genesis twoKeys (by decide) shared hhonest hfree
      (by decide +kernel) (by decide +kernel) hloyal 0 1 first (by decide +kernel) first
      (by decide +kernel) rfl⟩

/-- Honest nodes finalize two blocks of one height. -/
theorem not_agreement_forked :
    Function.Injective threeKeys ∧
      ({} : Net (Fin 3) ℕ Unit).Honest three genesis threeKeys forked ∧
      CollisionFree three genesis {x | x ∈ (({} : Net (Fin 3) ℕ Unit).run forked).blocks} ∧
      0 < three.eligibleStake ∧ three.eligibleStake < 2 ^ 64 ∧
      ∃ b ∈ (({} : Net (Fin 3) ℕ Unit).run forked).finals three genesis 1,
        ∃ b' ∈ (({} : Net (Fin 3) ℕ Unit).run forked).finals three genesis 0,
          b.height = b'.height ∧ three.hash b ≠ three.hash b' := by
  refine ⟨by decide, by decide +kernel, ?_, by decide +kernel, by decide +kernel, first,
    by decide +kernel, fork1, by decide +kernel, rfl, by decide +kernel⟩
  exact .of_list rfl selfDelimiting_uvarint (by decide +kernel) (by decide +kernel)

end Net

end Consensus

end Rensa
