import Rensa.Vm.Replay
/-!
# What a rejected transaction leaves behind

`Vec<Transaction>::execute` counts the payer of a transaction before
`ExecutionUnit::new` looks at its signatures and its nonce. A transaction
that is refused there is not without effect: its payer has been counted,
and has an account if it had none. That is all it leaves
(`diff_of_rejected`): the rest of the block goes on as it would have with
the payer counted and no transaction in between. What the block did before
is read by the rest through its diff alone (`executeNext_congr`).
-/

namespace Rensa

/-- The nonce the next transaction of a payer has to carry. -/
def nextNonce (s : State) (k : Pubkey) : ℕ := (nonceOf s k + 1) % 2 ^ 64

/-- An address that is counted: its account, if there is one, with the next
nonce. -/
def countedAccount (s : State) (k : Pubkey) : Account :=
  { (s k).getD {} with nonce := nextNonce s k }

namespace Machine

variable {H : Type} {vm : Machine H} {fuel : ℕ} {s : State}

/-- **The transaction is refused** after what the block did before: it is
not signed as it says, or it does not carry the next nonce of its payer. -/
def Rejects (vm : Machine H) (s : State) (acc : StateDiff) (tx : Transaction) : Prop :=
  tx.verifySignatures vm.crypto ≠ .ok () ∨
    tx.nonce ≠ nextNonce (overlayed s acc.get) tx.payer

/-! ## Counting a payer -/

theorem bumpNonce_eq (s : State) (acc : StateDiff) (payer : Pubkey) :
    bumpNonce s acc payer = acc.set payer (countedAccount (overlayed s acc.get) payer) := by
  unfold bumpNonce countedAccount nextNonce nonceOf
  cases overlayed s acc.get payer with
  | none => rfl
  | some a => rfl

/-- The nonce a transaction is compared with is the next one of its payer. -/
theorem nonceOf_bumpNonce_eq (s : State) (acc : StateDiff) (payer : Pubkey) :
    nonceOf (overlayed s (bumpNonce s acc payer).get) payer =
      nextNonce (overlayed s acc.get) payer := by
  rw [bumpNonce_eq]
  simp [nonceOf, overlayed_apply, StateDiff.get_set, countedAccount]

/-- **Counting a payer changes no other address.** -/
theorem bumpNonce_get (s : State) (acc : StateDiff) (payer k : Pubkey) :
    (bumpNonce s acc payer).get k =
      if payer = k then some (countedAccount (overlayed s acc.get) payer) else acc.get k := by
  rw [bumpNonce_eq, StateDiff.get_set]

theorem mem_deletes_bumpNonce_iff (s : State) (acc : StateDiff) (payer k : Pubkey) :
    k ∈ (bumpNonce s acc payer).deletes ↔ payer ≠ k ∧ k ∈ acc.deletes := by
  rw [bumpNonce_eq, StateDiff.mem_deletes_set]

/-! ## The refused transaction -/

/-- A refused transaction does not start, however deep it could have gone. -/
theorem executeTransaction_of_rejects {acc : StateDiff} {tx : Transaction}
    (h : vm.Rejects s acc tx) :
    ∃ e, vm.executeTransaction fuel tx (overlayed s (bumpNonce s acc tx.payer).get) =
      some (.error e) := by
  cases hu : vm.newUnit tx (overlayed s (bumpNonce s acc tx.payer).get) with
  | error e => exact ⟨e, by simp [executeTransaction, hu]⟩
  | ok u =>
    obtain ⟨-, hsig, hnonce, -⟩ := newUnit_ok hu
    have hnext : tx.nonce = nextNonce (overlayed s acc.get) tx.payer :=
      hnonce.trans (nonceOf_bumpNonce_eq s acc tx.payer)
    rcases h with h | h
    · exact absurd hsig h
    · exact absurd hnext h

variable [DecidableEq H]

/-- **A refused transaction has its payer counted**, and no more. -/
theorem state_executeNext_of_rejects {acc : BlockOutput H} {tx : Transaction}
    (h : vm.Rejects s acc.state tx) :
    ∃ acc', vm.executeNext fuel s acc tx = some acc' ∧
      acc'.state = bumpNonce s acc.state tx.payer := by
  obtain ⟨e, he⟩ : ∃ e, vm.executeTransaction fuel tx
    (overlayed s (bumpNonce s acc.state tx.payer).get) = some (.error e) :=
    executeTransaction_of_rejects h
  simp only [executeNext, he]
  exact ⟨_, rfl, rfl⟩

/-! ## The rest of the block -/

/-- **A transaction reads of the block before it only the diff.** -/
theorem executeNext_congr {acc acc₁ acc' : BlockOutput H} {tx : Transaction}
    (hacc : acc₁.state = acc.state) (h : vm.executeNext fuel s acc tx = some acc') :
    ∃ acc₁', vm.executeNext fuel s acc₁ tx = some acc₁' ∧ acc₁'.state = acc'.state := by
  unfold executeNext at h ⊢
  rw [hacc]
  dsimp only at h ⊢
  rcases hrun : vm.executeTransaction fuel tx
    (overlayed s (bumpNonce s acc.state tx.payer).get) with _ | e | txout
  · simp only [hrun] at h
    cases h
  · simp only [hrun] at h ⊢
    obtain rfl := Option.some.inj h
    exact ⟨_, rfl, rfl⟩
  · simp only [hrun] at h ⊢
    obtain rfl := Option.some.inj h
    exact ⟨_, rfl, rfl⟩

/-- So does the rest of the block. -/
theorem foldlM_executeNext_congr {acc acc₁ out : BlockOutput H} {txs : List Transaction}
    (hacc : acc₁.state = acc.state) (h : txs.foldlM (vm.executeNext fuel s) acc = some out) :
    ∃ out₁, txs.foldlM (vm.executeNext fuel s) acc₁ = some out₁ ∧ out₁.state = out.state := by
  induction txs generalizing acc acc₁ with
  | nil =>
    obtain rfl : acc = out := by simpa using h
    exact ⟨acc₁, rfl, hacc⟩
  | cons tx txs ih =>
    rw [List.foldlM_cons, Option.bind_eq_bind, Option.bind_eq_some_iff] at h
    obtain ⟨acc', hnext, hrest⟩ := h
    obtain ⟨acc₁', hnext₁, hstate⟩ := executeNext_congr hacc hnext
    obtain ⟨out₁, hrest₁, hout⟩ := ih hstate hrest
    refine ⟨out₁, ?_, hout⟩
    rw [List.foldlM_cons, hnext₁]
    exact hrest₁

variable [Ord H]

/-- **What a refused transaction leaves behind.** The diff of a block with a
refused transaction is the one the rest of the block makes from what was
before with the payer counted; counting sets the payer's account, with its
other fields as they were and the next nonce, and changes no other
address. -/
theorem diff_of_rejected (vm : Machine H) (fuel : ℕ) (s : State) (pre post : List Transaction)
    (tx : Transaction) (acc out : BlockOutput H)
    (hblock : vm.executeBlock fuel (pre ++ tx :: post) s = some (.ok out))
    (hpre : pre.foldlM (vm.executeNext fuel s) {} = some acc) (hrej : vm.Rejects s acc.state tx) :
    (∃ out', post.foldlM (vm.executeNext fuel s)
        { acc with state := bumpNonce s acc.state tx.payer } = some out' ∧
        out'.state = out.state) ∧
      ∀ k, (bumpNonce s acc.state tx.payer).get k =
          (if tx.payer = k then some (countedAccount (overlayed s acc.state.get) tx.payer)
            else acc.state.get k) ∧
        (k ∈ (bumpNonce s acc.state tx.payer).deletes ↔
          tx.payer ≠ k ∧ k ∈ acc.state.deletes) := by
  refine ⟨?_, fun k => ⟨bumpNonce_get s acc.state tx.payer k,
    mem_deletes_bumpNonce_iff s acc.state tx.payer k⟩⟩
  obtain ⟨acc', hnext, hstate⟩ : ∃ acc', vm.executeNext fuel s acc tx = some acc' ∧
    acc'.state = bumpNonce s acc.state tx.payer := state_executeNext_of_rejects hrej
  have hfold := executeBlock_ok hblock
  rw [List.foldlM_append, hpre, Option.bind_eq_bind, Option.bind_some, List.foldlM_cons, hnext,
    Option.bind_eq_bind, Option.bind_some] at hfold
  exact foldlM_executeNext_congr hstate.symm hfold

/-! ## A payer that did not sign -/

namespace Sample

/-- The transaction of payer 1, without its signatures. -/
def unsigned : Transaction := { spend 1 with signatures := [] }

end Sample

open Sample in
/-- An unsigned transaction of payer 1 counts it, so that the transaction
after it has to carry the nonce after that. -/
theorem diff_of_unsigned_spend :
    ∃ out, closing.executeBlock 1 [unsigned, spend 2] empty.get = some (.ok out) ∧
      ∃ out', [spend 2].foldlM (closing.executeNext 1 empty.get)
        { state := bumpNonce empty.get {} 1 } = some out' ∧ out'.state = out.state :=
  ⟨_, rfl, (diff_of_rejected closing 1 empty.get [] [spend 2] unsigned {} _ rfl rfl
    (Or.inl (by decide))).1⟩

open Sample in
/-- **A payer is counted without its signature**: a block of one unsigned
transaction brings the payer's account into existence, and the block
without that transaction does not. -/
theorem unsigned_counts :
    closing.Rejects empty.get {} unsigned ∧
      ∃ out out', closing.executeBlock 1 [unsigned] empty.get = some (.ok out) ∧
        closing.executeBlock 1 [] empty.get = some (.ok out') ∧ out.state ≠ out'.state := by
  refine ⟨Or.inl (by decide), _, _, rfl, rfl, fun h => ?_⟩
  have hget := congrArg (fun d => StateDiff.get d 1) h
  revert hget
  decide

end Machine

end Rensa
