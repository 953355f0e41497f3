import Rensa.Vm.Rejected
/-!
# Nonces within a block and along a branch

A block counts the payer of each of its transactions once, whatever
becomes of the transaction, and nothing else moves a nonce: the accounts a
contract sets are made from the snapshot it runs on, and read through
`overlayed` a deletion is not seen. So what the blocks of a branch read is
the nonce before plus the number of transactions that name the address as
payer (`nonceOf_block`, `nonceOf_branch`).
-/

open Relation (ReflTransGen)

namespace Rensa

/-- The transactions that name the address as payer. -/
def named (k : Pubkey) (txs : List Transaction) : ℕ := txs.countP fun tx => tx.payer = k

@[simp] theorem named_nil (k : Pubkey) : named k [] = 0 := rfl

theorem named_cons (k : Pubkey) (tx : Transaction) (txs : List Transaction) :
    named k (tx :: txs) = named k txs + if tx.payer = k then 1 else 0 := by
  simp [named, List.countP_cons]

/-- What the blocks of a branch set, the newest diff first. -/
def branchState (diffs : List StateDiff) : State := fun k => diffs.findSome? fun d => d.get k

/-- A block more on the branch is its diff laid over the branch below. -/
theorem overlayed_branchState_cons (s : State) (d : StateDiff) (diffs : List StateDiff) :
    overlayed s (branchState (d :: diffs)) =
      overlayed (overlayed s (branchState diffs)) d.get := by
  funext k
  simp only [overlayed_apply, branchState, List.findSome?_cons]
  cases d.get k <;> rfl

namespace Machine

variable {H : Type} [DecidableEq H] [Ord H] (vm : Machine H) (fuel : ℕ)

/-- The transaction passes the signature check, and the nonce check on the
state it runs on. -/
def passes (e : Executed) : Bool :=
  (match e.tx.verifySignatures vm.crypto with
    | .ok () => true
    | .error _ => false) && e.tx.nonce == nonceOf e.state e.tx.payer

/-- The transactions of a payer that pass both checks, in a block. -/
def passed (k : Pubkey) (s : State) (txs : List Transaction) : ℕ :=
  (vm.blockTrace fuel s {} txs).countP fun e => e.tx.payer = k && vm.passes e

/-- **A branch** from the state `s`: its blocks and their diffs, the newest
first, each block executed on what the ones below it leave. -/
inductive Branch (s : State) : List (List Transaction) → List StateDiff → Prop
  /-- No block. -/
  | root : Branch s [] []
  /-- One more block. -/
  | block {txs : List Transaction} {blocks : List (List Transaction)} {diffs : List StateDiff}
      {out : BlockOutput H} : Branch s blocks diffs →
      vm.executeBlock fuel txs (overlayed s (branchState diffs)) = some (.ok out) →
      Branch s (txs :: blocks) (out.state :: diffs)

variable {vm fuel} {s : State}

/-! ## What contracts do to nonces -/

omit [DecidableEq H] [Ord H] in
/-- Accounts that keep the nonces of a state, laid over it, leave all its
nonces. -/
theorem nonceOf_overlayed {d : StateDiff} (h : ∀ k a, d.get k = some a → a.nonce = nonceOf s k)
    (k : Pubkey) : nonceOf (overlayed s d.get) k = nonceOf s k := by
  cases hk : d.get k with
  | none => simp [nonceOf, overlayed_apply, hk]
  | some a =>
    have := h k a hk
    simpa [nonceOf, overlayed_apply, hk] using this

omit [DecidableEq H] [Ord H] in
/-- **No output moves a nonce**, at any depth of the call tree. -/
theorem nonceOf_output {tx : Transaction} {u v : ExecutionUnit} (hu : vm.newUnit tx s = .ok u)
    (hv : ReflTransGen vm.Starts u v) {o : Output} (hdir : o.IsDirect)
    {invoke : ExecutionUnit → Run TransactionOutput} {r : TransactionOutput}
    (hr : vm.processOutput v invoke o = some (.ok r)) (k : Pubkey) :
    nonceOf (overlayed s r.stateDiff.get) k = nonceOf s k := by
  have hvs : v.state = s := (state_eq_of_reaches hv).trans (newUnit_ok hu).2.2.2.2.1
  exact nonceOf_overlayed (hvs ▸ nonce_of_directEffect (directEffect_of_ok hdir hr)) k

/-! ## One transaction, one block -/

omit [Ord H] in
/-- **One transaction of a block** counts its payer and moves no other
nonce. -/
theorem nonceOf_next {acc acc' : BlockOutput H} {tx : Transaction}
    (h : vm.executeNext fuel s acc tx = some acc') (k : Pubkey) :
    nonceOf (overlayed s acc'.state.get) k =
      nonceOf (overlayed s (bumpNonce s acc.state tx.payer).get) k := by
  simp only [executeNext] at h
  split at h
  · simp at h
  · rename_i out hout
    obtain rfl := Option.some.inj h
    have hnonce := (nonce_of_executeTransaction hout s).1
    have hover : overlayed s ((bumpNonce s acc.state tx.payer).merge out.stateDiff).get =
        overlayed (overlayed s (bumpNonce s acc.state tx.payer).get) out.stateDiff.get := by
      funext p
      simp only [overlayed_apply, StateDiff.get_merge, Option.or_assoc]
    show nonceOf (overlayed s ((bumpNonce s acc.state tx.payer).merge out.stateDiff).get) k = _
    rw [hover, nonceOf_overlayed hnonce]
  · obtain rfl := Option.some.inj h
    rfl

omit [Ord H] in
/-- **A block adds to a nonce the transactions that name the payer.** -/
theorem nonceOf_foldlM {txs : List Transaction} {acc out : BlockOutput H}
    (h : txs.foldlM (vm.executeNext fuel s) acc = some out) (k : Pubkey)
    (hwrap : nonceOf (overlayed s acc.state.get) k + named k txs < 2 ^ 64) :
    nonceOf (overlayed s out.state.get) k =
      nonceOf (overlayed s acc.state.get) k + named k txs := by
  induction txs generalizing acc with
  | nil =>
    obtain rfl : acc = out := by simpa using h
    rfl
  | cons tx txs ih =>
    rw [List.foldlM_cons, Option.bind_eq_bind, Option.bind_eq_some_iff] at h
    obtain ⟨acc', hnext, hrest⟩ := h
    rw [named_cons] at hwrap ⊢
    have hstep : nonceOf (overlayed s acc'.state.get) k =
        nonceOf (overlayed s acc.state.get) k + if tx.payer = k then 1 else 0 := by
      rw [nonceOf_next hnext]
      split
      · rename_i heq
        subst heq
        rw [if_pos rfl] at hwrap
        exact nonceOf_bumpNonce _ _ _ (by omega)
      · rename_i hne
        rw [bumpNonce_of_ne _ _ hne, Nat.add_zero]
    rw [ih hrest (by omega), hstep]
    omega

theorem nonceOf_block {txs : List Transaction} {out : BlockOutput H}
    (h : vm.executeBlock fuel txs s = some (.ok out)) {k : Pubkey}
    (hwrap : nonceOf s k + named k txs < 2 ^ 64) :
    nonceOf (overlayed s out.state.get) k = nonceOf s k + named k txs := by
  have hempty : overlayed s ({} : BlockOutput H).state.get = s := by
    funext p
    simp [overlayed_apply]
  have := nonceOf_foldlM (executeBlock_ok h) k (by rwa [hempty])
  rwa [hempty] at this

/-! ## Branches -/

/-- **Along a branch**, every block reads the nonce of the start plus the
transactions below it that name the payer. -/
theorem nonceOf_branch {blocks : List (List Transaction)} {diffs : List StateDiff}
    (h : vm.Branch fuel s blocks diffs) {k : Pubkey}
    (hwrap : nonceOf s k + (blocks.map (named k)).sum < 2 ^ 64) :
    nonceOf (overlayed s (branchState diffs)) k =
      nonceOf s k + (blocks.map (named k)).sum := by
  induction h with
  | root => simp [nonceOf, overlayed_apply, branchState]
  | block _ hexec ih =>
    rw [List.map_cons, List.sum_cons] at hwrap ⊢
    have hbelow := ih (by omega)
    rw [overlayed_branchState_cons, nonceOf_block hexec (by omega), hbelow]
    omega

omit [Ord H] in
/-- The transactions of the trace are those of the block, where the block
ends. -/
theorem map_tx_blockTrace {txs : List Transaction} {acc out : BlockOutput H}
    (h : txs.foldlM (vm.executeNext fuel s) acc = some out) :
    (vm.blockTrace fuel s acc txs).map Executed.tx = txs := by
  induction txs generalizing acc with
  | nil => rfl
  | cons tx txs ih =>
    rw [List.foldlM_cons, Option.bind_eq_bind, Option.bind_eq_some_iff] at h
    obtain ⟨acc', hnext, hrest⟩ := h
    simp only [blockTrace, hnext, List.map_cons, ih hrest]

theorem passed_le_named {txs : List Transaction} {out : BlockOutput H}
    (h : vm.executeBlock fuel txs s = some (.ok out)) (k : Pubkey) :
    vm.passed fuel k s txs ≤ named k txs := by
  calc vm.passed fuel k s txs
      ≤ (vm.blockTrace fuel s {} txs).countP fun e => e.tx.payer = k :=
        List.countP_mono_left fun e _ he => by
          rw [Bool.and_eq_true] at he
          exact he.1
    _ = ((vm.blockTrace fuel s {} txs).map Executed.tx).countP fun tx => tx.payer = k := by
        rw [List.countP_map]
        rfl
    _ = named k txs := by rw [map_tx_blockTrace (executeBlock_ok h), named]

/-- **Nonce accounting.** After a block, an address is read with a nonce
that went up by at least the transactions of this payer that passed the
signature and nonce checks and by at most the transactions that name it;
no output, at any depth of a call tree, and no transaction moves a nonce
of the state it runs on; and the blocks that follow on the branch read
what their own transactions add, and nothing else. -/
theorem nonce_accounting (vm : Machine H) (fuel : ℕ) (s : State) (txs : List Transaction)
    (out : BlockOutput H) (k : Pubkey) (h : vm.executeBlock fuel txs s = some (.ok out))
    (hwrap : nonceOf s k + named k txs < 2 ^ 64) :
    nonceOf s k + vm.passed fuel k s txs ≤ nonceOf (overlayed s out.state.get) k ∧
      nonceOf (overlayed s out.state.get) k ≤ nonceOf s k + named k txs ∧
      (∀ e ∈ vm.blockTrace fuel s {} txs, ∀ u v, vm.newUnit e.tx e.state = .ok u →
        ReflTransGen vm.Starts u v → ∀ o : Output, o.IsDirect → ∀ invoke r,
          vm.processOutput v invoke o = some (.ok r) →
            ∀ p, nonceOf (overlayed e.state r.stateDiff.get) p = nonceOf e.state p) ∧
      (∀ e ∈ vm.blockTrace fuel s {} txs, ∀ txout,
        vm.executeTransaction fuel e.tx e.state = some (.ok txout) →
          ∀ p, nonceOf (overlayed e.state txout.stateDiff.get) p = nonceOf e.state p) ∧
      ∀ blocks diffs, vm.Branch fuel (overlayed s out.state.get) blocks diffs →
        nonceOf s k + named k txs + (blocks.map (named k)).sum < 2 ^ 64 →
          nonceOf (overlayed (overlayed s out.state.get) (branchState diffs)) k =
            nonceOf (overlayed s out.state.get) k + (blocks.map (named k)).sum := by
  have hblock := nonceOf_block h hwrap
  have hpassed := passed_le_named h k
  refine ⟨by omega, by omega, ?_, ?_, ?_⟩
  · intro e _ u v hu hv o hdir invoke r hr p
    exact nonceOf_output hu hv hdir hr p
  · intro e _ txout htx p
    exact nonceOf_overlayed (nonce_of_executeTransaction htx e.before).1 p
  · intro blocks diffs hbranch hsum
    exact nonceOf_branch hbranch (by omega)

open Sample in
/-- A block of two transactions of payer 1. -/
theorem nonce_accounting_spend_twice :
    closing.passed 1 1 empty.get [spend 1, spend 2] = 2 ∧
      ∃ out, closing.executeBlock 1 [spend 1, spend 2] empty.get = some (.ok out) ∧
        nonceOf (overlayed empty.get out.state.get) 1 = 2 := by
  refine ⟨by decide, _, rfl, ?_⟩
  obtain ⟨hle, hge, -⟩ :=
    nonce_accounting closing 1 empty.get [spend 1, spend 2] _ 1 rfl (by decide)
  exact le_antisymm hge hle

end Machine

end Rensa
