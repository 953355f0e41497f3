import Rensa.Vm.Unit
import Rensa.Vm.Model.Machine
/-!
# Replay protection over whole chains

A transaction carries the nonce its payer's account holds once the block
has counted it. `chainTrace` lists the transactions a chain of blocks
executes, each with the states it ran between; `noReplay` says that no
two of them with one payer and one nonce both succeed, in every chain
whose contracts delete no paying account. The nonce of a payer then only
goes up: `Rising` is that statement about a stretch of the chain, and it
composes (`Rising.append`).
-/

open Relation (ReflTransGen)

namespace Rensa

/-- The nonce of an address, zero where there is no account. -/
def nonceOf (s : State) (k : Pubkey) : ℕ := ((s k).map Account.nonce).getD 0

/-- A transaction as a block executed it: the state before its payer was
counted, and the state it ran on. -/
structure Executed where
  before : State
  state : State
  tx : Transaction

namespace Machine

variable {H : Type} [DecidableEq H] [Ord H] (vm : Machine H) (fuel : ℕ)

/-- The transactions a block executes, after what `acc` holds. -/
def blockTrace (state : State) : BlockOutput H → List Transaction → List Executed
  | _, [] => []
  | acc, tx :: txs =>
    { before := overlayed state acc.state.get
      state := overlayed state (bumpNonce state acc.state tx.payer).get
      tx := tx } ::
      match vm.executeNext fuel state acc tx with
      | none => []
      | some acc' => blockTrace state acc' txs

/-- The transactions a chain executes: a block the machine refuses changes
nothing, the diff of any other is applied before the next. -/
def chainTrace : PersistentState → List (List Transaction) → List Executed
  | _, [] => []
  | store, txs :: blocks =>
    match vm.executeBlock fuel txs store.get with
    | none => []
    | some (.error _) => chainTrace store blocks
    | some (.ok out) =>
      vm.blockTrace fuel store.get {} txs ++ chainTrace (store.apply out.state) blocks

/-- The transaction executes without error. -/
def Succeeds (e : Executed) : Prop :=
  ∃ out, vm.executeTransaction fuel e.tx e.state = some (.ok out)

/-- No two transactions of the trace with one payer and one nonce both
succeed. -/
def NoReplay (t : List Executed) : Prop :=
  t.Pairwise fun a b => vm.Succeeds fuel a → vm.Succeeds fuel b →
    ¬ (a.tx.payer = b.tx.payer ∧ a.tx.nonce = b.tx.nonce)

/-- No nonce of the trace wraps. -/
def NoWrap (t : List Executed) : Prop :=
  ∀ e ∈ t, nonceOf e.before e.tx.payer + 1 < 2 ^ 64

/-- The unit returns a deletion of the account, and `delete_account`
allows it. -/
def Deletes (u : ExecutionUnit) (k : Pubkey) : Prop :=
  (∃ os, u.entrypoint u.env u.params = .ok os ∧ .deleteOwnedAccount k ∈ os) ∧
    ∃ d, u.deleteAccount k = .ok d

/-- Some call of the transaction, at any depth, deletes the account. -/
def DeletesIn (e : Executed) (k : Pubkey) : Prop :=
  ∃ u v, vm.newUnit e.tx e.state = .ok u ∧ ReflTransGen vm.Starts u v ∧ Deletes v k

/-- No call of the trace deletes an account that pays for one of its
transactions. -/
def KeepsPayers (t : List Executed) : Prop :=
  ∀ e ∈ t, ∀ f ∈ t, ¬ vm.DeletesIn e f.tx.payer

end Machine

/-! ## Nonces that rise -/

/-- **A stretch of the chain**, from nonces `N` to nonces `N'`, seen by the
addresses in `P`: no nonce falls, each transaction runs on a nonce above
the one its payer started with, and the later of two runs on the higher
one. -/
structure Rising (P : Set Pubkey) (N N' : Pubkey → ℕ) (t : List Executed) : Prop where
  mono : ∀ p ∈ P, N p ≤ N' p
  above : ∀ e ∈ t, N e.tx.payer < nonceOf e.state e.tx.payer
  below : ∀ e ∈ t, nonceOf e.state e.tx.payer ≤ N' e.tx.payer
  pairwise : t.Pairwise fun a b => a.tx.payer = b.tx.payer →
    nonceOf a.state a.tx.payer < nonceOf b.state b.tx.payer

namespace Rising

variable {P : Set Pubkey} {N N' N'' : Pubkey → ℕ} {t t' : List Executed}

theorem nil (h : ∀ p ∈ P, N p ≤ N' p) : Rising P N N' [] :=
  ⟨h, by simp, by simp, List.Pairwise.nil⟩

/-- Two stretches, one after the other. -/
theorem append (h : Rising P N N' t) (h' : Rising P N' N'' t')
    (hP : ∀ e ∈ t ++ t', e.tx.payer ∈ P) : Rising P N N'' (t ++ t') := by
  refine ⟨fun p hp => (h.mono p hp).trans (h'.mono p hp), fun e he => ?_, fun e he => ?_, ?_⟩
  · have hp := hP e he
    rcases List.mem_append.1 he with he | he
    · exact h.above e he
    · exact (h.mono _ hp).trans_lt (h'.above e he)
  · have hp := hP e he
    rcases List.mem_append.1 he with he | he
    · exact (h.below e he).trans (h'.mono _ hp)
    · exact h'.below e he
  · refine List.pairwise_append.2 ⟨h.pairwise, h'.pairwise, fun a ha b hb hab => ?_⟩
    have h1 := h.below a ha
    have h2 := h'.above b hb
    rw [← hab] at h2
    rw [← hab]
    omega

/-- The stretch, followed by steps that lower no nonce. -/
theorem weaken (h : Rising P N N' t) (hP : ∀ e ∈ t, e.tx.payer ∈ P)
    (hle : ∀ p ∈ P, N' p ≤ N'' p) : Rising P N N'' t := by
  have := h.append (.nil hle) (by simpa using hP)
  simpa using this

/-- One transaction. -/
theorem single {e : Executed} (hmono : ∀ p ∈ P, N p ≤ N' p)
    (habove : N e.tx.payer < nonceOf e.state e.tx.payer)
    (hbelow : nonceOf e.state e.tx.payer ≤ N' e.tx.payer) : Rising P N N' [e] :=
  ⟨hmono, by simpa using habove, by simpa using hbelow, List.pairwise_singleton _ _⟩

end Rising

namespace Machine

variable {H : Type} {vm : Machine H} {fuel : ℕ}

/-! ## One transaction -/

private theorem nonce_of_get_set {s : State} {k k' : Pubkey} {a b : Account}
    (hb : b.nonce = nonceOf s k) (ha : (({} : StateDiff).set k b).get k' = some a) :
    a.nonce = nonceOf s k' := by
  rw [StateDiff.get_set] at ha
  split at ha
  · rename_i heq
    rw [← Option.some.inj ha, ← heq, hb]
  · simp at ha

theorem nonce_of_directEffect {v : ExecutionUnit} {o : Output} {r : TransactionOutput}
    (h : DirectEffect v o r) (k : Pubkey) (a : Account) (ha : r.stateDiff.get k = some a) :
    a.nonce = nonceOf v.state k := by
  cases h with
  | log => simp at ha
  | create data _ hk => exact nonce_of_get_set (by simp [nonceOf, hk]) ha
  | write data _ hk => exact nonce_of_get_set (by simp [nonceOf, hk]) ha
  | delete => simp at ha
  | createExecutable bytecode _ _ hk => exact nonce_of_get_set (by simp [nonceOf, hk]) ha

theorem deletes_of_directEffect {v : ExecutionUnit} {o : Output} {r : TransactionOutput}
    (h : DirectEffect v o r) {os : List Output} (hos : v.entrypoint v.env v.params = .ok os)
    (ho : o ∈ os) {k : Pubkey} (hk : k ∈ r.stateDiff.deletes) : Deletes v k := by
  cases h with
  | delete hd =>
    obtain rfl : _ = k := by simpa [StateDiff.mem_deletes_remove] using hk
    exact ⟨⟨os, hos, ho⟩, _, hd⟩
  | _ => simp [StateDiff.mem_deletes_set] at hk

/-- **A transaction changes no nonce**: every account its diff sets keeps
the nonce it had, and every account it deletes, some call deletes. -/
theorem nonce_of_executeTransaction {tx : Transaction} {s : State} {out : TransactionOutput}
    (h : vm.executeTransaction fuel tx s = some (.ok out)) (before : State) :
    (∀ k a, out.stateDiff.get k = some a → a.nonce = nonceOf s k) ∧
      ∀ k ∈ out.stateDiff.deletes, vm.DeletesIn ⟨before, s, tx⟩ k := by
  obtain ⟨u, hu, h⟩ := executeTransaction_ok h
  have hus : u.state = s := (newUnit_ok hu).2.2.2.2.1
  refine execute_rule (Q := fun v => ReflTransGen vm.Starts u v)
    (P := fun out => (∀ k a, out.stateDiff.get k = some a → a.nonce = nonceOf s k) ∧
      ∀ k ∈ out.stateDiff.deletes, vm.DeletesIn ⟨before, s, tx⟩ k)
    (fun v w hv hw => hv.tail hw) ⟨by simp, by simp⟩ ?_ ?_ .refl h
  · rintro a b ⟨ha, ha'⟩ ⟨hb, hb'⟩
    refine ⟨fun k x hx => ?_, fun k hk => ?_⟩
    · rw [TransactionOutput.merge, StateDiff.get_merge, Option.or_eq_some_iff] at hx
      rcases hx with hx | ⟨-, hx⟩
      · exact hb k x hx
      · exact ha k x hx
    · rw [TransactionOutput.merge, StateDiff.mem_deletes_merge] at hk
      rcases hk with hk | ⟨hk, -⟩
      · exact hb' k hk
      · exact ha' k hk
  · intro v hv os hos o ho hdir invoke r hr
    have hvs : v.state = s := (state_eq_of_reaches hv).trans hus
    have heff := directEffect_of_ok hdir hr
    refine ⟨hvs ▸ nonce_of_directEffect heff, fun k hk => ⟨u, v, hu, hv, ?_⟩⟩
    exact deletes_of_directEffect heff hos ho hk

/-- A transaction that succeeds carries the nonce it ran on. -/
theorem nonce_of_succeeds {e : Executed} (h : vm.Succeeds fuel e) :
    e.tx.nonce = nonceOf e.state e.tx.payer := by
  obtain ⟨out, hout⟩ := h
  obtain ⟨u, hu, -⟩ := executeTransaction_ok hout
  exact (newUnit_ok hu).2.2.1

/-- The payer is counted. -/
theorem nonceOf_bumpNonce (s : State) (acc : StateDiff) (payer : Pubkey)
    (hwrap : nonceOf (overlayed s acc.get) payer + 1 < 2 ^ 64) :
    nonceOf (overlayed s (bumpNonce s acc payer).get) payer =
      nonceOf (overlayed s acc.get) payer + 1 := by
  unfold bumpNonce
  cases hp : overlayed s acc.get payer with
  | none =>
    have hzero : nonceOf (overlayed s acc.get) payer = 0 := by simp [nonceOf, hp]
    rw [hzero]
    simp [nonceOf, overlayed_apply, StateDiff.get_set]
  | some a =>
    simp only [nonceOf, hp, Option.map_some, Option.getD_some] at hwrap ⊢
    simp only [overlayed_apply, StateDiff.get_set, if_true, Option.some_or, Option.map_some,
      Option.getD_some]
    omega

/-- No other nonce changes, and no deletion is added, when the payer is
counted. -/
theorem bumpNonce_of_ne (s : State) (acc : StateDiff) {payer p : Pubkey} (hne : payer ≠ p) :
    nonceOf (overlayed s (bumpNonce s acc payer).get) p = nonceOf (overlayed s acc.get) p := by
  unfold bumpNonce
  split <;> simp [nonceOf, overlayed_apply, StateDiff.get_set, hne]

theorem mem_deletes_bumpNonce {s : State} {acc : StateDiff} {payer p : Pubkey}
    (h : p ∈ (bumpNonce s acc payer).deletes) : p ∈ acc.deletes := by
  unfold bumpNonce at h
  split at h <;> exact (StateDiff.mem_deletes_set.1 h).2

variable [DecidableEq H]

/-- **One transaction of a block**: an address it does not delete has the
nonce it was counted with. -/
theorem nonceOf_executeNext {s : State} {acc acc' : BlockOutput H} {tx : Transaction}
    (h : vm.executeNext fuel s acc tx = some acc') {p : Pubkey}
    (hp : p ∉ acc.state.deletes)
    (hdel : ¬ vm.DeletesIn ⟨overlayed s acc.state.get,
      overlayed s (bumpNonce s acc.state tx.payer).get, tx⟩ p) :
    p ∉ acc'.state.deletes ∧ nonceOf (overlayed s acc'.state.get) p =
      nonceOf (overlayed s (bumpNonce s acc.state tx.payer).get) p := by
  have hbump : p ∉ (bumpNonce s acc.state tx.payer).deletes := fun hm =>
    hp (mem_deletes_bumpNonce hm)
  simp only [executeNext] at h
  split at h
  · simp at h
  · rename_i out hout
    obtain rfl := Option.some.inj h
    obtain ⟨hnonce, hdels⟩ := nonce_of_executeTransaction hout (overlayed s acc.state.get)
    refine ⟨fun hm => ?_, ?_⟩
    · rcases StateDiff.mem_deletes_merge.1 hm with hm | ⟨hm, -⟩
      · exact hdel (hdels p hm)
      · exact hbump hm
    · cases hg : out.stateDiff.get p with
      | none => simp [nonceOf, overlayed_apply, StateDiff.get_merge, hg]
      | some a =>
        have := hnonce p a hg
        simpa [nonceOf, overlayed_apply, StateDiff.get_merge, hg] using this
  · obtain rfl := Option.some.inj h
    exact ⟨hbump, rfl⟩

/-! ## Blocks and chains -/

/-- **A block raises nonces**, as the addresses `P` see it, where it
deletes none of them. -/
theorem rising_blockTrace {P : Set Pubkey} {s : State} {txs : List Transaction}
    {acc out : BlockOutput H} (h : txs.foldlM (vm.executeNext fuel s) acc = some out)
    (hacc : ∀ p ∈ P, p ∉ acc.state.deletes)
    (hP : ∀ e ∈ vm.blockTrace fuel s acc txs, e.tx.payer ∈ P)
    (hwrap : NoWrap (vm.blockTrace fuel s acc txs))
    (hdel : ∀ e ∈ vm.blockTrace fuel s acc txs, ∀ p ∈ P, ¬ vm.DeletesIn e p) :
    (∀ p ∈ P, p ∉ out.state.deletes) ∧
      Rising P (nonceOf (overlayed s acc.state.get)) (nonceOf (overlayed s out.state.get))
        (vm.blockTrace fuel s acc txs) := by
  induction txs generalizing acc with
  | nil =>
    obtain rfl : acc = out := by simpa using h
    exact ⟨hacc, .nil fun p _ => le_rfl⟩
  | cons tx txs ih =>
    rw [List.foldlM_cons, Option.bind_eq_bind, Option.bind_eq_some_iff] at h
    obtain ⟨acc', hnext, hrest⟩ := h
    simp only [blockTrace, hnext] at hP hwrap hdel ⊢
    have hstep : ∀ p ∈ P, p ∉ acc'.state.deletes ∧ nonceOf (overlayed s acc'.state.get) p =
        nonceOf (overlayed s (bumpNonce s acc.state tx.payer).get) p := fun p hp =>
      nonceOf_executeNext hnext (hacc p hp) (hdel _ List.mem_cons_self p hp)
    have hcount := nonceOf_bumpNonce s acc.state tx.payer (hwrap _ List.mem_cons_self)
    have hpayer : tx.payer ∈ P := hP _ List.mem_cons_self
    obtain ⟨hout, hrise⟩ := ih hrest (fun p hp => (hstep p hp).1)
      (fun e he => hP e (List.mem_cons_of_mem _ he))
      (fun e he => hwrap e (List.mem_cons_of_mem _ he))
      (fun e he => hdel e (List.mem_cons_of_mem _ he))
    refine ⟨hout, Rising.append (t := [_]) (.single (fun p hp => ?_) ?_ ?_) hrise hP⟩
    · rw [(hstep p hp).2]
      by_cases hne : tx.payer = p
      · subst hne
        omega
      · rw [bumpNonce_of_ne _ _ hne]
    · show nonceOf (overlayed s acc.state.get) tx.payer <
        nonceOf (overlayed s (bumpNonce s acc.state tx.payer).get) tx.payer
      omega
    · exact ((hstep _ hpayer).2).ge

/-- Applying a diff leaves the nonce the block read. -/
theorem nonceOf_apply {store : PersistentState} {d : StateDiff} {p : Pubkey}
    (hp : p ∉ d.deletes) :
    nonceOf (store.apply d).get p = nonceOf (overlayed store.get d.get) p := by
  simp only [nonceOf, PersistentState.get_apply, if_neg hp, overlayed_apply]
  cases d.get p <;> rfl

variable [Ord H]

theorem executeBlock_ok {s : State} {txs : List Transaction} {out : BlockOutput H}
    (h : vm.executeBlock fuel txs s = some (.ok out)) :
    txs.foldlM (vm.executeNext fuel s) {} = some out := by
  unfold executeBlock at h
  split at h
  · simpa using h
  · simp at h

/-- **A chain raises nonces.** -/
theorem rising_chainTrace {P : Set Pubkey} {store : PersistentState}
    {blocks : List (List Transaction)}
    (hP : ∀ e ∈ vm.chainTrace fuel store blocks, e.tx.payer ∈ P)
    (hwrap : NoWrap (vm.chainTrace fuel store blocks))
    (hdel : ∀ e ∈ vm.chainTrace fuel store blocks, ∀ p ∈ P, ¬ vm.DeletesIn e p) :
    ∃ N', Rising P (nonceOf store.get) N' (vm.chainTrace fuel store blocks) := by
  induction blocks generalizing store with
  | nil => exact ⟨_, .nil fun p _ => le_rfl⟩
  | cons txs blocks ih =>
    simp only [chainTrace] at hP hwrap hdel ⊢
    rcases hblock : vm.executeBlock fuel txs store.get with _ | _ | out
    · exact ⟨_, .nil fun p _ => le_rfl⟩
    · simp only [hblock] at hP hwrap hdel
      exact ih hP hwrap hdel
    · simp only [hblock] at hP hwrap hdel
      obtain ⟨hkeep, hrise⟩ := rising_blockTrace (P := P) (executeBlock_ok hblock) (by simp)
        (fun e he => hP e (List.mem_append_left _ he))
        (fun e he => hwrap e (List.mem_append_left _ he))
        (fun e he => hdel e (List.mem_append_left _ he))
      obtain ⟨N', hrest⟩ := @ih (store.apply out.state)
        (fun e he => hP e (List.mem_append_right _ he))
        (fun e he => hwrap e (List.mem_append_right _ he))
        (fun e he => hdel e (List.mem_append_right _ he))
      have hstart : Rising P (nonceOf store.get) (nonceOf (store.apply out.state).get)
          (vm.blockTrace fuel store.get {} txs) :=
        hrise.weaken (fun e he => hP e (List.mem_append_left _ he)) fun p hp =>
          (nonceOf_apply (hkeep p hp)).ge
      exact ⟨N', hstart.append hrest hP⟩

/-- **No replay.** In every chain of blocks, from every store and for
every behaviour of the contracts, where no nonce wraps and no call
deletes an account that pays: no two transactions of one payer and one
nonce both succeed. -/
theorem noReplay (vm : Machine H) (fuel : ℕ) (store : PersistentState)
    (blocks : List (List Transaction)) (hwrap : NoWrap (vm.chainTrace fuel store blocks))
    (hkeep : vm.KeepsPayers (vm.chainTrace fuel store blocks)) :
    vm.NoReplay fuel (vm.chainTrace fuel store blocks) := by
  obtain ⟨N', hrise⟩ := rising_chainTrace
    (P := {p | ∃ f ∈ vm.chainTrace fuel store blocks, f.tx.payer = p})
    (fun e he => ⟨e, he, rfl⟩) hwrap (by
      rintro e he p ⟨f, hf, rfl⟩
      exact hkeep e he f hf)
  refine hrise.pairwise.imp fun {a b} hlt ha hb => ?_
  rintro ⟨hpayer, hnonce⟩
  have hna := nonce_of_succeeds ha
  have hnb := nonce_of_succeeds hb
  have := hlt hpayer
  omega

/-! ## A payer that can be replayed -/

namespace Sample

/-- A call by payer 1 of the contract at 200, with its own account as a
writable signer. -/
def spend (nonce : ℕ) : Transaction :=
  let tx : Transaction :=
    { contract := 200, nonce := nonce, payer := 1, params := [], signatures := []
      accounts := [⟨1, true, true⟩] }
  { tx with signatures := [sign 1 tx, sign 1 tx] }

/-- A store where the account of address 1 belongs to that contract. -/
def owned : PersistentState where
  db k := if k = 1 then some { nonce := 0, owner := some 200, data := none } else none

/-- The contract at 200 deletes the listed accounts it owns. -/
def closing : Machine Bytes where
  crypto := sampleCrypto
  limits := limits
  builtin k :=
    if k = 200 then some fun env _ =>
      .ok ((env.accounts.filter fun p => p.2.owner == some env.address).map
        fun p => .deleteOwnedAccount p.1)
    else none
  runtime _ := .error .accountIsNotExecutable

/-- The empty store. -/
def empty : PersistentState where
  db _ := none

end Sample

/-- Two transactions of payer 1, in two blocks. -/
theorem noReplay_spend_twice :
    Sample.closing.NoReplay 1
      (Sample.closing.chainTrace 1 Sample.empty [[Sample.spend 1], [Sample.spend 2]]) := by
  have hcases : ∀ e ∈ Sample.closing.chainTrace 1 Sample.empty [[Sample.spend 1], [Sample.spend 2]],
      nonceOf e.before e.tx.payer < 2 ∧
        ∀ u, Sample.closing.newUnit e.tx e.state = .ok u →
          u.entrypoint u.env u.params = .ok [] := by
    refine List.forall_mem_cons.2 ⟨⟨by decide, fun u hu => ?_⟩, List.forall_mem_cons.2
      ⟨⟨by decide, fun u hu => ?_⟩, fun e he => by cases he⟩⟩
    · obtain rfl := Except.ok.inj hu
      rfl
    · obtain rfl := Except.ok.inj hu
      rfl
  refine noReplay _ _ _ _ (fun e he => ?_) (fun e he f _ => ?_)
  · have := (hcases e he).1
    omega
  · rintro ⟨u, v, hu, hv, ⟨os, hos, hmem⟩, -⟩
    have hempty := (hcases e he).2 u hu
    rcases ReflTransGen.cases_head hv with rfl | ⟨w, ⟨_, _, _, pre, post, _, _, hw, -⟩, -⟩
    · rw [hempty] at hos
      obtain rfl := Except.ok.inj hos
      cases hmem
    · rw [hempty] at hw
      simp at hw

/-- **A payer can be replayed**: once the contract that owns the payer's
account has deleted it, the nonce starts over, and the transaction of the
first block succeeds again in the second. -/
theorem replayed :
    ¬ Sample.closing.NoReplay 1
      (Sample.closing.chainTrace 1 Sample.owned [[Sample.spend 1], [Sample.spend 1]]) := by
  intro h
  have h' := List.pairwise_iff_getElem.1 h 0 1 (by decide) (by decide) (by decide)
  exact h' ⟨_, rfl⟩ ⟨_, rfl⟩ ⟨rfl, rfl⟩

end Machine

end Rensa
