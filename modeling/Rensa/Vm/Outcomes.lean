import Rensa.Vm.Rejected
import Rensa.Vm.Diffs
/-!
# The outcomes of the transactions of a block

The logs and the errors of a block are two maps under the hashes of its
transactions. `mem_logs_iff` and `mem_errors_iff` say what each of them
holds: the transactions of which some execution succeeds, and those of
which some execution fails. The state of the block is the product of what
its transactions contribute (`state_eq_prod`). A transaction that is
executed twice can be on both sides, so each has one recorded outcome
exactly where no hash has two (`oneOutcome_iff`).
-/

namespace Rensa

namespace Machine

variable {H : Type} [DecidableEq H] (vm : Machine H) (fuel : ℕ)

/-- The payer of a transaction, as the block counts it. -/
def counted (e : Executed) : StateDiff :=
  ({} : StateDiff).set e.tx.payer (countedAccount e.before e.tx.payer)

/-- The changes of a transaction that are merged: those of its execution,
where that succeeds. -/
def merged (e : Executed) : StateDiff :=
  match vm.executeTransaction fuel e.tx e.state with
  | some (.ok out) => out.stateDiff
  | _ => {}

variable {vm fuel} {s : State} {acc out : BlockOutput H} {txs : List Transaction}

omit [DecidableEq H] in
theorem bumpNonce_eq_mul (s : State) (acc : StateDiff) (payer : Pubkey) :
    bumpNonce s acc payer =
      acc * ({} : StateDiff).set payer (countedAccount (overlayed s acc.get) payer) := by
  rw [bumpNonce_eq, StateDiff.mul_eq_merge]
  apply StateDiff.eq_of_get
  · intro k
    simp only [StateDiff.get_set, StateDiff.get_merge, StateDiff.get_empty]
    split <;> simp
  · intro k
    simp only [StateDiff.mem_deletes_set, StateDiff.mem_deletes_merge, StateDiff.get_set,
      StateDiff.get_empty]
    by_cases h : payer = k <;> simp [h]

/-- **What one transaction does to the output of a block.** -/
theorem executeNext_cases {tx : Transaction} (h : vm.executeNext fuel s acc tx = some out)
    {e : Executed} (he : e = { before := overlayed s acc.state.get
                               state := overlayed s (bumpNonce s acc.state tx.payer).get
                               tx := tx }) :
    out.state = acc.state * (counted e * vm.merged fuel e) ∧
      (vm.Succeeds fuel e ∧ out.errors = acc.errors ∧
          (∃ logs, out.logs = indexInsert acc.logs (tx.hash vm.crypto) logs) ∨
        ¬ vm.Succeeds fuel e ∧ out.logs = acc.logs ∧
          ∃ error, out.errors = indexInsert acc.errors (tx.hash vm.crypto) error) := by
  subst he
  simp only [executeNext] at h
  rw [← mul_assoc]
  split at h
  · cases h
  · rename_i txout hrun
    obtain rfl := Option.some.inj h
    refine ⟨?_, Or.inl ⟨⟨txout, hrun⟩, rfl, _, rfl⟩⟩
    simp only [merged, hrun]
    rw [counted, ← bumpNonce_eq_mul, StateDiff.mul_eq_merge]
  · rename_i error hrun
    obtain rfl := Option.some.inj h
    refine ⟨?_, Or.inr ⟨?_, rfl, error, rfl⟩⟩
    · simp only [merged, hrun]
      rw [counted, ← bumpNonce_eq_mul]
      exact (mul_one _).symm
    · rintro ⟨txout, hok⟩
      rw [hrun] at hok
      cases hok

/-- **The output of a block, read off its trace**: what its transactions
contribute to the state, and under which hashes there are logs and
errors. -/
theorem output_foldlM (h : txs.foldlM (vm.executeNext fuel s) acc = some out) :
    out.state = acc.state *
        ((vm.blockTrace fuel s acc txs).map fun e => counted e * vm.merged fuel e).prod ∧
      (∀ k, k ∈ out.logs.map Prod.fst ↔ k ∈ acc.logs.map Prod.fst ∨
        ∃ e ∈ vm.blockTrace fuel s acc txs, e.tx.hash vm.crypto = k ∧ vm.Succeeds fuel e) ∧
      ∀ k, k ∈ out.errors.map Prod.fst ↔ k ∈ acc.errors.map Prod.fst ∨
        ∃ e ∈ vm.blockTrace fuel s acc txs, e.tx.hash vm.crypto = k ∧ ¬ vm.Succeeds fuel e := by
  induction txs generalizing acc with
  | nil =>
    obtain rfl : acc = out := by simpa using h
    simp [blockTrace]
  | cons tx txs ih =>
    rw [List.foldlM_cons, Option.bind_eq_bind, Option.bind_eq_some_iff] at h
    obtain ⟨acc', hnext, hrest⟩ := h
    obtain ⟨hstate, hlogs, herrors⟩ := ih hrest
    obtain ⟨hstep, hcases⟩ := executeNext_cases hnext rfl
    simp only [blockTrace, hnext, List.map_cons, List.prod_cons, List.mem_cons,
      exists_eq_or_imp]
    refine ⟨by rw [hstate, hstep, mul_assoc], fun k => ?_, fun k => ?_⟩
    · rw [hlogs]
      rcases hcases with ⟨hok, -, logs, heq⟩ | ⟨hfail, heq, -⟩
      · rw [heq, mem_keys_indexInsert]
        simp only [hok, and_true, eq_comm (a := k), or_assoc]
      · rw [heq]
        simp only [hfail, and_false, false_or]
    · rw [herrors]
      rcases hcases with ⟨hok, heq, -⟩ | ⟨hfail, -, error, heq⟩
      · rw [heq]
        simp only [hok, not_true_eq_false, and_false, false_or]
      · rw [heq, mem_keys_indexInsert]
        simp only [hfail, not_false_eq_true, and_true, eq_comm (a := k), or_assoc]

/-! ## Reading one outcome -/

/-- **One recorded outcome**: the transaction has logs or an error and not
both, it has logs exactly where its changes were merged, and both readers
of the output report the same. -/
structure OneOutcome (vm : Machine H) (fuel : ℕ) (out : BlockOutput H) (e : Executed) : Prop where
  one : e.tx.hash vm.crypto ∈ out.logs.map Prod.fst ↔
    e.tx.hash vm.crypto ∉ out.errors.map Prod.fst
  merged : e.tx.hash vm.crypto ∈ out.logs.map Prod.fst ↔ vm.Succeeds fuel e
  readers : out.stored (e.tx.hash vm.crypto) = out.synced (e.tx.hash vm.crypto)

/-- A key that a map does not have. -/
theorem lookup_of_not_mem {ν : Type} {m : List (H × ν)} {k : H} (h : k ∉ m.map Prod.fst) :
    m.lookup k = none := by
  rw [List.lookup_eq_none_iff]
  intro p hp
  simpa using fun hk : k = p.1 => h (hk ▸ List.mem_map_of_mem hp)

theorem exists_lookup_of_mem {ν : Type} {m : List (H × ν)} {k : H} (h : k ∈ m.map Prod.fst) :
    ∃ v, m.lookup k = some v := by
  obtain ⟨p, hp, rfl⟩ := List.mem_map.1 h
  exact Option.isSome_iff_exists.1 (List.lookup_isSome_iff.2 ⟨p, hp, beq_self_eq_true _⟩)

/-- **The two readers differ exactly on a hash that is on both sides.** -/
theorem stored_eq_synced_iff {k : H} :
    out.stored k = out.synced k ↔
      ¬ (k ∈ out.logs.map Prod.fst ∧ k ∈ out.errors.map Prod.fst) := by
  unfold BlockOutput.stored BlockOutput.synced
  constructor
  · rintro heq ⟨hlogs, herrors⟩
    obtain ⟨logs, hl⟩ := exists_lookup_of_mem hlogs
    obtain ⟨error, he⟩ := exists_lookup_of_mem herrors
    simp [hl, he] at heq
  · intro h
    rcases not_and_or.1 h with h | h <;> simp [lookup_of_not_mem h]

variable [Ord H]

/-- **What the logs hold**: the hashes of the transactions of which an
execution succeeds. -/
theorem mem_logs_iff (h : vm.executeBlock fuel txs s = some (.ok out)) {k : H} :
    k ∈ out.logs.map Prod.fst ↔ ∃ e ∈ vm.blockTrace fuel s {} txs,
      e.tx.hash vm.crypto = k ∧ vm.Succeeds fuel e := by
  simpa using (output_foldlM (executeBlock_ok h)).2.1 k

/-- **What the errors hold**: the hashes of those of which one fails. -/
theorem mem_errors_iff (h : vm.executeBlock fuel txs s = some (.ok out)) {k : H} :
    k ∈ out.errors.map Prod.fst ↔ ∃ e ∈ vm.blockTrace fuel s {} txs,
      e.tx.hash vm.crypto = k ∧ ¬ vm.Succeeds fuel e := by
  simpa using (output_foldlM (executeBlock_ok h)).2.2 k

/-- **The state of a block** is what its transactions contribute, in order:
each its counted payer, and its changes where it succeeds. -/
theorem state_eq_prod (h : vm.executeBlock fuel txs s = some (.ok out)) :
    out.state =
      ((vm.blockTrace fuel s {} txs).map fun e => counted e * vm.merged fuel e).prod := by
  rw [(output_foldlM (executeBlock_ok h)).1]
  exact one_mul _

/-- **Every transaction has one recorded outcome** exactly where no two
transactions of the block with one hash end differently. -/
theorem oneOutcome_iff (vm : Machine H) (fuel : ℕ) (s : State) (txs : List Transaction)
    (out : BlockOutput H) (h : vm.executeBlock fuel txs s = some (.ok out)) :
    (∀ e ∈ vm.blockTrace fuel s {} txs, vm.OneOutcome fuel out e) ↔
      ∀ e ∈ vm.blockTrace fuel s {} txs, ∀ e' ∈ vm.blockTrace fuel s {} txs,
        e.tx.hash vm.crypto = e'.tx.hash vm.crypto →
          (vm.Succeeds fuel e ↔ vm.Succeeds fuel e') := by
  constructor
  · intro hone e he e' he' hhash
    rw [← (hone e he).merged, hhash, (hone e' he').merged]
  · intro hsame e he
    -- the fate of every execution under this hash is the one of `e`
    have hlogs : e.tx.hash vm.crypto ∈ out.logs.map Prod.fst ↔ vm.Succeeds fuel e := by
      rw [mem_logs_iff h]
      exact ⟨fun ⟨e', he', hhash, hok⟩ => (hsame e' he' e he hhash).1 hok,
        fun hok => ⟨e, he, rfl, hok⟩⟩
    have herrors : e.tx.hash vm.crypto ∈ out.errors.map Prod.fst ↔ ¬ vm.Succeeds fuel e := by
      rw [mem_errors_iff h]
      exact ⟨fun ⟨e', he', hhash, hfail⟩ => fun hok => hfail ((hsame e' he' e he hhash).2 hok),
        fun hfail => ⟨e, he, rfl, hfail⟩⟩
    refine ⟨?_, hlogs, stored_eq_synced_iff.2 ?_⟩
    · rw [hlogs, herrors, not_not]
    · rw [hlogs, herrors]
      tauto

open Sample in
/-- Two transactions of payer 1 that both succeed. -/
theorem oneOutcome_spend_twice :
    ∃ out, closing.executeBlock 1 [spend 1, spend 2] empty.get = some (.ok out) ∧
      ∀ e ∈ closing.blockTrace 1 empty.get {} [spend 1, spend 2], closing.OneOutcome 1 out e := by
  refine ⟨_, rfl, (oneOutcome_iff closing 1 empty.get [spend 1, spend 2] _ rfl).2 ?_⟩
  have hok : ∀ e ∈ closing.blockTrace 1 empty.get {} [spend 1, spend 2],
      closing.Succeeds 1 e := by
    refine List.forall_mem_cons.2 ⟨⟨_, rfl⟩, List.forall_mem_cons.2 ⟨⟨_, rfl⟩, ?_⟩⟩
    exact fun e he => by cases he
  exact fun e he e' he' _ => iff_of_true (hok e he) (hok e' he')

open Sample in
/-- **A transaction with two outcomes**: in a block that has the same
transaction twice the first execution succeeds and the second one fails
the nonce check, so that its hash has logs and an error, and the block
store and the database report different outcomes. -/
theorem spend_repeated_two_outcomes :
    ∃ out, closing.executeBlock 1 [spend 1, spend 1] empty.get = some (.ok out) ∧
      (spend 1).hash sampleCrypto ∈ out.logs.map Prod.fst ∧
      (spend 1).hash sampleCrypto ∈ out.errors.map Prod.fst ∧
      out.stored ((spend 1).hash sampleCrypto) ≠ out.synced ((spend 1).hash sampleCrypto) ∧
      ¬ ∀ e ∈ closing.blockTrace 1 empty.get {} [spend 1, spend 1], closing.OneOutcome 1 out e := by
  obtain ⟨out, hrun⟩ : ∃ out,
      closing.executeBlock 1 [spend 1, spend 1] empty.get = some (.ok out) := ⟨_, rfl⟩
  have hlogs := (mem_logs_iff hrun).2 ⟨_, List.mem_cons_self, rfl, _, rfl⟩
  have herrors := (mem_errors_iff hrun).2
    ⟨_, List.mem_cons_of_mem _ List.mem_cons_self, rfl, fun ⟨_, hok⟩ => by cases hok⟩
  refine ⟨out, hrun, hlogs, herrors,
    fun h => stored_eq_synced_iff.1 h ⟨hlogs, herrors⟩, fun h => ?_⟩
  exact (h _ List.mem_cons_self).one.1 hlogs herrors

end Machine

end Rensa
