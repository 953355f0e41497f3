import Rensa.Vm.Unit
/-!
# The outputs of a transaction, one after another

The machine processes every output of a transaction, and every nested
call, on the state before the first of them. `executeSeq` is the
sequential reading: each output on the state overlaid with what the
outputs before it did. The two agree where no output that is reached, at
any depth of calls, reads what an earlier one of the same transaction
changed (`executeTransaction_eq_seq`). For an output that makes no call
this is exact (`processOutput_eq_iff`); a contract that is called may
come to the same outputs from what it is wrongly shown.
-/

namespace Rensa

namespace Machine

variable {H : Type} (vm : Machine H)

/-! ## The sequential reading -/

/-- The loop over the outputs, each on the state the outputs before it
left. -/
def processOutputsSeq (u : ExecutionUnit) (invoke : ExecutionUnit → Run TransactionOutput) :
    TransactionOutput → List Output → Run TransactionOutput
  | acc, [] => some (.ok acc)
  | acc, o :: os =>
    match vm.processOutput { u with state := acc.stateDiff.layOver u.state } invoke o with
    | none => none
    | some (.error e) => some (.error e)
    | some (.ok out) =>
      let acc := acc.merge out
      if vm.limits.maxLogsCount < acc.logEntries.length then some (.error .tooManyLogs)
      else processOutputsSeq u invoke acc os

/-- A call whose outputs, and nested calls, take effect one after
another. -/
def executeSeq : ℕ → ExecutionUnit → Run TransactionOutput
  | 0, _ => none
  | fuel + 1, u =>
    match u.entrypoint u.env u.params with
    | .error e => some (.error e)
    | .ok outputs => vm.processOutputsSeq u (executeSeq fuel) {} outputs

/-- A transaction under the sequential reading. -/
def executeTransactionSeq (fuel : ℕ) (tx : Transaction) (state : State) : Run TransactionOutput :=
  match vm.newUnit tx state with
  | .error e => some (.error e)
  | .ok u => vm.executeSeq fuel u

end Machine

/-! ## Stale reads -/

namespace Machine

variable {H : Type} (vm : Machine H)

/-- **What an output reads is current**: in the state `c`, which the outputs
before it left, it is what it is in the snapshot of the unit. A create
reads whether there is an account, a write reads the account but for its
data if it may write it, and a call reads the contract, and the views of
the accounts it lists if there is one. An output that is refused before it
reads anything reads nothing, and neither do a log and a deletion, which
goes by the view the call was given. -/
def ReadsCurrent (u : ExecutionUnit) (c : State) : Output → Prop
  | .logEntry _ _ => True
  | .deleteOwnedAccount _ => True
  | .createOwnedAccount k data =>
    fits vm.limits.maxAccountSize data → (c k = none ↔ u.state k = none)
  | .createExecutableAccount k bytecode =>
    bytecode.length ≤ vm.limits.maxContractSize → u.env.address = wasmVmBuiltinAddr →
      (c k = none ↔ u.state k = none)
  | .writeAccountData k data =>
    fits vm.limits.maxAccountSize data → (c k = none ↔ u.state k = none) ∧
      (u.Grants k → (c k).map (fun a => { a with data := none }) =
        (u.state k).map fun a => { a with data := none })
  | .contractInvoke k accounts _ =>
    accounts.length ≤ vm.limits.maxInputAccounts →
      vm.entrypoint k c = vm.entrypoint k u.state ∧
        ∀ f, vm.entrypoint k u.state = .ok f → ∀ r ∈ accounts,
          vm.createAccountView c k r = vm.createAccountView u.state k r

/-- All that is read by the outputs the loop reaches is current, and by the
calls they make, `nested` being said of these. -/
def OutputsCurrent (u : ExecutionUnit) (c : State)
    (invoke : ExecutionUnit → Run TransactionOutput) (nested : ExecutionUnit → State → Prop) :
    TransactionOutput → List Output → Prop
  | _, [] => True
  | acc, o :: os =>
    vm.ReadsCurrent u (acc.stateDiff.layOver c) o ∧
      (∀ k accounts params v, o = .contractInvoke k accounts params →
        vm.newNested u k accounts params = .ok v → nested v (acc.stateDiff.layOver c)) ∧
      ∀ out, vm.processOutput u invoke o = some (.ok out) →
        (acc.merge out).logEntries.length ≤ vm.limits.maxLogsCount →
          OutputsCurrent u c invoke nested (acc.merge out) os

/-- All that is read below a call that begins in the state `c`. -/
def Current : ℕ → ExecutionUnit → State → Prop
  | 0, _, _ => True
  | fuel + 1, u, c =>
    ∀ outputs, u.entrypoint u.env u.params = .ok outputs →
      vm.OutputsCurrent u c (vm.execute fuel) (Current fuel) {} outputs

/-- **The transaction reads nothing stale.** -/
def NoStaleRead (fuel : ℕ) (tx : Transaction) (state : State) : Prop :=
  ∀ u, vm.newUnit tx state = .ok u → vm.Current fuel u state

end Machine

namespace ExecutionUnit

variable {u : ExecutionUnit} {c : State} {k : Pubkey} {a a' : Account}

/-- The account to be set is looked at only where it may be set. -/
theorem setAccount_eq_iff :
    u.setAccount k a = u.setAccount k a' ↔ (u.Grants k → a = a') := by
  unfold setAccount Grants
  cases hfind : u.env.accounts.find? fun p => p.1 == k with
  | none => exact iff_of_true rfl fun ⟨p, hp, _⟩ => by cases hp
  | some p =>
    dsimp only
    by_cases hw : p.2.writable = true
    · rw [if_pos hw, if_pos hw, forall_prop_of_true ⟨p, rfl, hw⟩]
      refine ⟨fun h => ?_, fun h => by rw [h]⟩
      have hget := congrArg (fun d : StateDiff => d.get k) (Except.ok.inj h)
      simpa [StateDiff.get_set] using hget
    · rw [if_neg hw, if_neg hw]
      exact iff_of_true rfl fun ⟨q, hq, hqw⟩ => absurd (Option.some.inj hq ▸ hqw) hw

/-- A refusal to set an account is none to look one up. -/
theorem setAccount_ne_error {e : ContractError} (h : e ≠ .invalidOutputAccount)
    (h' : e ≠ .accountNotWritable) : u.setAccount k a ≠ .error e := by
  unfold setAccount
  split
  · exact fun heq => h (Except.error.inj heq).symm
  · split
    · exact fun heq => by cases heq
    · exact fun heq => h' (Except.error.inj heq).symm

/-- A creation that can be refused for an account that is there has another
result where there is none. -/
theorem creation_eq_iff {β : Type} {x y : Option Account} {r e : β} (hne : r ≠ e) :
    (match x with | none => r | some _ => e) = (match y with | none => r | some _ => e) ↔
      (x = none ↔ y = none) := by
  cases x with
  | none =>
    cases y with
    | none => exact iff_of_true rfl Iff.rfl
    | some b => exact iff_of_false hne fun h => by simpa using h.1 rfl
  | some a =>
    cases y with
    | none => exact iff_of_false hne.symm fun h => by simpa using h.2 rfl
    | some b => exact iff_of_true rfl (by simp)

theorem createAccount_eq_iff {data : Option Bytes} :
    ({ u with state := c } : ExecutionUnit).createAccount k data = u.createAccount k data ↔
      (c k = none ↔ u.state k = none) :=
  creation_eq_iff (setAccount_ne_error (by decide) (by decide))

theorem createExecutableAccount_eq_iff {bytecode : Bytes} :
    ({ u with state := c } : ExecutionUnit).createExecutableAccount k bytecode =
        u.createExecutableAccount k bytecode ↔
      (u.env.address = wasmVmBuiltinAddr → (c k = none ↔ u.state k = none)) := by
  simp only [createExecutableAccount]
  by_cases haddr : u.env.address = wasmVmBuiltinAddr
  · rw [forall_prop_of_true haddr, if_neg (not_not.2 haddr), if_neg (not_not.2 haddr)]
    exact creation_eq_iff (setAccount_ne_error (by decide) (by decide))
  · rw [if_pos haddr, if_pos haddr]
    exact iff_of_true rfl fun h => absurd h haddr

theorem modifyAccount_eq_iff {data : Option Bytes} :
    ({ u with state := c } : ExecutionUnit).modifyAccount k data = u.modifyAccount k data ↔
      (c k = none ↔ u.state k = none) ∧
        (u.Grants k → (c k).map (fun a => { a with data := none }) =
          (u.state k).map fun a => { a with data := none }) := by
  simp only [modifyAccount]
  have hset : ∀ b, u.setAccount k b ≠ .error .accountDoesNotExist := fun b =>
    setAccount_ne_error (by decide) (by decide)
  cases hs : u.state k with
  | none =>
    cases hc : c k with
    | none => exact iff_of_true rfl ⟨Iff.rfl, fun _ => rfl⟩
    | some b => exact iff_of_false (hset _) fun h => by simpa using h.1.2 rfl
  | some a =>
    cases hc : c k with
    | none => exact iff_of_false (fun h => hset _ h.symm) fun h => by simpa using h.1.1 rfl
    | some b =>
      -- the accounts agree with the new data where they agree without any
      have hdata : ({ b with data := data } : Account) = { a with data := data } ↔
          ({ b with data := none } : Account) = { a with data := none } := by
        obtain ⟨_, _, _, _⟩ := a
        obtain ⟨_, _, _, _⟩ := b
        simp
      dsimp only
      rw [show ({ u with state := c } : ExecutionUnit).setAccount k { b with data := data } =
        u.setAccount k { b with data := data } from rfl, setAccount_eq_iff, hdata]
      simp

end ExecutionUnit

namespace Machine

variable {H : Type} {vm : Machine H} {u : ExecutionUnit} {c : State}

/-! ## One output -/

theorem ofDiff_inj {r r' : Except ContractError StateDiff} :
    TransactionOutput.ofDiff r = TransactionOutput.ofDiff r' ↔ r = r' := by
  cases r <;> cases r' <;> simp [TransactionOutput.ofDiff, Except.map]

/-- **A direct output gives the same result** on the running state as on
the snapshot exactly where what it reads is current. -/
theorem processOutput_eq_iff {o : Output} (hdir : o.IsDirect)
    (invoke invoke' : ExecutionUnit → Run TransactionOutput) :
    vm.processOutput { u with state := c } invoke' o = vm.processOutput u invoke o ↔
      vm.ReadsCurrent u c o := by
  cases o with
  | contractInvoke => exact hdir.elim
  | logEntry key value => exact iff_of_true rfl trivial
  | deleteOwnedAccount k => exact iff_of_true rfl trivial
  | createOwnedAccount k data =>
    simp only [processOutput, ReadsCurrent]
    split
    next hfits =>
      rw [Option.some_inj, ofDiff_inj, forall_prop_of_true hfits]
      exact ExecutionUnit.createAccount_eq_iff
    next hlarge => exact iff_of_true rfl fun hfits => absurd hfits hlarge
  | createExecutableAccount k bytecode =>
    simp only [processOutput, ReadsCurrent]
    split
    next hfits =>
      rw [Option.some_inj, ofDiff_inj, forall_prop_of_true hfits]
      exact ExecutionUnit.createExecutableAccount_eq_iff
    next hlarge => exact iff_of_true rfl fun hfits => absurd hfits hlarge
  | writeAccountData k data =>
    simp only [processOutput, ReadsCurrent]
    split
    next hfits =>
      rw [Option.some_inj, ofDiff_inj, forall_prop_of_true hfits]
      exact ExecutionUnit.modifyAccount_eq_iff
    next hlarge => exact iff_of_true rfl fun hfits => absurd hfits hlarge

/-- **A call builds the same unit**, on the running state, where what it
reads is current. -/
theorem newNested_of_current {k : Pubkey} {accounts : List AccountRef} {params : Bytes}
    (h : vm.ReadsCurrent u c (.contractInvoke k accounts params)) :
    vm.newNested { u with state := c } k accounts params =
      (vm.newNested u k accounts params).map fun v => { v with state := c } := by
  unfold newNested
  split
  · rfl
  next hfew =>
    obtain ⟨hentry, hviews⟩ := h (Nat.not_lt.1 hfew)
    rw [hentry]
    cases hf : vm.entrypoint k u.state with
    | error e => rfl
    | ok f =>
      have henv : vm.createEnvironment c accounts k (some u.contract) =
          vm.createEnvironment u.state accounts k (some u.contract) := by
        simp only [createEnvironment, Environment.mk.injEq, true_and]
        exact List.map_congr_left (hviews f hf)
      dsimp only
      rw [henv]
      rfl

/-! ## Whole executions -/

/-- One output, the calls it makes being sequential. -/
theorem processOutput_of_current {invoke invoke' : ExecutionUnit → Run TransactionOutput}
    {o : Output} (hreads : vm.ReadsCurrent u c o)
    (hnested : ∀ k accounts params v, o = .contractInvoke k accounts params →
      vm.newNested u k accounts params = .ok v → invoke' { v with state := c } = invoke v) :
    vm.processOutput { u with state := c } invoke' o = vm.processOutput u invoke o := by
  by_cases hdir : o.IsDirect
  · exact (processOutput_eq_iff hdir invoke invoke').2 hreads
  · obtain ⟨k, accounts, params, rfl⟩ : ∃ k accounts params,
        o = .contractInvoke k accounts params := by
      cases o <;> simp_all [Output.IsDirect]
    simp only [processOutput]
    rw [newNested_of_current hreads]
    cases hn : vm.newNested u k accounts params with
    | error e => rfl
    | ok v => exact hnested k accounts params v rfl hn

/-- The loop over the outputs. -/
theorem processOutputsSeq_eq_of_current {invoke invoke' : ExecutionUnit → Run TransactionOutput}
    {nested : ExecutionUnit → State → Prop}
    (hnested : ∀ v c, nested v c → invoke' { v with state := c } = invoke v) (os : List Output)
    (acc : TransactionOutput) (h : vm.OutputsCurrent u c invoke nested acc os) :
    vm.processOutputsSeq { u with state := c } invoke' acc os =
      vm.processOutputs u invoke acc os := by
  induction os generalizing acc with
  | nil => rfl
  | cons o os ih =>
    obtain ⟨hreads, hcalls, hrest⟩ := h
    have heq := processOutput_of_current hreads
      fun k accounts params v ho hv => hnested v _ (hcalls k accounts params v ho hv)
    simp only [processOutputsSeq, processOutputs, heq]
    rcases hout : vm.processOutput u invoke o with _ | _ | out
    · rfl
    · rfl
    · dsimp only
      split
      · rfl
      next hlogs => exact ih _ (hrest out hout (Nat.not_lt.1 hlogs))

/-- **A call whose reads are all current is sequential.** -/
theorem executeSeq_eq_of_current (fuel : ℕ) (u : ExecutionUnit) (c : State)
    (h : vm.Current fuel u c) : vm.executeSeq fuel { u with state := c } = vm.execute fuel u := by
  induction fuel generalizing u c with
  | zero => rfl
  | succ fuel ih =>
    simp only [executeSeq, execute]
    cases hos : u.entrypoint u.env u.params with
    | error e => rfl
    | ok os => exact processOutputsSeq_eq_of_current ih os {} (h os hos)

/-- **Where nothing stale is read the machine is sequential**: at every
nesting depth it returns the diff, or the error, of the sequential
reading. -/
theorem executeTransaction_eq_seq (vm : Machine H) (fuel : ℕ) (tx : Transaction) (state : State)
    (h : vm.NoStaleRead fuel tx state) :
    vm.executeTransaction fuel tx state = vm.executeTransactionSeq fuel tx state := by
  simp only [executeTransaction, executeTransactionSeq]
  cases hu : vm.newUnit tx state with
  | error e => rfl
  | ok u =>
    have hstate : u.state = state := (newUnit_ok hu).2.2.2.2.1
    subst hstate
    exact (executeSeq_eq_of_current fuel u u.state (h u hu)).symm

/-! ## Two contracts -/

namespace Sample

/-- The contract at address 200 returns the given outputs. -/
def returning (outputs : List Output) : Machine Bytes where
  crypto := sampleCrypto
  limits := limits
  builtin k := if k = 200 then some fun _ _ => .ok outputs else none
  runtime _ := .error .accountIsNotExecutable

/-- A call of that contract by payer 1, which may write accounts 300 and
301. -/
def call : Transaction :=
  let tx : Transaction :=
    { contract := 200, nonce := 0, payer := 1, params := [], signatures := []
      accounts := [⟨300, true, false⟩, ⟨301, true, false⟩] }
  { tx with signatures := [sign 1 tx] }

/-- Beside it, the one at address 201 creates account 301. -/
def calling (outputs : List Output) : Machine Bytes :=
  { returning outputs with
    builtin k :=
      if k = 200 then some fun _ _ => .ok outputs
      else if k = 201 then some fun _ _ => .ok [.createOwnedAccount 301 none]
      else none }

/-- One account created, and a call that creates another one. -/
def createAndInvoke : List Output :=
  [.createOwnedAccount 300 (some [1]), .contractInvoke 201 [⟨301, true, false⟩] []]

/-- One account created and then written. -/
def createThenWrite : List Output :=
  [.createOwnedAccount 300 none, .writeAccountData 300 (some [1])]

end Sample

/-- An account created, and another one by a nested call. -/
theorem executeTransaction_eq_seq_createAndInvoke :
    (Sample.calling Sample.createAndInvoke).executeTransaction 2 Sample.call (fun _ => none) =
        (Sample.calling Sample.createAndInvoke).executeTransactionSeq 2 Sample.call
          (fun _ => none) ∧
      ∃ out, (Sample.calling Sample.createAndInvoke).executeTransaction 2 Sample.call
        (fun _ => none) = some (.ok out) := by
  refine ⟨executeTransaction_eq_seq _ _ _ _ fun u hu => ?_, _, rfl⟩
  cases hu
  rintro os hos
  cases hos
  refine ⟨fun _ => Iff.rfl, nofun, fun out hout _ => ?_⟩
  cases hout
  refine ⟨fun _ => ⟨rfl, fun f hf r hr => ?_⟩, fun k accounts params v ho hv => ?_,
    fun out hout _ => trivial⟩
  · obtain rfl := List.mem_singleton.1 hr
    decide
  · cases ho
    cases hv
    rintro os hos
    cases hos
    exact ⟨fun _ => by decide, nofun, fun out hout _ => trivial⟩

/-- **The outputs are not sequential**: an account that an output creates
does not exist for the output that writes it, so the transaction fails
where the sequential reading returns the account written. -/
theorem createThenWrite_not_sequential :
    (Sample.returning Sample.createThenWrite).executeTransaction 1 Sample.call (fun _ => none) =
        some (.error .accountDoesNotExist) ∧
      ∃ out, (Sample.returning Sample.createThenWrite).executeTransactionSeq 1 Sample.call
          (fun _ => none) = some (.ok out) :=
  ⟨rfl, _, rfl⟩

end Machine

end Rensa
