import Rensa.Vm.Ownership
/-!
# The limits on what a transaction puts out

Each output is checked by itself, wherever in the call tree it is emitted,
and the logs are counted again whenever a result is merged. `Settles`
lists how an account comes into a diff, with the check it went through:
the one case that escapes its limit is an executable account on the curve,
which its own signature leaves writable and which is then held to the
limit of a plain account. So the limits hold for all contracts exactly
where no such account can be written past the limit of a contract
(`withinLimits_iff`).
-/

namespace Rensa

open Relation

namespace Machine

variable {H : Type} {vm : Machine H} {u v : ExecutionUnit} {state : State} {k : Pubkey}

/-- How the account `a` comes to be set under `k` by the call tree of
`u`. -/
inductive Settles (vm : Machine H) (state : State) (u : ExecutionUnit) (k : Pubkey)
    (a : Account) : Prop
  /-- A plain account is created, or overwritten. -/
  | plain : a.executable = false → fits vm.limits.maxAccountSize a.data = true →
      Settles vm state u k a
  /-- The WasmVM contract creates an executable account. -/
  | created {v : ExecutionUnit} {os : List Output} {bytecode : Bytes} :
      ReflTransGen vm.Starts u v → v.env.address = wasmVmBuiltinAddr →
      v.entrypoint v.env v.params = .ok os → .createExecutableAccount k bytecode ∈ os →
      a.executable = true → fits vm.limits.maxContractSize a.data = true → Settles vm state u k a
  /-- An executable account on the curve is overwritten. -/
  | overwritten {acc : Account} : state k = some acc → acc.executable = true →
      vm.crypto.hasPrivateKey k = true → 0 < vm.limits.maxInputAccounts →
      a.executable = true → fits vm.limits.maxAccountSize a.data = true → Settles vm state u k a

/-- The unit is shown no more accounts than the limit allows. -/
def Admitted (vm : Machine H) (u : ExecutionUnit) : Prop :=
  u.env.accounts.length ≤ vm.limits.maxInputAccounts

theorem admitted_newUnit {tx : Transaction} (h : vm.newUnit tx state = .ok u) :
    vm.Admitted u := by
  obtain ⟨hlen, -, -, -, -, -, -, henv⟩ := newUnit_ok h
  rw [Admitted, henv]
  simpa [createEnvironment] using hlen

theorem admitted_start (hs : vm.Starts u v) : vm.Admitted v := by
  obtain ⟨c, accounts, params, -, -, -, -, -, -, hn⟩ := hs
  have hlen : accounts.length ≤ vm.limits.maxInputAccounts := by
    by_contra hlen
    simp only [newNested, if_pos (Nat.lt_of_not_le hlen)] at hn
    cases hn
  rw [Admitted, (newNested_ok hn).2.2]
  simpa [createEnvironment] using hlen

/-- An account that can be written is one of those the unit is shown. -/
theorem Admitted.pos (h : vm.Admitted v) (hw : v.Grants k) : 0 < vm.limits.maxInputAccounts := by
  obtain ⟨p, hfind, -⟩ := hw
  have := List.length_pos_of_mem (List.mem_of_find?_eq_some hfind)
  rw [Admitted] at h
  omega

/-! ## One output -/

/-- An account that one direct output sets. -/
theorem eq_of_get_single {a b : Account} {k' : Pubkey}
    (h : (({} : StateDiff).set k' b).get k = some a) : k' = k ∧ b = a := by
  rw [StateDiff.get_set, StateDiff.get_empty] at h
  split at h
  · exact ⟨‹_›, Option.some.inj h⟩
  · cases h

/-- **A direct output that succeeds passed its checks**: its log entry is
not too long, and the account it sets settles. -/
theorem checked_of_processOutput (hv : ReflTransGen vm.Starts u v) (hrun : vm.RunsOn state v)
    (hadm : vm.Admitted v) {os : List Output} (hos : v.entrypoint v.env v.params = .ok os)
    {o : Output} (ho : o ∈ os) (hdir : o.IsDirect)
    {invoke : ExecutionUnit → Run TransactionOutput} {r : TransactionOutput}
    (h : vm.processOutput v invoke o = some (.ok r)) :
    (∀ e ∈ r.logEntries, e.1.utf8ByteSize + e.2.utf8ByteSize ≤ vm.limits.maxLogSize) ∧
      ∀ k a, r.stateDiff.get k = some a → vm.Settles state u k a := by
  have heff := directEffect_of_ok hdir h
  obtain ⟨hstate, accounts, caller, henv⟩ := hrun
  cases heff with
  | log key value =>
    have hlen : ¬ vm.limits.maxLogSize < key.utf8ByteSize + value.utf8ByteSize := by
      intro hlen
      simp only [processOutput, if_pos hlen] at h
      cases h
    exact ⟨by simpa using Nat.le_of_not_lt hlen, by simp⟩
  | create data _ _ =>
    have hfits : fits vm.limits.maxAccountSize data = true := by
      by_contra hfits
      simp only [processOutput, if_neg hfits] at h
      cases h
    refine ⟨by simp, fun k a hget => ?_⟩
    obtain ⟨-, rfl⟩ := eq_of_get_single hget
    exact .plain rfl hfits
  | @write k' data acc hw hacc =>
    have hfits : fits vm.limits.maxAccountSize data = true := by
      by_contra hfits
      simp only [processOutput, if_neg hfits] at h
      cases h
    refine ⟨by simp, fun k a hget => ?_⟩
    obtain ⟨rfl, rfl⟩ := eq_of_get_single hget
    rw [hstate] at hacc
    cases hex : acc.executable with
    | false => exact .plain rfl hfits
    | true =>
      -- off the curve nothing executable is writable
      have hcurve : vm.crypto.hasPrivateKey k' = true := by
        by_contra hcurve
        have := (grants_ofEnvironment henv hw (Bool.not_eq_true _ ▸ hcurve) hacc).1
        rw [hex] at this
        cases this
      exact .overwritten hacc hex hcurve (hadm.pos hw) rfl hfits
  | delete => exact ⟨by simp, by simp⟩
  | createExecutable bytecode haddr _ _ =>
    have hlen : bytecode.length ≤ vm.limits.maxContractSize := by
      by_contra hlen
      simp only [processOutput, if_neg hlen] at h
      cases h
    refine ⟨by simp, fun k a hget => ?_⟩
    obtain ⟨rfl, rfl⟩ := eq_of_get_single hget
    exact .created hv haddr hos ho rfl (by simpa [fits] using hlen)

/-! ## The whole execution -/

/-- **Every log entry and every account of an execution was checked**, at
whatever depth it was put out. -/
theorem checked_of_execute {fuel : ℕ} {out : TransactionOutput} (hrun : vm.RunsOn state u)
    (hadm : vm.Admitted u) (h : vm.execute fuel u = some (.ok out)) :
    (∀ e ∈ out.logEntries, e.1.utf8ByteSize + e.2.utf8ByteSize ≤ vm.limits.maxLogSize) ∧
      ∀ k a, out.stateDiff.get k = some a → vm.Settles state u k a := by
  refine execute_rule
    (Q := fun v => ReflTransGen vm.Starts u v ∧ vm.RunsOn state v ∧ vm.Admitted v)
    (P := fun out =>
      (∀ e ∈ out.logEntries, e.1.utf8ByteSize + e.2.utf8ByteSize ≤ vm.limits.maxLogSize) ∧
        ∀ k a, out.stateDiff.get k = some a → vm.Settles state u k a)
    ?_ ⟨by simp, by simp⟩ ?_ ?_ ⟨.refl, hrun, hadm⟩ h
  · rintro v w ⟨hv, hrun, -⟩ hs
    exact ⟨hv.tail hs, hrun.start hs, admitted_start hs⟩
  · rintro a b ⟨halogs, haset⟩ ⟨hblogs, hbset⟩
    refine ⟨fun e he => (List.mem_append.1 he).elim (halogs e) (hblogs e), fun k x hget => ?_⟩
    rw [TransactionOutput.merge, StateDiff.get_merge, Option.or_eq_some_iff] at hget
    rcases hget with hget | ⟨-, hget⟩
    · exact hbset k x hget
    · exact haset k x hget
  · rintro v ⟨hv, hrun, hadm⟩ os hos o ho hdir invoke r hr
    exact checked_of_processOutput hv hrun hadm hos ho hdir hr

/-- The number of logs is checked after the last merge. -/
theorem logs_processOutputs {invoke : ExecutionUnit → Run TransactionOutput} {os : List Output}
    {acc out : TransactionOutput} (hacc : acc.logEntries.length ≤ vm.limits.maxLogsCount)
    (h : vm.processOutputs u invoke acc os = some (.ok out)) :
    out.logEntries.length ≤ vm.limits.maxLogsCount := by
  induction os generalizing acc with
  | nil =>
    obtain rfl : acc = out := by simpa [processOutputs] using h
    exact hacc
  | cons o os ih =>
    obtain ⟨r, -, hlen, hrest⟩ := processOutputs_cons_ok h
    exact ih hlen hrest

theorem logs_execute {fuel : ℕ} {out : TransactionOutput}
    (h : vm.execute fuel u = some (.ok out)) :
    out.logEntries.length ≤ vm.limits.maxLogsCount := by
  cases fuel with
  | zero => cases h
  | succ fuel =>
    simp only [execute] at h
    split at h
    · cases h
    · exact logs_processOutputs (Nat.zero_le _) h

/-- **The limits on a successful transaction.** -/
structure WithinLimits (vm : Machine H) (tx : Transaction) (state : State)
    (out : TransactionOutput) : Prop where
  logsCount : out.logEntries.length ≤ vm.limits.maxLogsCount
  logSize : ∀ e ∈ out.logEntries, e.1.utf8ByteSize + e.2.utf8ByteSize ≤ vm.limits.maxLogSize
  accountSize : ∀ k a, out.stateDiff.get k = some a → a.executable = false →
    fits vm.limits.maxAccountSize a.data = true
  contractSize : ∀ k a, out.stateDiff.get k = some a → a.executable = true →
    fits vm.limits.maxContractSize a.data = true
  /-- An executable account that was not one before comes from an output of
  the WasmVM contract. -/
  created : ∀ k a, out.stateDiff.get k = some a → a.executable = true →
    (∀ acc, state k = some acc → acc.executable = false) →
    ∃ u v, vm.newUnit tx state = .ok u ∧ ReflTransGen vm.Starts u v ∧
      v.env.address = wasmVmBuiltinAddr ∧ ∃ os bytecode,
        v.entrypoint v.env v.params = .ok os ∧ .createExecutableAccount k bytecode ∈ os

/-- The checks of a top-level transaction that do not depend on what the
contract is. -/
def Passes (C : Crypto H) (limits : Limits) (tx : Transaction) (state : State) : Prop :=
  tx.accounts.length ≤ limits.maxInputAccounts ∧ tx.verifySignatures C = .ok () ∧
    tx.nonce = ((state tx.payer).map Account.nonce).getD 0

theorem fits_mono {n m : ℕ} (hle : n ≤ m) {data : Option Bytes} (h : fits n data = true) :
    fits m data = true := by
  cases data with
  | none => rfl
  | some data =>
    simp only [fits, decide_eq_true_eq] at h ⊢
    omega

/-- No executable account can be written past the limit of a contract. -/
def NoOverwrite (C : Crypto H) (limits : Limits) (state : State) : Prop :=
  limits.maxAccountSize ≤ limits.maxContractSize ∨ limits.maxInputAccounts = 0 ∨
    ∀ k acc, state k = some acc → acc.executable = true → C.hasPrivateKey k = false

/-- Where no executable account can be written past the limit of a
contract, the limits hold for every contract. -/
theorem withinLimits_of_ok {fuel : ℕ} {tx : Transaction} {out : TransactionOutput}
    (h : vm.executeTransaction fuel tx state = some (.ok out))
    (hcond : NoOverwrite vm.crypto vm.limits state) :
    vm.WithinLimits tx state out := by
  obtain ⟨u, hu, hrun⟩ := executeTransaction_ok h
  obtain ⟨hlogs, hset⟩ := checked_of_execute (runsOn_newUnit hu) (admitted_newUnit hu) hrun
  refine ⟨logs_execute hrun, hlogs, fun k a hget hex => ?_, fun k a hget hex => ?_,
    fun k a hget hex hnew => ?_⟩
  · cases hset k a hget with
    | plain _ hfits => exact hfits
    | created _ _ _ _ hex' => simp [hex] at hex'
    | overwritten _ _ _ _ hex' => simp [hex] at hex'
  · cases hset k a hget with
    | plain hex' => simp [hex] at hex'
    | created _ _ _ _ _ hfits => exact hfits
    | overwritten hacc hexacc hcurve hpos _ hfits =>
      rcases hcond with hle | hzero | hoff
      · exact fits_mono hle hfits
      · omega
      · rw [hoff k _ hacc hexacc] at hcurve
        cases hcurve
  · cases hset k a hget with
    | plain hex' => simp [hex] at hex'
    | created hv haddr hos hmem => exact ⟨u, _, hu, hv, haddr, _, _, hos, hmem⟩
    | overwritten hacc hexacc =>
      rw [hnew _ hacc] at hexacc
      cases hexacc

/-! ## A contract that writes past the limit -/

/-- Every contract calls itself with the account `k` as a writable signer,
and overwrites it when it is called so. -/
def overwriting (C : Crypto H) (limits : Limits) (k : Pubkey) : Machine H where
  crypto := C
  limits := limits
  builtin c := some fun env _ =>
    match env.caller with
    | none => .ok [.contractInvoke c [⟨k, true, true⟩] []]
    | some _ => .ok [.writeAccountData k (some (List.replicate (limits.maxContractSize + 1) 0))]
  runtime _ := .error .accountIsNotExecutable

section Overwriting

variable {C : Crypto H} {limits : Limits} {tx : Transaction} {acc : Account}

/-- What the account is overwritten with: one byte more than a contract may
have. -/
def pastLimit (limits : Limits) : Option Bytes :=
  some (List.replicate (limits.maxContractSize + 1) 0)

/-- The unit that a transaction starts. -/
def overwritingCall (C : Crypto H) (limits : Limits) (k : Pubkey) (tx : Transaction)
    (state : State) : ExecutionUnit where
  entrypoint env _ :=
    match env.caller with
    | none => .ok [.contractInvoke tx.contract [⟨k, true, true⟩] []]
    | some _ => .ok [.writeAccountData k (pastLimit limits)]
  env := (overwriting C limits k).createEnvironment state tx.accounts tx.contract none
  state := state
  contract := tx.contract
  params := tx.params

/-- The unit that the contract's call of itself starts. -/
def overwritingNested (C : Crypto H) (limits : Limits) (k : Pubkey) (tx : Transaction)
    (state : State) : ExecutionUnit :=
  { overwritingCall C limits k tx state with
    env := (overwriting C limits k).createEnvironment state [⟨k, true, true⟩] tx.contract
      (some tx.contract)
    params := [] }

theorem newUnit_overwriting (hpass : Passes C limits tx state) :
    (overwriting C limits k).newUnit tx state = .ok (overwritingCall C limits k tx state) := by
  obtain ⟨hlen, hsig, hnonce⟩ := hpass
  have hlen' : ¬ (overwriting C limits k).limits.maxInputAccounts < tx.accounts.length :=
    Nat.not_lt.2 hlen
  have hsig' : tx.verifySignatures (overwriting C limits k).crypto = .ok () := hsig
  have hnonce' : ¬ tx.nonce ≠ ((state tx.payer).map Account.nonce).getD 0 := not_not.2 hnonce
  simp only [newUnit, if_neg hlen', hsig', if_neg hnonce']
  rfl

theorem newNested_overwriting (hpos : limits.maxInputAccounts ≠ 0) :
    (overwriting C limits k).newNested (overwritingCall C limits k tx state) tx.contract
      [⟨k, true, true⟩] [] = .ok (overwritingNested C limits k tx state) := by
  have hone : ¬ (overwriting C limits k).limits.maxInputAccounts <
      [(⟨k, true, true⟩ : AccountRef)].length := by
    show ¬ limits.maxInputAccounts < 1
    omega
  simp only [newNested, if_neg hone]
  rfl

/-- The signature asked for makes the account on the curve writable. -/
theorem modifyAccount_overwritingNested (hcurve : C.hasPrivateKey k = true)
    (hacc : state k = some acc) (data : Option Bytes) :
    (overwritingNested C limits k tx state).modifyAccount k data =
      .ok (({} : StateDiff).set k { acc with data := data }) := by
  have hview : ((overwriting C limits k).createAccountView state tx.contract
      ⟨k, true, true⟩).2.writable = true := by
    have hcurve' : (overwriting C limits k).crypto.hasPrivateKey k = true := hcurve
    simp [createAccountView, grantsWrite, hcurve']
  simp only [ExecutionUnit.modifyAccount, overwritingNested, overwritingCall, hacc,
    ExecutionUnit.setAccount, createEnvironment, List.map_cons, List.map_nil]
  rw [List.find?_cons_of_pos (by simp [createAccountView])]
  exact if_pos hview

/-- One byte more than a contract may have still passes as the data of a
plain account. -/
theorem fits_pastLimit (hlt : limits.maxContractSize < limits.maxAccountSize) :
    fits limits.maxAccountSize (pastLimit limits) = true := by
  simp only [pastLimit, fits, List.length_replicate, decide_eq_true_eq]
  exact hlt

theorem execute_overwritingNested (tx : Transaction)
    (hlt : limits.maxContractSize < limits.maxAccountSize) (hcurve : C.hasPrivateKey k = true)
    (hacc : state k = some acc) :
    (overwriting C limits k).execute 1 (overwritingNested C limits k tx state) =
      some (.ok (({} : TransactionOutput).merge
        { stateDiff := ({} : StateDiff).set k { acc with data := pastLimit limits } })) := by
  have hos : (overwritingNested C limits k tx state).entrypoint
      (overwritingNested C limits k tx state).env
      (overwritingNested C limits k tx state).params =
      .ok [.writeAccountData k (pastLimit limits)] := rfl
  have hfits : fits (overwriting C limits k).limits.maxAccountSize (pastLimit limits) = true :=
    fits_pastLimit hlt
  simp only [execute, hos, processOutputs, processOutput, if_pos hfits,
    modifyAccount_overwritingNested hcurve hacc]
  rfl

/-- **A transaction that overwrites an executable account** with more than
a contract may have. -/
theorem executeTransaction_overwriting (hpass : Passes C limits tx state)
    (hlt : limits.maxContractSize < limits.maxAccountSize) (hpos : limits.maxInputAccounts ≠ 0)
    (hcurve : C.hasPrivateKey k = true) (hacc : state k = some acc) :
    ∃ out, (overwriting C limits k).executeTransaction 2 tx state = some (.ok out) ∧
      out.stateDiff.get k = some { acc with data := pastLimit limits } := by
  have hinner := execute_overwritingNested tx hlt hcurve hacc
  have hos : (overwritingCall C limits k tx state).entrypoint
      (overwritingCall C limits k tx state).env (overwritingCall C limits k tx state).params =
      .ok [.contractInvoke tx.contract [⟨k, true, true⟩] []] := rfl
  refine ⟨({} : TransactionOutput).merge (({} : TransactionOutput).merge
    { stateDiff := ({} : StateDiff).set k { acc with data := pastLimit limits } }), ?_, ?_⟩
  · simp only [executeTransaction, newUnit_overwriting hpass]
    rw [execute]
    simp only [hos, processOutputs, processOutput, newNested_overwriting hpos, hinner]
    rfl
  · simp [TransactionOutput.merge, StateDiff.get_merge, StateDiff.get_set]

end Overwriting

/-- **Successful transactions keep to the limits**, whatever the contracts
do, exactly where the transaction does not pass its own checks or no
executable account can be written past the limit of a contract. -/
theorem withinLimits_iff (C : Crypto H) (limits : Limits) (tx : Transaction) (state : State) :
    (∀ vm : Machine H, vm.crypto = C → vm.limits = limits → ∀ fuel out,
      vm.executeTransaction fuel tx state = some (.ok out) → vm.WithinLimits tx state out) ↔
      (¬ Passes C limits tx state ∨ NoOverwrite C limits state) := by
  constructor
  · intro h
    by_contra hcond
    simp only [NoOverwrite, not_or, not_not, not_le, not_forall, Bool.not_eq_false] at hcond
    obtain ⟨hpass, hlt, hpos, k, acc, hacc, hex, hcurve⟩ := hcond
    obtain ⟨out, hrun, hget⟩ := executeTransaction_overwriting hpass hlt hpos hcurve hacc
    have hfits := (h _ rfl rfl _ _ hrun).contractSize k _ hget hex
    simp [fits, overwriting, pastLimit] at hfits
  · rintro hcond vm rfl rfl fuel out hrun
    refine withinLimits_of_ok hrun (hcond.resolve_left fun hpass => hpass ?_)
    obtain ⟨u, hu, -⟩ := executeTransaction_ok hrun
    obtain ⟨hlen, hsig, hnonce, -⟩ := newUnit_ok hu
    exact ⟨hlen, hsig, hnonce⟩

namespace Sample

/-- Limits with contracts of one byte. -/
def tinyContracts : Limits := { limits with maxContractSize := 1 }

/-- The contract at 200 writes two bytes to the account of address 7. -/
def rewriting : Machine Bytes where
  crypto := sampleCrypto
  limits := tinyContracts
  builtin k := if k = 200 then some fun _ _ => .ok [.writeAccountData 7 (some [0, 0])] else none
  runtime _ := .error .accountIsNotExecutable

/-- A state with an executable account on the curve. -/
def executableState : State := fun k =>
  if k = 7 then some { executable := true, owner := some wasmVmBuiltinAddr, data := some [0] }
  else none

/-- A call of the contract, signed by that address. -/
def rewrite : Transaction :=
  let tx : Transaction :=
    { contract := 200, nonce := 0, payer := 7, params := [], signatures := []
      accounts := [⟨7, true, true⟩] }
  { tx with signatures := [sign 7 tx, sign 7 tx] }

end Sample

/-- **An executable account past its limit**: the owner of the key of an
executable account on the curve has it overwritten with two bytes, where
contracts may have one. -/
theorem rewrite_not_withinLimits :
    ∃ out, Sample.rewriting.executeTransaction 1 Sample.rewrite Sample.executableState =
      some (.ok out) ∧
        ¬ Sample.rewriting.WithinLimits Sample.rewrite Sample.executableState out := by
  refine ⟨_, rfl, fun h => ?_⟩
  have hfits := h.contractSize 7
    { executable := true, owner := some wasmVmBuiltinAddr, data := some [0, 0] }
    (by decide) rfl
  revert hfits
  decide

end Machine

end Rensa
