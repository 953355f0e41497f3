import Rensa.Vm.Unit
import Mathlib.Order.WellFounded
/-!
# Where the execution of a transaction ends

`ExecutionUnit::execute` calls itself once for each `contractInvoke` it
processes, and no limit of genesis bounds how deep. More fuel changes no
result that is reached with less (`execute_mono`), so a call either ends
with every amount of fuel that is large enough or with none, and it ends
exactly where no chain of nested calls goes on forever (`ends_iff`). A
contract that calls itself is such a chain (`callSelf_endless`).
-/

namespace Rensa

namespace Machine

variable {H : Type} {vm : Machine H} {u v : ExecutionUnit} {fuel fuel' : ℕ}

/-! ## More fuel -/

/-- An output that is processed with one way to run nested units is
processed alike with any other that returns where the first one does. -/
theorem processOutput_mono {invoke invoke' : ExecutionUnit → Run TransactionOutput}
    (hle : ∀ v r, invoke v = some r → invoke' v = some r) {o : Output}
    {r : Except ContractError TransactionOutput} (h : vm.processOutput u invoke o = some r) :
    vm.processOutput u invoke' o = some r := by
  cases o with
  | contractInvoke c accounts params =>
    simp only [processOutput] at h ⊢
    split at h
    · exact h
    · exact hle _ _ h
  | _ => exact h

theorem processOutputs_mono {invoke invoke' : ExecutionUnit → Run TransactionOutput}
    (hle : ∀ v r, invoke v = some r → invoke' v = some r) {os : List Output}
    {acc : TransactionOutput} {r : Except ContractError TransactionOutput}
    (h : vm.processOutputs u invoke acc os = some r) :
    vm.processOutputs u invoke' acc os = some r := by
  induction os generalizing acc with
  | nil => exact h
  | cons o os ih =>
    simp only [processOutputs] at h ⊢
    cases ho : vm.processOutput u invoke o with
    | none => simp [ho] at h
    | some res =>
      rw [processOutput_mono hle ho]
      rw [ho] at h
      cases res with
      | error e => exact h
      | ok out =>
        simp only at h ⊢
        split at h
        · rename_i hlen
          rw [if_pos hlen]
          exact h
        · rename_i hlen
          rw [if_neg hlen]
          exact ih h

/-- **More fuel changes no result.** -/
theorem execute_mono (hle : fuel ≤ fuel') {r : Except ContractError TransactionOutput}
    (h : vm.execute fuel u = some r) : vm.execute fuel' u = some r := by
  induction fuel generalizing fuel' u r with
  | zero => cases h
  | succ fuel ih =>
    obtain ⟨n, rfl⟩ : ∃ n, fuel' = n + 1 := ⟨fuel' - 1, by omega⟩
    simp only [execute] at h ⊢
    split at h
    · exact h
    · exact processOutputs_mono (fun v r hv => ih (by omega) hv) h

theorem processOutput_fuel (hle : fuel ≤ fuel') {o : Output}
    {r : Except ContractError TransactionOutput}
    (h : vm.processOutput u (vm.execute fuel) o = some r) :
    vm.processOutput u (vm.execute fuel') o = some r :=
  processOutput_mono (fun _ _ hv => execute_mono hle hv) h

theorem processOutputs_fuel (hle : fuel ≤ fuel') {os : List Output} {acc : TransactionOutput}
    {r : Except ContractError TransactionOutput}
    (h : vm.processOutputs u (vm.execute fuel) acc os = some r) :
    vm.processOutputs u (vm.execute fuel') acc os = some r :=
  processOutputs_mono (fun _ _ hv => execute_mono hle hv) h

/-- Two amounts of fuel that are enough give one result. -/
theorem processOutputs_unique {os : List Output} {acc : TransactionOutput}
    {r r' : Except ContractError TransactionOutput}
    (h : vm.processOutputs u (vm.execute fuel) acc os = some r)
    (h' : vm.processOutputs u (vm.execute fuel') acc os = some r') : r = r' :=
  Option.some.inj ((processOutputs_fuel (le_max_left fuel fuel') h).symm.trans
    (processOutputs_fuel (le_max_right fuel fuel') h'))

/-! ## Ending -/

/-- The call returns. -/
def Ends (vm : Machine H) (u : ExecutionUnit) : Prop := ∃ fuel r, vm.execute fuel u = some r

/-- A chain of nested calls from `u` that goes on forever. -/
def EndlessCalls (vm : Machine H) (u : ExecutionUnit) : Prop :=
  ∃ f : ℕ → ExecutionUnit, f 0 = u ∧ ∀ n, vm.Starts (f n) (f (n + 1))

/-- **A call that returns has returned from each call it started**, which
took less fuel. -/
theorem execute_of_starts (h : ∃ r, vm.execute (fuel + 1) u = some r) (hs : vm.Starts u v) :
    ∃ r, vm.execute fuel v = some r := by
  obtain ⟨c, accounts, params, pre, post, f, acc, hos, hpre, hn⟩ := hs
  obtain ⟨r, hr⟩ := h
  simp only [execute, hos] at hr
  rw [processOutputs_append] at hr
  cases hpre' : vm.processOutputs u (vm.execute fuel) {} pre with
  | none => simp [hpre'] at hr
  | some res =>
    obtain rfl := processOutputs_unique hpre hpre'
    rw [hpre'] at hr
    simp only [processOutputs, processOutput, hn] at hr
    cases hv : vm.execute fuel v with
    | none => simp [hv] at hr
    | some r => exact ⟨r, rfl⟩

/-- One output, where the nested unit it starts returns. -/
theorem exists_processOutput {o : Output}
    (h : ∀ c accounts params, o = .contractInvoke c accounts params →
      ∀ v, vm.newNested u c accounts params = .ok v → vm.Ends v) :
    ∃ fuel r, vm.processOutput u (vm.execute fuel) o = some r := by
  cases o with
  | contractInvoke c accounts params =>
    simp only [processOutput]
    cases hn : vm.newNested u c accounts params with
    | error e => exact ⟨0, _, rfl⟩
    | ok v => exact h c accounts params rfl v hn
  | logEntry | createOwnedAccount | writeAccountData | createExecutableAccount =>
    simp only [processOutput]
    split <;> exact ⟨0, _, rfl⟩
  | deleteOwnedAccount => exact ⟨0, _, rfl⟩

/-- The loop over the outputs returns where every nested call does, from
any point on. -/
theorem exists_processOutputs {os post : List Output}
    (hos : u.entrypoint u.env u.params = .ok os) (hall : ∀ v, vm.Starts u v → vm.Ends v) :
    ∀ pre acc fuel, os = pre ++ post →
      vm.processOutputs u (vm.execute fuel) {} pre = some (.ok acc) →
      ∃ fuel' r, vm.processOutputs u (vm.execute fuel') acc post = some r := by
  induction post with
  | nil => exact fun pre acc fuel _ _ => ⟨0, _, rfl⟩
  | cons o post ih =>
    intro pre acc fuel hsplit hpre
    obtain ⟨f, r, hr⟩ : ∃ f r, vm.processOutput u (vm.execute f) o = some r := by
      refine exists_processOutput fun c accounts params ho v hn => hall v ?_
      exact ⟨c, accounts, params, pre, post, fuel, acc, by rw [hos, hsplit, ho], hpre, hn⟩
    simp only [processOutputs]
    cases r with
    | error e => exact ⟨f, .error e, by rw [hr]⟩
    | ok out =>
      by_cases hlen : vm.limits.maxLogsCount < (acc.merge out).logEntries.length
      · exact ⟨f, .error .tooManyLogs, by rw [hr]; exact if_pos hlen⟩
      · have hpre' : vm.processOutputs u (vm.execute (max fuel f)) {} (pre ++ [o]) =
            some (.ok (acc.merge out)) := by
          rw [processOutputs_append, processOutputs_fuel (le_max_left fuel f) hpre]
          simp only [processOutputs]
          rw [processOutput_fuel (le_max_right fuel f) hr]
          exact if_neg hlen
        obtain ⟨g, r, hg⟩ := ih (pre ++ [o]) _ _ (by simp [hsplit]) hpre'
        refine ⟨max f g, r, ?_⟩
        rw [processOutput_fuel (le_max_left f g) hr]
        simp only
        rw [if_neg hlen]
        exact processOutputs_fuel (le_max_right f g) hg

/-- **A call returns where the calls it starts do.** -/
theorem ends_of_starts (hall : ∀ v, vm.Starts u v → vm.Ends v) : vm.Ends u := by
  cases hos : u.entrypoint u.env u.params with
  | error e => exact ⟨1, .error e, by simp only [execute, hos]⟩
  | ok os =>
    obtain ⟨fuel, r, hr⟩ := exists_processOutputs hos hall [] {} 0 rfl rfl
    exact ⟨fuel + 1, r, by simp only [execute, hos, hr]⟩

/-- **A call ends exactly where its nested calls are well-founded.** -/
theorem ends_iff_acc : vm.Ends u ↔ Acc (fun v u => vm.Starts u v) u := by
  constructor
  · rintro ⟨fuel, r, h⟩
    induction fuel generalizing u r with
    | zero => cases h
    | succ fuel ih =>
      refine Acc.intro u fun v hv => ?_
      obtain ⟨r', hr'⟩ := execute_of_starts ⟨r, h⟩ hv
      exact ih r' hr'
  · intro h
    induction h with
    | intro u _ ih => exact ends_of_starts ih

theorem ends_iff_not_endlessCalls : vm.Ends u ↔ ¬ vm.EndlessCalls u := by
  have hchain : vm.EndlessCalls u ↔ ¬ Acc (fun v u => vm.Starts u v) u :=
    (not_acc_iff_exists_descending_chain (r := fun v u => vm.Starts u v)).symm
  rw [ends_iff_acc, hchain, not_not]

/-! ## No limit bounds the depth -/

/-- A contract that calls itself once for each byte of its parameters. -/
def countdown (self : Pubkey) : Entrypoint
  | _, [] => .ok []
  | _, _ :: rest => .ok [.contractInvoke self [] rest]

/-- The machine with that contract at address 0. -/
def counting (vm : Machine H) : Machine H :=
  { vm with builtin := fun k => if k = 0 then some (countdown 0) else none }

/-- A call of that contract. -/
def countFrom (env : Environment) (state : State) (params : Bytes) : ExecutionUnit :=
  { entrypoint := countdown 0, env, state, contract := 0, params }

/-- The call returns with more fuel than it has parameters, and with no
less. -/
theorem execute_countFrom (vm : Machine H) (env : Environment) (state : State) (params : Bytes) :
    vm.counting.execute params.length (countFrom env state params) = none ∧
      ∃ r, vm.counting.execute (params.length + 1) (countFrom env state params) =
        some (.ok r) ∧ r.logEntries = [] := by
  induction params generalizing env with
  | nil => exact ⟨rfl, _, rfl, rfl⟩
  | cons b rest ih =>
    have hn : vm.counting.newNested (countFrom env state (b :: rest)) 0 [] rest =
        .ok (countFrom (vm.counting.createEnvironment state [] 0 (some 0)) state rest) := rfl
    obtain ⟨hnone, r, hr, hlogs⟩ := ih (vm.counting.createEnvironment state [] 0 (some 0))
    constructor
    · simp only [List.length_cons, execute, countFrom, countdown, processOutputs, processOutput]
      simp only [countFrom] at hn hnone
      rw [hn]
      simp only [hnone]
    · refine ⟨({} : TransactionOutput).merge r, ?_, by simp [TransactionOutput.merge, hlogs]⟩
      rw [List.length_cons, execute]
      simp only [countFrom, countdown, processOutputs, processOutput]
      simp only [countFrom] at hn hr
      rw [hn]
      simp only [hr]
      rw [if_neg (by simp [TransactionOutput.merge, hlogs])]

/-- **A transaction ends exactly where its nested calls do**: in every
state and for every assignment of contracts, its execution returns if and
only if its calls form no endless chain. No limit bounds how deep they
go: whatever the limits are, some contract makes a call that returns only
after more nested calls than any given number. -/
theorem ends_iff (vm : Machine H) :
    (∀ tx state, (∃ fuel r, vm.executeTransaction fuel tx state = some r) ↔
      ∀ u, vm.newUnit tx state = .ok u → ¬ vm.EndlessCalls u) ∧
      ∀ depth, ∃ vm' : Machine H, vm'.limits = vm.limits ∧
        ∃ u, vm'.Ends u ∧ vm'.execute depth u = none := by
  refine ⟨fun tx state => ?_, fun depth => ?_⟩
  · cases hu : vm.newUnit tx state with
    | error e =>
      have hrun : vm.executeTransaction 0 tx state = some (.error e) := by
        simp only [executeTransaction, hu]
      exact iff_of_true ⟨0, _, hrun⟩ fun u hu' => by cases hu'
    | ok u =>
      have hends : (∃ fuel r, vm.executeTransaction fuel tx state = some r) ↔ vm.Ends u := by
        simp only [executeTransaction, hu, Ends]
      rw [hends, ends_iff_not_endlessCalls]
      constructor
      · rintro h u' hu'
        obtain rfl := Except.ok.inj hu'
        exact h
      · exact fun h => h u rfl
  · obtain ⟨hnone, r, hr, -⟩ := vm.execute_countFrom
      { caller := none, address := 0, accounts := [] } (fun _ => none) (List.replicate depth 0)
    rw [List.length_replicate] at hnone hr
    exact ⟨vm.counting, rfl, _, ⟨_, _, hr⟩, hnone⟩

/-! ## A contract that calls itself -/

namespace Sample

/-- The contract at address 200 calls itself. -/
def selfCalling : Machine Bytes where
  crypto := sampleCrypto
  limits := limits
  builtin k := if k = 200 then some fun _ _ => .ok [.contractInvoke 200 [] []] else none
  runtime _ := .error .accountIsNotExecutable

/-- A call of it by payer 1. -/
def callSelf : Transaction :=
  let tx : Transaction :=
    { contract := 200, nonce := 0, payer := 1, accounts := [], params := [], signatures := [] }
  { tx with signatures := [sign 1 tx] }

/-- The unit of one of its calls. -/
def selfCall (caller : Option Pubkey) : ExecutionUnit where
  entrypoint _ _ := .ok [.contractInvoke 200 [] []]
  env := { caller, address := 200, accounts := [] }
  state _ := none
  contract := 200
  params := []

theorem execute_selfCall (fuel : ℕ) (caller : Option Pubkey) :
    selfCalling.execute fuel (selfCall caller) = none := by
  induction fuel generalizing caller with
  | zero => rfl
  | succ fuel ih =>
    have hn : selfCalling.newNested (selfCall caller) 200 [] [] = .ok (selfCall (some 200)) := rfl
    rw [execute]
    simp only [selfCall, processOutputs, processOutput]
    simp only [selfCall] at hn ih
    rw [hn]
    simp only [ih]

end Sample

/-- **A transaction that does not end**: a signed transaction that calls a
contract which calls itself does not return, whatever the fuel. -/
theorem callSelf_endless :
    Sample.callSelf.verifySignatures sampleCrypto = .ok () ∧
      ¬ ∃ fuel r, Sample.selfCalling.executeTransaction fuel Sample.callSelf (fun _ => none) =
        some r := by
  refine ⟨by decide, ?_⟩
  rintro ⟨fuel, r, h⟩
  have hu : Sample.selfCalling.newUnit Sample.callSelf (fun _ => none) =
      .ok (Sample.selfCall none) := rfl
  rw [executeTransaction, hu] at h
  simp only [Sample.execute_selfCall] at h
  cases h

end Machine

end Rensa
