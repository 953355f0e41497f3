import Rensa.Vm.Model.Abi
import Rensa.Vm.Model.Builtin
/-!
# The runtime of deployed contracts

`Runtime::invoke` hands an environment and parameters to a module through
its linear memory and reads the outputs back. The module is unknown code:
its exported functions are parameters, each of which returns, traps, or
calls the `abort` import with a region. As for the builtin contracts,
`none` is a panic of the host: a range outside of the memory it is taken
of.
-/

namespace Rensa

/-- What a module keeps between calls: its linear memory, and the rest. -/
structure ModuleState (σ : Type) where
  memory : Bytes
  rest : σ

/-- What a call of an exported function comes to. -/
inductive Call (σ α : Type)
  | returns (value : α) (m : ModuleState σ)
  | traps (message : String)
  | aborts (region : UInt64) (m : ModuleState σ)

/-- An instance of a module. An export that is missing, or of another type,
is the text of the error; the other texts are those of the libraries. -/
structure Instance (σ : Type) where
  memory : Except String Unit
  allocate : Except String (ModuleState σ → UInt32 → Call σ UInt32)
  environment : Except String (ModuleState σ → UInt32 → UInt32 → Call σ UInt32)
  params : Except String (ModuleState σ → UInt32 → UInt32 → Call σ UInt32)
  main : Except String (ModuleState σ → UInt32 → UInt32 → Call σ UInt32)
  output : Except String (ModuleState σ → UInt32 → Call σ UInt64)
  /-- The trap that an error of a host function becomes. -/
  trapText : ContractError → String
  /-- Why bytes are not read. -/
  readText : Bytes → String
  /-- Why a value is not written. -/
  writeText : String

/-- What a host function comes to, and the state it leaves. -/
abbrev Hosted (σ α : Type) := Option (Except ContractError (α × ModuleState σ))

namespace Runtime

variable {σ α β γ : Type}

/-- The `?` after a step of the host. -/
def andThen : Hosted σ α → (α → ModuleState σ → Hosted σ β) → Hosted σ β
  | none, _ => none
  | some (.error e), _ => some (.error e)
  | some (.ok (a, m)), next => next a m

/-- `get_function` and `native`. -/
def lookup (export? : Except String γ) (next : γ → Hosted σ β) : Hosted σ β :=
  match export? with
  | .error message => some (.error (.runtime message))
  | .ok f => next f

/-- The first byte of a region: the upper half. -/
def regionStart (region : UInt64) : ℕ := (region >>> 32).toNat

/-- The end of a region: the lower half is the length. -/
def regionEnd (region : UInt64) : ℕ := regionStart region + ((region <<< 32) >>> 32).toNat

/-- `&bytes[start..stop]`. -/
def slice (bytes : Bytes) (start stop : ℕ) : Option Bytes :=
  if start ≤ stop ∧ stop ≤ bytes.length then some ((bytes.drop start).take (stop - start)) else none

/-- The bytes of a region that is decoded, unless it is refused. -/
def regionBytes (refusal : String) (memory : Bytes) (region : UInt64) :
    Option (Except ContractError Bytes) :=
  if memory.length ≤ regionEnd region then some (.error (.runtime refusal))
  else (slice memory (regionStart region) (regionEnd region)).map .ok

variable (inst : Instance σ)

/-- `abort`: every path is an error. -/
def abort (memory : Option Bytes) (region : UInt64) : Option ContractError :=
  match memory with
  | none => some (.runtime "inaccessible memory")
  | some memory =>
    (regionBytes "Invalid error format" memory region).map fun
      | .error e => e
      | .ok bs => (ContractError.tryFromSlice bs).getD (.runtime (inst.readText bs))

/-- The end of a call into the module: an error of `abort` is a trap. -/
def finish : Call σ α → Hosted σ α
  | .returns value m => some (.ok (value, m))
  | .traps message => some (.error (.runtime message))
  | .aborts region m =>
    let memory := if inst.memory.isOk then some m.memory else none
    (abort inst memory region).map fun e => .error (.runtime (inst.trapText e))

/-- `Runtime::allocate`. -/
def allocate (size : ℕ) (m : ModuleState σ) : Hosted σ UInt32 :=
  lookup inst.allocate fun f => finish inst (f m (UInt32.ofNat size))

/-- The memory after `src` is copied to `dst`. -/
def written (m : ModuleState σ) (dst : UInt32) (src : Bytes) : ModuleState σ :=
  { m with memory := m.memory.take dst.toNat ++ src ++ m.memory.drop (dst.toNat + src.length) }

/-- `Runtime::copy_to_contract_memory`. -/
def copyToContractMemory (dst : UInt32) (src : Bytes) (m : ModuleState σ) : Hosted σ Unit :=
  lookup inst.memory fun _ =>
    if dst.toNat + src.length ≤ m.memory.length then some (.ok ((), written m dst src)) else none

/-- `Runtime::deliver_environment`. -/
def deliverEnvironment (env : Environment) (m : ModuleState σ) : Hosted σ UInt32 :=
  match env.tryToVec with
  | none => some (.error (.runtime inst.writeText))
  | some serialized =>
    andThen (allocate inst serialized.length m) fun ptr m =>
    andThen (copyToContractMemory inst ptr serialized m) fun _ m =>
    lookup inst.environment fun f => finish inst (f m ptr (UInt32.ofNat serialized.length))

/-- `Runtime::deliver_params`. -/
def deliverParams (params : Bytes) (m : ModuleState σ) : Hosted σ UInt32 :=
  lookup inst.params fun f =>
  if 2 ^ 32 ≤ params.length then some (.error (.other inst.writeText))
  else
    let serialized := leBytes 4 params.length ++ params
    andThen (allocate inst serialized.length m) fun ptr m =>
    andThen (copyToContractMemory inst ptr serialized m) fun _ m =>
    finish inst (f m ptr (UInt32.ofNat serialized.length))

/-- `Runtime::collect_output`. -/
def collectOutput (ptr : UInt32) (m : ModuleState σ) : Hosted σ (List Output) :=
  lookup inst.output fun f =>
  andThen (finish inst (f m ptr)) fun region m =>
  lookup inst.memory fun _ =>
  (regionBytes "Invalid outputs format" m.memory region).map fun
    | .error e => .error e
    | .ok bs =>
      match Output.tryFromSlice bs with
      | none => .error (.runtime (inst.readText bs))
      | some outputs => .ok (outputs, m)

/-- `Runtime::invoke`, on the state of a new instance. -/
def invoke (m : ModuleState σ) : NativeEntrypoint := fun env params =>
  let outputs := lookup inst.main fun f =>
    andThen (deliverEnvironment inst env m) fun envPtr m =>
    andThen (deliverParams inst params m) fun paramsPtr m =>
    andThen (finish inst (f m envPtr paramsPtr)) fun outputPtr m =>
    collectOutput inst outputPtr m
  outputs.map fun r => r.map Prod.fst

end Runtime

end Rensa
