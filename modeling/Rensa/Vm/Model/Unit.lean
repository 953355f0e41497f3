import Rensa.Vm.Model.Contract
/-!
# The execution unit

`ExecutionUnit` runs one contract call and processes its outputs; a
`contractInvoke` output starts a nested unit on the same state. The
recursion has no bound in the source, so `execute` takes fuel and
returns `none` when it runs out: `some` is a call that returned.
-/

namespace Rensa

/-- Address of the one contract that may create executable accounts:
`WasmVM1xxxxxxxxxxxxxxxxxxxxxxxxxxxxxxxxxxxx` in base58. -/
def wasmVmBuiltinAddr : Pubkey :=
  3427941936938562341007264869514512011022205737343303470207517891845408939025

/-- The virtual machine: its limits, the builtin contracts genesis
enables, and the runtime that turns bytecode into a contract. -/
structure Machine (H : Type) where
  crypto : Crypto H
  limits : Limits
  builtin : Pubkey → Option Entrypoint
  runtime : Bytes → Except ContractError Entrypoint

/-- The result of executing a transaction. -/
structure TransactionOutput where
  stateDiff : StateDiff := {}
  logEntries : List (String × String) := []

/-- `TransactionOutput::merge`. -/
def TransactionOutput.merge (out newer : TransactionOutput) : TransactionOutput :=
  { stateDiff := out.stateDiff.merge newer.stateDiff
    logEntries := out.logEntries ++ newer.logEntries }

/-- The execution context of one contract call. -/
structure ExecutionUnit where
  entrypoint : Entrypoint
  env : Environment
  state : State
  contract : Pubkey
  params : Bytes

/-- A call that may not return, and may fail. -/
abbrev Run (α : Type) := Option (Except ContractError α)

namespace Machine

variable {H : Type} (vm : Machine H)

/-- `Machine::contract`: a contract deployed as bytecode. -/
def contract (addr : Pubkey) (state : State) : Except ContractError Entrypoint :=
  match state addr with
  | none => .error .contractDoesNotExit
  | some account =>
    match account.owner, account.data with
    | some owner, some bytecode =>
      if owner = wasmVmBuiltinAddr ∧ account.executable = true then vm.runtime bytecode
      else .error .accountIsNotExecutable
    | _, _ => .error .accountIsNotExecutable

/-- The builtin at an address, or else the deployed contract. -/
def entrypoint (addr : Pubkey) (state : State) : Except ContractError Entrypoint :=
  match vm.builtin addr with
  | some entrypoint => .ok entrypoint
  | none => vm.contract addr state

/-- Whether a writable reference stays writable for the contract at
`address`: an address on the curve needs its signature, and an existing
account off the curve has to be a non-executable account of that
contract. -/
def grantsWrite (state : State) (address : Pubkey) (r : AccountRef) : Bool :=
  if vm.crypto.hasPrivateKey r.address then r.signer
  else match state r.address with
    | none => true
    | some existing => !existing.executable && existing.owner == some address

/-- The view of one referenced account. -/
def createAccountView (state : State) (address : Pubkey) (r : AccountRef) :
    Pubkey × AccountView :=
  (r.address,
    { signer := r.signer
      writable := r.writable && vm.grantsWrite state address r
      executable := ((state r.address).map Account.executable).getD false
      owner := (state r.address).bind Account.owner
      data := (state r.address).bind Account.data })

/-- `ExecutionUnit::create_environment`. -/
def createEnvironment (state : State) (accounts : List AccountRef) (address : Pubkey)
    (caller : Option Pubkey) : Environment :=
  { caller, address, accounts := accounts.map (vm.createAccountView state address) }

/-- `ExecutionUnit::new`: the checks of a top-level transaction, then its
unit. -/
def newUnit (tx : Transaction) (state : State) : Except ContractError ExecutionUnit :=
  if vm.limits.maxInputAccounts < tx.accounts.length then .error .tooManyInputAccounts
  else match tx.verifySignatures vm.crypto with
  | .error e => .error (.signatureError e)
  | .ok () =>
    if tx.nonce ≠ ((state tx.payer).map Account.nonce).getD 0 then
      .error .invalidTransactionNonce
    else match vm.entrypoint tx.contract state with
    | .error e => .error e
    | .ok entrypoint =>
      .ok { entrypoint, state, contract := tx.contract, params := tx.params
            env := vm.createEnvironment state tx.accounts tx.contract none }

/-- `ExecutionUnit::new_nested`: the unit of a cross-contract call. -/
def newNested (u : ExecutionUnit) (contract : Pubkey) (accounts : List AccountRef)
    (params : Bytes) : Except ContractError ExecutionUnit :=
  if vm.limits.maxInputAccounts < accounts.length then .error .tooManyInputAccounts
  else match vm.entrypoint contract u.state with
  | .error e => .error e
  | .ok entrypoint =>
    .ok { entrypoint, state := u.state, contract, params
          env := vm.createEnvironment u.state accounts contract (some u.contract) }

end Machine

namespace ExecutionUnit

variable (u : ExecutionUnit)

/-- `ExecutionUnit::set_account`: the first listed account of that address
decides. -/
def setAccount (address : Pubkey) (value : Account) : Except ContractError StateDiff :=
  match u.env.accounts.find? fun p => p.1 == address with
  | none => .error .invalidOutputAccount
  | some (_, view) =>
    if view.writable then .ok (({} : StateDiff).set address value) else .error .accountNotWritable

/-- `ExecutionUnit::create_account`. -/
def createAccount (address : Pubkey) (data : Option Bytes) : Except ContractError StateDiff :=
  match u.state address with
  | none => u.setAccount address
      { nonce := 0, executable := false, owner := some u.contract, data := data }
  | some _ => .error .accountAlreadyExists

/-- `ExecutionUnit::create_executable_account`. -/
def createExecutableAccount (address : Pubkey) (bytecode : Bytes) :
    Except ContractError StateDiff :=
  if u.env.address ≠ wasmVmBuiltinAddr then .error .unauthorizedOperation
  else match u.state address with
  | none => u.setAccount address
      { nonce := 0, executable := true, owner := some wasmVmBuiltinAddr, data := some bytecode }
  | some _ => .error .accountAlreadyExists

/-- `ExecutionUnit::modify_account`. -/
def modifyAccount (address : Pubkey) (data : Option Bytes) : Except ContractError StateDiff :=
  match u.state address with
  | some acc => u.setAccount address { acc with data := data }
  | none => .error .accountDoesNotExist

/-- `ExecutionUnit::delete_account`: the owner is the one in the unit's
view of the account. -/
def deleteAccount (address : Pubkey) : Except ContractError StateDiff :=
  match u.env.accounts.find? fun p => p.1 == address with
  | none => .error .invalidOutputAccount
  | some (_, view) =>
    if view.owner ≠ some u.env.address then .error .invalidAccountOwner
    else if view.writable then .ok (({} : StateDiff).remove address)
    else .error .accountNotWritable

end ExecutionUnit

/-- The output that carries a diff and no log. -/
def TransactionOutput.ofDiff (r : Except ContractError StateDiff) :
    Except ContractError TransactionOutput :=
  r.map fun d => { stateDiff := d }

namespace Machine

variable {H : Type} (vm : Machine H)

/-- The size limit on the data of an account. -/
def fits (limit : ℕ) : Option Bytes → Bool
  | none => true
  | some data => data.length ≤ limit

/-- `ExecutionUnit::process_output`, with the execution of nested units
as a parameter. -/
def processOutput (u : ExecutionUnit) (invoke : ExecutionUnit → Run TransactionOutput) :
    Output → Run TransactionOutput
  | .logEntry key value =>
    if vm.limits.maxLogSize < key.utf8ByteSize + value.utf8ByteSize then
      some (.error .logTooLarge)
    else some (.ok { logEntries := [(key, value)] })
  | .createOwnedAccount addr data =>
    if fits vm.limits.maxAccountSize data then
      some (TransactionOutput.ofDiff (u.createAccount addr data))
    else some (.error .accountTooLarge)
  | .writeAccountData addr data =>
    if fits vm.limits.maxAccountSize data then
      some (TransactionOutput.ofDiff (u.modifyAccount addr data))
    else some (.error .accountTooLarge)
  | .deleteOwnedAccount addr => some (TransactionOutput.ofDiff (u.deleteAccount addr))
  | .contractInvoke contract accounts params =>
    match vm.newNested u contract accounts params with
    | .error e => some (.error e)
    | .ok nested => invoke nested
  | .createExecutableAccount address bytecode =>
    if bytecode.length ≤ vm.limits.maxContractSize then
      some (TransactionOutput.ofDiff (u.createExecutableAccount address bytecode))
    else some (.error .accountTooLarge)

/-- The loop of `ExecutionUnit::execute` over the outputs of the call,
`acc` being what the outputs before merged to. -/
def processOutputs (u : ExecutionUnit) (invoke : ExecutionUnit → Run TransactionOutput) :
    TransactionOutput → List Output → Run TransactionOutput
  | acc, [] => some (.ok acc)
  | acc, o :: os =>
    match vm.processOutput u invoke o with
    | none => none
    | some (.error e) => some (.error e)
    | some (.ok out) =>
      let acc := acc.merge out
      if vm.limits.maxLogsCount < acc.logEntries.length then some (.error .tooManyLogs)
      else processOutputs u invoke acc os

/-- `ExecutionUnit::execute`, with nested calls at most `fuel - 1` deep. -/
def execute : ℕ → ExecutionUnit → Run TransactionOutput
  | 0, _ => none
  | fuel + 1, u =>
    match u.entrypoint u.env u.params with
    | .error e => some (.error e)
    | .ok outputs => vm.processOutputs u (execute fuel) {} outputs

/-- `ExecutionUnit::new` followed by `execute`. -/
def executeTransaction (fuel : ℕ) (tx : Transaction) (state : State) : Run TransactionOutput :=
  match vm.newUnit tx state with
  | .error e => some (.error e)
  | .ok u => vm.execute fuel u

end Machine

/-! ## A concrete instance -/

namespace Machine.Sample

/-- Limits no sample reaches. -/
def limits : Limits where
  maxJustificationAge := 100
  minimumStake := 100
  maxInputAccounts := 32
  maxAccountSize := 65536
  maxLogSize := 512
  maxLogsCount := 32
  maxBlockTransactions := 2000
  maxContractSize := 614400
  maxTransactionParamsSize := 2048

/-- The signature of `key` under the sample `Crypto`. -/
def sign (key : Pubkey) (tx : Transaction) : Signature :=
  key.bytes ++ tx.hashFields sampleCrypto

end Machine.Sample

end Rensa
