import Rensa.Vm.Model.Currency
import Rensa.Vm.Model.Output
/-!
# The builtin contracts, with their panics

The native contracts as they index into their environment: `none` is a
panic, an index or a range out of bounds or two slices of different
lengths. `Sha3.contract` and `WasmVM.contract` are written out; the
functions of the Currency contract take their accounts by index once they
have counted them, and go on as `Currency.contract` does.
-/

namespace Rensa

open Borsh (FixedBytes Vec)

/-- A native contract that may panic. -/
abbrev NativeEntrypoint := Environment → Bytes → Option ContractResult

/-! ## Currency -/

namespace Currency

/-- The accounts `&env.accounts[0]` to `&env.accounts[n - 1]`. -/
def indexed (env : Environment) (n : ℕ) : Option (List (Pubkey × AccountView)) :=
  (List.range n).mapM fun i => env.accounts[i]?

/-- The head of the functions of the contract: the number of the accounts,
the check made before they are taken, and the accounts by index. -/
def taking (n : ℕ) (early : Option ContractError) (env : Environment)
    (process : Environment → ContractResult) : Option ContractResult :=
  if env.accounts.length ≠ n then some (.error .invalidInputAccounts)
  else match early with
  | some e => some (.error e)
  | none => (indexed env n).map fun accounts => process { env with accounts }

/-- The check of an amount. -/
def amountCheck (amount : UInt64) : Option ContractError :=
  if amount = 0 then some .invalidInputParameters else none

variable {H : Type} (C : Crypto H)

/-- The entry point, with the indexing of the source. -/
def native : NativeEntrypoint := fun env params =>
  match (Borsh.deserialize params : Option (Instruction × Bytes)) with
  | none => some (.error .invalidInputParameters)
  | some (.create seed authority decimals name symbol, _) =>
    taking 1 none env fun env => processCreate C env seed authority decimals name symbol
  | some (.mint amount, _) => taking 4 (amountCheck amount) env fun env => processMint C env amount
  | some (.transfer amount, _) =>
    taking 5 (amountCheck amount) env fun env => processTransfer C env amount
  | some (.burn amount, _) => taking 3 (amountCheck amount) env fun env => processBurn C env amount
  | some (.setAuthority authority, _) =>
    taking 2 none env fun env => processSetAuthority C env authority

end Currency

/-! ## Sha3 -/

namespace Sha3

variable {H : Type} (C : Crypto H)

/-- The entry point: hashes the data of the account, or else the
parameters. -/
def contract : NativeEntrypoint := fun env params =>
  if env.accounts.length ≠ 1 then some (.error .invalidInputAccounts)
  else match env.accounts[0]? with
  | none => none
  | some (addr, accinfo) =>
    if !accinfo.writable then some (.error .accountNotWritable)
    else
      some (.ok [.writeAccountData addr (some (C.digest (C.sha3 (accinfo.data.getD params)))),
        .logEntry "action" "sha3"])

end Sha3

/-! ## WasmVM -/

namespace WasmVM

/-- 2kb max per uploaded slot. -/
def maxSlotSize : ℕ := 2048

/-- The parameters of the contract. -/
inductive Instruction
  | allocate (seed checksum : FixedBytes 32) (authority : Pubkey) (size : UInt32)
  | upload (seed : FixedBytes 32) (index : UInt16) (bytes : Vec UInt8)
  | install (seed : FixedBytes 32) (init : Option (Vec UInt8))

/-- Reads an instruction: the number of its variant, then its fields. -/
def Instruction.read : Bytes → Option (Instruction × Bytes)
  | 0 :: rest =>
    (Borsh.deserialize rest :
      Option ((FixedBytes 32 × FixedBytes 32 × Pubkey × UInt32) × Bytes)).map fun p =>
        (.allocate p.1.1 p.1.2.1 p.1.2.2.1 p.1.2.2.2, p.2)
  | 1 :: rest =>
    (Borsh.deserialize rest : Option ((FixedBytes 32 × UInt16 × Vec UInt8) × Bytes)).map fun p =>
      (.upload p.1.1 p.1.2.1 p.1.2.2, p.2)
  | 2 :: rest =>
    (Borsh.deserialize rest : Option ((FixedBytes 32 × Option (Vec UInt8)) × Bytes)).map fun p =>
      (.install p.1.1 p.1.2, p.2)
  | _ => none

/-- The account that stores the bytecode while it is uploaded. -/
structure BytecodeAccount where
  authority : Pubkey
  size : UInt32
  checksum : FixedBytes 32
  mask : Vec Bool
  bytecode : Vec UInt8

/-- The fields of a bytecode account, in order. -/
def BytecodeAccount.fields :
    BytecodeAccount ≃ Pubkey × UInt32 × FixedBytes 32 × Vec Bool × Vec UInt8 where
  toFun b := (b.authority, b.size, b.checksum, b.mask, b.bytecode)
  invFun p := ⟨p.1, p.2.1, p.2.2.1, p.2.2.2.1, p.2.2.2.2⟩

instance : Borsh BytecodeAccount := Borsh.ofEquiv BytecodeAccount.fields

variable {H : Type} (C : Crypto H)

/-- `contract_account`: the first account, if it has the derived address. -/
def contractAccount (seed : FixedBytes 32) (env : Environment) :
    Except ContractError (Pubkey × AccountView) :=
  match env.accounts.head? with
  | none => .error .invalidInputAccounts
  | some (addr, acc) =>
    if addr ≠ env.address.derive C [seed.1] then .error .invalidInputAccounts else .ok (addr, acc)

/-- `bytecode_account`: the second account, if it has the derived
address. -/
def bytecodeAccount (seed : FixedBytes 32) (env : Environment) :
    Except ContractError (Pubkey × AccountView) :=
  match env.accounts[1]? with
  | none => .error .invalidInputAccounts
  | some (addr, acc) =>
    if addr ≠ env.address.derive C [seed.1, textBytes "bytecode"] then .error .invalidInputAccounts
    else .ok (addr, acc)

/-- What the bytecode account holds. -/
def readBytecode (acc : AccountView) : Except ContractError BytecodeAccount :=
  match acc.data with
  | none => .error .accountDoesNotExist
  | some data =>
    match Borsh.tryFromSlice BytecodeAccount data with
    | none => .error .invalidInputAccounts
    | some content => .ok content

/-- The contract address is already taken. -/
def taken (acc : AccountView) : Bool := acc.executable || acc.data.isSome || acc.owner.isSome

/-- `process_allocate`. `env.address.len()` is the number of the bytes of
the address. -/
def processAllocate (limits : Limits) (env : Environment) (seed checksum : FixedBytes 32)
    (authority : Pubkey) (size : UInt32) : ContractResult :=
  if env.address.bytes.length ≠ 2 then .error .invalidInputAccounts
  else if limits.maxContractSize < size.toNat then .error .accountTooLarge
  else match contractAccount C seed env with
  | .error e => .error e
  | .ok (cAddr, cAcc) =>
    if taken cAcc then .error .accountAlreadyExists
    else match bytecodeAccount C seed env with
    | .error e => .error e
    | .ok (bAddr, bAcc) =>
      if bAcc.data.isSome || bAcc.owner.isSome then .error .accountAlreadyExists
      else if !bAcc.writable then .error .accountNotWritable
      else if !C.hasPrivateKey authority then .error .invalidInputAccounts
      else
        let contents : BytecodeAccount :=
          { authority, size, checksum, mask := ⟨[], by decide⟩, bytecode := ⟨[], by decide⟩ }
        .ok [.logEntry "action" "allocate",
          .logEntry "contract" (C.toBase58 cAddr),
          .logEntry "size" (toString size),
          .logEntry "checksum" (C.toBase58 (Pubkey.ofBytes checksum.1)),
          .logEntry "authority" (C.toBase58 authority),
          .createOwnedAccount bAddr (some (Borsh.serialize contents))]

/-- `dst[start..=stop].copy_from_slice(src)`. -/
def copyFromSlice (dst : Bytes) (start stop : ℕ) (src : Bytes) : Option Bytes :=
  if stop < dst.length ∧ start ≤ stop + 1 ∧ stop + 1 - start = src.length then
    some (dst.take start ++ src ++ dst.drop (stop + 1))
  else none

/-- The vector after some of its elements were overwritten. -/
def overwrite {α : Type} (old : Vec α) (new : List α) : Vec α :=
  if h : new.length < 2 ^ 32 then ⟨new, h⟩ else old

/-- `process_upload`. -/
def processUpload (env : Environment) (seed : FixedBytes 32) (index : UInt16)
    (bytes : Vec UInt8) : Option ContractResult :=
  if env.address.bytes.length ≠ 3 then some (.error .invalidInputAccounts)
  else if bytes.1.isEmpty || maxSlotSize < bytes.1.length then some (.error .invalidInputParameters)
  else match contractAccount C seed env with
  | .error e => some (.error e)
  | .ok (cAddr, cAcc) =>
    if taken cAcc then some (.error .accountAlreadyExists)
    else match bytecodeAccount C seed env with
    | .error e => some (.error e)
    | .ok (bAddr, bAcc) =>
      if !bAcc.writable then some (.error .accountNotWritable)
      else if bAcc.owner == some env.address then some (.error .invalidAccountOwner)
      else match readBytecode bAcc with
      | .error e => some (.error e)
      | .ok content =>
        match env.accounts[2]? with
        | none => none
        | some (aAddr, aAcc) =>
          if content.authority ≠ aAddr then some (.error .invalidInputAccounts)
          else if !aAcc.signer then some (.error (.signatureError .missingSigners))
          else if index.toNat ≤ content.mask.1.length then some (.error .invalidInputParameters)
          else match content.mask.1[index.toNat]? with
          | none => none
          | some true =>
            some (.error (.other ("slot " ++ toString index ++ " is already uploaded")))
          | some false =>
            let start := index.toNat * maxSlotSize
            if content.bytecode.1.length ≤ start then some (.error .invalidInputParameters)
            else
              let stop := start + bytes.1.length
              if content.bytecode.1.length ≤ stop then some (.error .invalidInputParameters)
              else match copyFromSlice content.bytecode.1 start stop bytes.1 with
              | none => none
              | some bytecode =>
                let content :=
                  { content with
                    mask := overwrite content.mask (content.mask.1.set index.toNat true)
                    bytecode := overwrite content.bytecode bytecode }
                some (.ok [.logEntry "action" "upload",
                  .logEntry "contract" (C.toBase58 cAddr),
                  .logEntry "slot" (toString index),
                  .writeAccountData bAddr (some (Borsh.serialize content))])

/-- The call `process_install` ends with where an initial instruction is
given: the accounts are `env.accounts[2..]`. -/
def initCall (env : Environment) (cAddr : Pubkey) : Option (Vec UInt8) → List Output
  | none => []
  | some params =>
    [.contractInvoke cAddr
      ((env.accounts.drop 2).map fun p => ⟨p.1, p.2.writable, p.2.signer⟩) params.1]

/-- `process_install`. -/
def processInstall (env : Environment) (seed : FixedBytes 32) (init : Option (Vec UInt8)) :
    Option ContractResult :=
  if env.address.bytes.length < 3 then some (.error .invalidInputAccounts)
  else match contractAccount C seed env with
  | .error e => some (.error e)
  | .ok (cAddr, cAcc) =>
    if !cAcc.writable then some (.error .accountNotWritable)
    else match bytecodeAccount C seed env with
    | .error e => some (.error e)
    | .ok (bAddr, bAcc) =>
      if !bAcc.writable then some (.error .accountNotWritable)
      else if bAcc.owner == some env.address then some (.error .invalidAccountOwner)
      else match readBytecode bAcc with
      | .error e => some (.error e)
      | .ok content =>
        match env.accounts[2]? with
        | none => none
        | some (aAddr, aAcc) =>
          if content.authority ≠ aAddr then some (.error .invalidInputAccounts)
          else if !aAcc.signer then some (.error (.signatureError .missingSigners))
          else if content.mask.1.any fun s => !s then
            some (.error (.other "Not all bytecode slots are uploaded"))
          else
            some (.ok ([.logEntry "action" "install",
                .logEntry "contract" (C.toBase58 cAddr),
                .deleteOwnedAccount bAddr,
                .createExecutableAccount cAddr content.bytecode.1] ++
              initCall env cAddr init))

/-- The entry point. Bytes after the instruction are ignored. -/
def contract (limits : Limits) : NativeEntrypoint := fun env params =>
  match Instruction.read params with
  | none => some (.error .invalidInputParameters)
  | some (.allocate seed checksum authority size, _) =>
    some (processAllocate C limits env seed checksum authority size)
  | some (.upload seed index bytes, _) => processUpload C env seed index bytes
  | some (.install seed init, _) => processInstall C env seed init

end WasmVM

end Rensa
