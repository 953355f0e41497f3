import Rensa.Vm.Model.Currency
/-!
# The machine's side of the ABI

How the machine reads what a deployed contract hands over, and what it
hands to the contract: `contract::Output` and `ContractError` are read
variant by variant, and an `Environment` is written field by field.
-/

namespace Rensa

open Borsh (Text Vec)

/-- `try_from_slice` of a type that is only read: nothing may be left
over. -/
def readSlice {α : Type} (read : Bytes → Option (α × Bytes)) (bs : Bytes) : Option α :=
  match read bs with
  | some (a, []) => some a
  | _ => none

/-- The fields of an account reference, in order. -/
def AccountRef.fields : AccountRef ≃ Pubkey × Bool × Bool where
  toFun r := (r.address, r.writable, r.signer)
  invFun p := ⟨p.1, p.2.1, p.2.2⟩

instance : Borsh AccountRef := Borsh.ofEquiv AccountRef.fields

/-- Reads a `transaction::SignatureError`. -/
def SignatureError.read : Bytes → Option (SignatureError × Bytes)
  | 0 :: rest => some (.invalidSignature, rest)
  | 1 :: rest => some (.missingSigners, rest)
  | _ => none

/-- Reads a `ContractError`. -/
def ContractError.read : Bytes → Option (ContractError × Bytes)
  | 0 :: rest => some (.invalidTransactionNonce, rest)
  | 1 :: rest => some (.accountAlreadyExists, rest)
  | 2 :: rest => some (.accountDoesNotExist, rest)
  | 3 :: rest => some (.tooManyInputAccounts, rest)
  | 4 :: rest => some (.accountTooLarge, rest)
  | 5 :: rest => some (.logTooLarge, rest)
  | 6 :: rest => some (.tooManyLogs, rest)
  | 7 :: rest => some (.invalidInputAccounts, rest)
  | 8 :: rest => some (.invalidAccountOwner, rest)
  | 9 :: rest => some (.invalidOutputAccount, rest)
  | 10 :: rest => some (.accountNotWritable, rest)
  | 11 :: rest => some (.contractDoesNotExit, rest)
  | 12 :: rest => some (.accountIsNotExecutable, rest)
  | 13 :: rest => (SignatureError.read rest).map fun p => (.signatureError p.1, p.2)
  | 14 :: rest => some (.invalidInputParameters, rest)
  | 15 :: rest => some (.unauthorizedOperation, rest)
  | 16 :: rest =>
    (Borsh.deserialize rest : Option (Text × Bytes)).map fun p => (.runtime p.1.1, p.2)
  | 17 :: rest =>
    (Borsh.deserialize rest : Option (Text × Bytes)).map fun p => (.other p.1.1, p.2)
  | 18 :: rest => some (.computationalBudgetExhausted, rest)
  | _ => none

/-- Reads a `contract::Output`. -/
def Output.read : Bytes → Option (Output × Bytes)
  | 0 :: rest =>
    (Borsh.deserialize rest : Option ((Text × Text) × Bytes)).map fun p =>
      (.logEntry p.1.1.1 p.1.2.1, p.2)
  | 1 :: rest =>
    (Borsh.deserialize rest : Option ((Pubkey × Option (Vec UInt8)) × Bytes)).map fun p =>
      (.createOwnedAccount p.1.1 (p.1.2.map Subtype.val), p.2)
  | 2 :: rest =>
    (Borsh.deserialize rest : Option ((Pubkey × Option (Vec UInt8)) × Bytes)).map fun p =>
      (.writeAccountData p.1.1 (p.1.2.map Subtype.val), p.2)
  | 3 :: rest =>
    (Borsh.deserialize rest : Option (Pubkey × Bytes)).map fun p =>
      (.deleteOwnedAccount p.1, p.2)
  | 4 :: rest =>
    (Borsh.deserialize rest : Option ((Pubkey × Vec AccountRef × Vec UInt8) × Bytes)).map fun p =>
      (.contractInvoke p.1.1 p.1.2.1.1 p.1.2.2.1, p.2)
  | 5 :: rest =>
    (Borsh.deserialize rest : Option ((Pubkey × Vec UInt8) × Bytes)).map fun p =>
      (.createExecutableAccount p.1.1 p.1.2.1, p.2)
  | _ => none

/-- `Vec::<contract::Output>::try_from_slice`. -/
def Output.tryFromSlice : Bytes → Option (List Output) := readSlice (Borsh.readVec Output.read)

/-- `ContractError::try_from_slice`. -/
def ContractError.tryFromSlice : Bytes → Option ContractError := readSlice ContractError.read

/-- The lengths Borsh can write. -/
def AccountView.fits (v : AccountView) : Bool := v.data.all fun data => data.length < 2 ^ 32

/-- The bytes of an account view. -/
def AccountView.serialize (v : AccountView) : Bytes :=
  Borsh.serialize v.signer ++ Borsh.serialize v.writable ++ Borsh.serialize v.executable ++
    Borsh.serialize v.owner ++
    match v.data with
    | none => [0]
    | some data => 1 :: (leBytes 4 data.length ++ data)

/-- `Environment::try_to_vec`: an error where a length does not fit in four
bytes. -/
def Environment.tryToVec (env : Environment) : Option Bytes :=
  if env.accounts.length < 2 ^ 32 ∧ env.accounts.all (fun p => p.2.fits) then
    some (Borsh.serialize env.caller ++ Borsh.serialize env.address ++
      leBytes 4 env.accounts.length ++
      env.accounts.flatMap fun p => Borsh.serialize p.1 ++ p.2.serialize)
  else none

end Rensa
