import Rensa.Vm.Model.Currency
/-!
# The SDK's side of the ABI

The types of `rensa_sdk` that cross the boundary between a contract and
the machine, and their encodings: the SDK keeps its own copies of the
machine's types, writes outputs and errors, and reads environments.
-/

namespace Rensa

namespace Sdk

open Borsh (Text Vec)

/-- `rensa_sdk::AccountView`. -/
structure AccountView where
  signer : Bool
  writable : Bool
  executable : Bool
  owner : Option Pubkey
  data : Option (Vec UInt8)
deriving DecidableEq

/-- The fields of an account view, in order. -/
def AccountView.fields :
    AccountView ≃ Bool × Bool × Bool × Option Pubkey × Option (Vec UInt8) where
  toFun v := (v.signer, v.writable, v.executable, v.owner, v.data)
  invFun p := ⟨p.1, p.2.1, p.2.2.1, p.2.2.2.1, p.2.2.2.2⟩

instance : Borsh AccountView := Borsh.ofEquiv AccountView.fields

/-- `rensa_sdk::Environment`. -/
structure Environment where
  caller : Option Pubkey
  address : Pubkey
  accounts : Vec (Pubkey × AccountView)

/-- The fields of an environment, in order. -/
def Environment.fields : Environment ≃ Option Pubkey × Pubkey × Vec (Pubkey × AccountView) where
  toFun env := (env.caller, env.address, env.accounts)
  invFun p := ⟨p.1, p.2.1, p.2.2⟩

instance : Borsh Environment := Borsh.ofEquiv Environment.fields

/-- `rensa_sdk::SignatureError`. -/
inductive SignatureError
  | invalidSignature
  | missingSigners
deriving DecidableEq

/-- `rensa_sdk::ContractError`. -/
inductive ContractError
  | invalidTransactionNonce (nonce : UInt64)
  | accountAlreadyExists
  | accountDoesNotExist
  | tooManyInputAccounts
  | accountTooLarge
  | logTooLarge
  | tooManyLogs
  | invalidInputAccounts
  | invalidAccountOwner
  | invalidOutputAccount
  | accountNotWritable
  | contractDoesNotExit
  | accountIsNotExecutable
  | signatureError (e : SignatureError)
  | invalidInputParameters
  | unauthorizedOperation
  | runtime (message : Text)
  | other (message : Text)
  | computationalBudgetExhausted
deriving DecidableEq

/-- `rensa_sdk::Output`. -/
inductive Output
  | logEntry (key value : Text)
  | createOwnedAccount (address : Pubkey) (data : Option (Vec UInt8))
  | writeAccountData (address : Pubkey) (data : Option (Vec UInt8))
  | deleteOwnedAccount (address : Pubkey)
  | contractInvoke (contract : Pubkey) (accounts : Vec (Pubkey × AccountView)) (params : Vec UInt8)
  | createExecutableAccount (address : Pubkey) (bytecode : Vec UInt8)
deriving DecidableEq

/-- The bytes of a `SignatureError`. -/
def SignatureError.serialize : SignatureError → Bytes
  | .invalidSignature => [0]
  | .missingSigners => [1]

/-- The bytes of a `ContractError`: the number of its variant, then its
fields. -/
def ContractError.serialize : ContractError → Bytes
  | .invalidTransactionNonce nonce => 0 :: Borsh.serialize nonce
  | .accountAlreadyExists => [1]
  | .accountDoesNotExist => [2]
  | .tooManyInputAccounts => [3]
  | .accountTooLarge => [4]
  | .logTooLarge => [5]
  | .tooManyLogs => [6]
  | .invalidInputAccounts => [7]
  | .invalidAccountOwner => [8]
  | .invalidOutputAccount => [9]
  | .accountNotWritable => [10]
  | .contractDoesNotExit => [11]
  | .accountIsNotExecutable => [12]
  | .signatureError e => 13 :: e.serialize
  | .invalidInputParameters => [14]
  | .unauthorizedOperation => [15]
  | .runtime message => 16 :: Borsh.serialize message
  | .other message => 17 :: Borsh.serialize message
  | .computationalBudgetExhausted => [18]

/-- The bytes of an `Output`. -/
def Output.serialize : Output → Bytes
  | .logEntry key value => 0 :: Borsh.serialize (key, value)
  | .createOwnedAccount address data => 1 :: Borsh.serialize (address, data)
  | .writeAccountData address data => 2 :: Borsh.serialize (address, data)
  | .deleteOwnedAccount address => 3 :: Borsh.serialize address
  | .contractInvoke contract accounts params => 4 :: Borsh.serialize (contract, accounts, params)
  | .createExecutableAccount address bytecode => 5 :: Borsh.serialize (address, bytecode)

/-- `Vec<Output>::try_to_vec`. -/
def Output.toVec (os : Vec Output) : Bytes :=
  leBytes 4 os.1.length ++ os.1.flatMap Output.serialize

end Sdk

end Rensa
