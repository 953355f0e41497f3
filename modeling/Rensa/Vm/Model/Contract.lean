import Rensa.Vm.Model.State
/-!
# Contracts and transactions

The types a contract is invoked with and answers with, and the signed
transaction that invokes one. A contract is any function from its
environment and parameters to a list of outputs or an error.
-/

namespace Rensa

/-- Limits set in genesis. -/
structure Limits where
  maxJustificationAge : ℕ
  minimumStake : ℕ
  maxInputAccounts : ℕ
  maxAccountSize : ℕ
  maxLogSize : ℕ
  maxLogsCount : ℕ
  maxBlockTransactions : ℕ
  maxContractSize : ℕ
  maxTransactionParamsSize : ℕ

/-- Why a transaction is not taken up by a producer. -/
inductive TransactionError
  | tooManyAccounts
  | paramsTooBig
deriving DecidableEq

/-- Why the signatures of a transaction are refused. -/
inductive SignatureError
  | invalidSignature
  | missingSigners
deriving DecidableEq

/-- Why a transaction fails. -/
inductive ContractError
  | invalidTransactionNonce
  | accountAlreadyExists
  | accountDoesNotExist
  | tooManyInputAccounts
  | accountTooLarge
  | logTooLarge
  | tooManyLogs
  | invalidInputAccounts
  | invalidAccountOwner
  | invalidOutputAccount
  | accountNotWritable
  | contractDoesNotExit
  | accountIsNotExecutable
  | signatureError (e : SignatureError)
  | invalidInputParameters
  | unauthorizedOperation
  | runtime (message : String)
  | other (message : String)
  | computationalBudgetExhausted
deriving DecidableEq

/-- An account a transaction or a nested call refers to. -/
structure AccountRef where
  address : Pubkey
  writable : Bool
  signer : Bool
deriving DecidableEq

/-- The copy of an account a contract sees. -/
structure AccountView where
  signer : Bool
  writable : Bool
  executable : Bool
  owner : Option Pubkey
  data : Option Bytes
deriving DecidableEq

/-- What a contract asks for. -/
inductive Output
  | logEntry (key value : String)
  | createOwnedAccount (address : Pubkey) (data : Option Bytes)
  | writeAccountData (address : Pubkey) (data : Option Bytes)
  | deleteOwnedAccount (address : Pubkey)
  | contractInvoke (contract : Pubkey) (accounts : List AccountRef) (params : Bytes)
  | createExecutableAccount (address : Pubkey) (bytecode : Bytes)
deriving DecidableEq

/-- What a contract is invoked with. -/
structure Environment where
  caller : Option Pubkey
  address : Pubkey
  accounts : List (Pubkey × AccountView)
deriving DecidableEq

/-- `contract::Result`. -/
abbrev ContractResult := Except ContractError (List Output)

/-- A contract: native or external, it sees its environment and its
parameters and nothing else. -/
abbrev Entrypoint := Environment → Bytes → ContractResult

/-- A signed transaction. -/
structure Transaction where
  contract : Pubkey
  nonce : ℕ
  payer : Pubkey
  accounts : List AccountRef
  params : Bytes
  signatures : List Signature
deriving DecidableEq

namespace Transaction

variable {H : Type} (C : Crypto H)

/-- The byte a boolean is hashed as. -/
def flag (b : Bool) : UInt8 := if b then 1 else 0

/-- `Transaction::hash_fields`: what the signatures sign. -/
def hashFields (tx : Transaction) : H :=
  C.sha3 (tx.contract.bytes ++ leBytes 8 tx.nonce ++ tx.payer.bytes ++
    tx.accounts.flatMap (fun r => r.address.bytes ++ [flag r.writable] ++ [flag r.signer]) ++
    tx.params)

/-- `Transaction::hash`: the id of the transaction. -/
def hash (tx : Transaction) : H :=
  C.sha3 (tx.contract.bytes ++ leBytes 8 tx.nonce ++ tx.payer.bytes ++
    tx.accounts.flatMap (fun r => r.address.bytes ++ [flag r.writable]) ++
    tx.params ++ tx.signatures.flatten)

/-- `Transaction::verify_limits`. -/
def verifyLimits (tx : Transaction) (limits : Limits) : Except TransactionError Unit :=
  if limits.maxInputAccounts < tx.accounts.length then .error .tooManyAccounts
  else if limits.maxTransactionParamsSize < tx.params.length then .error .paramsTooBig
  else .ok ()

/-- `Transaction::verify_signatures`. -/
def verifySignatures (tx : Transaction) : Except SignatureError Unit :=
  let message := C.digest (tx.hashFields C)
  match tx.signatures with
  | [] => .error .missingSigners
  | first :: rest =>
    if C.verifies tx.payer message first then
      let signingAccs := (tx.accounts.filter AccountRef.signer).map AccountRef.address
      let signers := signingAccs.zip rest
      if signers.length ≠ signingAccs.length then .error .missingSigners
      else if signers.all fun p => C.verifies p.1 message p.2 then .ok ()
      else .error .invalidSignature
    else .error .invalidSignature

end Transaction

end Rensa
