import Rensa.Vm.Model.Machine
/-!
# The hash of a block's output

What `Executed::new` compares with the state hash of a block: the hash
of an account, of a diff, of the logs, of the errors, and of all of them
together. `toBytes` is `Multihash::to_bytes`.
-/

namespace Rensa

/-- The bytes of a text. -/
def textBytes (s : String) : Bytes := s.toByteArray.data.toList

/-- The text of a `SignatureError`. -/
def SignatureError.text : SignatureError → String
  | .invalidSignature => "Signature verification failed"
  | .missingSigners => "Missing Signers"

/-- The text of a `ContractError`. -/
def ContractError.text : ContractError → String
  | .invalidTransactionNonce => "Invalid transaction nonce value for this payer"
  | .accountAlreadyExists => "Account already exists"
  | .accountDoesNotExist => "Account does not exist"
  | .tooManyInputAccounts => "The number of input accounts exceeds the maximum limit"
  | .accountTooLarge => "Account is exceeding the maximum size limit"
  | .logTooLarge => "Log is exceeding the maximum size limit"
  | .tooManyLogs => "Logs count for this transaction is exceeding the maximum limit"
  | .invalidInputAccounts => "Invalid contract input accounts"
  | .invalidAccountOwner => "Attempt to modify an account not owned by the contract"
  | .invalidOutputAccount =>
    "Contract attempting to write to an account not in the transaction accounts list"
  | .accountNotWritable => "The specified account is not writable"
  | .contractDoesNotExit => "Contract does not exit"
  | .accountIsNotExecutable => "The called account is not executable"
  | .signatureError e => "Signature Error: " ++ e.text
  | .invalidInputParameters => "Invalid contract input paramters data"
  | .unauthorizedOperation => "This contract is not allowed to perform this operation"
  | .runtime message => "Runtime Error: " ++ message
  | .other message => "Contract error: " ++ message
  | .computationalBudgetExhausted =>
    "The transaction has used up all compute units before completing"

variable {H : Type} (C : Crypto H) (toBytes : H → Bytes)

namespace Account

/-- The bytes `Account::hash` hashes: the executable flag is not among
them, and an owner or data that is absent leaves no trace. -/
def message (a : Account) : Bytes :=
  leBytes 8 a.nonce ++ (a.owner.map Pubkey.bytes).getD [] ++ a.data.getD []

/-- `Account::hash`. -/
def hash (a : Account) : H := C.sha3 a.message

end Account

namespace StateDiff

/-- The bytes `StateDiff::hash` hashes: the accounts set, in the order of
their addresses. -/
def message (d : StateDiff) : Bytes :=
  d.data.toList.flatMap fun p => p.1.bytes ++ toBytes (p.2.hash C)

/-- `StateDiff::hash`. -/
def hash (d : StateDiff) : H := C.sha3 (d.message C toBytes)

end StateDiff

/-- `LogsMap::hash`. -/
def hashLogs (logs : List (H × List (String × String))) : H :=
  C.sha3 (logs.flatMap fun p => toBytes p.1 ++
    p.2.flatMap fun entry => textBytes entry.1 ++ textBytes entry.2)

/-- `ErrorsMap::hash`. -/
def hashErrors (errors : List (H × ContractError)) : H :=
  C.sha3 (errors.flatMap fun p => toBytes p.1 ++ textBytes p.2.text)

namespace BlockOutput

/-- The bytes `BlockOutput::hash` hashes. -/
def message (o : BlockOutput H) : Bytes :=
  toBytes (o.state.hash C toBytes) ++ toBytes (hashLogs C toBytes o.logs) ++
    toBytes (hashErrors C toBytes o.errors)

/-- `BlockOutput::hash`. -/
def hash (o : BlockOutput H) : H := C.sha3 (o.message C toBytes)

variable [DecidableEq H] (o : BlockOutput H) (tx : H)

/-- The output `BlockStore::store_outputs` keeps of a transaction: the error
under its hash, or else the logs. -/
def stored : Option (Except ContractError (List (String × String))) :=
  ((o.errors.lookup tx).map Except.error).or ((o.logs.lookup tx).map Except.ok)

/-- The output `DatabaseSync::sync_block` writes rows of: the logs under the
hash of the transaction, or else the error. -/
def synced : Option (Except ContractError (List (String × String))) :=
  ((o.logs.lookup tx).map Except.ok).or ((o.errors.lookup tx).map Except.error)

end BlockOutput

/-- The store the source's tests run on: accounts are kept whole. -/
structure InMemState where
  db : State

/-- `InMemState::apply`. -/
def InMemState.apply (s : InMemState) (d : StateDiff) : InMemState :=
  { db := d.iter.foldl (fun db p => Function.update db p.1 p.2) s.db }

end Rensa
