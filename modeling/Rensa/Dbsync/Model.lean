import Rensa.Common.Sql
import Rensa.Primitives.Address
import Rensa.Storage.Model
import Rensa.Vm.Model.Output
/-!
# The copy of the chain in a database

`DatabaseSync` writes confirmed blocks into the tables of a database, one
row for each of their parts, and marks them when they are finalized. The
builders give the statements, and `Sql.Statement.format` is what `format!`
makes of them: every text is put between quotes as it is.
-/

namespace Rensa

open Consensus

/-- A point in time of `chrono::Utc`. -/
structure UtcTime where
  year : ℕ
  month : ℕ
  day : ℕ
  hour : ℕ
  minute : ℕ
  second : ℕ

namespace UtcTime

/-- A number with zeros in front. -/
def padded (width n : ℕ) : List Char :=
  List.replicate (width - (decimal n).length) '0' ++ decimal n

/-- The format `%Y-%m-%d %H:%M:%S`; a year after 9999 has a sign. -/
def format (t : UtcTime) : String :=
  String.ofList ((if 9999 < t.year then ['+'] else []) ++ padded 4 t.year ++ '-' ::
    padded 2 t.month ++ '-' :: padded 2 t.day ++ ' ' :: padded 2 t.hour ++ ':' ::
    padded 2 t.minute ++ ':' :: padded 2 t.second)

example : (⟨2022, 7, 3, 10, 4, 59⟩ : UtcTime).format = "2022-07-03 10:04:59" := by decide +kernel

end UtcTime

/-- `Debug for Commitment`. -/
def Commitment.debug : Commitment → String
  | .included => "Included"
  | .confirmed => "Confirmed"
  | .finalized => "Finalized"

namespace DatabaseSync

/-- A flag in a row. -/
def flag (b : Bool) : Sql.Value := .num (if b then 1 else 0)

variable {H : Type} (K : Config H (List Transaction))

/-- `Multihash::to_b58`, in a row. -/
def b58 (hash : H) : Sql.Value := .text (Base58.encode (K.toBytes hash))

/-- The hash of a transaction, in a row. -/
def txHash (tx : Transaction) : Sql.Value := b58 K (tx.hash K.crypto)

variable (now : UtcTime) (block : Executed H (List Transaction))

/-- `block_header_stmt`; `none` where it panics. -/
def blockHeaderStmt : Commitment → Option Sql.Statement
  | .included => none
  | .confirmed => some (.insert "block" [.num block.underlying.height,
      b58 K (K.hash block.underlying), b58 K block.underlying.parent,
      .text block.underlying.signature.1.toText,
      .text (Base58.encode block.underlying.signature.2), b58 K block.underlying.stateHash,
      .text Commitment.confirmed.debug, .text now.format])
  | .finalized => some (.update "block" "commitment" (.text Commitment.finalized.debug)
      "height" (.num block.underlying.height))

/-- `transaction_stmt`. -/
def transactionStmt (tx : Transaction) (pos : ℕ) : Sql.Statement :=
  .insert "transaction" [txHash K tx, .num block.underlying.height, .text tx.contract.toText,
    .num tx.nonce, .text (Base58.encode tx.params), .text tx.payer.toText, .num pos]

/-- `transaction_account_stmt`. -/
def transactionAccountStmt (tx : Transaction) (acc : AccountRef) (pos : ℕ) : Sql.Statement :=
  .insert "transaction_accounts" [txHash K tx, .text acc.address.toText, flag acc.signer,
    flag acc.writable, .num pos]

/-- `transaction_signature_stmt`. -/
def transactionSignatureStmt (tx : Transaction) (signature : Signature) (pos : ℕ) :
    Sql.Statement :=
  .insert "transaction_signatures" [txHash K tx, .text (Base58.encode signature), .num pos]

/-- `transaction_output_stmt`. -/
def transactionOutputStmt (tx : Transaction) (output : String × String) (pos : ℕ) :
    Sql.Statement :=
  .insert "transaction_logs" [txHash K tx, .text output.1, .text output.2, .num pos]

/-- `transaction_error_stmt`. -/
def transactionErrorStmt (tx : Transaction) (error : String) : Sql.Statement :=
  .insert "transaction_errors" [txHash K tx, .text error]

/-- `state_diff_stmt`: an account that is set, or an address that is
deleted. -/
def stateDiffStmt (account : Pubkey) (data : Option Account) (pos : ℕ) : Sql.Statement :=
  .insert "state_diff" (match data with
    | some acc => [.num block.underlying.height, .text account.toText,
        (match acc.data with
          | none => .null
          | some bytes => .text (Base58.encode bytes)),
        .num acc.nonce,
        (match acc.owner with
          | none => .null
          | some owner => .text owner.toText),
        flag acc.executable, .num 0, .num pos]
    | none => [.num block.underlying.height, .text account.toText, .null, .null, .null, .num 0,
        .num 1, .num pos])

/-- `vote_stmt`. -/
def voteStmt (vote : Vote H) (pos : ℕ) : Sql.Statement :=
  .insert "vote" [.num block.underlying.height, b58 K vote.target, b58 K vote.justification,
    .text vote.validator.toText, .text (Base58.encode vote.signature), .num pos]

variable [DecidableEq H]

/-- The rows of the logs of a transaction, or of its error. -/
def syncOutput (tx : Transaction) : List Sql.Statement :=
  match block.output.synced (tx.hash K.crypto) with
  | some (.ok outputs) => outputs.zipIdx.map fun o => transactionOutputStmt K tx o.1 o.2
  | some (.error error) => [transactionErrorStmt K tx error.text]
  | none => []

/-- The rows of a transaction: its accounts and signatures, and what came
of it. -/
def syncTransaction (tx : Transaction) (pos : ℕ) : List Sql.Statement :=
  transactionStmt K block tx pos ::
    (tx.accounts.zipIdx.map (fun a => transactionAccountStmt K tx a.1 a.2) ++
      tx.signatures.zipIdx.map (fun s => transactionSignatureStmt K tx s.1 s.2) ++
      syncOutput K block tx)

/-- The statements `sync_block` has the database execute, as long as none
of them fails. -/
def syncBlock (commitment : Commitment) : List Sql.Statement :=
  if commitment = .included then []
  else
    (blockHeaderStmt K now block commitment).toList ++
      if commitment = .confirmed then
        block.underlying.data.zipIdx.flatMap (fun t => syncTransaction K block t.1 t.2) ++
          block.underlying.votes.zipIdx.map (fun v => voteStmt K block v.1 v.2) ++
          block.output.state.iter.zipIdx.map fun d => stateDiffStmt block d.1.1 d.1.2 d.2
      else []

end DatabaseSync

end Rensa
