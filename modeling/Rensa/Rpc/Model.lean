import Rensa.Storage.Model
import Rensa.Vm.Model.Output
/-!
# The RPC service

The HTTP handler that takes transactions in, and the lookup of an account
among the confirmed blocks it begins with. The lookup walks down through
heights, so it takes an amount of fuel and is `none` where it still runs.
-/

namespace Rensa

open Consensus

/-- The text of a `TransactionError`. -/
def TransactionError.text : TransactionError → String
  | .tooManyAccounts => "The transaction is referencing too many accounts"
  | .paramsTooBig => "The transaction's params blob is too big"

namespace Rpc

/-- `ServiceSharedState`: of the genesis the limits, and of the channel to
the node whether it takes another transaction after so many. -/
structure ServiceSharedState (H : Type) where
  state : State
  blocks : BlockStore H (List Transaction)
  limits : Limits
  sender : ℕ → Bool

/-- What the handler answers to one transaction. -/
inductive Reply
  | outsized (e : TransactionError)
  | unsigned (e : SignatureError)
  | invalidNonce (expected found : ℕ)
  | ok

/-- The text of an answer. -/
def Reply.text : Reply → String
  | .outsized e => e.text
  | .unsigned e => e.text
  | .invalidNonce expected found =>
    "invalid nonce. expected " ++ toString expected ++ ", found " ++ toString found
  | .ok => "ok"

/-- The answer to a request. -/
inductive Response (H : Type)
  | accepted (outputs : List (H × String))
  | internalServerError

/-- What the handler keeps: the answers, the nonces it expected last, and
what it has sent to the node. -/
structure Batch (H : Type) where
  outputs : List (H × Reply) := []
  nonces : Pubkey → Option ℕ := fun _ => none
  sent : List Transaction := []

/-- What ends the handler's loop before its end. -/
inductive Stop (H : Type)
  /-- A lookup still runs. -/
  | running
  /-- The channel is closed. -/
  | closed (b : Batch H)

namespace ServiceSharedState

variable {H : Type} (s : ServiceSharedState H)

/-- The loop of `get_confirmed_account`. -/
def walkConfirmed (account : Pubkey) (finalizedHeight : ℕ) : ℕ → ℕ → Option (Option Account)
  | 0, _ => none
  | fuel + 1, cursor =>
    if finalizedHeight < cursor then
      match s.blocks.getByHeight cursor with
      | some (block, _) =>
        match block.output.state.get account with
        | some acc => some (some acc)
        | none => walkConfirmed account finalizedHeight fuel (cursor - 1)
      -- without a block the cursor stays where it is
      | none => walkConfirmed account finalizedHeight fuel cursor
    else some none

/-- `get_confirmed_account`. -/
def getConfirmedAccount (fuel : ℕ) (account : Pubkey) : Option (Option Account) :=
  match s.blocks.latest .finalized with
  | none => some none
  | some finalized =>
    match s.blocks.latest .confirmed with
    | none => some none
    | some confirmed => s.walkConfirmed account finalized.height fuel confirmed.height

/-- The nonce of a payer, confirmed or else finalized. -/
def accountNonce (fuel : ℕ) (payer : Pubkey) : Option ℕ :=
  (s.getConfirmedAccount fuel payer).map fun acc =>
    ((acc.or (s.state payer)).map Account.nonce).getD 0

/-- The `expected_nonce` of the next transaction of a payer. -/
def expectedNonce (fuel : ℕ) (b : Batch H) (payer : Pubkey) : Option ℕ :=
  match b.nonces payer with
  | some known => some ((known + 1) % 2 ^ 64)
  | none => (s.accountNonce fuel payer).map fun n => (n + 1) % 2 ^ 64

variable (C : Crypto H)

/-- The body of the loop of `serve_send_transactions`. -/
def serveTransaction (fuel : ℕ) (b : Batch H) (tx : Transaction) : Except (Stop H) (Batch H) :=
  match tx.verifyLimits s.limits with
  | .error e => .ok { b with outputs := b.outputs ++ [(tx.hash C, .outsized e)] }
  | .ok () =>
    match tx.verifySignatures C with
    | .error e => .ok { b with outputs := b.outputs ++ [(tx.hash C, .unsigned e)] }
    | .ok () =>
      match s.expectedNonce fuel b tx.payer with
      | none => .error .running
      | some expected =>
        -- the map keeps the expected nonce, also where the transaction has another
        let b := { b with nonces := Function.update b.nonces tx.payer (some expected) }
        if tx.nonce ≠ expected then
          .ok { b with outputs := b.outputs ++ [(tx.hash C, .invalidNonce expected tx.nonce)] }
        else if s.sender b.sent.length then
          .ok { b with outputs := b.outputs ++ [(tx.hash C, .ok)], sent := b.sent ++ [tx] }
        else .error (.closed b)

/-- `serve_send_transactions`: the answer, and what was sent to the node;
`none` where it still runs. -/
def serveSendTransactions (fuel : ℕ) (transactions : List Transaction) :
    Option (Response H × List Transaction) :=
  match transactions.foldlM (s.serveTransaction C fuel) {} with
  | .ok b => some (.accepted (b.outputs.map fun o => (o.1, o.2.text)), b.sent)
  | .error (.closed b) => some (.internalServerError, b.sent)
  | .error .running => none

end ServiceSharedState

end Rpc

end Rensa
