import Rensa.Primitives.Address
import Rensa.Rpc.Model
import Rensa.Validator.Model
import Rensa.Vm.Model.Currency
/-!
# The JavaScript client

The client builds transactions from what its caller wants: it asks the node
for the nonce of a payer, hashes and signs the fields, and posts texts and
numbers, which the node reads back (`Rpc.readTransaction`). `Currency` builds
the calls of the contract of that name and reads the balance of a wallet. A
function is `none` where the source throws, and where a number gets too large
for a double to hold it.
-/

namespace Rensa

namespace Client

/-- A number of the client. -/
def number (n : ℕ) : Option ℕ := if n < 2 ^ 53 then some n else none

/-- `AccountRef` of the client. -/
structure AccountRef where
  signer : Bool
  writable : Bool
  address : String
deriving DecidableEq

/-- `Transaction` of the client. -/
structure Transaction where
  nonce : ℕ
  contract : String
  accounts : List AccountRef
  payer : String
  params : String
  signatures : List String
deriving DecidableEq

/-- `TransactionCreationParams`. -/
structure TransactionCreationParams where
  contract : Pubkey
  payer : Keypair
  accounts : List AccountRef
  signers : List Keypair
  params : Bytes

/-- What the client hashes of an account. -/
def AccountRef.hashed (r : AccountRef) : Option Bytes :=
  (Base58.decode r.address).map fun bs =>
    bs ++ [if r.writable then 1 else 0] ++ [if r.signer then 1 else 0]

section Transactions

variable {H : Type} (C : Crypto H)

/-- `createTransaction`, for a nonce. -/
def createTransaction (nonce : ℕ) (input : TransactionCreationParams) : Option Transaction :=
  (input.accounts.mapM AccountRef.hashed).map fun hashed =>
    let digest := C.digest (C.sha3 (input.contract.bytes ++ leBytes 8 nonce ++
      input.payer.pubkey.bytes ++ hashed.flatten ++ input.params))
    { nonce
      contract := input.contract.toText
      accounts := input.accounts
      payer := input.payer.pubkey.toText
      params := Base58.encode input.params
      signatures := (input.payer :: input.signers).map fun k => Base58.encode (k.sign digest) }

/-- `getNextAccountNonce`, on what `getAccount` answers. -/
def getNextAccountNonce : Option Account → Option ℕ
  | none => some 1
  | some account => number (account.nonce + 1)

/-- What the loop of `createManyTransactions` keeps. -/
structure Many where
  transactions : List Transaction := []
  nonces : String → Option ℕ := fun _ => none

variable (getAccount : Pubkey → Option (Option Account))

/-- The nonce of the next transaction of a payer: the node is asked once. -/
def Many.nonce (m : Many) (payer : Pubkey) : Option ℕ :=
  match m.nonces payer.toText with
  | none => (getAccount payer).bind getNextAccountNonce
  | some known => number (known + 1)

/-- The body of that loop. -/
def Many.next (m : Many) (input : TransactionCreationParams) : Option Many :=
  match m.nonce getAccount input.payer.pubkey with
  | none => none
  | some nonce => (createTransaction C nonce input).map fun tx =>
    { transactions := m.transactions ++ [tx]
      nonces := Function.update m.nonces input.payer.pubkey.toText (some nonce) }

/-- `createManyTransactions`. -/
def createManyTransactions (inputs : List TransactionCreationParams) : Option (List Transaction) :=
  (inputs.foldlM (Many.next C getAccount) {}).map Many.transactions

end Transactions

/-! ## Coins -/

/-- `Currency` of the client. -/
structure Currency where
  mintAddress : Pubkey

/-- `BinaryWriter::writeU64`: a `BN` is made of a number that is exact. -/
def writeU64 (amount : ℕ) : Option Bytes := (number amount).map (leBytes 8)

/-- `BinaryWriter::writeString`. -/
def writeString (s : String) : Bytes := leBytes 4 s.utf8ByteSize ++ s.toUTF8.data.toList

/-- An optional text. -/
def writeOptional : Option String → Bytes
  | none => [0]
  | some s => 1 :: writeString s

/-- An account of a call, under the text of its address. -/
def accountOf (address : Pubkey) (writable signer : Bool) : AccountRef :=
  { address := address.toText, writable, signer }

namespace Currency

open Rensa.Currency (address)

variable {H : Type} (C : Crypto H) (currency : Currency)

/-- The coin account of a wallet. -/
def coinOf (wallet : Pubkey) : Pubkey :=
  address.derive C [currency.mintAddress.bytes, wallet.bytes]

/-- `mint`. -/
def mint (recipient : Pubkey) (authority payer : Keypair) (amount : ℕ) :
    Option TransactionCreationParams :=
  (writeU64 amount).map fun amount =>
    { contract := address
      payer
      accounts :=
        [accountOf currency.mintAddress true false, accountOf authority.pubkey false true,
          accountOf recipient false false, accountOf (currency.coinOf C recipient) true false]
      signers := [authority]
      params := 1 :: amount }

/-- `transfer`. -/
def transfer (sender : Keypair) (recipient : Pubkey) (amount : ℕ) :
    Option TransactionCreationParams :=
  (writeU64 amount).map fun amount =>
    { contract := address
      payer := sender
      accounts :=
        [accountOf currency.mintAddress false false, accountOf sender.pubkey false true,
          accountOf (currency.coinOf C sender.pubkey) true false, accountOf recipient false false,
          accountOf (currency.coinOf C recipient) true false]
      signers := [sender]
      params := 2 :: amount }

/-- `burn`. -/
def burn (wallet : Keypair) (amount : ℕ) : Option TransactionCreationParams :=
  (writeU64 amount).map fun amount =>
    { contract := address
      payer := wallet
      accounts :=
        [accountOf currency.mintAddress true false, accountOf wallet.pubkey false true,
          accountOf (currency.coinOf C wallet.pubkey) true false]
      signers := [wallet]
      params := 3 :: amount }

/-- `create`: `writeU8` throws for what is no byte. -/
def create (seed : Bytes) (authority : Keypair) (decimals : ℕ) (name symbol : Option String) :
    Option TransactionCreationParams :=
  if decimals < 256 then
    some
      { contract := address
        payer := authority
        accounts := [accountOf (address.derive C [seed]) true false]
        signers := []
        params := 0 :: (seed ++ authority.pubkey.bytes ++ [UInt8.ofNat decimals] ++
          writeOptional name ++ writeOptional symbol) }
  else none

/-- `balance`, on what `getAccount` answers for the coin account. -/
def balance (wallet : Pubkey) : Option Account → Option ℕ
  | none => some 0
  | some account =>
    if account.owner ≠ some address then none
    else
      match account.data with
      | none => none
      | some data =>
        if data.length < 72 then none
        else if Pubkey.ofBytes (data.take 32) ≠ currency.mintAddress then none
        else if Pubkey.ofBytes ((data.drop 32).take 32) ≠ wallet then none
        else some (leNat ((data.drop 64).take 8))

end Currency

end Client

/-! ## The JSON of the node -/

namespace Rpc

/-- `serve_account`, for what is confirmed. -/
def ServiceSharedState.serveAccount {H : Type} (s : ServiceSharedState H) (fuel : ℕ)
    (account : Pubkey) : Option (Option Account) :=
  (s.getConfirmedAccount fuel account).map fun acc => acc.or (s.state account)

/-- `AccountRef`, as its JSON. -/
def writeAccountRef (r : AccountRef) : Client.AccountRef :=
  Client.accountOf r.address r.writable r.signer

/-- `Transaction`, as its JSON. -/
def writeTransaction (tx : Transaction) : Client.Transaction where
  nonce := tx.nonce
  contract := tx.contract.toText
  accounts := tx.accounts.map writeAccountRef
  payer := tx.payer.toText
  params := Base58.encode tx.params
  signatures := tx.signatures.map Base58.encode

/-- `AccountRef`, from its JSON. -/
def readAccountRef (r : Client.AccountRef) : Option AccountRef :=
  (Pubkey.fromStr r.address).map fun address =>
    { address, writable := r.writable, signer := r.signer }

/-- A signature, from its text; `takes` is `Signature::from_bytes`. -/
def readSignature (takes : Bytes → Bool) (s : String) : Option Signature :=
  (Base58.decode s).bind fun bs => if takes bs then some bs else none

/-- `Transaction`, from its JSON. -/
def readTransaction (takes : Bytes → Bool) (tx : Client.Transaction) : Option Transaction :=
  match Pubkey.fromStr tx.contract, tx.accounts.mapM readAccountRef, Pubkey.fromStr tx.payer,
    Base58.decode tx.params, tx.signatures.mapM (readSignature takes) with
  | some contract, some accounts, some payer, some params, some signatures =>
    if tx.nonce < 2 ^ 64 then
      some { contract, nonce := tx.nonce, payer, accounts, params, signatures }
    else none
  | _, _, _, _, _ => none

end Rpc

/-- `Transaction::new`. -/
def Transaction.new {H : Type} (C : Crypto H) (contract : Pubkey) (nonce : ℕ)
    (payer : Keypair) (accounts : List AccountRef) (params : Bytes)
    (signers : List Keypair) : Transaction :=
  let tx : Transaction :=
    { contract, nonce, payer := payer.pubkey, accounts, params, signatures := [] }
  { tx with signatures := (payer :: signers).map fun k => k.sign (C.digest (tx.hashFields C)) }

end Rensa
