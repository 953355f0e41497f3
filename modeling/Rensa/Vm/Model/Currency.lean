import Rensa.Common.Borsh
import Rensa.Vm.Model.Unit
/-!
# The Currency contract

The native contract for fungible coins: a mint account holds the supply
of a coin, and every wallet has one coin account per mint, at the address
derived from the two. `contract` reads an instruction from the parameters
and returns the outputs, or the error, of the source's function of the
same name.
-/

namespace Rensa

/-- `u64::saturating_add`. -/
def saturatingAdd (a b : UInt64) : UInt64 :=
  if a.toNat + b.toNat < 2 ^ 64 then a + b else UInt64.ofNat (2 ^ 64 - 1)

/-- `u64::saturating_sub`. -/
def saturatingSub (a b : UInt64) : UInt64 := if b ≤ a then a - b else 0

instance : Borsh Pubkey where
  serialize k := k.bytes
  deserialize bs := (Borsh.takeExact 32 bs).map fun p => (Pubkey.ofBytes p.1, p.2)
  deserialize_serialize k rest := by
    rw [Borsh.takeExact_append k.length_bytes, Option.map_some, Pubkey.ofBytes_bytes]

instance : Borsh.Canonical Pubkey where
  eq_serialize_append {bs rest k} h := by
    obtain ⟨⟨as, rest'⟩, htake, heq⟩ := Option.map_eq_some_iff.1 h
    obtain ⟨rfl, rfl⟩ := Prod.mk.inj heq
    obtain ⟨hlen, rfl⟩ := Borsh.takeExact_eq_some.1 htake
    exact congrArg (· ++ rest') (Pubkey.bytes_ofBytes hlen).symm

namespace Currency

open Borsh (Text FixedBytes)

/-- The address of the contract. -/
def address : Pubkey :=
  1380185704672389825753663469595540435535824264049376554398660660985749560337

/-- The metadata of a coin. -/
structure Mint where
  authority : Option Pubkey
  supply : UInt64
  decimals : UInt8
  name : Option Text
  symbol : Option Text

/-- The fields of a mint, in order. -/
def Mint.fields : Mint ≃ Option Pubkey × UInt64 × UInt8 × Option Text × Option Text where
  toFun m := (m.authority, m.supply, m.decimals, m.name, m.symbol)
  invFun p := ⟨p.1, p.2.1, p.2.2.1, p.2.2.2.1, p.2.2.2.2⟩

instance : Borsh Mint := Borsh.ofEquiv Mint.fields

/-- The coins of one wallet. -/
structure CoinAccount where
  mint : Pubkey
  owner : Pubkey
  balance : UInt64
deriving DecidableEq

/-- The fields of a coin account, in order. -/
def CoinAccount.fields : CoinAccount ≃ Pubkey × Pubkey × UInt64 where
  toFun c := (c.mint, c.owner, c.balance)
  invFun p := ⟨p.1, p.2.1, p.2.2⟩

instance : Borsh CoinAccount := Borsh.ofEquiv CoinAccount.fields

/-- The parameters of the contract. -/
inductive Instruction
  | create (seed : FixedBytes 32) (authority : Pubkey) (decimals : UInt8)
      (name symbol : Option Text)
  | mint (amount : UInt64)
  | transfer (amount : UInt64)
  | burn (amount : UInt64)
  | setAuthority (authority : Option Pubkey)

/-- The encoding of an instruction: the number of its variant, then its
fields. -/
instance : Borsh Instruction where
  serialize
    | .create seed authority decimals name symbol =>
      0 :: Borsh.serialize (seed, authority, decimals, name, symbol)
    | .mint amount => 1 :: Borsh.serialize amount
    | .transfer amount => 2 :: Borsh.serialize amount
    | .burn amount => 3 :: Borsh.serialize amount
    | .setAuthority authority => 4 :: Borsh.serialize authority
  deserialize
    | 0 :: rest =>
      (Borsh.deserialize rest : Option ((FixedBytes 32 × Pubkey × UInt8 × Option Text ×
        Option Text) × Bytes)).map fun p =>
          (.create p.1.1 p.1.2.1 p.1.2.2.1 p.1.2.2.2.1 p.1.2.2.2.2, p.2)
    | 1 :: rest => (Borsh.deserialize rest).map fun p => (.mint p.1, p.2)
    | 2 :: rest => (Borsh.deserialize rest).map fun p => (.transfer p.1, p.2)
    | 3 :: rest => (Borsh.deserialize rest).map fun p => (.burn p.1, p.2)
    | 4 :: rest => (Borsh.deserialize rest).map fun p => (.setAuthority p.1, p.2)
    | _ => none
  deserialize_serialize i rest := by
    cases i <;> simp only [List.cons_append, Borsh.deserialize_serialize, Option.map_some]

variable {H : Type} (C : Crypto H)

/-- The address of the coin account of a wallet. -/
def coinAddress (mintAddr walletAddr : Pubkey) : Pubkey :=
  address.derive C [mintAddr.bytes, walletAddr.bytes]

/-- `read_coin_mint`. -/
def readCoinMint (addr : Pubkey) (acc : AccountView) (env : Environment) :
    Except ContractError Mint :=
  if C.hasPrivateKey addr then .error .invalidInputAccounts
  else if acc.owner ≠ some env.address then .error .invalidAccountOwner
  else match acc.data with
    | none => .error .invalidInputAccounts
    | some data =>
      match Borsh.tryFromSlice Mint data with
      | none => .error .invalidInputAccounts
      | some mint => .ok mint

/-- `read_coin_account`: `none` for a wallet that has no coins of this
mint. -/
def readCoinAccount (coinAddr : Pubkey) (coinAcc : AccountView) (mintAddr walletAddr : Pubkey)
    (env : Environment) : Except ContractError (Option CoinAccount) :=
  if coinAddr ≠ env.address.derive C [mintAddr.bytes, walletAddr.bytes] then
    .error .invalidInputAccounts
  else if coinAcc.owner.any fun owner => owner ≠ env.address then .error .invalidAccountOwner
  else match coinAcc.data with
    | none => .ok none
    | some data =>
      match Borsh.tryFromSlice CoinAccount data with
      | none => .error .invalidInputAccounts
      | some coin =>
        if mintAddr ≠ coin.mint then .error .invalidInputAccounts
        else if walletAddr ≠ coin.owner then .error .invalidAccountOwner
        else .ok (some coin)

/-- The length check on the name or the symbol of a new coin. -/
def textFits (limit : ℕ) : Option Text → Bool
  | none => true
  | some s => 0 < s.1.utf8ByteSize && s.1.utf8ByteSize ≤ limit

/-- `Option::unwrap_or_default`. -/
def unwrapOrDefault : Option Text → String
  | none => ""
  | some s => s.1

/-- `process_create`. -/
def processCreate (env : Environment) (seed : FixedBytes 32) (authority : Pubkey)
    (decimals : UInt8) (name symbol : Option Text) : ContractResult :=
  match env.accounts with
  | [(addr, value)] =>
    if env.address.derive C [seed.1] ≠ addr then .error .invalidInputAccounts
    else if value.data.isSome || value.owner.isSome then .error .accountAlreadyExists
    else if !textFits 10 symbol then .error .invalidInputParameters
    else if !textFits 64 name then .error .invalidInputParameters
    else if 20 < decimals then .error .invalidInputParameters
    else
      let spec : Mint := { authority := some authority, supply := 0, decimals, name, symbol }
      .ok [.createOwnedAccount addr (some (Borsh.serialize spec)),
        .logEntry "action" "create",
        .logEntry "address" (C.toBase58 addr),
        .logEntry "name" (unwrapOrDefault name),
        .logEntry "symbol" (unwrapOrDefault symbol),
        .logEntry "decimals" (toString decimals)]
  | _ => .error .invalidInputAccounts

/-- The output that adds coins to the account of a wallet, which it
creates where there is none. -/
def credit (coinAddr mintAddr walletAddr : Pubkey) (amount : UInt64) :
    Option CoinAccount → Output
  | some coin =>
    .writeAccountData coinAddr
      (some (Borsh.serialize { coin with balance := saturatingAdd coin.balance amount }))
  | none =>
    .createOwnedAccount coinAddr
      (some (Borsh.serialize ({ mint := mintAddr, owner := walletAddr, balance := amount } :
        CoinAccount)))

/-- `process_mint`. -/
def processMint (env : Environment) (amount : UInt64) : ContractResult :=
  match env.accounts with
  | [(mintAddr, mintData), (authority, authorityAcc), (walletAddr, _), (coinAddr, coinAcc)] =>
    if amount = 0 then .error .invalidInputParameters
    else match readCoinMint C mintAddr mintData env with
    | .error e => .error e
    | .ok mint =>
      match mint.authority with
      | none => .error (.other "Minting new coins is disabled for this currency")
      | some mintAuthority =>
        if mintAuthority ≠ authority then
          .error (.other "account not authorized to mint new coins of this currency")
        else if !authorityAcc.signer then .error (.signatureError .missingSigners)
        else match readCoinAccount C coinAddr coinAcc mintAddr walletAddr env with
        | .error e => .error e
        | .ok coin =>
          .ok [.logEntry "action" "mint",
            .logEntry "to" (C.toBase58 walletAddr),
            .logEntry "amount" (toString amount),
            credit coinAddr mintAddr walletAddr amount coin,
            .writeAccountData mintAddr
              (some (Borsh.serialize { mint with supply := saturatingAdd mint.supply amount }))]
  | _ => .error .invalidInputAccounts

/-- The deletion of a coin account that a debit empties. -/
def collectDust (coinAddr : Pubkey) (balance : UInt64) : List Output :=
  if balance = 0 then [.deleteOwnedAccount coinAddr] else []

/-- `process_transfer`. -/
def processTransfer (env : Environment) (amount : UInt64) : ContractResult :=
  match env.accounts with
  | [(mintAddr, mintAcc), (senderWalletAddr, senderWalletAcc), (senderCoinAddr, senderCoinAcc),
      (recipientWalletAddr, _), (recipientCoinAddr, recipientCoinAcc)] =>
    if amount = 0 then .error .invalidInputParameters
    else match readCoinMint C mintAddr mintAcc env with
    | .error e => .error e
    | .ok _ =>
      match readCoinAccount C senderCoinAddr senderCoinAcc mintAddr senderWalletAddr env with
      | .error e => .error e
      | .ok none => .error .accountDoesNotExist
      | .ok (some senderCoin) =>
        if !senderWalletAcc.signer then .error (.signatureError .missingSigners)
        else if senderCoin.balance < amount then
          .error (.other "Not enough balance in sender's account")
        else
          let balance := saturatingSub senderCoin.balance amount
          match readCoinAccount C recipientCoinAddr recipientCoinAcc mintAddr
            recipientWalletAddr env with
          | .error e => .error e
          | .ok recipientCoin =>
            .ok ([.logEntry "action" "transfer",
                .logEntry "from" (C.toBase58 senderWalletAddr),
                .logEntry "coin" (C.toBase58 mintAddr),
                .logEntry "to" (C.toBase58 recipientWalletAddr),
                .logEntry "amount" (toString amount),
                .writeAccountData senderCoinAddr
                  (some (Borsh.serialize { senderCoin with balance := balance }))] ++
              collectDust senderCoinAddr balance ++
              [credit recipientCoinAddr mintAddr recipientWalletAddr amount recipientCoin])
  | _ => .error .invalidInputAccounts

/-- `process_burn`. -/
def processBurn (env : Environment) (amount : UInt64) : ContractResult :=
  match env.accounts with
  | [(mintAddr, mintAcc), (walletAddr, walletAcc), (coinAddr, coinAcc)] =>
    if amount = 0 then .error .invalidInputParameters
    else match readCoinMint C mintAddr mintAcc env with
    | .error e => .error e
    | .ok mint =>
      match readCoinAccount C coinAddr coinAcc mintAddr walletAddr env with
      | .error e => .error e
      | .ok none => .error .accountDoesNotExist
      | .ok (some coin) =>
        if !walletAcc.signer then .error (.signatureError .missingSigners)
        else if coin.balance < amount then
          .error (.other "Not enough balance in sender's account")
        else
          let balance := saturatingSub coin.balance amount
          .ok ([.logEntry "action" "burn",
              .logEntry "wallet" (C.toBase58 walletAddr),
              .logEntry "amount" (toString amount),
              .logEntry "coin" (C.toBase58 mintAddr),
              .writeAccountData mintAddr
                (some (Borsh.serialize { mint with supply := saturatingSub mint.supply amount })),
              .writeAccountData coinAddr
                (some (Borsh.serialize { coin with balance := balance }))] ++
            collectDust coinAddr balance)
  | _ => .error .invalidInputAccounts

/-- `process_set_authority`. -/
def processSetAuthority (env : Environment) (authority : Option Pubkey) : ContractResult :=
  match env.accounts with
  | [(mintAddr, mintAcc), (currentAuthAddr, currentAuthAcc)] =>
    match readCoinMint C mintAddr mintAcc env with
    | .error e => .error e
    | .ok mint =>
      match mint.authority with
      | none => .error (.other "Authority has been removed for this coin")
      | some existingAuthority =>
        if existingAuthority ≠ currentAuthAddr then
          .error (.other "account not authorized to change mint authority")
        else if !currentAuthAcc.signer then .error (.signatureError .missingSigners)
        else
          .ok [.logEntry "action" "set-authority",
            .logEntry "coin.address" (C.toBase58 mintAddr),
            .logEntry "coin.name" (unwrapOrDefault mint.name),
            .logEntry "coin.symbol" (unwrapOrDefault mint.symbol),
            .logEntry "to" ((authority.map C.toBase58).getD ""),
            .writeAccountData mintAddr
              (some (Borsh.serialize { mint with authority := authority }))]
  | _ => .error .invalidInputAccounts

/-- The entry point. Bytes after the instruction are ignored. -/
def contract : Entrypoint := fun env params =>
  match (Borsh.deserialize params : Option (Instruction × Bytes)) with
  | none => .error .invalidInputParameters
  | some (.create seed authority decimals name symbol, _) =>
    processCreate C env seed authority decimals name symbol
  | some (.mint amount, _) => processMint C env amount
  | some (.transfer amount, _) => processTransfer C env amount
  | some (.burn amount, _) => processBurn C env amount
  | some (.setAuthority authority, _) => processSetAuthority C env authority

end Currency

end Rensa
