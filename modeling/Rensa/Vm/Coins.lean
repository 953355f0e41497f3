import Rensa.Vm.Accepted
import Rensa.Vm.Kinds
/-!
# Calls that are in order

What the contract returns where the accounts of a call are as it wrote them,
the amount is there and the keys have signed, and that the machine accepts it:
such a call is executed, and its diff sets the accounts it should
(`executes_mint`, `executes_transfer`, `executes_burn`).
-/

namespace Rensa

namespace Currency

open Borsh (FixedBytes Text)
open Machine (Accepts record entries)

/-! ## Accounts the contract wrote -/

/-- An account that the contract wrote. -/
def Has (a : Option Account) (data : Bytes) : Prop :=
  ∃ acc, a = some acc ∧ acc.executable = false ∧ acc.owner = some address ∧ acc.data = some data

/-- A coin account that is there, or none. -/
def Holds (a : Option Account) : Option CoinAccount → Prop
  | none => a = none
  | some coin => Has a (Borsh.serialize coin)

/-- **The account of a wallet has that many coins of a mint**, or is not there
for none. -/
def Coins (a : Option Account) (m w : Pubkey) (n : ℕ) : Prop :=
  ∃ coin, Holds a coin ∧ (∀ c ∈ coin, c.mint = m ∧ c.owner = w) ∧
    (coin.map fun c => c.balance.toNat).getD 0 = n

variable {a : Option Account} {data : Bytes} {m w : Pubkey} {n : ℕ}

theorem Has.mintOf {mint : Mint} (h : Has a (Borsh.serialize mint)) : mintOf a = some mint := by
  obtain ⟨acc, rfl, -, howner, hdata⟩ := h
  rw [Currency.mintOf, if_pos howner, hdata, Option.bind_some, Borsh.tryFromSlice_serialize]

theorem Coins.of_none (m w : Pubkey) : Coins none m w 0 := ⟨none, rfl, nofun, rfl⟩

theorem Coins.of_has {balance : UInt64}
    (h : Has a (Borsh.serialize ({ mint := m, owner := w, balance } : CoinAccount))) :
    Coins a m w balance.toNat :=
  ⟨some _, h, fun c hc => by obtain rfl := Option.mem_some_iff.1 hc; exact ⟨rfl, rfl⟩, rfl⟩

section Read

variable {H : Type} {vm : Machine H} {st : State} {k : Pubkey} {env : Environment}

/-- What the machine lets the contract write. -/
theorem writable_view {signer : Bool} (hoff : vm.crypto.hasPrivateKey k = false)
    (h : st k = none ∨ ∃ data, Has (st k) data) :
    (vm.createAccountView st address ⟨k, true, signer⟩).2.writable = true := by
  unfold Machine.createAccountView Machine.grantsWrite
  dsimp only
  rw [if_neg (by simp [hoff]), Bool.true_and]
  rcases h with h | ⟨data, acc, hacc, hexec, howner, -⟩
  · rw [h]
  · rw [hacc]
    simp [hexec, howner]

theorem Holds.has_or_none {coin : Option CoinAccount} (h : Holds a coin) :
    a = none ∨ ∃ data, Has a data := by
  cases coin with
  | none => exact .inl h
  | some coin => exact .inr ⟨_, h⟩

/-- **A coin account is read** as what it is. -/
theorem readCoinAccount_of_holds {writable signer : Bool} {coin : Option CoinAccount}
    (henv : env.address = address)
    (h : Holds (st (coinAddress vm.crypto m w)) coin)
    (hcoin : ∀ c ∈ coin, c.mint = m ∧ c.owner = w) :
    readCoinAccount vm.crypto (coinAddress vm.crypto m w)
      (vm.createAccountView st address ⟨coinAddress vm.crypto m w, writable, signer⟩).2 m w env =
        .ok coin := by
  unfold readCoinAccount
  rw [if_neg (by simp [henv, coinAddress])]
  cases coin with
  | none =>
    have hnone : st (coinAddress vm.crypto m w) = none := h
    simp [Machine.createAccountView, hnone]
  | some c =>
    obtain ⟨acc, hacc, -, howner, hdata⟩ := h
    obtain ⟨hmint, hwallet⟩ := hcoin c rfl
    simp [Machine.createAccountView, hacc, howner, hdata, henv, hmint, hwallet]

end Read

/-! ## What the contract returns -/

section Returns

variable {H : Type} {vm : Machine H} {st : State} {env : Environment} {sender recipient : Pubkey}
variable {mint : Mint} {amount : UInt64}

/-- The accounts of a transfer. -/
def transferRefs (C : Crypto H) (m sender recipient : Pubkey) : List AccountRef :=
  [⟨m, false, false⟩, ⟨sender, false, true⟩, ⟨coinAddress C m sender, true, false⟩,
    ⟨recipient, false, false⟩, ⟨coinAddress C m recipient, true, false⟩]

/-- The accounts of a burn. -/
def burnRefs (C : Crypto H) (m wallet : Pubkey) : List AccountRef :=
  [⟨m, true, false⟩, ⟨wallet, false, true⟩, ⟨coinAddress C m wallet, true, false⟩]

/-- The accounts of an issue of coins. -/
def mintRefs (C : Crypto H) (m authority recipient : Pubkey) : List AccountRef :=
  [⟨m, true, false⟩, ⟨authority, false, true⟩, ⟨recipient, false, false⟩,
    ⟨coinAddress C m recipient, true, false⟩]

variable (vm st) in
/-- The environment of a call of the contract. -/
def envOf (refs : List AccountRef) : Environment := vm.createEnvironment st refs address none

theorem readCoinMint_of_has {writable : Bool} {refs : List AccountRef}
    (hoff : vm.crypto.hasPrivateKey m = false) (h : Has (st m) (Borsh.serialize mint)) :
    readCoinMint vm.crypto m (vm.createAccountView st address ⟨m, writable, false⟩).2
      (envOf vm st refs) = .ok mint :=
  (readCoinMint_view (r := ⟨m, writable, false⟩) rfl hoff).2 h.mintOf

variable {C : Crypto H} {coin : CoinAccount} {credited : Option CoinAccount}
variable {mintAcc wallet coinAcc recipientWallet recipientAcc authority : Pubkey × AccountView}

/-- The log entries of a transfer. -/
def transferLogs (C : Crypto H) (m sender recipient : Pubkey) (amount : UInt64) : List Output :=
  [.logEntry "action" "transfer", .logEntry "from" (C.toBase58 sender),
    .logEntry "coin" (C.toBase58 m), .logEntry "to" (C.toBase58 recipient),
    .logEntry "amount" (toString amount)]

/-- The log entries of new coins. -/
def mintLogs (C : Crypto H) (recipient : Pubkey) (amount : UInt64) : List Output :=
  [.logEntry "action" "mint", .logEntry "to" (C.toBase58 recipient),
    .logEntry "amount" (toString amount)]

/-- The log entries of a burn. -/
def burnLogs (C : Crypto H) (m wallet : Pubkey) (amount : UInt64) : List Output :=
  [.logEntry "action" "burn", .logEntry "wallet" (C.toBase58 wallet),
    .logEntry "amount" (toString amount), .logEntry "coin" (C.toBase58 m)]

/-- The log entries of a new mint. -/
def createLogs (C : Crypto H) (m : Pubkey) (name symbol : Option Text) (decimals : UInt8) :
    List Output :=
  [.logEntry "action" "create", .logEntry "address" (C.toBase58 m),
    .logEntry "name" (unwrapOrDefault name), .logEntry "symbol" (unwrapOrDefault symbol),
    .logEntry "decimals" (toString decimals)]

/-- **A transfer whose accounts are read.** -/
theorem processTransfer_of
    (haccounts : env.accounts = [mintAcc, wallet, coinAcc, recipientWallet, recipientAcc])
    (hmint : readCoinMint C mintAcc.1 mintAcc.2 env = .ok mint)
    (hcoin : readCoinAccount C coinAcc.1 coinAcc.2 mintAcc.1 wallet.1 env = .ok (some coin))
    (hcredited : readCoinAccount C recipientAcc.1 recipientAcc.2 mintAcc.1 recipientWallet.1 env =
      .ok credited)
    (hsigner : wallet.2.signer = true) (hpos : amount ≠ 0) (hle : amount ≤ coin.balance) :
    processTransfer C env amount =
      .ok (transferLogs C mintAcc.1 wallet.1 recipientWallet.1 amount ++
          [.writeAccountData coinAcc.1 (some (Borsh.serialize
            { coin with balance := saturatingSub coin.balance amount }))] ++
        collectDust coinAcc.1 (saturatingSub coin.balance amount) ++
        [credit recipientAcc.1 mintAcc.1 recipientWallet.1 amount credited]) := by
  unfold processTransfer
  rw [haccounts]
  simp only [if_neg hpos, hmint, hcoin, hsigner, Bool.not_true, Bool.false_eq_true, if_false,
    if_neg (UInt64.not_lt.2 hle), hcredited]
  rfl

/-- **Coins that are minted.** -/
theorem processMint_of (haccounts : env.accounts = [mintAcc, authority, wallet, coinAcc])
    (hmint : readCoinMint C mintAcc.1 mintAcc.2 env = .ok mint)
    (hauthority : mint.authority = some authority.1)
    (hcredited : readCoinAccount C coinAcc.1 coinAcc.2 mintAcc.1 wallet.1 env = .ok credited)
    (hsigner : authority.2.signer = true) (hpos : amount ≠ 0) :
    processMint C env amount =
      .ok (mintLogs C wallet.1 amount ++ [credit coinAcc.1 mintAcc.1 wallet.1 amount credited,
        .writeAccountData mintAcc.1
          (some (Borsh.serialize { mint with supply := saturatingAdd mint.supply amount }))]) := by
  unfold processMint
  rw [haccounts]
  simp only [if_neg hpos, hmint, hauthority, hsigner, Bool.not_true, Bool.false_eq_true, if_false,
    ne_eq, not_true_eq_false, hcredited]
  rfl

/-- **Coins that are burned.** -/
theorem processBurn_of (haccounts : env.accounts = [mintAcc, wallet, coinAcc])
    (hmint : readCoinMint C mintAcc.1 mintAcc.2 env = .ok mint)
    (hcoin : readCoinAccount C coinAcc.1 coinAcc.2 mintAcc.1 wallet.1 env = .ok (some coin))
    (hsigner : wallet.2.signer = true) (hpos : amount ≠ 0) (hle : amount ≤ coin.balance) :
    processBurn C env amount =
      .ok (burnLogs C mintAcc.1 wallet.1 amount ++ [.writeAccountData mintAcc.1
            (some (Borsh.serialize { mint with supply := saturatingSub mint.supply amount })),
          .writeAccountData coinAcc.1 (some (Borsh.serialize
            { coin with balance := saturatingSub coin.balance amount }))] ++
        collectDust coinAcc.1 (saturatingSub coin.balance amount)) := by
  unfold processBurn
  rw [haccounts]
  simp only [if_neg hpos, hmint, hcoin, hsigner, Bool.not_true, Bool.false_eq_true, if_false,
    if_neg (UInt64.not_lt.2 hle)]
  rfl

/-- **A mint that is created.** -/
theorem processCreate_of {seed : FixedBytes 32} {decimals : UInt8} {name symbol : Option Text}
    {authority m : Pubkey} {value : AccountView} (haccounts : env.accounts = [(m, value)])
    (hseed : env.address.derive C [seed.1] = m) (hdata : value.data = none)
    (howner : value.owner = none) (hsymbol : textFits 10 symbol = true)
    (hname : textFits 64 name = true) (hdecimals : decimals ≤ 20) :
    processCreate C env seed authority decimals name symbol =
      .ok (.createOwnedAccount m (some (Borsh.serialize
          ({ authority := some authority, supply := 0, decimals, name, symbol } : Mint))) ::
        createLogs C m name symbol decimals) := by
  unfold processCreate
  rw [haccounts]
  simp only [hseed, hdata, howner, hsymbol, hname, if_neg (UInt8.not_lt.2 hdecimals), ne_eq,
    not_true_eq_false, if_false, Option.isSome_none, Bool.or_self, Bool.false_eq_true,
    Bool.not_true]
  rfl

/-! ### What is refused -/

/-- **A transfer is refused** without an amount, or without the coins. -/
theorem transfer_refused {coin : Option CoinAccount}
    (hholds : Holds (st (coinAddress vm.crypto m sender)) coin)
    (hcoin : ∀ c ∈ coin, c.mint = m ∧ c.owner = sender)
    (hnot : ¬ (0 < amount.toNat ∧
      amount.toNat ≤ (coin.map fun c => c.balance.toNat).getD 0)) :
    ∃ e, processTransfer vm.crypto (envOf vm st (transferRefs vm.crypto m sender recipient))
      amount = .error e := by
  cases hres : processTransfer vm.crypto
      (envOf vm st (transferRefs vm.crypto m sender recipient)) amount with
  | error e => exact ⟨e, rfl⟩
  | ok os =>
    obtain ⟨_, _, _, _, _, c, _, _, haccounts, hpos, hread, -, hle, -⟩ := processTransfer_ok hres
    simp only [envOf, Machine.createEnvironment, transferRefs, List.map_cons, List.map_nil,
      List.cons.injEq] at haccounts
    obtain ⟨rfl, rfl, rfl, -⟩ := haccounts
    have heq := hread.symm.trans (readCoinAccount_of_holds rfl hholds hcoin)
    obtain rfl := Except.ok.inj heq
    refine absurd ⟨?_, UInt64.le_iff_toNat_le.1 hle⟩ hnot
    exact Nat.pos_of_ne_zero fun hzero => hpos (UInt64.toNat_inj.1 hzero)

/-- **A burn is refused** without an amount, or without the coins. -/
theorem burn_refused {coin : Option CoinAccount}
    (hholds : Holds (st (coinAddress vm.crypto m sender)) coin)
    (hcoin : ∀ c ∈ coin, c.mint = m ∧ c.owner = sender)
    (hnot : ¬ (0 < amount.toNat ∧
      amount.toNat ≤ (coin.map fun c => c.balance.toNat).getD 0)) :
    ∃ e, processBurn vm.crypto (envOf vm st (burnRefs vm.crypto m sender)) amount = .error e := by
  by_cases hpos : amount = 0
  · exact ⟨_, if_pos hpos⟩
  cases hres : processBurn vm.crypto (envOf vm st (burnRefs vm.crypto m sender)) amount with
  | error e => exact ⟨e, rfl⟩
  | ok os =>
    obtain ⟨_, _, _, _, c, haccounts, -, hread, -, hle, -⟩ := processBurn_ok hres
    simp only [envOf, Machine.createEnvironment, burnRefs, List.map_cons, List.map_nil,
      List.cons.injEq] at haccounts
    obtain ⟨rfl, rfl, rfl, -⟩ := haccounts
    have heq := hread.symm.trans (readCoinAccount_of_holds rfl hholds hcoin)
    obtain rfl := Except.ok.inj heq
    refine absurd ⟨?_, UInt64.le_iff_toNat_le.1 hle⟩ hnot
    exact Nat.pos_of_ne_zero fun hzero => hpos (UInt64.toNat_inj.1 hzero)

/-- **New coins are refused** without an amount, or to anybody but the
authority. -/
theorem mint_refused {key : Pubkey} (hoff : vm.crypto.hasPrivateKey m = false)
    (hmint : Has (st m) (Borsh.serialize mint))
    (hnot : ¬ (0 < amount.toNat ∧ mint.authority = some key)) :
    ∃ e, processMint vm.crypto (envOf vm st (mintRefs vm.crypto m key recipient)) amount =
      .error e := by
  by_cases hpos : amount = 0
  · exact ⟨_, if_pos hpos⟩
  cases hres : processMint vm.crypto (envOf vm st (mintRefs vm.crypto m key recipient)) amount with
  | error e => exact ⟨e, rfl⟩
  | ok os =>
    obtain ⟨_, _, _, _, mint', _, haccounts, hread, hauthority, -⟩ := processMint_ok hres
    simp only [envOf, Machine.createEnvironment, mintRefs, List.map_cons, List.map_nil,
      List.cons.injEq] at haccounts
    obtain ⟨rfl, rfl, -⟩ := haccounts
    have heq := hread.symm.trans (readCoinMint_of_has hoff hmint)
    obtain rfl := Except.ok.inj heq
    refine absurd ⟨?_, hauthority⟩ hnot
    exact Nat.pos_of_ne_zero fun hzero => hpos (UInt64.toNat_inj.1 hzero)

end Returns

/-! ## What the machine makes of it -/

theorem utf8ByteSize_digits {l : List Char} (h : ∀ c ∈ l, c.isDigit = true) :
    (String.ofList l).utf8ByteSize = l.length := by
  induction l with
  | nil => rfl
  | cons c l ih =>
    obtain ⟨hc, hl⟩ := List.forall_mem_cons.1 h
    have hone : c.utf8Size = 1 := by
      have hle := (Char.isDigit_iff_toNat.1 hc).2
      exact Char.utf8Size_eq_one_iff.2 (UInt32.le_iff_toNat_le.2 (hle.trans (by decide)))
    rw [String.ofList_cons, String.utf8ByteSize_append, String.utf8ByteSize_singleton, hone,
      ih hl, List.length_cons, Nat.add_comm]

theorem utf8ByteSize_repr_le {n d : ℕ} (hd : 0 < d) (h : n < 10 ^ d) :
    n.repr.utf8ByteSize ≤ d := by
  rw [Nat.repr_eq_ofList_toDigits,
    utf8ByteSize_digits fun c hc => Nat.isDigit_of_mem_toDigits (by decide) (by decide) hc]
  exact (Nat.length_toDigits_le_iff (by decide) hd).2 h

theorem utf8ByteSize_toString_le (n : UInt64) : (toString n).utf8ByteSize ≤ 80 :=
  utf8ByteSize_repr_le (by decide) (lt_trans n.toNat_lt (by norm_num))

/-- **A machine with room for the calls of the contract**, which it runs as a
builtin. -/
structure Roomy {H : Type} (vm : Machine H) : Prop where
  builtin : vm.builtin address = some (contract vm.crypto)
  maxInputAccounts : 5 ≤ vm.limits.maxInputAccounts
  maxLogsCount : 5 ≤ vm.limits.maxLogsCount
  maxLogSize : 128 ≤ vm.limits.maxLogSize
  maxAccountSize : 128 ≤ vm.limits.maxAccountSize
  maxTransactionParamsSize : 256 ≤ vm.limits.maxTransactionParamsSize
  text : ∀ k, (vm.crypto.toBase58 k).utf8ByteSize ≤ 80

section Unit

variable {H : Type} {vm : Machine H} {st : State} {refs : List AccountRef} {u : ExecutionUnit}
variable {k : Pubkey} {signer : Bool} {amount : UInt64} {coin : Option CoinAccount}

/-- The unit of a call of the contract. -/
structure CallOf (vm : Machine H) (st : State) (refs : List AccountRef) (u : ExecutionUnit) :
    Prop where
  state : u.state = st
  contract : u.contract = address
  env : u.env = envOf vm st refs

namespace CallOf

theorem find (h : CallOf vm st refs u)
    (hfind : refs.find? (fun r => r.address == k) = some ⟨k, true, signer⟩) :
    u.env.accounts.find? (fun p => p.1 == k) =
      some (k, (vm.createAccountView st address ⟨k, true, signer⟩).2) := by
  rw [h.env]
  change (refs.map (vm.createAccountView st address)).find? _ = _
  rw [List.find?_map]
  change (refs.find? fun r => r.address == k).map _ = _
  rw [hfind]
  rfl

theorem grants (h : CallOf vm st refs u) (hoff : vm.crypto.hasPrivateKey k = false)
    (hfind : refs.find? (fun r => r.address == k) = some ⟨k, true, signer⟩)
    (hst : st k = none ∨ ∃ data, Has (st k) data) : u.Grants k :=
  ⟨_, h.find hfind, writable_view hoff hst⟩

/-- **New data in an account of the contract.** -/
theorem write (h : CallOf vm st refs u) (hgrants : u.Grants k) {old : Bytes} (data : Bytes)
    (hold : Has (st k) old) (hsize : data.length ≤ vm.limits.maxAccountSize) :
    Accepts vm u (.writeAccountData k (some data)) ∧ ∃ acc, Has (some acc) data ∧
      ∀ d, record u d (.writeAccountData k (some data)) = d.set k acc := by
  obtain ⟨acc, hacc, hexec, howner, -⟩ := hold
  rw [← h.state] at hacc
  refine ⟨⟨by simpa [Machine.fits] using hsize, by rw [hacc]; rfl, hgrants⟩,
    { acc with data := some data }, ⟨_, rfl, hexec, howner, rfl⟩, fun d => ?_⟩
  rw [record, hacc]
  rfl

/-- **A new account of the contract.** -/
theorem create (h : CallOf vm st refs u) (hgrants : u.Grants k) (data : Bytes)
    (hnone : st k = none) (hsize : data.length ≤ vm.limits.maxAccountSize) :
    Accepts vm u (.createOwnedAccount k (some data)) ∧ ∃ acc, Has (some acc) data ∧
      ∀ d, record u d (.createOwnedAccount k (some data)) = d.set k acc := by
  rw [← h.state] at hnone
  refine ⟨⟨by simpa [Machine.fits] using hsize, hnone, hgrants⟩,
    { nonce := 0, owner := some u.contract, data := some data },
    ⟨_, rfl, rfl, by rw [h.contract], rfl⟩, fun d => rfl⟩

end CallOf

theorem length_coin (coin : CoinAccount) : (Borsh.serialize coin : Bytes).length = 72 := by
  rw [serialize_coin]
  simp

namespace CallOf

/-- **Coins for a wallet.** -/
theorem credit (h : CallOf vm st refs u) (hroom : Roomy vm) (hgrants : u.Grants k)
    (hholds : Holds (st k) coin) (hcoin : ∀ c ∈ coin, c.mint = m ∧ c.owner = w)
    (hfits : (coin.map fun c => c.balance.toNat).getD 0 + amount.toNat < 2 ^ 64) :
    Accepts vm u (Currency.credit k m w amount coin) ∧
      ∃ acc, Coins (some acc) m w
          ((coin.map fun c => c.balance.toNat).getD 0 + amount.toNat) ∧
        ∀ d, record u d (Currency.credit k m w amount coin) = d.set k acc := by
  have hroom := hroom.maxAccountSize
  cases coin with
  | none =>
    obtain ⟨haccepts, acc, hacc, hrecord⟩ := h.create hgrants
      (Borsh.serialize ({ mint := m, owner := w, balance := amount } : CoinAccount)) hholds
      (by rw [length_coin]; omega)
    refine ⟨haccepts, acc, ?_, hrecord⟩
    have hcoins := Coins.of_has hacc
    simpa using hcoins
  | some c =>
    obtain ⟨hmint, howner⟩ := hcoin c rfl
    obtain ⟨haccepts, acc, hacc, hrecord⟩ := h.write hgrants
      (Borsh.serialize { c with balance := saturatingAdd c.balance amount }) hholds
      (by rw [length_coin]; omega)
    refine ⟨haccepts, acc, ?_, hrecord⟩
    have hsame : ({ c with balance := saturatingAdd c.balance amount } : CoinAccount) =
        { mint := m, owner := w, balance := saturatingAdd c.balance amount } := by
      rw [← hmint, ← howner]
    rw [hsame] at hacc
    have hcoins := Coins.of_has hacc
    rw [toNat_saturatingAdd] at hcoins
    simp only [Option.map_some, Option.getD_some] at hfits ⊢
    rwa [Nat.min_eq_left (by omega)] at hcoins

/-- **Coins of a wallet.** -/
theorem debit (h : CallOf vm st refs u) (hroom : Roomy vm) (hgrants : u.Grants k)
    {c : CoinAccount} (hholds : Holds (st k) (some c)) (hcoin : c.mint = m ∧ c.owner = w)
    (hle : amount ≤ c.balance) :
    Accepts vm u (.writeAccountData k (some (Borsh.serialize
        { c with balance := saturatingSub c.balance amount }))) ∧
      ∃ acc, Coins (some acc) m w (c.balance.toNat - amount.toNat) ∧
        ∀ d, record u d (.writeAccountData k (some (Borsh.serialize
          { c with balance := saturatingSub c.balance amount }))) = d.set k acc := by
  have hroom := hroom.maxAccountSize
  obtain ⟨haccepts, acc, hacc, hrecord⟩ := h.write hgrants
    (Borsh.serialize { c with balance := saturatingSub c.balance amount }) hholds
    (by rw [length_coin]; omega)
  refine ⟨haccepts, acc, ?_, hrecord⟩
  have hsame : ({ c with balance := saturatingSub c.balance amount } : CoinAccount) =
      { mint := m, owner := w, balance := saturatingSub c.balance amount } := by
    rw [← hcoin.1, ← hcoin.2]
  rw [hsame] at hacc
  have hcoins := Coins.of_has hacc
  rwa [toNat_saturatingSub hle] at hcoins

/-- **The account of a wallet that has no coins left** may be deleted. -/
theorem dust (h : CallOf vm st refs u) (hoff : vm.crypto.hasPrivateKey k = false)
    (hfind : refs.find? (fun r => r.address == k) = some ⟨k, true, signer⟩) {data : Bytes}
    (hhas : Has (st k) data) (balance : UInt64) :
    (∀ o ∈ collectDust k balance, Accepts vm u o) ∧
      ∀ d, (collectDust k balance).foldl (record u) d = if balance = 0 then d.remove k else d := by
  obtain ⟨acc, hacc, -, howner, -⟩ := id hhas
  unfold collectDust
  refine ⟨fun o ho => ?_, fun d => ?_⟩
  · split at ho
    · obtain rfl := List.mem_singleton.1 ho
      refine ⟨_, h.find hfind, ?_, writable_view hoff (.inr ⟨data, hhas⟩)⟩
      simp only [Machine.createAccountView, hacc, Option.bind_some, howner, h.env]
      rfl
    · cases ho
  · split <;> rfl

end CallOf

/-- The length of a mint, whatever its supply. -/
theorem length_mint (mint : Mint) : (Borsh.serialize mint : Bytes).length =
    (Borsh.serialize mint.authority : Bytes).length +
      (9 + (Borsh.serialize (mint.name, mint.symbol) : Bytes).length) := by
  rw [serialize_mint]
  simp only [List.length_append, length_leBytes, List.length_singleton]
  omega

/-- Log entries of a call, and no more of them than there is room for. -/
structure Logs (logs : List Output) : Prop where
  entry : ∀ o ∈ logs, ∃ key value, o = .logEntry key value ∧ key.utf8ByteSize ≤ 8 ∧
    value.utf8ByteSize ≤ 80
  count : logs.length ≤ 5

namespace Logs

variable {logs : List Output}

theorem accepts (hlogs : Logs logs) (hroom : Roomy vm) : ∀ o ∈ logs, Accepts vm u o := by
  intro o ho
  obtain ⟨key, value, rfl, hkey, hvalue⟩ := hlogs.entry o ho
  have := hroom.maxLogSize
  change key.utf8ByteSize + value.utf8ByteSize ≤ vm.limits.maxLogSize
  omega

theorem foldl_record (hlogs : Logs logs) (d : StateDiff) : logs.foldl (record u) d = d := by
  refine List.foldlRecOn logs (motive := fun d' => d' = d) _ rfl fun d' hd o ho => ?_
  obtain ⟨key, value, rfl, -, -⟩ := hlogs.entry o ho
  exact hd

theorem length_entries (hlogs : Logs logs) : (logs.flatMap entries).length ≤ 5 := by
  refine le_trans ?_ hlogs.count
  rw [List.length_flatMap]
  refine (List.sum_le_card_nsmul _ 1 fun n hn => ?_).trans (by simp)
  obtain ⟨o, ho, rfl⟩ := List.mem_map.1 hn
  obtain ⟨key, value, rfl, -, -⟩ := hlogs.entry o ho
  exact le_rfl

end Logs

theorem logs_transfer (hroom : Roomy vm) (m sender recipient : Pubkey) (amount : UInt64) :
    Logs (transferLogs vm.crypto m sender recipient amount) := by
  refine ⟨?_, le_rfl⟩
  simp only [transferLogs, List.forall_mem_cons]
  exact ⟨⟨_, _, rfl, by decide, by decide⟩, ⟨_, _, rfl, by decide, hroom.text _⟩,
    ⟨_, _, rfl, by decide, hroom.text _⟩, ⟨_, _, rfl, by decide, hroom.text _⟩,
    ⟨_, _, rfl, by decide, utf8ByteSize_toString_le _⟩, nofun⟩

theorem logs_mint (hroom : Roomy vm) (recipient : Pubkey) (amount : UInt64) :
    Logs (mintLogs vm.crypto recipient amount) := by
  refine ⟨?_, Nat.le_add_right 3 2⟩
  simp only [mintLogs, List.forall_mem_cons]
  exact ⟨⟨_, _, rfl, by decide, by decide⟩, ⟨_, _, rfl, by decide, hroom.text _⟩,
    ⟨_, _, rfl, by decide, utf8ByteSize_toString_le _⟩, nofun⟩

theorem logs_burn (hroom : Roomy vm) (m wallet : Pubkey) (amount : UInt64) :
    Logs (burnLogs vm.crypto m wallet amount) := by
  refine ⟨?_, Nat.le_add_right 4 1⟩
  simp only [burnLogs, List.forall_mem_cons]
  exact ⟨⟨_, _, rfl, by decide, by decide⟩, ⟨_, _, rfl, by decide, hroom.text _⟩,
    ⟨_, _, rfl, by decide, utf8ByteSize_toString_le _⟩,
    ⟨_, _, rfl, by decide, hroom.text _⟩, nofun⟩

theorem unwrapOrDefault_le {limit : ℕ} {s : Option Text} (h : textFits limit s = true) :
    (unwrapOrDefault s).utf8ByteSize ≤ limit := by
  cases s with
  | none => exact Nat.zero_le _
  | some s => exact of_decide_eq_true (Bool.and_eq_true_iff.1 h).2

theorem logs_create (hroom : Roomy vm) (m : Pubkey) {name symbol : Option Text}
    (hname : textFits 64 name = true) (hsymbol : textFits 10 symbol = true) (decimals : UInt8) :
    Logs (createLogs vm.crypto m name symbol decimals) := by
  have hdecimals : (toString decimals).utf8ByteSize ≤ 80 :=
    utf8ByteSize_repr_le (by decide) (lt_trans decimals.toNat_lt (by norm_num))
  refine ⟨?_, le_rfl⟩
  simp only [createLogs, List.forall_mem_cons]
  exact ⟨⟨_, _, rfl, by decide, by decide⟩, ⟨_, _, rfl, by decide, hroom.text _⟩,
    ⟨_, _, rfl, by decide, (unwrapOrDefault_le hname).trans (by norm_num)⟩,
    ⟨_, _, rfl, by decide, (unwrapOrDefault_le hsymbol).trans (by norm_num)⟩,
    ⟨_, _, rfl, by decide, hdecimals⟩, nofun⟩

@[simp] theorem entries_writeAccountData (k : Pubkey) (data : Option Bytes) :
    entries (.writeAccountData k data) = [] := rfl

@[simp] theorem entries_credit (k m w : Pubkey) (amount : UInt64) (coin : Option CoinAccount) :
    entries (credit k m w amount coin) = [] := by
  cases coin <;> rfl

@[simp] theorem entries_collectDust (k : Pubkey) (balance : UInt64) :
    (collectDust k balance).flatMap entries = [] := by
  unfold collectDust
  split <;> rfl

/-- **The derived addresses do not collide**: the coin accounts of some
wallets are apart from each other, from the wallets and from the mint. -/
structure Apart (C : Crypto H) (m : Pubkey) (S : Finset Pubkey) : Prop where
  mint : C.hasPrivateKey m = false
  coin_ne_mint : ∀ w ∈ S, coinAddress C m w ≠ m
  coin_ne_wallet : ∀ w ∈ S, ∀ w' ∈ S, coinAddress C m w ≠ w'
  coin_inj : ∀ w ∈ S, ∀ w' ∈ S, coinAddress C m w = coinAddress C m w' → w = w'

variable {S : Finset Pubkey} {sender recipient : Pubkey} {c : CoinAccount}
variable {credited : Option CoinAccount} (invoke : ExecutionUnit → Run TransactionOutput)

@[simp] theorem hasPrivateKey_coinAddress (C : Crypto H) (m w : Pubkey) :
    C.hasPrivateKey (coinAddress C m w) = false :=
  Pubkey.hasPrivateKey_derive _ _ _

/-- **A transfer is executed**, and sets the two coin accounts. -/
theorem CallOf.transfer (h : CallOf vm st (transferRefs vm.crypto m sender recipient) u)
    (hroom : Roomy vm) (hapart : Apart vm.crypto m S) (hs : sender ∈ S) (hr : recipient ∈ S)
    (hne : sender ≠ recipient)
    (hsender : Holds (st (coinAddress vm.crypto m sender)) (some c))
    (hcoin : c.mint = m ∧ c.owner = sender)
    (hrecipient : Holds (st (coinAddress vm.crypto m recipient)) credited)
    (hcredited : ∀ c ∈ credited, c.mint = m ∧ c.owner = recipient) (hle : amount ≤ c.balance)
    (hfits : (credited.map fun c => c.balance.toNat).getD 0 + amount.toNat < 2 ^ 64)
    {logs : List Output} (hlogs : Logs logs) :
    ∃ out accS accR, vm.processOutputs u invoke {}
        (logs ++ [.writeAccountData (coinAddress vm.crypto m sender) (some (Borsh.serialize
          { c with balance := saturatingSub c.balance amount }))] ++
        collectDust (coinAddress vm.crypto m sender) (saturatingSub c.balance amount) ++
        [Currency.credit (coinAddress vm.crypto m recipient) m recipient amount credited]) =
          some (.ok out) ∧
      Coins (some accS) m sender (c.balance.toNat - amount.toNat) ∧
      Coins (some accR) m recipient
        ((credited.map fun c => c.balance.toNat).getD 0 + amount.toNat) ∧
      (∀ k, out.stateDiff.get k = if coinAddress vm.crypto m recipient = k then some accR
        else if coinAddress vm.crypto m sender = k then some accS else none) ∧
      ∀ k ∈ out.stateDiff.deletes, k = coinAddress vm.crypto m sender ∧
        c.balance.toNat - amount.toNat = 0 := by
  have hcs := hapart.coin_ne_mint sender hs
  have hcr := hapart.coin_ne_mint recipient hr
  have hcc : coinAddress vm.crypto m sender ≠ coinAddress vm.crypto m recipient :=
    fun heq => hne (hapart.coin_inj _ hs _ hr heq)
  have hfindS : (transferRefs vm.crypto m sender recipient).find?
      (fun r => r.address == coinAddress vm.crypto m sender) =
        some ⟨coinAddress vm.crypto m sender, true, false⟩ := by
    simp [transferRefs, hcs.symm, (hapart.coin_ne_wallet _ hs _ hs).symm]
  have hfindR : (transferRefs vm.crypto m sender recipient).find?
      (fun r => r.address == coinAddress vm.crypto m recipient) =
        some ⟨coinAddress vm.crypto m recipient, true, false⟩ := by
    simp [transferRefs, hcr.symm, (hapart.coin_ne_wallet _ hr _ hs).symm, hcc,
      (hapart.coin_ne_wallet _ hr _ hr).symm]
  obtain ⟨haccS, accS, hcoinS, hrecordS⟩ := h.debit hroom
    (h.grants (hasPrivateKey_coinAddress _ _ _) hfindS hsender.has_or_none) hsender hcoin hle
  obtain ⟨haccR, accR, hcoinR, hrecordR⟩ := h.credit hroom
    (h.grants (hasPrivateKey_coinAddress _ _ _) hfindR hrecipient.has_or_none) hrecipient
    hcredited hfits
  obtain ⟨haccD, hrecordD⟩ := h.dust (hasPrivateKey_coinAddress _ _ _) hfindS hsender
    (saturatingSub c.balance amount)
  have haccepts : ∀ o ∈ logs, Accepts vm u o := hlogs.accepts hroom
  refine ⟨_, accS, accR, Machine.processOutputs_accepts ?_ ?_, hcoinS, hcoinR, ?_, ?_⟩
  · simp only [List.forall_mem_append, List.forall_mem_singleton]
    exact ⟨⟨⟨haccepts, haccS⟩, haccD⟩, haccR⟩
  · refine le_trans ?_ hroom.maxLogsCount
    simp only [List.flatMap_append, List.flatMap_singleton, entries_writeAccountData,
      entries_collectDust, entries_credit, List.append_nil]
    exact hlogs.length_entries
  all_goals
    simp only [List.foldl_append, List.foldl_cons, List.foldl_nil, hlogs.foldl_record, hrecordS,
      hrecordD, hrecordR]
  · intro k
    rw [StateDiff.get_set]
    split
    · rfl
    · split <;> simp [StateDiff.get_set]
  · intro k hk
    have hk := (StateDiff.mem_deletes_set.1 hk).2
    split at hk
    · rename_i hzero
      rw [← toNat_saturatingSub hle, hzero]
      rcases StateDiff.mem_deletes_remove.1 hk with rfl | hk
      · exact ⟨rfl, rfl⟩
      · exact absurd (StateDiff.mem_deletes_set.1 hk).2 StateDiff.not_mem_deletes_empty
    · exact absurd (StateDiff.mem_deletes_set.1 hk).2 StateDiff.not_mem_deletes_empty

/-- **A mint of coins is executed**, and sets the coin account and the mint. -/
theorem CallOf.mint {authority : Pubkey} {mint : Mint}
    (h : CallOf vm st (mintRefs vm.crypto m authority recipient) u)
    (hroom : Roomy vm) (hapart : Apart vm.crypto m S) (hr : recipient ∈ S)
    (hauthority : vm.crypto.hasPrivateKey authority = true)
    (hmint : Has (st m) (Borsh.serialize mint))
    (hsize : (Borsh.serialize mint : Bytes).length ≤ vm.limits.maxAccountSize)
    (hrecipient : Holds (st (coinAddress vm.crypto m recipient)) credited)
    (hcredited : ∀ c ∈ credited, c.mint = m ∧ c.owner = recipient)
    (hfits : (credited.map fun c => c.balance.toNat).getD 0 + amount.toNat < 2 ^ 64)
    {logs : List Output} (hlogs : Logs logs) :
    ∃ out accM accR, vm.processOutputs u invoke {}
        (logs ++ [Currency.credit (coinAddress vm.crypto m recipient) m recipient amount credited,
          .writeAccountData m
            (some (Borsh.serialize { mint with supply := saturatingAdd mint.supply amount }))]) =
          some (.ok out) ∧
      Has (some accM) (Borsh.serialize { mint with supply := saturatingAdd mint.supply amount }) ∧
      Coins (some accR) m recipient
        ((credited.map fun c => c.balance.toNat).getD 0 + amount.toNat) ∧
      (∀ k, out.stateDiff.get k = if m = k then some accM
        else if coinAddress vm.crypto m recipient = k then some accR else none) ∧
      ∀ k, k ∉ out.stateDiff.deletes := by
  have hcr := hapart.coin_ne_mint recipient hr
  have hauth : authority ≠ coinAddress vm.crypto m recipient := by
    rintro rfl
    simp at hauthority
  have hfindR : (mintRefs vm.crypto m authority recipient).find?
      (fun r => r.address == coinAddress vm.crypto m recipient) =
        some ⟨coinAddress vm.crypto m recipient, true, false⟩ := by
    simp [mintRefs, hcr.symm, hauth, (hapart.coin_ne_wallet _ hr _ hr).symm]
  have hfindM : (mintRefs vm.crypto m authority recipient).find? (fun r => r.address == m) =
      some ⟨m, true, false⟩ := by
    simp [mintRefs]
  obtain ⟨haccR, accR, hcoinR, hrecordR⟩ := h.credit hroom
    (h.grants (hasPrivateKey_coinAddress _ _ _) hfindR hrecipient.has_or_none) hrecipient
    hcredited hfits
  obtain ⟨haccM, accM, hhasM, hrecordM⟩ := h.write
    (h.grants hapart.mint hfindM (.inr ⟨_, hmint⟩))
    (Borsh.serialize { mint with supply := saturatingAdd mint.supply amount }) hmint
    (by rwa [length_mint] at hsize ⊢)
  refine ⟨_, accM, accR, Machine.processOutputs_accepts ?_ ?_, hhasM, hcoinR, ?_, ?_⟩
  · simp only [List.forall_mem_append, List.forall_mem_cons, List.not_mem_nil, false_imp_iff,
      implies_true, and_true]
    exact ⟨hlogs.accepts hroom, haccR, haccM⟩
  · refine le_trans ?_ hroom.maxLogsCount
    simp only [List.flatMap_append, List.flatMap_cons, List.flatMap_nil, entries_writeAccountData,
      entries_credit, List.append_nil]
    exact hlogs.length_entries
  all_goals
    simp only [List.foldl_append, List.foldl_cons, List.foldl_nil, hlogs.foldl_record, hrecordR,
      hrecordM]
  · intro k
    rw [StateDiff.get_set, StateDiff.get_set, StateDiff.get_empty]
  · intro k hk
    exact StateDiff.not_mem_deletes_empty
      (StateDiff.mem_deletes_set.1 (StateDiff.mem_deletes_set.1 hk).2).2

/-- **A burn is executed**, and sets the mint and the coin account. -/
theorem CallOf.burn {wallet : Pubkey} {mint : Mint}
    (h : CallOf vm st (burnRefs vm.crypto m wallet) u)
    (hroom : Roomy vm) (hapart : Apart vm.crypto m S) (hw : wallet ∈ S)
    (hmint : Has (st m) (Borsh.serialize mint))
    (hsize : (Borsh.serialize mint : Bytes).length ≤ vm.limits.maxAccountSize)
    (hwallet : Holds (st (coinAddress vm.crypto m wallet)) (some c))
    (hcoin : c.mint = m ∧ c.owner = wallet) (hle : amount ≤ c.balance)
    {logs : List Output} (hlogs : Logs logs) :
    ∃ out accM accW, vm.processOutputs u invoke {}
        (logs ++ [.writeAccountData m
            (some (Borsh.serialize { mint with supply := saturatingSub mint.supply amount })),
          .writeAccountData (coinAddress vm.crypto m wallet) (some (Borsh.serialize
            { c with balance := saturatingSub c.balance amount }))] ++
        collectDust (coinAddress vm.crypto m wallet) (saturatingSub c.balance amount)) =
          some (.ok out) ∧
      Has (some accM) (Borsh.serialize { mint with supply := saturatingSub mint.supply amount }) ∧
      Coins (some accW) m wallet (c.balance.toNat - amount.toNat) ∧
      (∀ k, out.stateDiff.get k = if coinAddress vm.crypto m wallet = k then some accW
        else if m = k then some accM else none) ∧
      ∀ k ∈ out.stateDiff.deletes, k = coinAddress vm.crypto m wallet ∧
        c.balance.toNat - amount.toNat = 0 := by
  have hcw := hapart.coin_ne_mint wallet hw
  have hfindW : (burnRefs vm.crypto m wallet).find?
      (fun r => r.address == coinAddress vm.crypto m wallet) =
        some ⟨coinAddress vm.crypto m wallet, true, false⟩ := by
    simp [burnRefs, hcw.symm, (hapart.coin_ne_wallet _ hw _ hw).symm]
  have hfindM : (burnRefs vm.crypto m wallet).find? (fun r => r.address == m) =
      some ⟨m, true, false⟩ := by
    simp [burnRefs]
  obtain ⟨haccW, accW, hcoinW, hrecordW⟩ := h.debit hroom
    (h.grants (hasPrivateKey_coinAddress _ _ _) hfindW hwallet.has_or_none) hwallet hcoin hle
  obtain ⟨haccM, accM, hhasM, hrecordM⟩ := h.write
    (h.grants hapart.mint hfindM (.inr ⟨_, hmint⟩))
    (Borsh.serialize { mint with supply := saturatingSub mint.supply amount }) hmint
    (by rwa [length_mint] at hsize ⊢)
  obtain ⟨haccD, hrecordD⟩ := h.dust (hasPrivateKey_coinAddress _ _ _) hfindW hwallet
    (saturatingSub c.balance amount)
  refine ⟨_, accM, accW, Machine.processOutputs_accepts ?_ ?_, hhasM, hcoinW, ?_, ?_⟩
  · simp only [List.forall_mem_append, List.forall_mem_cons, List.not_mem_nil, false_imp_iff,
      implies_true, and_true]
    exact ⟨⟨hlogs.accepts hroom, haccM, haccW⟩, haccD⟩
  · refine le_trans ?_ hroom.maxLogsCount
    simp only [List.flatMap_append, List.flatMap_cons, List.flatMap_nil, entries_writeAccountData,
      entries_collectDust, List.append_nil]
    exact hlogs.length_entries
  all_goals
    simp only [List.foldl_append, List.foldl_cons, List.foldl_nil, hlogs.foldl_record, hrecordW,
      hrecordM, hrecordD]
  · intro k
    split <;> simp [StateDiff.get_set]
  · intro k hk
    have hset : k ∉
        ((({} : StateDiff).set m accM).set (coinAddress vm.crypto m wallet) accW).deletes :=
      fun hk => StateDiff.not_mem_deletes_empty
        (StateDiff.mem_deletes_set.1 (StateDiff.mem_deletes_set.1 hk).2).2
    split at hk
    · rename_i hzero
      rw [← toNat_saturatingSub hle, hzero]
      rcases StateDiff.mem_deletes_remove.1 hk with rfl | hk
      · exact ⟨rfl, rfl⟩
      · exact absurd hk hset
    · exact absurd hk hset

/-- **A mint is created**, where there is no account. -/
theorem CallOf.createMint (h : CallOf vm st [⟨m, true, false⟩] u) (hroom : Roomy vm)
    (hoff : vm.crypto.hasPrivateKey m = false) (hnone : st m = none)
    (hsize : data.length ≤ vm.limits.maxAccountSize) {logs : List Output} (hlogs : Logs logs) :
    ∃ out accM, vm.processOutputs u invoke {}
        (.createOwnedAccount m (some data) :: logs) = some (.ok out) ∧
      Has (some accM) data ∧
      (∀ k, out.stateDiff.get k = if m = k then some accM else none) ∧
      ∀ k, k ∉ out.stateDiff.deletes := by
  have hfind : [(⟨m, true, false⟩ : AccountRef)].find? (fun r => r.address == m) =
      some ⟨m, true, false⟩ := by
    simp
  obtain ⟨hacc, accM, hhas, hrecord⟩ := h.create (h.grants hoff hfind (.inl hnone)) data hnone
    hsize
  refine ⟨_, accM, Machine.processOutputs_accepts ?_ ?_, hhas, ?_, ?_⟩
  · exact List.forall_mem_cons.2 ⟨hacc, hlogs.accepts hroom⟩
  · exact hlogs.length_entries.trans hroom.maxLogsCount
  all_goals simp only [List.foldl_cons, hlogs.foldl_record, hrecord]
  · intro k
    rw [StateDiff.get_set, StateDiff.get_empty]
  · intro k hk
    exact StateDiff.not_mem_deletes_empty (StateDiff.mem_deletes_set.1 hk).2

/-- **A transaction that calls the contract**, and passes the checks. -/
theorem executeTransaction_call (hroom : Roomy vm) (tx : Transaction) (fuel : ℕ)
    (hcontract : tx.contract = address) (haccounts : tx.accounts.length ≤ 5)
    (hsignatures : tx.verifySignatures vm.crypto = .ok ())
    (hnonce : tx.nonce = nonceOf st tx.payer) :
    ∃ u, CallOf vm st tx.accounts u ∧ vm.executeTransaction (fuel + 1) tx st =
      match contract vm.crypto (envOf vm st tx.accounts) tx.params with
      | .error e => some (.error e)
      | .ok os => vm.processOutputs u (vm.execute fuel) {} os := by
  let u : ExecutionUnit :=
    { entrypoint := contract vm.crypto, state := st, contract := address, params := tx.params
      env := envOf vm st tx.accounts }
  have hu : vm.newUnit tx st = .ok u := by
    have hlen : ¬ vm.limits.maxInputAccounts < tx.accounts.length :=
      Nat.not_lt.2 (haccounts.trans hroom.maxInputAccounts)
    unfold nonceOf at hnonce
    simp only [Machine.newUnit, if_neg hlen, hsignatures, hnonce, ne_eq, not_true_eq_false,
      if_false, hcontract, Machine.entrypoint, hroom.builtin]
    rfl
  refine ⟨u, ⟨rfl, rfl, rfl⟩, ?_⟩
  simp only [Machine.executeTransaction, hu]
  rfl

end Unit

end Currency

end Rensa
