import Rensa.Vm.Unit
import Rensa.Vm.Model.Currency
/-!
# Transfers and the coins of a mint

`balanceOf` is what an account holds of a mint, and `Conserves` the rule
that a transfer moves coins and makes none. `conserves_transfer_iff` says
of every successful transfer exactly when it obeys the rule: the sender's
and the recipient's coin accounts are two accounts, and the credit does
not saturate. A transfer from a coin account to itself writes the account
twice, and the credit, computed from the balance before the debit, is
what remains.
-/

namespace Rensa

/-- The addresses are finitely many. -/
noncomputable instance : Fintype Pubkey := Fintype.ofInjective _ Pubkey.val_injective

@[simp] theorem toNat_saturatingAdd (a b : UInt64) :
    (saturatingAdd a b).toNat = min (a.toNat + b.toNat) (2 ^ 64 - 1) := by
  unfold saturatingAdd
  split
  · rename_i h
    rw [UInt64.toNat_add, Nat.mod_eq_of_lt h]
    omega
  · rename_i h
    rw [UInt64.toNat_ofNat']
    omega

theorem toNat_saturatingSub {a b : UInt64} (h : b ≤ a) :
    (saturatingSub a b).toNat = a.toNat - b.toNat := by
  rw [saturatingSub, if_pos h, UInt64.toNat_sub_of_le _ _ h]

namespace Currency

/-- The coin account an account of the ledger holds. -/
def coinOf : Option Account → Option CoinAccount
  | none => none
  | some a =>
    if a.owner = some address then a.data.bind (Borsh.tryFromSlice CoinAccount) else none

/-- What an account of the ledger holds of a mint. -/
def balanceOf (mint : Pubkey) (a : Option Account) : ℕ :=
  match coinOf a with
  | none => 0
  | some coin => if coin.mint = mint then coin.balance.toNat else 0

/-- The supply a mint account records. -/
def supplyOf : Option Account → Option UInt64
  | none => none
  | some a =>
    if a.owner = some address then (a.data.bind (Borsh.tryFromSlice Mint)).map Mint.supply
    else none

/-- **What a transfer must not change**: the coins of the mint in all its
coin accounts, its recorded supply, and the coins of everyone but the
sender, whose may only grow. -/
structure Conserves (mint senderCoin : Pubkey) (s s' : State) : Prop where
  total : ∑ k, balanceOf mint (s' k) = ∑ k, balanceOf mint (s k)
  supply : supplyOf (s' mint) = supplyOf (s mint)
  others : ∀ m k, k ≠ senderCoin → balanceOf m (s k) ≤ balanceOf m (s' k)

/-- When a transfer is exact: between two accounts, the credit fits; an
account that is its own recipient holds the largest balance already. -/
def Exact (mint senderCoin recipientCoin : Pubkey) (amount : UInt64) (s : State) : Prop :=
  if senderCoin = recipientCoin then balanceOf mint (s senderCoin) = 2 ^ 64 - 1
  else balanceOf mint (s recipientCoin) + amount.toNat < 2 ^ 64

/-! ## Sums -/

private theorem sum_update_add {ι : Type} [Fintype ι] [DecidableEq ι] (f : ι → ℕ) (k : ι) (v : ℕ) :
    ∑ i, Function.update f k v i + f k = ∑ i, f i + v := by
  have hnew := Finset.sum_update_of_mem (Finset.mem_univ k) f v
  have hold := Finset.add_sum_erase Finset.univ f (Finset.mem_univ k)
  rw [Finset.sdiff_singleton_eq_erase] at hnew
  omega

/-- A debit followed by a credit that saturates at `M`. -/
private theorem sum_transfer_iff {ι : Type} [Fintype ι] [DecidableEq ι] (f : ι → ℕ) (i j : ι)
    {amount M : ℕ} (hpos : 0 < amount) (hle : amount ≤ f i) (hM : f i ≤ M) :
    ∑ k, Function.update (Function.update f i (f i - amount)) j (min (f j + amount) M) k =
        ∑ k, f k ↔
      if i = j then f i = M else f j + amount ≤ M := by
  have h1 := sum_update_add f i (f i - amount)
  have h2 := sum_update_add (Function.update f i (f i - amount)) j (min (f j + amount) M)
  by_cases h : i = j
  · subst h
    rw [Function.update_self] at h2
    rw [if_pos rfl]
    omega
  · rw [Function.update_of_ne (Ne.symm h)] at h2
    rw [if_neg h]
    omega

/-! ## Accounts that hold coins -/

theorem balanceOf_lt (mint : Pubkey) (a : Option Account) : balanceOf mint a < 2 ^ 64 := by
  unfold balanceOf
  split
  · decide
  · split
    · exact UInt64.toNat_lt _
    · decide

@[simp] theorem balanceOf_none (mint : Pubkey) : balanceOf mint none = 0 := rfl

/-- An account of the contract, written with a coin account. -/
theorem balanceOf_serialize {a : Account} (h : a.owner = some address) (coin : CoinAccount)
    (mint : Pubkey) :
    balanceOf mint (some { a with data := some (Borsh.serialize coin) }) =
      if coin.mint = mint then coin.balance.toNat else 0 := by
  simp [balanceOf, coinOf, h]

variable {H : Type} {C : Crypto H} {env : Environment}

/-! ## What the contract returns -/

/-- `read_coin_account`, where it succeeds. -/
theorem readCoinAccount_ok {coinAddr mintAddr walletAddr : Pubkey} {view : AccountView}
    {r : Option CoinAccount}
    (h : readCoinAccount C coinAddr view mintAddr walletAddr env = .ok r) :
    coinAddr = env.address.derive C [mintAddr.bytes, walletAddr.bytes] ∧
      view.data.bind (Borsh.tryFromSlice CoinAccount) = r ∧ (r = none → view.data = none) ∧
      ∀ coin ∈ r, coin.mint = mintAddr ∧ coin.owner = walletAddr := by
  simp only [readCoinAccount] at h
  split at h
  · cases h
  rename_i haddr
  split at h
  · cases h
  split at h
  · rename_i hdata
    obtain rfl := Except.ok.inj h
    exact ⟨not_not.1 haddr, by simp [hdata], fun _ => hdata, by simp⟩
  · rename_i data hdata
    split at h
    · cases h
    rename_i coin hcoin
    split at h
    · cases h
    rename_i hmint
    split at h
    · cases h
    rename_i howner
    obtain rfl := Except.ok.inj h
    refine ⟨not_not.1 haddr, by simp [hdata, hcoin], by simp, ?_⟩
    simpa using ⟨(not_not.1 hmint).symm, (not_not.1 howner).symm⟩

/-- **The outputs of a transfer**, and what was read and checked before
them. -/
theorem processTransfer_ok {amount : UInt64} {os : List Output}
    (h : processTransfer C env amount = .ok os) :
    ∃ mint senderWallet sender recipientWallet recipient coin credited logs,
      env.accounts = [mint, senderWallet, sender, recipientWallet, recipient] ∧ amount ≠ 0 ∧
      readCoinAccount C sender.1 sender.2 mint.1 senderWallet.1 env = .ok (some coin) ∧
      senderWallet.2.signer = true ∧ amount ≤ coin.balance ∧
      readCoinAccount C recipient.1 recipient.2 mint.1 recipientWallet.1 env = .ok credited ∧
      (∀ o ∈ logs, ∃ key value, o = Output.logEntry key value) ∧
      os = logs ++ [.writeAccountData sender.1 (some (Borsh.serialize
          { coin with balance := saturatingSub coin.balance amount }))] ++
        collectDust sender.1 (saturatingSub coin.balance amount) ++
        [credit recipient.1 mint.1 recipientWallet.1 amount credited] := by
  simp only [processTransfer] at h
  split at h
  · rename_i mintAddr mintAcc swAddr swAcc scAddr scAcc rwAddr rwAcc rcAddr rcAcc hacc
    split at h
    · cases h
    rename_i hpos
    split at h
    · cases h
    split at h
    · cases h
    · cases h
    rename_i coin hcoin
    split at h
    · cases h
    rename_i hsigner
    split at h
    · cases h
    rename_i hbal
    split at h
    · cases h
    rename_i credited hcredited
    obtain rfl := Except.ok.inj h
    refine ⟨(mintAddr, mintAcc), (swAddr, swAcc), (scAddr, scAcc), (rwAddr, rwAcc),
      (rcAddr, rcAcc), coin, credited, [.logEntry _ _, .logEntry _ _, .logEntry _ _,
      .logEntry _ _, .logEntry _ _], hacc, hpos, hcoin, by simpa using hsigner,
      UInt64.not_lt.1 hbal, hcredited, by simp, rfl⟩
  · cases h

/-! ## What the transfer does to the state -/

variable {u : ExecutionUnit}

/-- The credit brings the recipient's account to its balance and the
amount, or to the largest balance there is. -/
theorem balanceOf_credit {vm : Machine H} {state : State} {accounts : List AccountRef}
    {caller : Option Pubkey} (hcontract : u.contract = address) (hstate : u.state = state)
    (henv : u.env = vm.createEnvironment state accounts address caller)
    {k mint wallet : Pubkey} (hk : vm.crypto.hasPrivateKey k = false) {amount : UInt64}
    {r : Option CoinAccount}
    (hread : ((state k).bind Account.data).bind (Borsh.tryFromSlice CoinAccount) = r)
    (hmint : ∀ coin ∈ r, coin.mint = mint) {out : TransactionOutput}
    (heff : Machine.DirectEffect u (credit k mint wallet amount r) out) (s : State) :
    ∃ a, Machine.effect u (credit k mint wallet amount r) s = Function.update s k (some a) ∧
      balanceOf mint (some a) = min (balanceOf mint (state k) + amount.toNat) (2 ^ 64 - 1) ∧
      ∀ m, m ≠ mint → balanceOf m (state k) = 0 := by
  cases r with
  | none =>
    have hnone : state k = none := by
      rw [← hstate]
      cases heff with
      | create _ _ hk => exact hk
    refine ⟨_, rfl, ?_, fun m _ => by rw [hnone, balanceOf_none]⟩
    have hlt : amount.toNat < 2 ^ 64 := amount.toNat_lt
    rw [balanceOf_serialize (a := { owner := some u.contract }) (by rw [hcontract]), if_pos rfl,
      hnone, balanceOf_none]
    dsimp only
    omega
  | some coin =>
    obtain ⟨a, hgrant, ha⟩ : ∃ a, u.Grants k ∧ state k = some a := by
      rw [← hstate]
      cases heff with
      | write _ hw hk => exact ⟨_, hw, hk⟩
    have howner : a.owner = some address := (Machine.grants_ofEnvironment henv hgrant hk ha).2
    have hcoin : coin.mint = mint := hmint coin rfl
    have hbal : ∀ m, balanceOf m (state k) = if coin.mint = m then coin.balance.toNat else 0 := by
      intro m
      rw [ha] at hread ⊢
      simp only [Option.bind_some] at hread
      simp [balanceOf, coinOf, howner, hread]
    refine ⟨{ a with data := some (Borsh.serialize
      { coin with balance := saturatingAdd coin.balance amount }) }, ?_, ?_, fun m hm => ?_⟩
    · simp only [credit, Machine.effect, hstate, ha, Option.map_some]
    · rw [balanceOf_serialize howner, if_pos hcoin, hbal, if_pos hcoin, toNat_saturatingAdd]
    · rw [hbal, if_neg fun h => hm (h.symm.trans hcoin)]

/-- The debit takes the amount from the sender's account, and the dust
collected after it is an account that holds nothing. -/
theorem balanceOf_debit {vm : Machine H} {state : State} {accounts : List AccountRef}
    {caller : Option Pubkey} (hstate : u.state = state)
    (henv : u.env = vm.createEnvironment state accounts address caller)
    {k mint : Pubkey} (hk : vm.crypto.hasPrivateKey k = false) {amount : UInt64}
    {coin : CoinAccount}
    (hread : ((state k).bind Account.data).bind (Borsh.tryFromSlice CoinAccount) = some coin)
    (hmint : coin.mint = mint) (hle : amount ≤ coin.balance) {out : TransactionOutput}
    (heff : Machine.DirectEffect u (.writeAccountData k (some (Borsh.serialize
      { coin with balance := saturatingSub coin.balance amount }))) out) (s : State) :
    balanceOf mint (state k) = coin.balance.toNat ∧
      ∃ a, (collectDust k (saturatingSub coin.balance amount)).foldl
          (fun s o => Machine.effect u o s)
          (Machine.effect u (.writeAccountData k (some (Borsh.serialize
            { coin with balance := saturatingSub coin.balance amount }))) s) =
          Function.update s k a ∧
        balanceOf mint a = coin.balance.toNat - amount.toNat := by
  obtain ⟨a, hgrant, ha⟩ : ∃ a, u.Grants k ∧ state k = some a := by
    rw [← hstate]
    cases heff with
    | write _ hw hk => exact ⟨_, hw, hk⟩
  have howner : a.owner = some address := (Machine.grants_ofEnvironment henv hgrant hk ha).2
  have hnat := toNat_saturatingSub hle
  refine ⟨?_, ?_⟩
  · rw [ha] at hread ⊢
    simp only [Option.bind_some] at hread
    simp [balanceOf, coinOf, howner, hread, hmint]
  · simp only [Machine.effect, hstate, ha, Option.map_some]
    by_cases hzero : saturatingSub coin.balance amount = 0
    · refine ⟨none, ?_, ?_⟩
      · simp [collectDust, hzero]
      · rw [hzero] at hnat
        rw [balanceOf_none, ← hnat]
        rfl
    · refine ⟨_, by rw [collectDust, if_neg hzero]; rfl, ?_⟩
      rw [balanceOf_serialize howner, if_pos hmint]
      exact hnat

/-- Every output of a transfer is a direct one. -/
theorem isDirect_transfer {logs : List Output} {k mint wallet : Pubkey} {data : Option Bytes}
    {balance amount : UInt64} {r : Option CoinAccount} {k' : Pubkey}
    (hlogs : ∀ o ∈ logs, ∃ key value, o = Output.logEntry key value) :
    ∀ o ∈ logs ++ [.writeAccountData k data] ++ collectDust k balance ++
      [credit k' mint wallet amount r], o.IsDirect := by
  intro o ho
  simp only [List.mem_append, List.mem_singleton, collectDust] at ho
  rcases ho with ((ho | rfl) | ho) | rfl
  · obtain ⟨key, value, rfl⟩ := hlogs o ho
    trivial
  · trivial
  · split at ho
    · obtain rfl := List.mem_singleton.1 ho
      trivial
    · cases ho
  · cases r <;> trivial

theorem foldl_effect_logs {logs : List Output}
    (hlogs : ∀ o ∈ logs, ∃ key value, o = Output.logEntry key value) (s : State) :
    logs.foldl (fun s o => Machine.effect u o s) s = s := by
  induction logs with
  | nil => rfl
  | cons o logs ih =>
    obtain ⟨key, value, rfl⟩ := hlogs o List.mem_cons_self
    exact ih fun o ho => hlogs o (List.mem_cons_of_mem _ ho)

/-- Two accounts updated, the one debited and the other credited. -/
theorem conserves_update_iff {state : State} {mint sc rc : Pubkey} {amount : UInt64}
    {a b : Option Account} (hsc : sc ≠ mint) (hrc : rc ≠ mint) (hpos : 0 < amount.toNat)
    (hle : amount.toNat ≤ balanceOf mint (state sc))
    (ha : balanceOf mint a = balanceOf mint (state sc) - amount.toNat)
    (hb : balanceOf mint b = min (balanceOf mint (state rc) + amount.toNat) (2 ^ 64 - 1))
    (hother : ∀ m, m ≠ mint → balanceOf m (state rc) = 0) :
    Conserves mint sc state (Function.update (Function.update state sc a) rc b) ↔
      Exact mint sc rc amount state := by
  have hcomp : (fun k => balanceOf mint (Function.update (Function.update state sc a) rc b k)) =
      Function.update (Function.update (fun k => balanceOf mint (state k)) sc
        (balanceOf mint (state sc) - amount.toNat)) rc
        (min (balanceOf mint (state rc) + amount.toNat) (2 ^ 64 - 1)) := by
    rw [← ha, ← hb]
    funext k
    simp only [Function.apply_update (fun _ => balanceOf mint)]
  have hlt := balanceOf_lt mint (state sc)
  have hlt' := balanceOf_lt mint (state rc)
  have htotal := sum_transfer_iff (fun k => balanceOf mint (state k)) sc rc hpos hle
    (M := 2 ^ 64 - 1) (by omega)
  have hexact : Exact mint sc rc amount state ↔
      if sc = rc then balanceOf mint (state sc) = 2 ^ 64 - 1
      else balanceOf mint (state rc) + amount.toNat ≤ 2 ^ 64 - 1 := by
    unfold Exact
    split
    · rfl
    · omega
  rw [hexact, ← htotal]
  constructor
  · intro hc
    have := hc.total
    rwa [← hcomp]
  · intro hsum
    refine ⟨by rwa [hcomp], ?_, fun m k hk => ?_⟩
    · rw [Function.update_of_ne (Ne.symm hrc), Function.update_of_ne (Ne.symm hsc)]
    · by_cases hkr : k = rc
      · subst hkr
        rw [Function.update_self]
        by_cases hm : m = mint
        · subst hm
          omega
        · rw [hother m hm]
          exact Nat.zero_le _
      · rw [Function.update_of_ne hkr, Function.update_of_ne hk]

/-- The transfer of a unit, called by a transaction or by another
contract. -/
theorem conserves_execute_iff {vm : Machine H} {fuel : ℕ} {state : State}
    {accounts : List AccountRef} {caller : Option Pubkey} {amount : UInt64} {rest : Bytes}
    {out : TransactionOutput} (hcontract : u.contract = address) (hstate : u.state = state)
    (hentry : u.entrypoint = contract vm.crypto)
    (henv : u.env = vm.createEnvironment state accounts address caller)
    (hparams : Borsh.deserialize u.params = some (Instruction.transfer amount, rest))
    (hmint : ∀ m ∈ accounts.head?, ∀ w ∈ accounts,
      coinAddress vm.crypto m.address w.address ≠ m.address)
    (h : vm.execute fuel u = some (.ok out)) :
    ∃ mint senderWallet senderCoin recipientWallet recipientCoin,
      accounts = [mint, senderWallet, senderCoin, recipientWallet, recipientCoin] ∧
      (Conserves mint.address senderCoin.address state (out.stateDiff.layOver state) ↔
        Exact mint.address senderCoin.address recipientCoin.address amount state) := by
  obtain - | fuel := fuel
  · cases h
  simp only [Machine.execute, hentry, contract, hparams] at h
  split at h
  · simp at h
  rename_i os hos
  obtain ⟨mint, sw, sc, rw', rc, coin, credited, logs, hacc, hpos, hsender, -, hle, hrecipient,
    hlogs, rfl⟩ := processTransfer_ok hos
  have haddr : u.env.address = address := by rw [henv]; rfl
  rw [henv] at hacc
  simp only [Machine.createEnvironment, List.map_eq_cons_iff, List.map_eq_nil_iff] at hacc
  obtain ⟨mint, _, htx, rfl, sw, _, rfl, rfl, sc, _, rfl, rfl, rw', _, rfl, rfl, rc, _, rfl, rfl,
    rfl⟩ := hacc
  refine ⟨mint, sw, sc, rw', rc, htx, ?_⟩
  obtain ⟨hscAddr, hscRead, -, hscMint⟩ := readCoinAccount_ok hsender
  obtain ⟨hrcAddr, hrcRead, -, hrcMint⟩ := readCoinAccount_ok hrecipient
  rw [haddr] at hscAddr hrcAddr
  -- the coin accounts are derived addresses, so off the curve, and neither is the mint
  have hderived : ∀ coin : AccountRef, ∀ w ∈ accounts,
      coin.address = coinAddress vm.crypto mint.address w.address →
        vm.crypto.hasPrivateKey coin.address = false ∧ coin.address ≠ mint.address := by
    intro coin w hw hcoin
    rw [hcoin]
    exact ⟨Pubkey.hasPrivateKey_derive _ _ _, hmint mint (by simp [htx]) w hw⟩
  obtain ⟨hscOff, hscMint'⟩ := hderived sc sw (by simp [htx]) hscAddr
  obtain ⟨hrcOff, hrcMint'⟩ := hderived rc rw' (by simp [htx]) hrcAddr
  obtain ⟨hall, hlay⟩ := Machine.processOutputs_direct (isDirect_transfer hlogs) h
  obtain ⟨_, heffS⟩ := hall _ (List.mem_append_left _ (List.mem_append_left _
    (List.mem_append_right _ List.mem_cons_self)))
  obtain ⟨_, heffR⟩ := hall _ (List.mem_append_right _ List.mem_cons_self)
  obtain ⟨hbal, a, ha, habal⟩ := balanceOf_debit hstate henv hscOff hscRead (hscMint coin rfl).1 hle
    heffS state
  obtain ⟨b, hb, hbbal, hother⟩ := balanceOf_credit hcontract hstate henv hrcOff hrcRead
    (fun coin hcoin => (hrcMint coin hcoin).1)
    heffR (Function.update state sc.address a)
  have hfinal : out.stateDiff.layOver state =
      Function.update (Function.update state sc.address a) rc.address (some b) := by
    rw [hlay, StateDiff.layOver_empty, List.foldl_append, List.foldl_append, List.foldl_append,
      foldl_effect_logs hlogs, ← hb, ← ha]
    rfl
  have hposNat : 0 < amount.toNat := by
    rcases Nat.eq_zero_or_pos amount.toNat with h0 | h0
    · exact absurd (UInt64.toNat_inj.1 h0) hpos
    · exact h0
  have hleNat : amount.toNat ≤ coin.balance.toNat := UInt64.le_iff_toNat_le.1 hle
  rw [hfinal]
  exact conserves_update_iff hscMint' hrcMint' hposNat (hleNat.trans_eq hbal.symm)
    (habal.trans (congrArg (· - amount.toNat) hbal.symm)) hbbal hother

/-- The unit of a transaction that runs the contract. -/
theorem newUnit_currency {vm : Machine H} {tx : Transaction} {state : State}
    (hbuiltin : vm.builtin address = some (contract vm.crypto)) (hcontract : tx.contract = address)
    (hu : vm.newUnit tx state = .ok u) :
    u.state = state ∧ u.contract = address ∧ u.params = tx.params ∧
      u.entrypoint = contract vm.crypto ∧
      u.env = vm.createEnvironment state tx.accounts address none := by
  obtain ⟨-, -, -, hentry, hstate, hcontract', hparams, henv⟩ := Machine.newUnit_ok hu
  rw [hcontract] at hentry hcontract' henv
  simp only [Machine.entrypoint, hbuiltin] at hentry
  exact ⟨hstate, hcontract', hparams, (Except.ok.inj hentry).symm, henv⟩

/-- **Exactly when a transfer conserves coins.** For every state, every
list of accounts and every amount, of a transfer that succeeds. The
hypothesis on `coinAddress` says that no mint is its own coin account. -/
theorem conserves_transfer_iff (vm : Machine H) (fuel : ℕ) (tx : Transaction) (state : State)
    (amount : UInt64) (rest : Bytes) (out : TransactionOutput)
    (hbuiltin : vm.builtin address = some (contract vm.crypto))
    (hcontract : tx.contract = address)
    (hparams : Borsh.deserialize tx.params = some (Instruction.transfer amount, rest))
    (hmint : ∀ m ∈ tx.accounts.head?, ∀ w ∈ tx.accounts,
      coinAddress vm.crypto m.address w.address ≠ m.address)
    (h : vm.executeTransaction fuel tx state = some (.ok out)) :
    ∃ mint senderWallet senderCoin recipientWallet recipientCoin,
      tx.accounts = [mint, senderWallet, senderCoin, recipientWallet, recipientCoin] ∧
      (Conserves mint.address senderCoin.address state (out.stateDiff.layOver state) ↔
        Exact mint.address senderCoin.address recipientCoin.address amount state) := by
  obtain ⟨u, hu, h⟩ := Machine.executeTransaction_ok h
  obtain ⟨hstate, hcontract', hparams', hentry, henv⟩ := newUnit_currency hbuiltin hcontract hu
  exact conserves_execute_iff hcontract' hstate hentry henv (hparams' ▸ hparams) hmint h

/-! ## Two transfers -/

namespace Sample

open Machine.Sample (limits sign)

/-- A machine that runs the Currency contract. -/
def machine : Machine Bytes where
  crypto := sampleCrypto
  limits := limits
  builtin k := if k = address then some (contract sampleCrypto) else none
  runtime _ := .error .accountIsNotExecutable

theorem machine_builtin : machine.builtin address = some (contract machine.crypto) := by
  simp [machine]

/-- The mint at address 1000, of 100 coins. -/
def mintAccount : Account where
  owner := some address
  data := some (Borsh.serialize
    ({ authority := none, supply := 100, decimals := 0, name := none, symbol := none } : Mint))

/-- The coin account of wallet 1, with all of them. -/
def coinAccount : Account where
  owner := some address
  data := some (Borsh.serialize ({ mint := 1000, owner := 1, balance := 100 } : CoinAccount))

/-- The coin address of a wallet, under the sample `Crypto`. -/
def coinAt (wallet : ℕ) : Pubkey := OfNat.ofNat (wallet * 2 ^ 64)

/-- The mint and the coins of wallet 1. -/
def ledger : State := fun k =>
  if k = 1000 then some mintAccount else if k = coinAt 1 then some coinAccount else none

/-- Wallet 1 pays 30 coins to another wallet, or to itself. -/
def pay (wallet : ℕ) : Transaction :=
  let tx : Transaction :=
    { contract := address, nonce := 0, payer := 1, signatures := []
      params := Borsh.serialize (Instruction.transfer 30)
      accounts := [⟨1000, false, false⟩, ⟨1, false, true⟩, ⟨coinAt 1, true, false⟩,
        ⟨OfNat.ofNat wallet, false, false⟩, ⟨coinAt wallet, true, false⟩] }
  { tx with signatures := [sign 1 tx, sign 1 tx] }

end Sample

theorem exists_ok {r : Run TransactionOutput}
    (h : (r.bind Except.toOption).isSome = true) : ∃ out, r = some (.ok out) := by
  rcases r with _ | _ | out
  · cases h
  · cases h
  · exact ⟨out, rfl⟩

/-- A payment to another wallet moves coins and makes none. -/
theorem conserves_pay_other :
    ∃ out, Sample.machine.executeTransaction 1 (Sample.pay 2) Sample.ledger = some (.ok out) ∧
      Conserves 1000 (Sample.coinAt 1) Sample.ledger (out.stateDiff.layOver Sample.ledger) := by
  obtain ⟨out, hout⟩ := exists_ok
    (r := Sample.machine.executeTransaction 1 (Sample.pay 2) Sample.ledger) (by decide +kernel)
  have hparams : Borsh.deserialize (Sample.pay 2).params = some (Instruction.transfer 30, []) :=
    Borsh.deserialize_serialize (Instruction.transfer 30) []
  have hmint : ∀ w ∈ (Sample.pay 2).accounts, coinAddress sampleCrypto 1000 w.address ≠ 1000 := by
    decide +kernel
  obtain ⟨_, _, _, _, _, hacc, hiff⟩ := conserves_transfer_iff Sample.machine 1 (Sample.pay 2)
    Sample.ledger 30 [] out Sample.machine_builtin rfl hparams (by rintro _ ⟨rfl⟩; exact hmint) hout
  cases hacc
  have hexact : Exact 1000 (Sample.coinAt 1) (Sample.coinAt 2) 30 Sample.ledger := by
    unfold Exact
    decide
  exact ⟨out, hout, hiff.2 hexact⟩

/-- **A payment to oneself makes coins**: wallet 1 ends with 130 of the
100 there are. -/
theorem pay_self_not_conserves :
    ∃ out, Sample.machine.executeTransaction 1 (Sample.pay 1) Sample.ledger = some (.ok out) ∧
      ¬ Conserves 1000 (Sample.coinAt 1) Sample.ledger (out.stateDiff.layOver Sample.ledger) := by
  obtain ⟨out, hout⟩ := exists_ok
    (r := Sample.machine.executeTransaction 1 (Sample.pay 1) Sample.ledger) (by decide +kernel)
  have hparams : Borsh.deserialize (Sample.pay 1).params = some (Instruction.transfer 30, []) :=
    Borsh.deserialize_serialize (Instruction.transfer 30) []
  have hmint : ∀ w ∈ (Sample.pay 1).accounts, coinAddress sampleCrypto 1000 w.address ≠ 1000 := by
    decide +kernel
  obtain ⟨u, hu, hexec⟩ := Machine.executeTransaction_ok hout
  obtain ⟨hstate, hcontract, hparams', hentry, henv⟩ :=
    newUnit_currency Sample.machine_builtin rfl hu
  obtain ⟨_, _, _, _, _, hacc, hiff⟩ := conserves_execute_iff hcontract hstate hentry henv
    (hparams' ▸ hparams) (by rintro _ ⟨rfl⟩; exact hmint) hexec
  cases hacc
  have hexact : ¬ Exact 1000 (Sample.coinAt 1) (Sample.coinAt 1) 30 Sample.ledger := by
    unfold Exact
    decide
  exact ⟨out, hout, fun hc => hexact (hiff.1 hc)⟩

end Currency

end Rensa
