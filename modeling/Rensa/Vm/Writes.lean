import Rensa.Vm.Conservation
/-!
# What a call of the Currency contract writes

The contract tells its accounts apart by their addresses and by whether
their bytes decode. `Write` lists every change a call can make to an
account of the contract and what authorizes it, `lists_call` says that
the list is complete, and `dusty_call` that nothing is deleted but coin
accounts a debit emptied.
-/

namespace Rensa

namespace Currency

open Borsh (FixedBytes)

variable {H : Type} (C : Crypto H)

/-- The address of the mint that a seed gives. -/
def mintAddress (seed : FixedBytes 32) : Pubkey := address.derive C [seed.1]

/-- The mint an account of the ledger holds. -/
def mintOf : Option Account → Option Mint
  | none => none
  | some a => if a.owner = some address then a.data.bind (Borsh.tryFromSlice Mint) else none

/-- A coin account, at the address of its wallet. -/
structure CoinAt (s : State) (k : Pubkey) (coin : CoinAccount) : Prop where
  held : coinOf (s k) = some coin
  derived : k = coinAddress C coin.mint coin.owner

/-- The environment lists the address. -/
def Listed (env : Environment) (k : Pubkey) : Prop := ∃ p ∈ env.accounts, p.1 = k

/-- A coin account that a call read: its mint and its wallet are listed. -/
structure CoinRead (s : State) (env : Environment) (k : Pubkey) (coin : CoinAccount) : Prop
    extends CoinAt C s k coin where
  mint : Listed env coin.mint
  owner : Listed env coin.owner

/-- The environment marks the address as a signer. -/
def Marks (env : Environment) (k : Pubkey) : Prop :=
  ∃ p ∈ env.accounts, p.1 = k ∧ p.2.signer = true

/-- The instructions that take coins from an account. -/
def Instruction.Spends : Instruction → Prop
  | .transfer _ => True
  | .burn _ => True
  | _ => False

/-- The seed of the mint that an instruction creates. -/
def Instruction.seed : Instruction → Option (FixedBytes 32)
  | .create seed _ _ _ _ => some seed
  | _ => none

/-- A key of the environment speaks for the mint at `m`: its authority
signed, or somebody has coins of it. -/
def Vouched (s : State) (env : Environment) (m : Pubkey) : Prop :=
  (∃ mint authority, mintOf (s m) = some mint ∧ mint.authority = some authority ∧
    Marks env authority) ∨
  ∃ k coin, CoinRead C s env k coin ∧ coin.mint = m

/-- **Every change a call can make** to the bytes of an account of the
contract, in the state `s` it was called on. -/
inductive Write (s : State) (env : Environment) (i : Instruction) : Pubkey → Bytes → Prop
  /-- A new mint. -/
  | create (seed : FixedBytes 32) (mint : Mint) : s (mintAddress C seed) = none →
      i.seed = some seed → Write s env i (mintAddress C seed) (Borsh.serialize mint)
  /-- The first coins of a wallet. -/
  | fund (m wallet : Pubkey) (balance : UInt64) : s (coinAddress C m wallet) = none →
      Vouched C s env m → Listed env wallet →
      Write s env i (coinAddress C m wallet)
        (Borsh.serialize (⟨m, wallet, balance⟩ : CoinAccount))
  /-- More coins in an account. -/
  | credit {k : Pubkey} {coin : CoinAccount} (balance : UInt64) : CoinRead C s env k coin →
      coin.balance ≤ balance → Write s env i k (Borsh.serialize { coin with balance })
  /-- Coins taken from an account, with the signature of its wallet. -/
  | debit {k : Pubkey} {coin : CoinAccount} (balance : UInt64) : CoinRead C s env k coin →
      i.Spends → Marks env coin.owner → Write s env i k (Borsh.serialize { coin with balance })
  /-- A change of a mint, with the signature of its authority. -/
  | govern {k authority : Pubkey} {mint : Mint} (supply : UInt64) (next : Option Pubkey) :
      mintOf (s k) = some mint → mint.authority = some authority → Marks env authority →
      Write s env i k (Borsh.serialize { mint with supply, authority := next })
  /-- Coins taken out of circulation. -/
  | burn {k : Pubkey} {mint : Mint} (supply : UInt64) : mintOf (s k) = some mint →
      Vouched C s env k → supply ≤ mint.supply →
      Write s env i k (Borsh.serialize { mint with supply })

/-! ## What the contract returns -/

section Returns

variable {C} {env : Environment} {os : List Output}

/-- `read_coin_mint`, where it succeeds. -/
theorem readCoinMint_ok {addr : Pubkey} {view : AccountView} {mint : Mint}
    (h : readCoinMint C addr view env = .ok mint) :
    view.owner = some env.address ∧ view.data.bind (Borsh.tryFromSlice Mint) = some mint := by
  simp only [readCoinMint] at h
  split at h
  · cases h
  split at h
  · cases h
  rename_i howner
  split at h
  · cases h
  rename_i data hdata
  split at h
  · cases h
  rename_i mint' hmint
  obtain rfl := Except.ok.inj h
  exact ⟨not_not.1 howner, by rw [hdata, Option.bind_some, hmint]⟩

/-- The outputs of a call are entries of the log, but for the listed
ones. -/
def OutputsAre (os changes : List Output) : Prop :=
  ∃ pre post, (∀ o ∈ pre ++ post, ∃ key value, o = Output.logEntry key value) ∧
    os = pre ++ changes ++ post

theorem processCreate_ok {seed : FixedBytes 32} {authority : Pubkey} {decimals : UInt8}
    {name symbol : Option Borsh.Text}
    (h : processCreate C env seed authority decimals name symbol = .ok os) :
    ∃ mint : Mint, OutputsAre os
      [.createOwnedAccount (env.address.derive C [seed.1]) (some (Borsh.serialize mint))] := by
  simp only [processCreate] at h
  split at h
  · rename_i addr value hacc
    split at h
    · cases h
    rename_i haddr
    obtain rfl := not_not.1 haddr
    split at h
    · cases h
    split at h
    · cases h
    split at h
    · cases h
    split at h
    · cases h
    obtain rfl := Except.ok.inj h
    exact ⟨_, [], [.logEntry _ _, .logEntry _ _, .logEntry _ _, .logEntry _ _, .logEntry _ _],
      by simp, rfl⟩
  · cases h

theorem processMint_ok {amount : UInt64} (h : processMint C env amount = .ok os) :
    ∃ mintAcc authority wallet coinAcc mint coin,
      env.accounts = [mintAcc, authority, wallet, coinAcc] ∧
      readCoinMint C mintAcc.1 mintAcc.2 env = .ok mint ∧ mint.authority = some authority.1 ∧
      authority.2.signer = true ∧
      readCoinAccount C coinAcc.1 coinAcc.2 mintAcc.1 wallet.1 env = .ok coin ∧
      OutputsAre os [credit coinAcc.1 mintAcc.1 wallet.1 amount coin,
        .writeAccountData mintAcc.1
          (some (Borsh.serialize { mint with supply := saturatingAdd mint.supply amount }))] := by
  simp only [processMint] at h
  split at h
  · rename_i mintAddr mintData authority authorityAcc walletAddr walletAcc coinAddr coinAcc hacc
    split at h
    · cases h
    split at h
    · cases h
    rename_i mint hmint
    split at h
    · cases h
    rename_i mintAuthority hauth
    split at h
    · cases h
    rename_i heq
    split at h
    · cases h
    rename_i hsigner
    split at h
    · cases h
    rename_i coin hcoin
    obtain rfl := Except.ok.inj h
    refine ⟨(mintAddr, mintData), (authority, authorityAcc), (walletAddr, walletAcc),
      (coinAddr, coinAcc), mint, coin, hacc, hmint, by rw [hauth, not_not.1 heq],
      by simpa using hsigner, hcoin, [.logEntry _ _, .logEntry _ _, .logEntry _ _], [],
      by simp, rfl⟩
  · cases h

theorem processBurn_ok {amount : UInt64} (h : processBurn C env amount = .ok os) :
    ∃ mintAcc wallet coinAcc mint coin,
      env.accounts = [mintAcc, wallet, coinAcc] ∧
      readCoinMint C mintAcc.1 mintAcc.2 env = .ok mint ∧
      readCoinAccount C coinAcc.1 coinAcc.2 mintAcc.1 wallet.1 env = .ok (some coin) ∧
      wallet.2.signer = true ∧ amount ≤ coin.balance ∧
      OutputsAre os ([.writeAccountData mintAcc.1
          (some (Borsh.serialize { mint with supply := saturatingSub mint.supply amount })),
        .writeAccountData coinAcc.1 (some (Borsh.serialize
          { coin with balance := saturatingSub coin.balance amount }))] ++
        collectDust coinAcc.1 (saturatingSub coin.balance amount)) := by
  simp only [processBurn] at h
  split at h
  · rename_i mintAddr mintData walletAddr walletAcc coinAddr coinAcc hacc
    split at h
    · cases h
    split at h
    · cases h
    rename_i mint hmint
    split at h
    · cases h
    · cases h
    rename_i coin hcoin
    split at h
    · cases h
    rename_i hsigner
    split at h
    · cases h
    rename_i hbal
    obtain rfl := Except.ok.inj h
    refine ⟨(mintAddr, mintData), (walletAddr, walletAcc), (coinAddr, coinAcc), mint, coin, hacc,
      hmint, hcoin, by simpa using hsigner, UInt64.not_lt.1 hbal,
      [.logEntry _ _, .logEntry _ _, .logEntry _ _, .logEntry _ _], [], by simp,
      (List.append_nil _).symm⟩
  · cases h

theorem processSetAuthority_ok {next : Option Pubkey}
    (h : processSetAuthority C env next = .ok os) :
    ∃ mintAcc authority mint, env.accounts = [mintAcc, authority] ∧
      readCoinMint C mintAcc.1 mintAcc.2 env = .ok mint ∧ mint.authority = some authority.1 ∧
      authority.2.signer = true ∧
      OutputsAre os [.writeAccountData mintAcc.1
        (some (Borsh.serialize { mint with authority := next }))] := by
  simp only [processSetAuthority] at h
  split at h
  · rename_i mintAddr mintData authority authorityAcc hacc
    split at h
    · cases h
    rename_i mint hmint
    split at h
    · cases h
    rename_i existing hauth
    split at h
    · cases h
    rename_i heq
    split at h
    · cases h
    rename_i hsigner
    obtain rfl := Except.ok.inj h
    refine ⟨(mintAddr, mintData), (authority, authorityAcc), mint, hacc, hmint,
      by rw [hauth, not_not.1 heq], by simpa using hsigner,
      [.logEntry _ _, .logEntry _ _, .logEntry _ _, .logEntry _ _, .logEntry _ _], [],
      by simp, rfl⟩
  · cases h

theorem OutputsAre.mem {changes : List Output} (h : OutputsAre os changes) {o : Output} :
    o ∈ os → (∃ key value, o = Output.logEntry key value) ∨ o ∈ changes := by
  obtain ⟨pre, post, hlogs, rfl⟩ := h
  intro ho
  simp only [List.mem_append] at ho hlogs
  rcases ho with (ho | ho) | ho
  · exact .inl (hlogs o (.inl ho))
  · exact .inr ho
  · exact .inl (hlogs o (.inr ho))

theorem OutputsAre.subset {changes : List Output} (h : OutputsAre os changes) :
    changes ⊆ os := by
  obtain ⟨pre, post, -, rfl⟩ := h
  intro o ho
  exact List.mem_append_left _ (List.mem_append_right _ ho)

theorem OutputsAre.isDirect {changes : List Output} (h : OutputsAre os changes)
    (hc : ∀ o ∈ changes, o.IsDirect) : ∀ o ∈ os, o.IsDirect := by
  intro o ho
  rcases h.mem ho with ⟨key, value, rfl⟩ | hmem
  · trivial
  · exact hc o hmem

/-- The contract calls no other contract. -/
theorem isDirect_call {params : Bytes} (h : contract C env params = .ok os) :
    ∀ o ∈ os, o.IsDirect := by
  simp only [contract] at h
  split at h
  · cases h
  · obtain ⟨mint, houts⟩ := processCreate_ok h
    exact houts.isDirect (by simp [Output.IsDirect])
  · obtain ⟨_, _, _, _, _, coin, -, -, -, -, -, houts⟩ := processMint_ok h
    refine houts.isDirect ?_
    simp only [List.forall_mem_cons, List.not_mem_nil, IsEmpty.forall_iff, implies_true, and_true]
    exact ⟨by cases coin <;> trivial, trivial⟩
  · obtain ⟨_, _, _, _, _, _, _, logs, -, -, -, -, -, -, hlogs, rfl⟩ := processTransfer_ok h
    exact isDirect_transfer hlogs
  · obtain ⟨_, _, _, _, _, -, -, -, -, -, houts⟩ := processBurn_ok h
    refine houts.isDirect fun o ho => ?_
    rcases List.mem_append.1 ho with ho | ho
    · simp only [List.mem_cons, List.not_mem_nil, or_false] at ho
      rcases ho with rfl | rfl <;> trivial
    · rw [collectDust] at ho
      split at ho
      · obtain rfl := List.mem_singleton.1 ho
        trivial
      · cases ho
  · obtain ⟨_, _, _, -, -, -, -, houts⟩ := processSetAuthority_ok h
    exact houts.isDirect (by simp [Output.IsDirect])

end Returns

/-! ## What is read is held -/

/-- The bytes of an account of the contract. -/
def held : Option Account → Option (Option Bytes)
  | none => none
  | some a => if a.owner = some address then some a.data else none

theorem held_eq_some {a : Option Account} {data : Option Bytes} :
    held a = some data ↔ ∃ acc, a = some acc ∧ acc.owner = some address ∧ acc.data = data := by
  cases a with
  | none => simp [held]
  | some acc => by_cases h : acc.owner = some address <;> simp [held, h]

theorem coinOf_eq (a : Option Account) :
    coinOf a = (held a).bind fun data => data.bind (Borsh.tryFromSlice CoinAccount) := by
  cases a with
  | none => rfl
  | some acc => by_cases h : acc.owner = some address <;> simp [held, coinOf, h]

theorem mintOf_eq (a : Option Account) :
    mintOf a = (held a).bind fun data => data.bind (Borsh.tryFromSlice Mint) := by
  cases a with
  | none => rfl
  | some acc => by_cases h : acc.owner = some address <;> simp [held, mintOf, h]

theorem CoinAt.owner {C : Crypto H} {s : State} {k : Pubkey} {coin : CoinAccount}
    (h : CoinAt C s k coin) : ∃ a, s k = some a ∧ a.owner = some address := by
  have hheld := h.held
  rw [coinOf_eq] at hheld
  obtain ⟨data, hdata, -⟩ := Option.bind_eq_some_iff.1 hheld
  obtain ⟨a, ha, howner, -⟩ := held_eq_some.1 hdata
  exact ⟨a, ha, howner⟩

section Call

variable {C} {vm : Machine H} {s : State} {u : ExecutionUnit}

/-- A call of the contract on the state `s`. -/
structure CallsOn (vm : Machine H) (s : State) (u : ExecutionUnit) : Prop where
  state : u.state = s
  contract : u.contract = address
  entry : u.entrypoint = Currency.contract vm.crypto
  env : ∃ accounts caller, u.env = vm.createEnvironment s accounts address caller

namespace CallsOn

theorem address (h : CallsOn vm s u) : u.env.address = Currency.address := by
  obtain ⟨accounts, caller, henv⟩ := h.env
  rw [henv]
  rfl

/-- A view of the environment is a copy of the account. -/
theorem view (h : CallsOn vm s u) {p : Pubkey × AccountView} (hp : p ∈ u.env.accounts) :
    p.2.owner = (s p.1).bind Account.owner ∧ p.2.data = (s p.1).bind Account.data := by
  obtain ⟨accounts, caller, henv⟩ := h.env
  rw [henv] at hp
  obtain ⟨r, -, rfl⟩ := List.mem_map.1 hp
  exact ⟨rfl, rfl⟩

theorem mintOf_eq_some (h : CallsOn vm s u) {p : Pubkey × AccountView}
    (hp : p ∈ u.env.accounts) {mint : Mint}
    (hread : readCoinMint vm.crypto p.1 p.2 u.env = .ok mint) : mintOf (s p.1) = some mint := by
  obtain ⟨howner, hdata⟩ := readCoinMint_ok hread
  rw [(h.view hp).1, h.address] at howner
  rw [(h.view hp).2] at hdata
  obtain ⟨a, ha, howner⟩ := Option.bind_eq_some_iff.1 howner
  rw [ha, Option.bind_some] at hdata
  rw [ha, mintOf, if_pos howner, hdata]

/-- An account off the curve that the call may write is one of the
contract. -/
theorem owner_of_write (h : CallsOn vm s u) {k : Pubkey} {data : Option Bytes}
    {r : TransactionOutput} (hk : vm.crypto.hasPrivateKey k = false)
    (heff : Machine.DirectEffect u (.writeAccountData k data) r) :
    ∃ a, s k = some a ∧ a.owner = some Currency.address := by
  obtain ⟨accounts, caller, henv⟩ := h.env
  cases heff with
  | write _ hgrant hacc =>
    rw [h.state] at hacc
    exact ⟨_, hacc, (Machine.grants_ofEnvironment henv hgrant hk hacc).2⟩

/-- A coin account that is read and written. -/
theorem coinRead (h : CallsOn vm s u) {p : Pubkey × AccountView} (hp : p ∈ u.env.accounts)
    {m wallet : Pubkey} {coin : CoinAccount} {data : Option Bytes} {r : TransactionOutput}
    (hm : Listed u.env m) (hw : Listed u.env wallet)
    (hread : readCoinAccount vm.crypto p.1 p.2 m wallet u.env = .ok (some coin))
    (heff : Machine.DirectEffect u (.writeAccountData p.1 data) r) :
    CoinRead vm.crypto s u.env p.1 coin ∧ coin.mint = m ∧ coin.owner = wallet := by
  obtain ⟨hderived, hdata, -, hcoin⟩ := readCoinAccount_ok hread
  obtain ⟨hmint, howner⟩ := hcoin coin rfl
  have hoff : vm.crypto.hasPrivateKey p.1 = false := by
    rw [hderived]
    exact Pubkey.hasPrivateKey_derive _ _ _
  obtain ⟨a, ha, haowner⟩ := h.owner_of_write hoff heff
  rw [(h.view hp).2, ha, Option.bind_some] at hdata
  refine ⟨⟨⟨?_, ?_⟩, hmint.symm ▸ hm, howner.symm ▸ hw⟩, hmint, howner⟩
  · rw [ha, coinOf, if_pos haowner, hdata]
  · rw [hderived, h.address, hmint, howner]
    rfl

end CallsOn

theorem le_saturatingAdd (a b : UInt64) : a ≤ saturatingAdd a b := by
  rw [UInt64.le_iff_toNat_le, toNat_saturatingAdd]
  have := a.toNat_lt
  omega

theorem saturatingSub_le (a b : UInt64) : saturatingSub a b ≤ a := by
  by_cases h : b ≤ a
  · rw [UInt64.le_iff_toNat_le, toNat_saturatingSub h]
    omega
  · rw [saturatingSub, if_neg h]
    exact UInt64.zero_le

/-- What an output of a call does: a log entry, a change that `Write`
lists, or a deletion. -/
def Lists (C : Crypto H) (s : State) (env : Environment) (i : Instruction) (o : Output) : Prop :=
  (∃ key value, o = .logEntry key value) ∨
  (∃ k bytes, (o = .createOwnedAccount k (some bytes) ∨ o = .writeAccountData k (some bytes)) ∧
    Write C s env i k bytes) ∨
  ∃ k, o = .deleteOwnedAccount k

variable {i : Instruction} {os : List Output}

/-- The outcome of adding coins to an account. -/
theorem lists_credit (h : CallsOn vm s u) {p : Pubkey × AccountView} (hp : p ∈ u.env.accounts)
    {m wallet : Pubkey} {amount : UInt64} {coin : Option CoinAccount} {r : TransactionOutput}
    (hread : readCoinAccount vm.crypto p.1 p.2 m wallet u.env = .ok coin)
    (hv : Vouched vm.crypto s u.env m) (hm : Listed u.env m) (hw : Listed u.env wallet)
    (heff : Machine.DirectEffect u (credit p.1 m wallet amount coin) r) :
    Lists vm.crypto s u.env i (credit p.1 m wallet amount coin) := by
  refine .inr (.inl ⟨p.1, ?_⟩)
  cases coin with
  | none =>
    obtain ⟨hderived, -, -, -⟩ := readCoinAccount_ok hread
    replace hderived : p.1 = coinAddress vm.crypto m wallet := by rw [hderived, h.address]; rfl
    have hfree : s p.1 = none := by
      rw [← h.state]
      cases heff with
      | create _ _ hk => exact hk
    refine ⟨_, .inl rfl, ?_⟩
    rw [hderived] at hfree ⊢
    exact .fund m wallet amount hfree hv hw
  | some coin =>
    obtain ⟨hat, -, -⟩ := h.coinRead hp hm hw hread heff
    exact ⟨_, .inr rfl, .credit _ hat (le_saturatingAdd _ _)⟩

theorem lists_create (h : CallsOn vm s u) {seed : FixedBytes 32} {authority : Pubkey}
    {decimals : UInt8} {name symbol : Option Borsh.Text}
    (hos : processCreate vm.crypto u.env seed authority decimals name symbol = .ok os)
    (hall : ∀ o ∈ os, ∃ r, Machine.DirectEffect u o r) :
    ∀ o ∈ os, Lists vm.crypto s u.env (.create seed authority decimals name symbol) o := by
  obtain ⟨mint, houts⟩ := processCreate_ok hos
  rw [h.address] at houts
  intro o ho
  rcases houts.mem ho with hlog | hmem
  · exact .inl hlog
  obtain rfl := List.mem_singleton.1 hmem
  obtain ⟨r, heff⟩ := hall _ ho
  have hfree : s (mintAddress vm.crypto seed) = none := by
    rw [← h.state]
    cases heff with
    | create _ _ hk => exact hk
  exact .inr (.inl ⟨_, _, .inl rfl, Write.create seed mint hfree rfl⟩)

theorem lists_mint (h : CallsOn vm s u) {amount : UInt64}
    (hos : processMint vm.crypto u.env amount = .ok os)
    (hall : ∀ o ∈ os, ∃ r, Machine.DirectEffect u o r) :
    ∀ o ∈ os, Lists vm.crypto s u.env i o := by
  obtain ⟨mintAcc, authority, wallet, coinAcc, mint, coin, hacc, hmint, hauth, hsigner, hcoin,
    houts⟩ := processMint_ok hos
  have hheld := h.mintOf_eq_some (by simp [hacc]) hmint
  have hmarks : Marks u.env authority.1 := ⟨authority, by simp [hacc], rfl, hsigner⟩
  intro o ho
  rcases houts.mem ho with hlog | hmem
  · exact .inl hlog
  obtain ⟨r, heff⟩ := hall o ho
  simp only [List.mem_cons, List.not_mem_nil, or_false] at hmem
  rcases hmem with rfl | rfl
  · exact lists_credit h (by simp [hacc]) hcoin (.inl ⟨mint, _, hheld, hauth, hmarks⟩)
      ⟨mintAcc, by simp [hacc], rfl⟩ ⟨wallet, by simp [hacc], rfl⟩ heff
  · exact .inr (.inl ⟨_, _, .inr rfl, .govern _ mint.authority hheld hauth hmarks⟩)

/-- The outputs of a debit. -/
theorem lists_debit (hspends : i.Spends) {k : Pubkey} {coin : CoinAccount}
    (hat : CoinRead vm.crypto s u.env k coin) (hmarks : Marks u.env coin.owner) (balance : UInt64) :
    ∀ o ∈ Output.writeAccountData k (some (Borsh.serialize { coin with balance })) ::
      collectDust k balance, Lists vm.crypto s u.env i o := by
  intro o ho
  rcases List.mem_cons.1 ho with rfl | ho
  · exact .inr (.inl ⟨_, _, .inr rfl, .debit _ hat hspends hmarks⟩)
  · rw [collectDust] at ho
    split at ho
    · exact .inr (.inr ⟨k, List.mem_singleton.1 ho⟩)
    · cases ho

theorem lists_transfer (h : CallsOn vm s u) {amount : UInt64}
    (hos : processTransfer vm.crypto u.env amount = .ok os)
    (hall : ∀ o ∈ os, ∃ r, Machine.DirectEffect u o r) :
    ∀ o ∈ os, Lists vm.crypto s u.env (.transfer amount) o := by
  obtain ⟨mint, sw, sc, rw', rc, coin, credited, logs, hacc, -, hsender, hsigner, -, hrecipient,
    hlogs, rfl⟩ := processTransfer_ok hos
  obtain ⟨_, heff⟩ := hall _ (List.mem_append_left _ (List.mem_append_left _
    (List.mem_append_right _ List.mem_cons_self)))
  obtain ⟨hat, hmint, howner⟩ := h.coinRead (by simp [hacc]) ⟨mint, by simp [hacc], rfl⟩
    ⟨sw, by simp [hacc], rfl⟩ hsender heff
  have hmarks : Marks u.env coin.owner := ⟨sw, by simp [hacc], howner.symm, hsigner⟩
  intro o ho
  obtain ⟨r, heff'⟩ := hall o ho
  simp only [List.append_assoc, List.mem_append, List.mem_singleton] at ho
  rcases ho with ho | ho | ho | rfl
  · exact .inl (hlogs o ho)
  · exact lists_debit (i := .transfer amount) trivial hat hmarks _ o (List.mem_cons.2 (.inl ho))
  · exact lists_debit (i := .transfer amount) trivial hat hmarks _ o (List.mem_cons_of_mem _ ho)
  · exact lists_credit h (by simp [hacc]) hrecipient (.inr ⟨_, coin, hat, hmint⟩)
      ⟨mint, by simp [hacc], rfl⟩ ⟨rw', by simp [hacc], rfl⟩ heff'

theorem lists_burn (h : CallsOn vm s u) {amount : UInt64}
    (hos : processBurn vm.crypto u.env amount = .ok os)
    (hall : ∀ o ∈ os, ∃ r, Machine.DirectEffect u o r) :
    ∀ o ∈ os, Lists vm.crypto s u.env (.burn amount) o := by
  obtain ⟨mintAcc, wallet, coinAcc, mint, coin, hacc, hmint, hcoin, hsigner, -, houts⟩ :=
    processBurn_ok hos
  have hheld := h.mintOf_eq_some (by simp [hacc]) hmint
  obtain ⟨_, heff⟩ := hall _ (houts.subset (List.mem_cons_of_mem _ List.mem_cons_self))
  obtain ⟨hat, hof, howner⟩ := h.coinRead (by simp [hacc]) ⟨mintAcc, by simp [hacc], rfl⟩
    ⟨wallet, by simp [hacc], rfl⟩ hcoin heff
  have hmarks : Marks u.env coin.owner := ⟨wallet, by simp [hacc], howner.symm, hsigner⟩
  intro o ho
  rcases houts.mem ho with hlog | hmem
  · exact .inl hlog
  rcases List.mem_cons.1 hmem with rfl | hmem
  · exact .inr (.inl ⟨_, _, .inr rfl,
      .burn _ hheld (.inr ⟨_, coin, hat, hof⟩) (saturatingSub_le _ _)⟩)
  · exact lists_debit (i := .burn amount) trivial hat hmarks _ o hmem

theorem lists_setAuthority (h : CallsOn vm s u) {next : Option Pubkey}
    (hos : processSetAuthority vm.crypto u.env next = .ok os) :
    ∀ o ∈ os, Lists vm.crypto s u.env i o := by
  obtain ⟨mintAcc, authority, mint, hacc, hmint, hauth, hsigner, houts⟩ :=
    processSetAuthority_ok hos
  have hheld := h.mintOf_eq_some (by simp [hacc]) hmint
  intro o ho
  rcases houts.mem ho with hlog | hmem
  · exact .inl hlog
  obtain rfl := List.mem_singleton.1 hmem
  exact .inr (.inl ⟨_, _, .inr rfl,
    .govern mint.supply next hheld hauth ⟨authority, by simp [hacc], rfl, hsigner⟩⟩)

/-- **Every output of a call is listed.** -/
theorem lists_call (h : CallsOn vm s u) {rest : Bytes}
    (hi : Borsh.deserialize u.params = some (i, rest))
    (hos : contract vm.crypto u.env u.params = .ok os)
    (hall : ∀ o ∈ os, ∃ r, Machine.DirectEffect u o r) :
    ∀ o ∈ os, Lists vm.crypto s u.env i o := by
  simp only [contract, hi] at hos
  cases i with
  | create => exact lists_create h hos hall
  | mint => exact lists_mint h hos hall
  | transfer => exact lists_transfer h hos hall
  | burn => exact lists_burn h hos hall
  | setAuthority => exact lists_setAuthority h hos

/-! ## Dust -/

/-- Every address of the diff that is marked deleted is that of a coin
account, which the diff sets to one without coins. -/
def Dusty (C : Crypto H) (s : State) (env : Environment) (d : StateDiff) : Prop :=
  ∀ k ∈ d.deletes, ∃ a coin, CoinRead C s env k coin ∧ d.get k = some a ∧
    a.owner = some address ∧ a.data = some (Borsh.serialize { coin with balance := 0 })

/-- An output other than a deletion. -/
def Keeps (o : Output) : Prop := o.IsDirect ∧ ∀ k, o ≠ .deleteOwnedAccount k

/-- What a single output leaves behind. -/
theorem directEffect_keeps {o : Output} {r : TransactionOutput} (ho : Keeps o)
    (heff : Machine.DirectEffect u o r) (k : Pubkey) : k ∉ r.stateDiff.deletes := by
  cases heff with
  | log => exact StateDiff.not_mem_deletes_empty
  | delete => exact absurd rfl (ho.2 _)
  | _ => simp [StateDiff.mem_deletes_set]

theorem Dusty.keep {invoke : ExecutionUnit → Run TransactionOutput}
    {acc out : TransactionOutput} (hacc : Dusty C s u.env acc.stateDiff) (hos : ∀ o ∈ os, Keeps o)
    (h : vm.processOutputs u invoke acc os = some (.ok out)) : Dusty C s u.env out.stateDiff := by
  induction os generalizing acc with
  | nil =>
    obtain rfl : acc = out := by simpa [Machine.processOutputs] using h
    exact hacc
  | cons o os ih =>
    obtain ⟨r, hr, -, hrest⟩ := Machine.processOutputs_cons_ok h
    have hkeeps : Keeps o := hos o List.mem_cons_self
    have heff := Machine.directEffect_of_ok hkeeps.1 hr
    refine ih ?_ (fun o ho => hos o (List.mem_cons_of_mem _ ho)) hrest
    intro k hk
    -- a deletion that is still marked is an older one, of an address this output leaves alone
    rcases StateDiff.mem_deletes_merge.1 hk with hk | ⟨hk, hnone⟩
    · exact absurd hk (directEffect_keeps hkeeps heff k)
    · obtain ⟨a, coin, hread, hget, hrest⟩ := hacc k hk
      refine ⟨a, coin, hread, ?_, hrest⟩
      rw [TransactionOutput.merge, StateDiff.get_merge, hnone, hget]
      rfl

/-- A debit marks an account as deleted where it leaves no coins in it. -/
theorem Dusty.debit {invoke : ExecutionUnit → Run TransactionOutput}
    {acc out : TransactionOutput} (hacc : Dusty C s u.env acc.stateDiff) (hcall : CallsOn vm s u)
    {k : Pubkey} {coin : CoinAccount} (hat : CoinRead C s u.env k coin) {balance : UInt64}
    (h : vm.processOutputs u invoke acc
      (Output.writeAccountData k (some (Borsh.serialize { coin with balance })) ::
        collectDust k balance) = some (.ok out)) : Dusty C s u.env out.stateDiff := by
  by_cases hzero : balance = 0
  · rw [collectDust, if_pos hzero] at h
    obtain ⟨r, hr, -, h⟩ := Machine.processOutputs_cons_ok h
    obtain ⟨r', hr', -, h⟩ := Machine.processOutputs_cons_ok h
    obtain rfl : _ = out := by simpa [Machine.processOutputs] using h
    obtain ⟨a, ha, hset⟩ : ∃ a, u.state k = some a ∧ r.stateDiff = ({} : StateDiff).set k
        { a with data := some (Borsh.serialize { coin with balance }) } := by
      cases Machine.directEffect_of_ok (by trivial) hr with
      | write _ _ ha => exact ⟨_, ha, rfl⟩
    have hremove : r'.stateDiff = ({} : StateDiff).remove k := by
      cases Machine.directEffect_of_ok (by trivial) hr' with
      | delete => rfl
    have howner : a.owner = some address := by
      obtain ⟨acc, hacc, howner⟩ := hat.toCoinAt.owner
      rw [← hcall.state, ha] at hacc
      obtain rfl := Option.some.inj hacc
      exact howner
    intro k' hk'
    simp only [TransactionOutput.merge, hset, hremove, StateDiff.mem_deletes_merge,
      StateDiff.get_merge, StateDiff.get_remove, StateDiff.get_empty, Option.none_or] at hk' ⊢
    by_cases hkk : k = k'
    · subst hkk
      refine ⟨{ a with data := some (Borsh.serialize { coin with balance }) }, coin, hat, ?_,
        howner, by rw [hzero]⟩
      rw [StateDiff.get_set, if_pos rfl, Option.some_or]
    · have hold : k' ∈ acc.stateDiff.deletes := by
        simpa [StateDiff.mem_deletes_remove, StateDiff.mem_deletes_set, StateDiff.get_set, hkk]
          using hk'
      obtain ⟨a', coin', hread, hget, hrest⟩ := hacc k' hold
      exact ⟨a', coin', hread, by rw [StateDiff.get_set, if_neg hkk, StateDiff.get_empty,
        Option.none_or, hget], hrest⟩
  · rw [collectDust, if_neg hzero] at h
    refine hacc.keep ?_ h
    intro o ho
    obtain rfl := List.mem_singleton.1 ho
    exact ⟨trivial, by simp⟩

theorem dusty_empty : Dusty C s u.env ({} : StateDiff) := by
  intro k hk
  exact absurd hk StateDiff.not_mem_deletes_empty

private theorem keeps_of_log {o : Output} (h : ∃ key value, o = Output.logEntry key value) :
    Keeps o := by
  obtain ⟨key, value, rfl⟩ := h
  exact ⟨trivial, by simp⟩

private theorem keeps_credit (k m wallet : Pubkey) (amount : UInt64) (coin : Option CoinAccount) :
    Keeps (credit k m wallet amount coin) := by
  cases coin <;> exact ⟨trivial, by simp [credit]⟩

private theorem keeps_write (k : Pubkey) (data : Option Bytes) :
    Keeps (.writeAccountData k data) :=
  ⟨trivial, by simp⟩

/-- The outputs of a call, cut around the debit. -/
theorem Dusty.around {invoke : ExecutionUnit → Run TransactionOutput} {pre post : List Output}
    {out : TransactionOutput} (hcall : CallsOn vm s u) {k : Pubkey} {coin : CoinAccount}
    (hat : CoinRead C s u.env k coin) {balance : UInt64} (hpre : ∀ o ∈ pre, Keeps o)
    (hpost : ∀ o ∈ post, Keeps o)
    (h : vm.processOutputs u invoke {} (pre ++ (Output.writeAccountData k
      (some (Borsh.serialize { coin with balance })) :: collectDust k balance) ++ post) =
        some (.ok out)) : Dusty C s u.env out.stateDiff := by
  rw [Machine.processOutputs_append] at h
  split at h
  · rename_i mid hmid
    rw [Machine.processOutputs_append] at hmid
    split at hmid
    · rename_i first hfirst
      exact ((dusty_empty.keep hpre hfirst).debit hcall hat hmid).keep hpost h
    · rename_i hno
      exact absurd hmid (hno mid)
  · rename_i hno
    exact absurd h (hno out)

/-- **A call deletes nothing but emptied coin accounts.** -/
theorem dusty_call (h : CallsOn vm s u) {rest : Bytes}
    (hi : Borsh.deserialize u.params = some (i, rest))
    (hos : contract vm.crypto u.env u.params = .ok os)
    (hall : ∀ o ∈ os, ∃ r, Machine.DirectEffect u o r)
    {invoke : ExecutionUnit → Run TransactionOutput} {out : TransactionOutput}
    (hout : vm.processOutputs u invoke {} os = some (.ok out)) :
    Dusty vm.crypto s u.env out.stateDiff := by
  simp only [contract, hi] at hos
  cases i with
  | create =>
    obtain ⟨mint, houts⟩ := processCreate_ok hos
    refine dusty_empty.keep (fun o ho => ?_) hout
    rcases houts.mem ho with hlog | hmem
    · exact keeps_of_log hlog
    · obtain rfl := List.mem_singleton.1 hmem
      exact ⟨trivial, by simp⟩
  | mint =>
    obtain ⟨_, _, _, _, _, _, -, -, -, -, -, houts⟩ := processMint_ok hos
    refine dusty_empty.keep (fun o ho => ?_) hout
    rcases houts.mem ho with hlog | hmem
    · exact keeps_of_log hlog
    · simp only [List.mem_cons, List.not_mem_nil, or_false] at hmem
      rcases hmem with rfl | rfl
      · exact keeps_credit _ _ _ _ _
      · exact keeps_write _ _
  | setAuthority =>
    obtain ⟨_, _, _, -, -, -, -, houts⟩ := processSetAuthority_ok hos
    refine dusty_empty.keep (fun o ho => ?_) hout
    rcases houts.mem ho with hlog | hmem
    · exact keeps_of_log hlog
    · obtain rfl := List.mem_singleton.1 hmem
      exact keeps_write _ _
  | transfer amount =>
    obtain ⟨mint, sw, _, _, _, coin, _, logs, hacc, -, hsender, -, -, -, hlogs, rfl⟩ :=
      processTransfer_ok hos
    obtain ⟨_, heff⟩ := hall _ (List.mem_append_left _ (List.mem_append_left _
      (List.mem_append_right _ List.mem_cons_self)))
    obtain ⟨hat, -, -⟩ := h.coinRead (by simp [hacc]) ⟨mint, by simp [hacc], rfl⟩
      ⟨sw, by simp [hacc], rfl⟩ hsender heff
    rw [List.append_assoc logs, List.singleton_append] at hout
    refine Dusty.around h hat (fun o ho => keeps_of_log (hlogs o ho)) (fun o ho => ?_) hout
    obtain rfl := List.mem_singleton.1 ho
    exact keeps_credit _ _ _ _ _
  | burn amount =>
    obtain ⟨mintAcc, wallet, _, mint, coin, hacc, -, hcoin, -, -, houts⟩ := processBurn_ok hos
    obtain ⟨_, heff⟩ := hall _ (houts.subset (List.mem_cons_of_mem _ List.mem_cons_self))
    obtain ⟨hat, -, -⟩ := h.coinRead (by simp [hacc]) ⟨mintAcc, by simp [hacc], rfl⟩
      ⟨wallet, by simp [hacc], rfl⟩ hcoin heff
    obtain ⟨pre, post, hlogs, rfl⟩ := houts
    rw [List.cons_append, List.singleton_append, List.append_cons pre] at hout
    refine Dusty.around h hat (fun o ho => ?_) (fun o ho => ?_) hout
    · rcases List.mem_append.1 ho with ho | ho
      · exact keeps_of_log (hlogs o (List.mem_append_left _ ho))
      · obtain rfl := List.mem_singleton.1 ho
        exact keeps_write _ _
    · exact keeps_of_log (hlogs o (List.mem_append_right _ ho))

/-- Only accounts of the contract are written. -/
theorem Write.owner {env : Environment} {k : Pubkey} {bytes : Bytes}
    (h : Write C s env i k bytes) {a : Account} (ha : s k = some a) : a.owner = some address := by
  have hmint : ∀ mint, mintOf (s k) = some mint → a.owner = some address := by
    intro mint hmint
    rw [mintOf_eq, ha] at hmint
    obtain ⟨data, hdata, -⟩ := Option.bind_eq_some_iff.1 hmint
    obtain ⟨acc, hacc, howner, -⟩ := held_eq_some.1 hdata
    obtain rfl := Option.some.inj hacc
    exact howner
  have hcoin : ∀ coin, CoinRead C s env k coin → a.owner = some address := by
    intro coin hcoin
    obtain ⟨acc, hacc, howner⟩ := hcoin.toCoinAt.owner
    obtain rfl := Option.some.inj (ha.symm.trans hacc)
    exact howner
  cases h with
  | create seed mint hfree _ => rw [ha] at hfree; cases hfree
  | fund m wallet balance hfree _ _ => rw [ha] at hfree; cases hfree
  | credit balance hread _ => exact hcoin _ hread
  | debit balance hread _ _ => exact hcoin _ hread
  | govern supply next hheld _ _ => exact hmint _ hheld
  | burn supply hheld _ _ => exact hmint _ hheld

end Call

end Currency

end Rensa
