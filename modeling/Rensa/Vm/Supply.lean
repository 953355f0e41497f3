import Rensa.Vm.Writes
/-!
# Supply and balances

A mint records how many coins it has given out. Minting and burning change
that number and the balance of one coin account, with arithmetic that
saturates in each of them on its own, so the two move by the same amount
(`MovesBy`) only where neither saturates: `movesBy_mint_iff` and
`movesBy_burn_iff` say when, for every call of the contract that succeeds.
-/

namespace Rensa

namespace Currency

/-- The supply a mint records, zero where there is no mint. -/
def supply (s : State) (mint : Pubkey) : ℕ := ((supplyOf (s mint)).map UInt64.toNat).getD 0

/-- The coins of a mint in all the accounts of its wallets, of which the
mint's own account is none. -/
noncomputable def circulation (s : State) (mint : Pubkey) : ℕ :=
  ∑ k ∈ Finset.univ.erase mint, balanceOf mint (s k)

/-- **Supply and balance move by the same amount**, as integers, so that
what the supply is ahead of all balances stays as it is. -/
structure MovesBy (mint coin : Pubkey) (delta : ℤ) (s s' : State) : Prop where
  supply : (supply s' mint : ℤ) = supply s mint + delta
  balance : (balanceOf mint (s' coin) : ℤ) = balanceOf mint (s coin) + delta
  ahead : (Currency.supply s' mint : ℤ) - circulation s' mint =
    Currency.supply s mint - circulation s mint

/-! ## Two accounts change -/

/-- What is in circulation after one coin account changed, and the mint. -/
theorem circulation_update {s : State} {mint coin : Pubkey} {a b : Option Account}
    (hne : coin ≠ mint) :
    circulation (Function.update (Function.update s coin b) mint a) mint +
        balanceOf mint (s coin) = circulation s mint + balanceOf mint b := by
  have hmem : coin ∈ Finset.univ.erase mint := Finset.mem_erase.2 ⟨hne, Finset.mem_univ _⟩
  have hsplit : ∀ t : State, circulation t mint = balanceOf mint (t coin) +
      ∑ k ∈ (Finset.univ.erase mint).erase coin, balanceOf mint (t k) := fun t =>
    (Finset.add_sum_erase _ (fun k => balanceOf mint (t k)) hmem).symm
  have hrest : ∑ k ∈ (Finset.univ.erase mint).erase coin,
      balanceOf mint (Function.update (Function.update s coin b) mint a k) =
        ∑ k ∈ (Finset.univ.erase mint).erase coin, balanceOf mint (s k) := by
    refine Finset.sum_congr rfl fun k hk => ?_
    obtain ⟨hkc, hk⟩ := Finset.mem_erase.1 hk
    rw [Function.update_of_ne (Finset.mem_erase.1 hk).1, Function.update_of_ne hkc]
  rw [hsplit, hsplit s, hrest, Function.update_of_ne hne, Function.update_self]
  omega

/-- The mint and one coin account change: what is asked of the sum follows
from what is asked of the two. -/
theorem movesBy_update_iff {s : State} {mint coin : Pubkey} {a b : Option Account} {delta : ℤ}
    (hne : coin ≠ mint) :
    MovesBy mint coin delta s (Function.update (Function.update s coin b) mint a) ↔
      (((supplyOf a).map UInt64.toNat).getD 0 : ℤ) = supply s mint + delta ∧
        (balanceOf mint b : ℤ) = balanceOf mint (s coin) + delta := by
  have hsupply : supply (Function.update (Function.update s coin b) mint a) mint =
      ((supplyOf a).map UInt64.toNat).getD 0 := by
    rw [supply, Function.update_self]
  have hbalance : balanceOf mint (Function.update (Function.update s coin b) mint a coin) =
      balanceOf mint b := by
    rw [Function.update_of_ne hne, Function.update_self]
  have hsum := circulation_update (s := s) (a := a) (b := b) hne
  constructor
  · intro h
    have h₁ := h.supply
    have h₂ := h.balance
    rw [hsupply] at h₁
    rw [hbalance] at h₂
    exact ⟨h₁, h₂⟩
  · rintro ⟨h₁, h₂⟩
    refine ⟨by rw [hsupply]; exact h₁, by rw [hbalance]; exact h₂, ?_⟩
    rw [hsupply]
    omega

/-- A mint that is written with another supply. -/
theorem supplyOf_serialize {a : Account} (h : a.owner = some address) (mint : Mint) :
    supplyOf (some { a with data := some (Borsh.serialize mint) }) = some mint.supply := by
  simp [supplyOf, h]

theorem toNat_saturatingSub_eq (a b : UInt64) :
    (saturatingSub a b).toNat = a.toNat - b.toNat := by
  by_cases h : b ≤ a
  · exact toNat_saturatingSub h
  · rw [saturatingSub, if_neg h]
    rw [UInt64.le_iff_toNat_le] at h
    change 0 = _
    omega

/-! ## What a call does to the state -/

section Call

variable {H : Type} {vm : Machine H} {s : State} {u : ExecutionUnit} {os : List Output}
  {amount : UInt64}

/-- The log changes nothing. -/
theorem OutputsAre.foldl_effect {changes : List Output} (h : OutputsAre os changes) (s : State) :
    os.foldl (fun s o => Machine.effect u o s) s =
      changes.foldl (fun s o => Machine.effect u o s) s := by
  obtain ⟨pre, post, hlogs, rfl⟩ := h
  rw [List.foldl_append, List.foldl_append,
    foldl_effect_logs fun o ho => hlogs o (List.mem_append_left _ ho),
    foldl_effect_logs fun o ho => hlogs o (List.mem_append_right _ ho)]

/-- A mint that is read and written with another supply. -/
theorem CallsOn.effect_mint (h : CallsOn vm s u) {p : Pubkey × AccountView}
    (hp : p ∈ u.env.accounts) {mint : Mint}
    (hread : readCoinMint vm.crypto p.1 p.2 u.env = .ok mint) (n : UInt64) (t : State) :
    supply s p.1 = mint.supply.toNat ∧ ∃ a,
      Machine.effect u
        (.writeAccountData p.1 (some (Borsh.serialize { mint with supply := n }))) t =
          Function.update t p.1 a ∧ supplyOf a = some n := by
  have hmint := h.mintOf_eq_some hp hread
  rw [mintOf_eq] at hmint
  obtain ⟨data, hheld, hdata⟩ := Option.bind_eq_some_iff.1 hmint
  obtain ⟨a, ha, howner, rfl⟩ := held_eq_some.1 hheld
  refine ⟨?_, some { a with data := some (Borsh.serialize { mint with supply := n }) }, ?_, ?_⟩
  · simp [supply, supplyOf, ha, howner, hdata]
  · simp only [Machine.effect, h.state, ha, Option.map_some]
  · exact supplyOf_serialize howner _

/-- What a call reads of a coin account: it is off the curve, and not the
mint, whose coins it holds. -/
theorem CallsOn.readsCoin (h : CallsOn vm s u) {mint wallet coin : Pubkey × AccountView}
    {r : Option CoinAccount} (hcoin : coin ∈ u.env.accounts)
    (hread : readCoinAccount vm.crypto coin.1 coin.2 mint.1 wallet.1 u.env = .ok r)
    (hmint : coinAddress vm.crypto mint.1 wallet.1 ≠ mint.1) :
    coin.1 ≠ mint.1 ∧ vm.crypto.hasPrivateKey coin.1 = false ∧
      ((s coin.1).bind Account.data).bind (Borsh.tryFromSlice CoinAccount) = r ∧
      ∀ c ∈ r, c.mint = mint.1 := by
  obtain ⟨hderived, hdata, -, hof⟩ := readCoinAccount_ok hread
  rw [h.address] at hderived
  rw [(h.view hcoin).2] at hdata
  refine ⟨?_, ?_, hdata, fun c hc => (hof c hc).1⟩
  · rw [hderived]
    exact hmint
  · rw [hderived]
    exact Pubkey.hasPrivateKey_derive _ _ _

/-- **A call that mints**: the supply and the balance grow by the amount
unless one of them saturates. -/
theorem movesBy_processMint_iff (h : CallsOn vm s u)
    (hos : processMint vm.crypto u.env amount = .ok os)
    (hall : ∀ o ∈ os, ∃ r, Machine.DirectEffect u o r)
    (hmint : ∀ m ∈ u.env.accounts.head?, ∀ w ∈ u.env.accounts,
      coinAddress vm.crypto m.1 w.1 ≠ m.1) :
    ∃ mint authority wallet coin, u.env.accounts = [mint, authority, wallet, coin] ∧
      (MovesBy mint.1 coin.1 amount.toNat s (os.foldl (fun s o => Machine.effect u o s) s) ↔
        supply s mint.1 + amount.toNat < 2 ^ 64 ∧
          balanceOf mint.1 (s coin.1) + amount.toNat < 2 ^ 64) := by
  obtain ⟨mint, authority, wallet, coin, m, r, hacc, hreadMint, -, -, hreadCoin, houts⟩ :=
    processMint_ok hos
  refine ⟨mint, authority, wallet, coin, hacc, ?_⟩
  obtain ⟨accounts, caller, henv⟩ := h.env
  have hmem : ∀ p ∈ [mint, authority, wallet, coin], p ∈ u.env.accounts := fun p hp => hacc ▸ hp
  obtain ⟨hne, hoff, hread, hcoin⟩ := h.readsCoin (hmem coin (by simp)) hreadCoin
    (hmint mint (by simp [hacc]) wallet (hmem _ (by simp)))
  obtain ⟨_, heff⟩ := hall _ (houts.subset List.mem_cons_self)
  obtain ⟨b, hb, hbal, -⟩ := balanceOf_credit h.contract h.state henv hoff hread hcoin heff s
  obtain ⟨hsupply, a, ha, hsup⟩ := h.effect_mint (hmem mint (by simp)) hreadMint
    (saturatingAdd m.supply amount) (Function.update s coin.1 (some b))
  rw [houts.foldl_effect, List.foldl_cons, List.foldl_cons, List.foldl_nil, hb, ha,
    movesBy_update_iff hne, hsup, hbal, hsupply]
  have hlt : m.supply.toNat < 2 ^ 64 := m.supply.toNat_lt
  have hlt' := balanceOf_lt mint.1 (s coin.1)
  simp only [Option.map_some, Option.getD_some, toNat_saturatingAdd]
  omega

/-- **A call that burns**: the balance shrinks by the amount, which it was
compared with, and the supply too unless it was less. -/
theorem movesBy_processBurn_iff (h : CallsOn vm s u)
    (hos : processBurn vm.crypto u.env amount = .ok os)
    (hall : ∀ o ∈ os, ∃ r, Machine.DirectEffect u o r)
    (hmint : ∀ m ∈ u.env.accounts.head?, ∀ w ∈ u.env.accounts,
      coinAddress vm.crypto m.1 w.1 ≠ m.1) :
    ∃ mint wallet coin, u.env.accounts = [mint, wallet, coin] ∧
      (MovesBy mint.1 coin.1 (-amount.toNat) s (os.foldl (fun s o => Machine.effect u o s) s) ↔
        amount.toNat ≤ supply s mint.1) := by
  obtain ⟨mint, wallet, coin, m, c, hacc, hreadMint, hreadCoin, -, hle, houts⟩ :=
    processBurn_ok hos
  refine ⟨mint, wallet, coin, hacc, ?_⟩
  obtain ⟨accounts, caller, henv⟩ := h.env
  have hmem : ∀ p ∈ [mint, wallet, coin], p ∈ u.env.accounts := fun p hp => hacc ▸ hp
  obtain ⟨hne, hoff, hread, hcoin⟩ := h.readsCoin (hmem coin (by simp)) hreadCoin
    (hmint mint (by simp [hacc]) wallet (hmem _ (by simp)))
  obtain ⟨hsupply, a, ha, hsup⟩ := h.effect_mint (hmem mint (by simp)) hreadMint
    (saturatingSub m.supply amount) s
  obtain ⟨_, heff⟩ := hall _ (houts.subset
    (List.mem_append_left _ (List.mem_cons_of_mem _ List.mem_cons_self)))
  obtain ⟨hheld, b, hb, hbal⟩ := balanceOf_debit h.state henv hoff hread (hcoin c rfl) hle heff
    (Function.update s mint.1 a)
  rw [houts.foldl_effect, List.foldl_append, List.foldl_cons, List.foldl_cons, List.foldl_nil, ha,
    hb, Function.update_comm hne.symm, movesBy_update_iff hne, hsup, hbal, hsupply, hheld]
  have hle' : amount.toNat ≤ c.balance.toNat := UInt64.le_iff_toNat_le.1 hle
  simp only [Option.map_some, Option.getD_some, toNat_saturatingSub_eq]
  omega

/-- **A transaction that runs the contract**: the outputs of the call, and
what they do to the state one after another. -/
theorem exists_call {fuel : ℕ} {tx : Transaction} {out : TransactionOutput}
    (hbuiltin : vm.builtin address = some (contract vm.crypto)) (hcontract : tx.contract = address)
    (h : vm.executeTransaction fuel tx s = some (.ok out)) :
    ∃ u os, CallsOn vm s u ∧
      u.env.accounts = tx.accounts.map (vm.createAccountView s address) ∧
      contract vm.crypto u.env tx.params = .ok os ∧
      (∀ o ∈ os, ∃ r, Machine.DirectEffect u o r) ∧
      out.stateDiff.layOver s = os.foldl (fun s o => Machine.effect u o s) s := by
  obtain ⟨u, hu, h⟩ := Machine.executeTransaction_ok h
  obtain ⟨hstate, hcontract', hparams, hentry, henv⟩ := newUnit_currency hbuiltin hcontract hu
  obtain - | fuel := fuel
  · cases h
  simp only [Machine.execute, hentry, hparams] at h
  split at h
  · simp at h
  rename_i os hos
  obtain ⟨hall, hlay⟩ := Machine.processOutputs_direct (isDirect_call hos) h
  refine ⟨u, os, ⟨hstate, hcontract', hentry, _, _, henv⟩, by rw [henv]; rfl, hos, hall, ?_⟩
  rw [hlay, StateDiff.layOver_empty]

/-- The environment lists the accounts of the transaction. -/
theorem coinAddress_ne_of_env {tx : Transaction} {accounts : List (Pubkey × AccountView)}
    (haccounts : accounts = tx.accounts.map (vm.createAccountView s address))
    (hmint : ∀ m ∈ tx.accounts.head?, ∀ w ∈ tx.accounts,
      coinAddress vm.crypto m.address w.address ≠ m.address) :
    ∀ m ∈ accounts.head?, ∀ w ∈ accounts, coinAddress vm.crypto m.1 w.1 ≠ m.1 := by
  intro m hm w hw
  rw [haccounts] at hm hw
  rw [List.head?_map] at hm
  obtain ⟨p, hp, rfl⟩ := Option.map_eq_some_iff.1 hm
  obtain ⟨q, hq, rfl⟩ := List.mem_map.1 hw
  exact hmint p hp q hq

theorem movesBy_mint_iff {fuel : ℕ} {tx : Transaction} {rest : Bytes} {out : TransactionOutput}
    (hbuiltin : vm.builtin address = some (contract vm.crypto)) (hcontract : tx.contract = address)
    (hmint : ∀ m ∈ tx.accounts.head?, ∀ w ∈ tx.accounts,
      coinAddress vm.crypto m.address w.address ≠ m.address)
    (h : vm.executeTransaction fuel tx s = some (.ok out))
    (hparams : Borsh.deserialize tx.params = some (Instruction.mint amount, rest)) :
    ∃ mint authority wallet coin, tx.accounts = [mint, authority, wallet, coin] ∧
      (MovesBy mint.address coin.address amount.toNat s (out.stateDiff.layOver s) ↔
        supply s mint.address + amount.toNat < 2 ^ 64 ∧
          balanceOf mint.address (s coin.address) + amount.toNat < 2 ^ 64) := by
  obtain ⟨u, os, hcall, haccounts, hos, hall, hlay⟩ := exists_call hbuiltin hcontract h
  simp only [contract, hparams] at hos
  obtain ⟨_, _, _, _, hacc, hiff⟩ := movesBy_processMint_iff hcall hos hall
    (coinAddress_ne_of_env haccounts hmint)
  simp only [haccounts, List.map_eq_cons_iff, List.map_eq_nil_iff] at hacc
  obtain ⟨mint, _, htx, rfl, authority, _, rfl, rfl, wallet, _, rfl, rfl, coin, _, rfl, rfl,
    rfl⟩ := hacc
  rw [hlay]
  exact ⟨mint, authority, wallet, coin, htx, hiff⟩

theorem movesBy_burn_iff {fuel : ℕ} {tx : Transaction} {rest : Bytes} {out : TransactionOutput}
    (hbuiltin : vm.builtin address = some (contract vm.crypto)) (hcontract : tx.contract = address)
    (hmint : ∀ m ∈ tx.accounts.head?, ∀ w ∈ tx.accounts,
      coinAddress vm.crypto m.address w.address ≠ m.address)
    (h : vm.executeTransaction fuel tx s = some (.ok out))
    (hparams : Borsh.deserialize tx.params = some (Instruction.burn amount, rest)) :
    ∃ mint wallet coin, tx.accounts = [mint, wallet, coin] ∧
      (MovesBy mint.address coin.address (-amount.toNat) s (out.stateDiff.layOver s) ↔
        amount.toNat ≤ supply s mint.address) := by
  obtain ⟨u, os, hcall, haccounts, hos, hall, hlay⟩ := exists_call hbuiltin hcontract h
  simp only [contract, hparams] at hos
  obtain ⟨_, _, _, hacc, hiff⟩ := movesBy_processBurn_iff hcall hos hall
    (coinAddress_ne_of_env haccounts hmint)
  simp only [haccounts, List.map_eq_cons_iff, List.map_eq_nil_iff] at hacc
  obtain ⟨mint, _, htx, rfl, wallet, _, rfl, rfl, coin, _, rfl, rfl, rfl⟩ := hacc
  rw [hlay]
  exact ⟨mint, wallet, coin, htx, hiff⟩

/-- **When minting and burning keep supply and balances in step.** For every
state, every list of accounts and every amount: a `Mint` that succeeds
raises the supply and the balance by the amount if and only if both of them
fit, and a `Burn` that succeeds lowers them by the amount if and only if the
supply is not less than it. The hypothesis on `coinAddress` says that no
mint is its own coin account. -/
theorem movesBy_iff (vm : Machine H) (fuel : ℕ) (tx : Transaction) (s : State) (amount : UInt64)
    (rest : Bytes) (out : TransactionOutput)
    (hbuiltin : vm.builtin address = some (contract vm.crypto)) (hcontract : tx.contract = address)
    (hmint : ∀ m ∈ tx.accounts.head?, ∀ w ∈ tx.accounts,
      coinAddress vm.crypto m.address w.address ≠ m.address)
    (h : vm.executeTransaction fuel tx s = some (.ok out)) :
    (Borsh.deserialize tx.params = some (Instruction.mint amount, rest) →
      ∃ mint authority wallet coin, tx.accounts = [mint, authority, wallet, coin] ∧
        (MovesBy mint.address coin.address amount.toNat s (out.stateDiff.layOver s) ↔
          supply s mint.address + amount.toNat < 2 ^ 64 ∧
            balanceOf mint.address (s coin.address) + amount.toNat < 2 ^ 64)) ∧
      (Borsh.deserialize tx.params = some (Instruction.burn amount, rest) →
        ∃ mint wallet coin, tx.accounts = [mint, wallet, coin] ∧
          (MovesBy mint.address coin.address (-amount.toNat) s (out.stateDiff.layOver s) ↔
            amount.toNat ≤ supply s mint.address)) :=
  ⟨movesBy_mint_iff hbuiltin hcontract hmint h, movesBy_burn_iff hbuiltin hcontract hmint h⟩

end Call

/-! ## A supply that saturates -/

namespace Sample

open Machine.Sample (sign)

/-- A mint at address 1000 with authority 1 and a supply of `n`. -/
def mintWith (n : UInt64) : State := fun k =>
  if k = 1000 then some
    { owner := some address
      data := some (Borsh.serialize
        ({ authority := some 1, supply := n, decimals := 0, name := none,
           symbol := none } : Mint)) }
  else none

/-- The authority mints 30 coins for wallet 2, which has none. -/
def issuance : Transaction :=
  let tx : Transaction :=
    { contract := address, nonce := 0, payer := 1, signatures := []
      params := Borsh.serialize (Instruction.mint 30)
      accounts := [⟨1000, true, false⟩, ⟨1, false, true⟩, ⟨2, false, false⟩,
        ⟨coinAt 2, true, false⟩] }
  { tx with signatures := [sign 1 tx, sign 1 tx] }

end Sample

open Sample in
private theorem issue_facts :
    Borsh.deserialize issuance.params = some (Instruction.mint 30, []) ∧
      ∀ m ∈ issuance.accounts.head?, ∀ w ∈ issuance.accounts,
        coinAddress machine.crypto m.address w.address ≠ m.address := by
  refine ⟨Borsh.deserialize_serialize (Instruction.mint 30) [], ?_⟩
  rintro _ ⟨rfl⟩
  decide +kernel

open Sample in
/-- From a supply of 100 the 30 coins are in both numbers. -/
theorem movesBy_issue :
    ∃ out, machine.executeTransaction 1 issuance (mintWith 100) = some (.ok out) ∧
    MovesBy 1000 (coinAt 2) 30 (mintWith 100) (out.stateDiff.layOver (mintWith 100)) := by
  obtain ⟨out, hout⟩ := exists_ok
    (r := machine.executeTransaction 1 issuance (mintWith 100)) (by decide +kernel)
  obtain ⟨_, _, _, _, hacc, hiff⟩ := (movesBy_iff machine 1 issuance (mintWith 100) 30 [] out
    machine_builtin rfl issue_facts.2 hout).1 issue_facts.1
  cases hacc
  exact ⟨out, hout, hiff.2 (by decide)⟩

open Sample in
/-- **A mint at the end of its range**: from a supply of `2 ^ 64 - 11` it
grows by ten, and the wallet has thirty coins more. -/
theorem issue_not_movesBy :
    ∃ out, machine.executeTransaction 1 issuance (mintWith (-11)) = some (.ok out) ∧
      ¬ MovesBy 1000 (coinAt 2) 30 (mintWith (-11)) (out.stateDiff.layOver (mintWith (-11))) := by
  obtain ⟨out, hout⟩ := exists_ok
    (r := machine.executeTransaction 1 issuance (mintWith (-11))) (by decide +kernel)
  obtain ⟨_, _, _, _, hacc, hiff⟩ := movesBy_mint_iff machine_builtin rfl issue_facts.2 hout
    issue_facts.1
  cases hacc
  exact ⟨out, hout, fun h => absurd (hiff.1 h) (by decide)⟩

end Currency

end Rensa
