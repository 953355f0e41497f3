import Rensa.Vm.Unit
/-!
# Flags of nested calls

A contract chooses the accounts it hands to the contracts it calls, and
`newNested` takes its flags as they are. `NoEscalation` is the rule that
no nested unit is shown a signer, or a writable account, the transaction
did not list as such; `CoveredCalls` is the condition on the calls the
contracts make under which the machine keeps it, and the two coincide
(`noEscalation_iff_coveredCalls`). The rule the interface documents, that
a call passes on accounts of its caller with at most the caller's flags,
is one way to meet it (`noEscalation_of_callerFlags`).
-/

namespace Rensa

namespace Machine

open Relation

variable {H : Type} (vm : Machine H)

/-- The transaction lists the address as a signer. -/
def ListsSigner (tx : Transaction) (k : Pubkey) : Prop :=
  ∃ r ∈ tx.accounts, r.address = k ∧ r.signer = true

/-- The transaction lists the address as writable. -/
def ListsWritable (tx : Transaction) (k : Pubkey) : Prop :=
  ∃ r ∈ tx.accounts, r.address = k ∧ r.writable = true

/-- **No privilege escalation**: at every depth of the call tree of the
transaction, what a nested unit is shown as signer or as writable the
transaction lists as such. -/
def NoEscalation (tx : Transaction) (state : State) : Prop :=
  ∀ u, vm.newUnit tx state = .ok u → ∀ v, TransGen vm.Starts u v → ∀ p ∈ v.env.accounts,
    (p.2.signer = true → ListsSigner tx p.1) ∧ (p.2.writable = true → ListsWritable tx p.1)

/-- Every call that is reached asks for the signature only of addresses
the transaction lists as signers, and for write access, where
`create_environment` would grant it, only to addresses it lists as
writable. -/
def CoveredCalls (tx : Transaction) (state : State) : Prop :=
  ∀ u, vm.newUnit tx state = .ok u → ∀ w c accounts params v, ReflTransGen vm.Starts u w →
    vm.Calls w c accounts params v → ∀ r ∈ accounts,
      (r.signer = true → ListsSigner tx r.address) ∧
      (r.writable = true → vm.grantsWrite state c r = true → ListsWritable tx r.address)

variable {vm} {tx : Transaction} {state : State}

/-- The flags a called unit is shown, in terms of what the caller asked
for. -/
theorem mem_accounts_of_calls {w v : ExecutionUnit} {c : Pubkey} {accounts : List AccountRef}
    {params : Bytes} (h : vm.Calls w c accounts params v) {p : Pubkey × AccountView} :
    p ∈ v.env.accounts ↔ ∃ r ∈ accounts, vm.createAccountView w.state c r = p := by
  obtain ⟨_, _, _, _, _, _, hn⟩ := h
  rw [(newNested_ok hn).2.2]
  exact List.mem_map

/-- **The machine keeps the rule exactly when the contracts do**: nothing
in `newNested` bounds the flags a call asks for, so whether a nested unit
is shown a flag the transaction did not list depends on the calls
alone. -/
theorem noEscalation_iff_coveredCalls (vm : Machine H) (tx : Transaction) (state : State) :
    vm.NoEscalation tx state ↔ vm.CoveredCalls tx state := by
  constructor
  · intro h u hu w c accounts params v hw hcall r hr
    have hstate : w.state = state := by
      rw [state_eq_of_reaches hw, (newUnit_ok hu).2.2.2.2.1]
    have hreach : TransGen vm.Starts u v := TransGen.tail' hw ⟨c, accounts, params, hcall⟩
    have hview := h u hu v hreach _ ((mem_accounts_of_calls hcall).2 ⟨r, hr, rfl⟩)
    refine ⟨fun hs => hview.1 hs, fun hwr hg => hview.2 ?_⟩
    simp only [createAccountView, hstate, hwr, hg, Bool.and_self]
  · intro h u hu v hv p hp
    obtain ⟨w, hw, c, accounts, params, hcall⟩ := TransGen.tail'_iff.1 hv
    have hstate : w.state = state := by
      rw [state_eq_of_reaches hw, (newUnit_ok hu).2.2.2.2.1]
    obtain ⟨r, hr, rfl⟩ := (mem_accounts_of_calls hcall).1 hp
    obtain ⟨hsign, hwrite⟩ := h u hu w c accounts params v hw hcall r hr
    refine ⟨fun hs => hsign hs, fun hwr => ?_⟩
    simp only [createAccountView, hstate, Bool.and_eq_true] at hwr
    exact hwrite hwr.1 hwr.2

/-! ## The documented rule -/

/-- A call passes on accounts its caller was shown, with at most the
flags the caller has on them. -/
def CallerFlags (vm : Machine H) (tx : Transaction) (state : State) : Prop :=
  ∀ u, vm.newUnit tx state = .ok u → ∀ w c accounts params v, ReflTransGen vm.Starts u w →
    vm.Calls w c accounts params v → ∀ r ∈ accounts, ∃ p ∈ w.env.accounts, p.1 = r.address ∧
      (r.signer = true → p.2.signer = true) ∧ (r.writable = true → p.2.writable = true)

/-- What the top-level unit is shown, the transaction lists. -/
theorem listed_of_newUnit {u : ExecutionUnit} (hu : vm.newUnit tx state = .ok u)
    {p : Pubkey × AccountView} (hp : p ∈ u.env.accounts) :
    (p.2.signer = true → ListsSigner tx p.1) ∧ (p.2.writable = true → ListsWritable tx p.1) := by
  obtain ⟨-, -, -, -, -, -, -, henv⟩ := newUnit_ok hu
  rw [henv] at hp
  obtain ⟨r, hr, rfl⟩ := List.mem_map.1 hp
  refine ⟨fun hs => ⟨r, hr, rfl, hs⟩, fun hw => ⟨r, hr, rfl, ?_⟩⟩
  simp only [createAccountView, Bool.and_eq_true] at hw
  exact hw.1

/-- **Contracts that follow the documented rule cannot escalate**: by
induction along the call tree, every unit is shown no more than the
transaction lists. -/
theorem noEscalation_of_callerFlags (h : vm.CallerFlags tx state) : vm.NoEscalation tx state := by
  intro u hu
  have hall : ∀ w, ReflTransGen vm.Starts u w → ∀ p ∈ w.env.accounts,
      (p.2.signer = true → ListsSigner tx p.1) ∧ (p.2.writable = true → ListsWritable tx p.1) := by
    intro w hw
    induction hw with
    | refl => exact fun p hp => listed_of_newUnit hu hp
    | tail hw hs ih =>
      obtain ⟨c, accounts, params, hcall⟩ := hs
      intro p hp
      obtain ⟨r, hr, rfl⟩ := (mem_accounts_of_calls hcall).1 hp
      obtain ⟨q, hq, hqr, hsign, hwrite⟩ := h u hu _ c accounts params _ hw hcall r hr
      obtain ⟨ihs, ihw⟩ := ih q hq
      rw [hqr] at ihs ihw
      refine ⟨fun hs => ihs (hsign hs), fun hwr => ihw (hwrite ?_)⟩
      simp only [createAccountView, Bool.and_eq_true] at hwr
      exact hwr.1
  exact fun v hv => hall v hv.to_reflTransGen

/-! ## A contract that escalates -/

namespace Sample

/-- The contract at address 200 calls the one at 201 with the account of
address 7 as a writable signer; the one at 201 does nothing. -/
def escalating : Machine Bytes where
  crypto := sampleCrypto
  limits := limits
  builtin k :=
    if k = 200 then some fun _ _ => .ok [.contractInvoke 201 [⟨7, true, true⟩] []]
    else if k = 201 then some fun _ _ => .ok []
    else none
  runtime _ := .error .accountIsNotExecutable

/-- A transaction of payer 1 that lists no account. -/
def plain : Transaction :=
  let tx : Transaction :=
    { contract := 200, nonce := 0, payer := 1, accounts := [], params := [], signatures := [] }
  { tx with signatures := [sign 1 tx] }

end Sample

/-- **The rule fails**: a transaction signed by its payer alone, listing no
account, gives the contract at 201 the account of address 7 as a writable
signer. -/
theorem escalating_not_noEscalation :
    Sample.plain.verifySignatures sampleCrypto = .ok () ∧
      ¬ Sample.escalating.NoEscalation Sample.plain fun _ => none := by
  refine ⟨by decide, fun h => ?_⟩
  let env (k : Pubkey) (accounts : List AccountRef) (caller : Option Pubkey) : Environment :=
    Sample.escalating.createEnvironment (fun _ => none) accounts k caller
  let u : ExecutionUnit :=
    { entrypoint := fun _ _ => .ok [.contractInvoke 201 [⟨7, true, true⟩] []]
      env := env 200 [] none, state := fun _ => none, contract := 200, params := [] }
  let v : ExecutionUnit :=
    { entrypoint := fun _ _ => .ok []
      env := env 201 [⟨7, true, true⟩] (some 200), state := fun _ => none, contract := 201
      params := [] }
  have hu : Sample.escalating.newUnit Sample.plain (fun _ => none) = .ok u := rfl
  have hv : Sample.escalating.Starts u v :=
    ⟨201, [⟨7, true, true⟩], [], [], [], 0, {}, rfl, rfl, rfl⟩
  obtain ⟨r, hr, -⟩ := (h u hu v (TransGen.single hv) _ List.mem_cons_self).1 rfl
  cases hr

end Machine

end Rensa
