import Rensa.Vm.Unit
/-!
# Accounts of contracts are changed by their owners only

Whatever the contracts of a call tree ask for, an account off the curve
that exists before a transaction is overwritten or deleted only by
outputs of the contract that owns it, never when it is executable, and an
overwritten account keeps its owner, its nonce and its flag. Each output
is checked against the one state all units of the tree run on, so the
result follows from what a single direct output may do.
-/

namespace Rensa

open Relation

namespace ExecutionUnit

variable {u : ExecutionUnit} {k : Pubkey} {d : StateDiff}

theorem grants_of_deleteAccount_ok (h : u.deleteAccount k = .ok d) : u.Grants k := by
  simp only [deleteAccount] at h
  split at h
  · cases h
  · rename_i hfind
    split at h
    · cases h
    · split at h
      · rename_i hw
        exact ⟨_, hfind, hw⟩
      · cases h

end ExecutionUnit

namespace Machine

variable {H : Type} {vm : Machine H} {u v : ExecutionUnit} {k : Pubkey}

/-- **The output `o` changes the account `k`**: `v`, a unit of the call
tree of `u`, emits it, and its own diff sets or deletes the address. -/
structure Causes (vm : Machine H) (u v : ExecutionUnit) (o : Output) (k : Pubkey) : Prop where
  reaches : ReflTransGen vm.Starts u v
  emits : ∃ os, v.entrypoint v.env v.params = .ok os ∧ o ∈ os
  direct : o.IsDirect
  touches : ∃ invoke r, vm.processOutput v invoke o = some (.ok r) ∧ r.stateDiff.Touches k

/-- The unit runs on `state`, and sees it through the environment built
for its contract. -/
def RunsOn (vm : Machine H) (state : State) (u : ExecutionUnit) : Prop :=
  u.state = state ∧
    ∃ accounts caller, u.env = vm.createEnvironment state accounts u.contract caller

theorem runsOn_newUnit {tx : Transaction} {state : State} (h : vm.newUnit tx state = .ok u) :
    vm.RunsOn state u := by
  obtain ⟨-, -, -, -, hstate, hcontract, -, henv⟩ := newUnit_ok h
  refine ⟨hstate, tx.accounts, none, ?_⟩
  rw [henv, hcontract]

theorem RunsOn.start {state : State} (h : vm.RunsOn state u) (hs : vm.Starts u v) :
    vm.RunsOn state v := by
  obtain ⟨c, accounts, params, -, -, -, -, -, -, hn⟩ := hs
  obtain ⟨hstate, hcontract, henv⟩ := newNested_ok hn
  refine ⟨by rw [hstate, h.1], accounts, some u.contract, ?_⟩
  rw [henv, hcontract, h.1]

theorem RunsOn.reaches {state : State} (h : vm.RunsOn state u)
    (hr : ReflTransGen vm.Starts u v) : vm.RunsOn state v := by
  induction hr with
  | refl => exact h
  | tail _ hs ih => exact ih.start hs

/-- What is left of an account that may only be overwritten by its
owner. -/
def Kept (acc a : Account) : Prop :=
  a.owner = acc.owner ∧ a.nonce = acc.nonce ∧ a.executable = acc.executable

section Output

variable {state : State} {acc : Account}

/-- **One direct output on an account off the curve** that exists: its
unit runs the contract that owns the account, the account is not
executable, and what is set there keeps it. -/
theorem RunsOn.directEffect (h : vm.RunsOn state u) {o : Output} {r : TransactionOutput}
    (he : DirectEffect u o r) (hk : vm.crypto.hasPrivateKey k = false) (ha : state k = some acc)
    (ht : r.stateDiff.Touches k) :
    (acc.executable = false ∧ acc.owner = some u.contract) ∧
      ∀ a, r.stateDiff.get k = some a → Kept acc a := by
  obtain ⟨hstate, accounts, caller, henv⟩ := h
  have hgrants : u.Grants k → acc.executable = false ∧ acc.owner = some u.contract :=
    fun hw => grants_ofEnvironment henv hw hk ha
  -- a diff that sets or deletes one address touches no other
  have hset : ∀ {k' : Pubkey} {b : Account}, (({} : StateDiff).set k' b).Touches k → k' = k := by
    intro k' b htouch
    by_contra hne
    rcases htouch with hsome | hdel
    · rw [StateDiff.get_set, if_neg hne, StateDiff.get_empty] at hsome
      cases hsome
    · exact StateDiff.not_mem_deletes_empty (StateDiff.mem_deletes_set.1 hdel).2
  cases he with
  | log key value =>
    rcases ht with hsome | hdel
    · rw [StateDiff.get_empty] at hsome
      cases hsome
    · exact absurd hdel StateDiff.not_mem_deletes_empty
  | create data _ hnone =>
    obtain rfl := hset ht
    rw [hstate, ha] at hnone
    cases hnone
  | write data hw hsome =>
    obtain rfl := hset ht
    rw [hstate, ha] at hsome
    obtain rfl := Option.some.inj hsome
    refine ⟨hgrants hw, ?_⟩
    intro a hget
    rw [StateDiff.get_set, if_pos rfl] at hget
    obtain rfl := Option.some.inj hget
    exact ⟨rfl, rfl, rfl⟩
  | delete hdelete =>
    rcases ht with hsome | hdel
    · rw [StateDiff.get_remove, StateDiff.get_empty] at hsome
      cases hsome
    · rcases StateDiff.mem_deletes_remove.1 hdel with rfl | hempty
      · refine ⟨hgrants (ExecutionUnit.grants_of_deleteAccount_ok hdelete), ?_⟩
        intro a hget
        rw [StateDiff.get_remove, StateDiff.get_empty] at hget
        cases hget
      · exact absurd hempty StateDiff.not_mem_deletes_empty
  | createExecutable bytecode _ _ hnone =>
    obtain rfl := hset ht
    rw [hstate, ha] at hnone
    cases hnone

end Output

section Execution

variable {tx : Transaction} {state : State} {out : TransactionOutput} {fuel : ℕ}

/-- Every change of an execution has an output that causes it. -/
theorem exists_causes (h : vm.execute fuel u = some (.ok out)) (ht : out.stateDiff.Touches k) :
    ∃ v o, vm.Causes u v o k := by
  refine execute_rule (Q := fun v => ReflTransGen vm.Starts u v)
    (P := fun out => out.stateDiff.Touches k → ∃ v o, vm.Causes u v o k)
    (fun _ _ hw hs => hw.tail hs) ?_ ?_ ?_ ReflTransGen.refl h ht
  · rintro (hsome | hdel)
    · rw [StateDiff.get_empty] at hsome
      cases hsome
    · exact absurd hdel StateDiff.not_mem_deletes_empty
  · intro a b hPa hPb hab
    rcases StateDiff.touches_merge.1 hab with hta | htb
    · exact hPa hta
    · exact hPb htb
  · intro v hv os hos o ho hdir invoke r hr htouch
    exact ⟨v, o, hv, ⟨os, hos, ho⟩, hdir, invoke, r, hr, htouch⟩

/-- What an execution sets at an account off the curve keeps it. -/
theorem kept_of_execute (hu : vm.RunsOn state u) (h : vm.execute fuel u = some (.ok out))
    (hk : vm.crypto.hasPrivateKey k = false) {acc : Account} (ha : state k = some acc) :
    ∀ a, out.stateDiff.get k = some a → Kept acc a := by
  refine execute_rule (Q := fun v => vm.RunsOn state v)
    (P := fun out => ∀ a, out.stateDiff.get k = some a → Kept acc a)
    (fun _ _ hw hs => hw.start hs) ?_ ?_ ?_ hu h
  · intro a hget
    rw [StateDiff.get_empty] at hget
    cases hget
  · intro a b hPa hPb c hget
    rw [TransactionOutput.merge, StateDiff.get_merge, Option.or_eq_some_iff] at hget
    rcases hget with hget | ⟨-, hget⟩
    · exact hPb c hget
    · exact hPa c hget
  · intro v hv os hos o ho hdir invoke r hr a hget
    have htouch : r.stateDiff.Touches k := .inl (by rw [hget]; rfl)
    exact (hv.directEffect (directEffect_of_ok hdir hr) hk ha htouch).2 a hget

/-- **Contract ownership isolation.** A transaction whose diff overwrites
or deletes an account off the curve that existed before it does so
through outputs of the contract that owns the account, at whatever depth
they are emitted; the account was not executable, and where it is
overwritten its owner, its nonce and its executable flag stay. -/
theorem ownership_isolation (h : vm.executeTransaction fuel tx state = some (.ok out))
    (hk : vm.crypto.hasPrivateKey k = false) {acc : Account} (ha : state k = some acc)
    (ht : out.stateDiff.Touches k) :
    ∃ u, vm.newUnit tx state = .ok u ∧
      (∃ v o, vm.Causes u v o k) ∧
      (∀ v o, vm.Causes u v o k → acc.owner = some v.contract) ∧
      acc.executable = false ∧
      ∀ a, out.stateDiff.get k = some a →
        a.owner = acc.owner ∧ a.nonce = acc.nonce ∧ a.executable = acc.executable := by
  obtain ⟨u, hnew, hrun⟩ := executeTransaction_ok h
  have hu : vm.RunsOn state u := runsOn_newUnit hnew
  have howner : ∀ v o, vm.Causes u v o k →
      acc.executable = false ∧ acc.owner = some v.contract := by
    intro v o hc
    obtain ⟨invoke, r, hr, htouch⟩ := hc.touches
    exact ((hu.reaches hc.reaches).directEffect (directEffect_of_ok hc.direct hr) hk ha htouch).1
  obtain ⟨v, o, hc⟩ := exists_causes hrun ht
  exact ⟨u, hnew, ⟨v, o, hc⟩, fun w p hp => (howner w p hp).2, (howner v o hc).1,
    kept_of_execute hu hrun hk ha⟩

end Execution

namespace Sample

/-- A machine whose contract 150 writes a byte to account 200. -/
def writer : Machine Bytes where
  crypto := sampleCrypto
  limits := limits
  builtin k := if k = 150 then some fun _ _ => .ok [.writeAccountData 200 (some [1])] else none
  runtime _ := .error .accountIsNotExecutable

/-- The account is owned by the contract. -/
def writtenState : State := fun k =>
  if k = 200 then some { nonce := 4, owner := some 150 } else none

/-- A call of the contract, without its signature. -/
def unsignedWrite : Transaction :=
  { contract := 150, nonce := 0, payer := 7, params := [], signatures := []
    accounts := [{ address := 200, writable := true, signer := false }] }

/-- The call, signed by its payer. -/
def write : Transaction :=
  { unsignedWrite with signatures := [sign 7 unsignedWrite] }

end Sample

/-- A contract that writes to its own account: the account keeps its owner
and its nonce. -/
theorem ownership_isolation_write :
    ∃ out, Sample.writer.executeTransaction 1 Sample.write Sample.writtenState = some (.ok out) ∧
      out.stateDiff.get 200 = some { nonce := 4, owner := some 150, data := some [1] } ∧
      ∃ u, Sample.writer.newUnit Sample.write Sample.writtenState = .ok u ∧
        ∀ v o, Sample.writer.Causes u v o 200 → some 150 = some v.contract := by
  have hget : ((Sample.writer.executeTransaction 1 Sample.write Sample.writtenState).bind
      Except.toOption).map (fun out => out.stateDiff.get 200) =
      some (some { nonce := 4, owner := some 150, data := some [1] }) := by decide
  rcases hrun : Sample.writer.executeTransaction 1 Sample.write Sample.writtenState with _ | _ | out
  · rw [hrun] at hget
    cases hget
  · rw [hrun] at hget
    cases hget
  · rw [hrun] at hget
    have hset : out.stateDiff.get 200 = some { nonce := 4, owner := some 150, data := some [1] } :=
      Option.some.inj hget
    have hcurve : Sample.writer.crypto.hasPrivateKey 200 = false := by decide
    have howned : Sample.writtenState 200 = some { nonce := 4, owner := some 150 } := by decide
    obtain ⟨u, hu, -, howner, -, -⟩ :=
      ownership_isolation hrun hcurve howned (.inl (by rw [hset]; rfl))
    exact ⟨out, rfl, hset, u, hu, howner⟩

end Machine

end Rensa
