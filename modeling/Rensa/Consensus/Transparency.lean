import Rensa.Vm.State
import Rensa.Consensus.Links
/-!
# Reading through the forest and reading from the store

The state of a block that is not final is read through the diffs of its
ancestors, newest first (`cascade`), and then from the store. When the
ancestors become final their diffs are applied to the store instead. The
two agree on an address exactly under `Transparent`: a deletion is not
seen through the forest, and an executable account comes back from the
store as an ordinary one.
-/

namespace Rensa

variable {s : PersistentState} {k : Pubkey} {d : StateDiff} {ds : List StateDiff}

/-- `CascadingState::get`, over the diffs of the walk, newest first. -/
def cascade (ds : List StateDiff) : State := fun k => ds.findSome? fun d => d.get k

/-- The store after the diffs, newest first, were applied in order. -/
def PersistentState.applyAll (s : PersistentState) (ds : List StateDiff) : PersistentState :=
  ds.reverse.foldl PersistentState.apply s

/-- When the two ways of reading an address agree, the first `j` of the
diffs being the ones the walk reaches. No diff touches the address; or the
newest that does sets an account that is not executable; or it deletes
the account, and neither the store nor a diff of the walk holds one. A
diff the walk does not reach has to be in the store already. -/
def Transparent (s : PersistentState) (k : Pubkey) : ℕ → List StateDiff → Prop
  | _, [] => True
  | 0, d :: ds =>
    if k ∈ d.deletes then s.get k = none
    else match d.get k with
      | some a => s.get k = some a.persisted
      | none => Transparent s k 0 ds
  | j + 1, d :: ds =>
    if k ∈ d.deletes then s.get k = none ∧ ∀ e ∈ (d :: ds).take (j + 1), e.get k = none
    else match d.get k with
      | some a => a.executable = false
      | none => Transparent s k j ds

theorem cascade_cons : cascade (d :: ds) k = (d.get k).or (cascade ds k) := by
  unfold cascade
  rw [List.findSome?_cons]
  cases d.get k <;> rfl

theorem cascade_eq_none : cascade ds k = none ↔ ∀ d ∈ ds, d.get k = none :=
  List.findSome?_eq_none_iff

namespace PersistentState

@[simp] theorem applyAll_nil : s.applyAll [] = s := rfl

theorem applyAll_cons : s.applyAll (d :: ds) = (s.applyAll ds).apply d := by
  simp [applyAll]

theorem applyAll_append (newer older : List StateDiff) :
    s.applyAll (newer ++ older) = (s.applyAll older).applyAll newer := by
  simp [applyAll]

/-- Where nothing holds the address, nothing holds it after the diffs. -/
theorem get_applyAll_none (hs : s.get k = none) (h : ∀ d ∈ ds, d.get k = none) :
    (s.applyAll ds).get k = none := by
  induction ds with
  | nil => exact hs
  | cons d ds ih =>
    rw [applyAll_cons, get_apply, h d List.mem_cons_self,
      ih fun e he => h e (List.mem_cons_of_mem _ he)]
    split <;> rfl

end PersistentState

/-- **The store after the diffs, read through none of them.** -/
private theorem transparent_zero_iff :
    s.get k = (s.applyAll ds).get k ↔ Transparent s k 0 ds := by
  induction ds with
  | nil => simp [Transparent]
  | cons d ds ih =>
    rw [PersistentState.applyAll_cons, PersistentState.get_apply, Transparent]
    by_cases hdel : k ∈ d.deletes
    · rw [if_pos hdel, if_pos hdel]
    · rw [if_neg hdel, if_neg hdel]
      cases d.get k with
      | none => exact ih
      | some a => rfl

/-- **Reading through the first `j` diffs agrees with reading after all of
them** exactly under `Transparent`. -/
theorem overlayed_cascade_iff (j : ℕ) :
    overlayed s.get (cascade (ds.take j)) k = (s.applyAll ds).get k ↔ Transparent s k j ds := by
  induction ds generalizing j with
  | nil => simp [Transparent, overlayed, cascade]
  | cons d ds ih =>
    cases j with
    | zero =>
      rw [List.take_zero, ← transparent_zero_iff, overlayed_apply]
      rfl
    | succ j =>
      rw [PersistentState.applyAll_cons, PersistentState.get_apply, Transparent, overlayed_apply]
      by_cases hdel : k ∈ d.deletes
      · rw [if_pos hdel, if_pos hdel, Option.or_eq_none_iff, cascade_eq_none, and_comm]
      · rw [if_neg hdel, if_neg hdel, List.take_succ_cons, cascade_cons]
        cases hget : d.get k with
        | none =>
          rw [Option.none_or, ← overlayed_apply]
          exact ih j
        | some a =>
          change some a = some a.persisted ↔ _
          rw [Option.some.injEq, eq_comm]
          exact Account.persisted_eq_iff

/-- What is transparent stays so when the oldest diffs go to the store. -/
theorem transparent_append {newer older : List StateDiff}
    (h : Transparent s k (newer ++ older).length (newer ++ older)) :
    Transparent (s.applyAll older) k newer.length newer := by
  induction newer with
  | nil => trivial
  | cons d newer ih =>
    rw [List.cons_append, List.length_cons, Transparent] at h
    rw [List.length_cons, Transparent]
    by_cases hdel : k ∈ d.deletes
    · rw [if_pos hdel] at h ⊢
      obtain ⟨hs, hnone⟩ := h
      rw [← List.length_cons, List.take_length] at hnone ⊢
      refine ⟨PersistentState.get_applyAll_none hs fun e he => hnone e ?_, fun e he => hnone e ?_⟩
      · exact List.mem_cons_of_mem _ (List.mem_append_right _ he)
      · rw [← List.cons_append]
        exact List.mem_append_left _ he
    · rw [if_neg hdel] at h ⊢
      cases hget : d.get k with
      | none =>
        rw [hget] at h
        exact ih h
      | some a =>
        rw [hget] at h
        exact h

namespace Consensus

namespace Chain

open Rose (nodes nodesL Path)
open TreeNode (diff path)

variable {H D : Type} [DecidableEq H]

omit [DecidableEq H] in
/-- The state of a node reads through the diffs of the walk. -/
theorem state_eq_cascade (f : List (TreeNode H D)) (n : TreeNode H D) :
    TreeNode.state f n = cascade ((path f n).map diff) := by
  funext k
  unfold TreeNode.state cascade
  rw [List.findSome?_map]
  rfl

/-- **Finalization transparency.** In every state a run reaches and for
every node with the path above it, reading an address through the forest
and reading it from the store with the diffs of the path applied agree
exactly under `Transparent`. Where the walk is the path and they agree on
all addresses, a block executes on the node in the same way whichever of
the oldest blocks of the path are final. -/
theorem transparent_run_iff (K : Config H D) (fin : Finalized H D) (inputs : List (Input H D))
    (n : TreeNode H D) (l : List (TreeNode H D))
    (hpath : Path ((Chain.new fin).run K inputs).forktrees (n :: l)) :
    let c := (Chain.new fin).run K inputs
    (∀ k, overlayed c.finalized.store.get (TreeNode.state c.forktrees n) k =
        (c.finalized.store.applyAll ((n :: l).map diff)).get k ↔
      Transparent c.finalized.store k (path c.forktrees n).length ((n :: l).map diff)) ∧
    (path c.forktrees n = n :: l →
      (∀ k, Transparent c.finalized.store k (path c.forktrees n).length ((n :: l).map diff)) →
      ∀ newer older, n :: l = newer ++ older → ∀ b,
        K.newExecuted (overlayed (c.finalized.store.applyAll (older.map diff)).get
          (cascade (newer.map diff))) b =
        K.newExecuted (overlayed c.finalized.store.get (TreeNode.state c.forktrees n)) b) := by
  obtain ⟨hc, hlinks⟩ := run_links K fin inputs
  generalize (Chain.new fin).run K inputs = c at hc hlinks hpath
  dsimp only
  obtain ⟨rest, hrest⟩ := prefix_path hc.located hlinks hpath
  have hstate : TreeNode.state c.forktrees n =
      cascade (((n :: l).map diff).take (path c.forktrees n).length) := by
    rw [← List.map_take, ← hrest, List.take_left]
    exact state_eq_cascade _ _
  refine ⟨fun k => ?_, fun hwalk hall newer older hsplit b => congrArg (K.newExecuted · b) ?_⟩
  · rw [hstate]
    exact overlayed_cascade_iff _
  · have hall' : ∀ k, Transparent c.finalized.store k ((newer ++ older).map diff).length
        ((newer ++ older).map diff) := by
      intro k
      rw [List.length_map, ← hsplit, ← hwalk]
      exact hwalk ▸ hall k
    funext k
    rw [hstate, (overlayed_cascade_iff _).2 (hall k), hsplit, List.map_append,
      PersistentState.applyAll_append]
    have hview := (overlayed_cascade_iff (newer.map diff).length).2
      (transparent_append (List.map_append ▸ hall' k))
    rwa [List.take_length] at hview

namespace Sample

/-- A contract at address 200 that creates account 300 when it is called
without parameters, and deletes it otherwise. -/
def vm : Machine ℕ where
  crypto := crypto
  limits := Machine.Sample.limits
  builtin k := if k = 200 then some fun _ params =>
    .ok [if params = [] then .createOwnedAccount 300 (some [1]) else .deleteOwnedAccount 300]
    else none
  runtime _ := .error .accountIsNotExecutable

/-- A call of that contract by payer 1. -/
def call (nonce : ℕ) (params : Bytes) : Transaction :=
  { contract := 200, nonce, payer := 1, params, accounts := [⟨300, true, false⟩]
    signatures := [(1 : Pubkey).bytes ++ List.replicate 32 255] }

/-- One validator, and blocks of transactions. -/
def calling : Config ℕ (List Transaction) :=
  config .inPlace [(7, 1000)] fun s txs =>
    (vm.executeBlock 1 txs s).getD (.error .invalidTransactionsOrder)

/-- A block that creates the account. -/
def creating : Produced ℕ (List Transaction) := produce calling 7 1 1 [call 1 []] []

/-- A block on top of it that deletes the account. -/
def deleting : Produced ℕ (List Transaction) :=
  produce calling 7 (calling.hash creating) 2 [call 2 [1]] []

/-- The chain after the given blocks. -/
def after (blocks : List (Produced ℕ (List Transaction))) : Chain ℕ (List Transaction) :=
  (Chain.new genesis).run calling (blocks.map (Input.include 0))

end Sample

/-- Of two blocks the second deletes the account the first creates: through
both diffs the payer is read as from the store, and the account is not. -/
theorem deleting_transparent_iff :
    let c := Sample.after [Sample.creating, Sample.deleting]
    ∃ n m, Path c.forktrees [n, m] ∧
      (∀ k, overlayed c.finalized.store.get (TreeNode.state c.forktrees n) k =
          (c.finalized.store.applyAll ([n, m].map diff)).get k ↔
        Transparent c.finalized.store k (path c.forktrees n).length ([n, m].map diff)) ∧
      Transparent c.finalized.store 1 (path c.forktrees n).length ([n, m].map diff) ∧
      ¬ Transparent c.finalized.store 300 (path c.forktrees n).length ([n, m].map diff) := by
  intro c
  have hroot : ∃ m ∈ c.forktrees, ∃ n ∈ m.children,
      overlayed c.finalized.store.get (TreeNode.state c.forktrees n) 1 =
        (c.finalized.store.applyAll ([n, m].map diff)).get 1 ∧
      overlayed c.finalized.store.get (TreeNode.state c.forktrees n) 300 ≠
        (c.finalized.store.applyAll ([n, m].map diff)).get 300 := by
    decide +kernel
  obtain ⟨m, hm, n, hn, hpayer, haccount⟩ := hroot
  have hpath : Path c.forktrees [n, m] := .step (.root hm) hn
  have hiff := (transparent_run_iff Sample.calling Sample.genesis _ n [m] hpath).1
  exact ⟨n, m, hpath, hiff, (hiff 1).1 hpayer, fun h => haccount ((hiff 300).2 h)⟩

/-- **A deleted account is still there for the blocks on top**, and gone
once the deletion is final. -/
theorem deleting_not_transparent :
    ∃ n ∈ nodesL (Sample.after [Sample.creating, Sample.deleting]).forktrees, ∃ m,
      Path (Sample.after [Sample.creating, Sample.deleting]).forktrees [n, m] ∧
      (overlayed (Sample.after [Sample.creating, Sample.deleting]).finalized.store.get
        (TreeNode.state (Sample.after [Sample.creating, Sample.deleting]).forktrees n) 300).isSome =
        true ∧
      ((Sample.after [Sample.creating, Sample.deleting]).finalized.store.applyAll
        ([n, m].map diff)).get 300 = none := by
  have hroot : ∃ m ∈ (Sample.after [Sample.creating, Sample.deleting]).forktrees,
      ∃ n ∈ m.children,
      (overlayed (Sample.after [Sample.creating, Sample.deleting]).finalized.store.get
        (TreeNode.state (Sample.after [Sample.creating, Sample.deleting]).forktrees n) 300).isSome =
        true ∧
      ((Sample.after [Sample.creating, Sample.deleting]).finalized.store.applyAll
        ([n, m].map diff)).get 300 = none := by
    decide +kernel
  obtain ⟨m, hm, n, hn, hview⟩ := hroot
  exact ⟨n, Rose.mem_nodesL_of_mem_children (Rose.mem_nodesL_of_mem hm) hn, m,
    .step (.root hm) hn, hview⟩

end Chain

end Consensus

end Rensa
