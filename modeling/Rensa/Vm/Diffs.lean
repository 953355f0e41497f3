import Rensa.Vm.State
import Rensa.Vm.Model.Output
import Mathlib.Algebra.BigOperators.Group.List.Basic
/-!
# The algebra of state diffs

`merge` makes the diffs a monoid, with the default diff as its unit
(`StateDiff.instMonoid`), also where an address is both set and deleted.
A store takes a diff as the operations of `iter` in order, and this is an
action of the monoid (`applyTo_merge`): however the diffs of calls,
transactions and blocks are grouped before they reach a store, it ends
the same (`foldl_apply`).
-/

namespace Rensa

namespace StateDiff

/-- A diff applied to a store that keeps each account as `f` has it: the
operations of `iter` in order, the last one of a key winning. -/
def applyTo {β : Type} (f : Account → β) (db : Pubkey → Option β) (d : StateDiff) :
    Pubkey → Option β :=
  d.iter.foldl (fun db p => Function.update db p.1 (p.2.map f)) db

/-- Two diffs are one where they set and delete the same. -/
theorem eq_of_get {d e : StateDiff} (hget : ∀ k, d.get k = e.get k)
    (hdel : ∀ k, k ∈ d.deletes ↔ k ∈ e.deletes) : d = e :=
  StateDiff.ext (Std.ExtTreeMap.ext_getElem? hget) (Std.ExtTreeSet.ext_mem hdel)

theorem empty_merge (d : StateDiff) : ({} : StateDiff).merge d = d := by
  apply eq_of_get
  · intro k
    rw [get_merge, get_empty, Option.or_none]
  · intro k
    rw [mem_deletes_merge]
    simp

/-- **`merge` is associative**: what a later diff sets hides what the
earlier ones set or delete, in either grouping. -/
theorem merge_assoc (a b c : StateDiff) : (a.merge b).merge c = a.merge (b.merge c) := by
  apply eq_of_get
  · intro k
    simp only [get_merge, Option.or_assoc]
  · intro k
    simp only [mem_deletes_merge, get_merge, Option.or_eq_none_iff]
    tauto

instance instMonoid : Monoid StateDiff where
  mul := merge
  one := {}
  mul_assoc := merge_assoc
  one_mul := empty_merge
  mul_one _ := merge_empty

theorem mul_eq_merge (a b : StateDiff) : a * b = a.merge b := rfl

variable {β : Type} (f : Account → β) (db : Pubkey → Option β)

/-- **The diffs act on every store**: a merged diff does what the two do
one after the other. -/
theorem applyTo_merge (a b : StateDiff) :
    (a.merge b).applyTo f db = b.applyTo f (a.applyTo f db) := by
  funext k
  simp only [applyTo, foldl_iter, mem_deletes_merge, get_merge]
  by_cases hb : k ∈ b.deletes
  · simp [hb]
  · cases hbk : b.get k with
    | some x => simp [hb]
    | none =>
      by_cases ha : k ∈ a.deletes <;> simp [ha, hb]

end StateDiff

section Stores

variable (a b c : StateDiff)

theorem PersistentState.apply_merge (s : PersistentState) :
    s.apply (a.merge b) = (s.apply a).apply b :=
  congrArg PersistentState.mk (StateDiff.applyTo_merge Account.serialize s.db a b)

/-- **A chain of diffs on the store of finalized accounts**: applying them
one by one is applying their product. -/
theorem PersistentState.foldl_apply (s : PersistentState) (ds : List StateDiff) :
    ds.foldl PersistentState.apply s = s.apply ds.prod := by
  induction ds generalizing s with
  | nil => rfl
  | cons d ds ih => rw [List.foldl_cons, ih, List.prod_cons, StateDiff.mul_eq_merge, apply_merge]

theorem InMemState.apply_merge (s : InMemState) :
    s.apply (a.merge b) = (s.apply a).apply b := by
  have h := StateDiff.applyTo_merge id s.db a b
  simp only [StateDiff.applyTo, Option.map_id_fun, id_eq] at h
  exact congrArg InMemState.mk h

/-- **Diffs act on stores.** On every store, whatever it keeps an account
as, a merged diff does what the two diffs do in order; the grouping of a
chain of merges has no effect; and merging with the default diff, on
either side, gives the diff itself. -/
theorem StateDiff.merge_acts :
    (∀ (β : Type) (f : Account → β) (db : Pubkey → Option β),
      (a.merge b).applyTo f db = b.applyTo f (a.applyTo f db) ∧
        ((a.merge b).merge c).applyTo f db = (a.merge (b.merge c)).applyTo f db) ∧
      (∀ s : PersistentState, s.apply (a.merge b) = (s.apply a).apply b ∧
        s.apply ((a.merge b).merge c) = s.apply (a.merge (b.merge c))) ∧
      (∀ s : InMemState, s.apply (a.merge b) = (s.apply a).apply b ∧
        s.apply ((a.merge b).merge c) = s.apply (a.merge (b.merge c))) ∧
      a.merge {} = a ∧ ({} : StateDiff).merge a = a := by
  have hassoc := StateDiff.merge_assoc a b c
  refine ⟨fun β f db => ⟨applyTo_merge f db a b, by rw [hassoc]⟩,
    fun s => ⟨s.apply_merge a b, by rw [hassoc]⟩, fun s => ⟨s.apply_merge a b, by rw [hassoc]⟩,
    merge_empty, empty_merge a⟩

end Stores

end Rensa
