import Rensa.Vm.Model.State
/-!
# What the state operations do

One lemma per operation, by address: `get_merge`, `mem_deletes_merge`
and `PersistentState.get_apply` are what the proofs about transactions,
blocks and the fork tree use. `layOver` is the abstract meaning of a
diff: the state with the deleted addresses absent and the set ones as
set.
-/

namespace Rensa

namespace StateDiff

variable {d e : StateDiff} {k k' : Pubkey} {a : Account}

@[simp] theorem get_empty : ({} : StateDiff).get k = none := by
  simp [get]

@[simp] theorem not_mem_deletes_empty : k ∉ ({} : StateDiff).deletes := by
  simp

theorem get_set : (d.set k a).get k' = if k = k' then some a else d.get k' := by
  simp only [get, set, Std.ExtTreeMap.getElem?_insert, compare_eq_iff_eq]

theorem mem_deletes_set : k' ∈ (d.set k a).deletes ↔ k ≠ k' ∧ k' ∈ d.deletes := by
  simp [set, Std.ExtTreeSet.mem_erase]

@[simp] theorem get_remove : (d.remove k).get k' = d.get k' := rfl

theorem mem_deletes_remove : k' ∈ (d.remove k).deletes ↔ k = k' ∨ k' ∈ d.deletes := by
  simp [remove, Std.ExtTreeSet.mem_insert]

private theorem get_foldl_set (l : List (Pubkey × Account)) (d : StateDiff) :
    (l.foldl (fun d p => d.set p.1 p.2) d).get k =
      ((l.reverse.find? fun p => p.1 == k).map Prod.snd).or (d.get k) := by
  induction l using List.reverseRecOn with
  | nil => simp
  | append_singleton l p ih =>
    rw [List.foldl_append, List.foldl_cons, List.foldl_nil, get_set, ih, List.reverse_append]
    by_cases h : p.1 = k <;> simp [h]

private theorem mem_deletes_foldl_set (l : List (Pubkey × Account)) (d : StateDiff) :
    k ∈ (l.foldl (fun d p => d.set p.1 p.2) d).deletes ↔
      k ∈ d.deletes ∧ ∀ p ∈ l, p.1 ≠ k := by
  induction l generalizing d with
  | nil => simp
  | cons p l ih =>
    rw [List.foldl_cons, ih, mem_deletes_set]
    simp only [List.mem_cons, forall_eq_or_imp]
    tauto

private theorem get_foldl_remove (l : List Pubkey) (d : StateDiff) :
    (l.foldl (fun d k => d.remove k) d).get k = d.get k := by
  induction l generalizing d with
  | nil => rfl
  | cons p l ih => rw [List.foldl_cons, ih, get_remove]

private theorem mem_deletes_foldl_remove (l : List Pubkey) (d : StateDiff) :
    k ∈ (l.foldl (fun d k => d.remove k) d).deletes ↔ k ∈ l ∨ k ∈ d.deletes := by
  induction l generalizing d with
  | nil => simp
  | cons p l ih =>
    rw [List.foldl_cons, ih, mem_deletes_remove, List.mem_cons]
    tauto

private theorem find_toList (m : Std.ExtTreeMap Pubkey Account) :
    (m.toList.reverse.find? fun p => p.1 == k).map Prod.snd = m[k]? := by
  cases h : m[k]? with
  | none =>
    have hnone : ∀ p ∈ m.toList.reverse, ¬ (p.1 == k) = true := by
      rintro ⟨k', a⟩ hp heq
      obtain rfl : k' = k := by simpa using heq
      rw [List.mem_reverse, Std.ExtTreeMap.mem_toList_iff_getElem?_eq_some, h] at hp
      cases hp
    rw [List.find?_eq_none.2 hnone]
    rfl
  | some a =>
    have hmem : (k, a) ∈ m.toList.reverse := by
      rw [List.mem_reverse, Std.ExtTreeMap.mem_toList_iff_getElem?_eq_some, h]
    obtain ⟨p, hp⟩ : ∃ p, m.toList.reverse.find? (fun p => p.1 == k) = some p :=
      Option.isSome_iff_exists.1 (List.find?_isSome.2 ⟨_, hmem, by simp⟩)
    have hpk : p.1 = k := by simpa using List.find?_some hp
    have hpm := List.mem_of_find?_eq_some hp
    rw [List.mem_reverse, ← Prod.mk.eta (p := p), hpk,
      Std.ExtTreeMap.mem_toList_iff_getElem?_eq_some, h] at hpm
    rw [hp]
    exact hpm.symm

/-- **Reading a merged diff**: what `newer` sets hides what the older
diff set. -/
theorem get_merge : (d.merge e).get k = (e.get k).or (d.get k) := by
  simp only [merge, get_foldl_remove, get_foldl_set, find_toList]
  rfl

-- a deletion of `newer` leaves what the older diff set
example : ((({} : StateDiff).set 5 { nonce := 2 }).merge (({} : StateDiff).remove 5)).get 5 =
    some { nonce := 2 } := by decide +kernel

/-- **The deletions of a merged diff**: those of `newer`, and the older
ones `newer` does not set. -/
theorem mem_deletes_merge :
    k ∈ (d.merge e).deletes ↔ k ∈ e.deletes ∨ (k ∈ d.deletes ∧ e.get k = none) := by
  simp only [merge, mem_deletes_foldl_remove, mem_deletes_foldl_set, Std.ExtTreeSet.mem_toList]
  refine or_congr_right (and_congr_right fun _ => ?_)
  constructor
  · intro h
    cases hk : e.get k with
    | none => rfl
    | some a => exact absurd rfl (h (k, a) (Std.ExtTreeMap.mem_toList_iff_getElem?_eq_some.2 hk))
  · rintro h ⟨k', a⟩ hp rfl
    rw [Std.ExtTreeMap.mem_toList_iff_getElem?_eq_some] at hp
    rw [get, hp] at h
    cases h

@[simp] theorem merge_empty : d.merge {} = d := by
  refine StateDiff.ext (Std.ExtTreeMap.ext_getElem? fun k => ?_)
    (Std.ExtTreeSet.ext_mem fun k => ?_)
  · have h := get_merge (d := d) (e := {}) (k := k)
    simpa [get] using h
  · rw [mem_deletes_merge]; simp

private theorem foldl_update {β : Type} (f : Account → β) (l : List (Pubkey × Option Account))
    (db : Pubkey → Option β) :
    l.foldl (fun db p => Function.update db p.1 (p.2.map f)) db k =
      match l.reverse.find? fun p => p.1 == k with
      | some p => p.2.map f
      | none => db k := by
  induction l using List.reverseRecOn with
  | nil => simp
  | append_singleton l p ih =>
    rw [List.foldl_append, List.foldl_cons, List.foldl_nil, List.reverse_append]
    by_cases h : p.1 = k
    · subst h; simp
    · rw [Function.update_of_ne (Ne.symm h), ih]
      simp [h]

/-- **A batch of the operations of a diff**, the last one of a key winning:
a deletion wins over an account the same diff sets. `f` is what an
account is stored as. -/
theorem foldl_iter {β : Type} (f : Account → β) (db : Pubkey → Option β) :
    d.iter.foldl (fun db p => Function.update db p.1 (p.2.map f)) db k =
      if k ∈ d.deletes then none
      else match d.get k with
        | some a => some (f a)
        | none => db k := by
  rw [foldl_update, iter, List.reverse_append, List.find?_append]
  by_cases hdel : k ∈ d.deletes
  · have hmem : (k, (none : Option Account)) ∈
        (d.deletes.toList.map fun k => (k, (none : Option Account))).reverse := by
      simpa using hdel
    obtain ⟨p, hp⟩ : ∃ p, (d.deletes.toList.map fun k => (k, (none : Option Account))).reverse.find?
        (fun p => p.1 == k) = some p :=
      Option.isSome_iff_exists.1 (List.find?_isSome.2 ⟨_, hmem, by simp⟩)
    have hpm := List.mem_of_find?_eq_some hp
    rw [List.mem_reverse, List.mem_map] at hpm
    obtain ⟨k', -, rfl⟩ := hpm
    rw [hp, if_pos hdel]
    rfl
  · have hnone : (d.deletes.toList.map fun k => (k, (none : Option Account))).reverse.find?
        (fun p => p.1 == k) = none := by
      rw [List.find?_eq_none]
      intro p hp
      rw [List.mem_reverse, List.mem_map] at hp
      obtain ⟨k', hk', rfl⟩ := hp
      rintro heq
      obtain rfl : k' = k := by simpa using heq
      exact hdel (Std.ExtTreeSet.mem_toList.1 hk')
    rw [hnone, if_neg hdel, Option.none_or, ← List.map_reverse, List.find?_map]
    have hfind := find_toList (k := k) d.data
    change (d.data.toList.reverse.find? fun p => p.1 == k).map Prod.snd = d.get k at hfind
    rw [← hfind]
    simp only [Function.comp_def]
    cases d.data.toList.reverse.find? fun p => p.1 == k <;> simp

/-- The address is set or deleted by the diff. -/
def Touches (d : StateDiff) (k : Pubkey) : Prop := (d.get k).isSome ∨ k ∈ d.deletes

theorem touches_merge : (d.merge e).Touches k ↔ d.Touches k ∨ e.Touches k := by
  simp only [Touches, get_merge, mem_deletes_merge]
  cases e.get k <;> (simp; try tauto)

/-- **The meaning of a diff**: the state with its deletions absent and its
accounts as set. -/
def layOver (d : StateDiff) (s : State) : State := fun k =>
  if k ∈ d.deletes then none else (d.get k).or (s k)

@[simp] theorem layOver_empty {s : State} : ({} : StateDiff).layOver s = s := by
  funext k
  simp [layOver]

/-- **Laying a merged diff is laying the two in order.** -/
theorem layOver_merge (d e : StateDiff) (s : State) :
    (d.merge e).layOver s = e.layOver (d.layOver s) := by
  funext k
  simp only [layOver, mem_deletes_merge, get_merge]
  by_cases he : k ∈ e.deletes
  · simp [he]
  · by_cases hd : k ∈ d.deletes <;> cases e.get k <;> simp [he, hd]

/-- One account set. -/
theorem layOver_set (s : State) (k : Pubkey) (a : Account) :
    (({} : StateDiff).set k a).layOver s = Function.update s k (some a) := by
  funext k'
  have hk : k' ∉ (({} : StateDiff).set k a).deletes := by simp [mem_deletes_set]
  rw [layOver, if_neg hk, get_set, get_empty]
  by_cases h : k = k'
  · subst h
    simp
  · rw [if_neg h, Option.none_or, Function.update_of_ne (Ne.symm h)]

/-- One account deleted. -/
theorem layOver_remove (s : State) (k : Pubkey) :
    (({} : StateDiff).remove k).layOver s = Function.update s k none := by
  funext k'
  rw [layOver, get_remove, get_empty, Option.none_or]
  by_cases h : k = k'
  · subst h
    simp [mem_deletes_remove]
  · rw [if_neg (by simp [mem_deletes_remove, h]), Function.update_of_ne (Ne.symm h)]

end StateDiff

theorem overlayed_apply {base overlay : State} {k : Pubkey} :
    overlayed base overlay k = (overlay k).or (base k) := by
  unfold overlayed
  cases overlay k <;> rfl

/-- What is left of an account after it was written to disk. -/
def Account.persisted (a : Account) : Account := { a with executable := false }

@[simp] theorem deserialize_serialize (a : Account) : a.serialize.deserialize = a.persisted := rfl

theorem Account.persisted_eq_iff {a : Account} : a.persisted = a ↔ a.executable = false := by
  obtain ⟨x, nonce, owner, data⟩ := a
  simp [Account.persisted, eq_comm]

namespace PersistentState

variable {s : PersistentState} {d : StateDiff} {k : Pubkey}

/-- **Reading the store after a diff was applied.** A deletion wins over
an account the same diff sets, and an account that is set comes back
without its executable flag. -/
theorem get_apply : (s.apply d).get k =
    if k ∈ d.deletes then none
    else match d.get k with
      | some a => some a.persisted
      | none => s.get k := by
  simp only [get, apply, StateDiff.foldl_iter]
  split
  · rfl
  · cases d.get k <;> rfl

end PersistentState

end Rensa
