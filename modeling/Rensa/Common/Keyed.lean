import Mathlib.Data.List.Nodup
import Mathlib.Tactic.Common
/-!
# Sets of values with a key

A `KeySet` is what a hash set holds when two values are the same as soon
as their keys are: at most one value for each key. `insert` keeps the
value that is there. Membership is by key, and every operation has one
lemma that says which keys it leaves and one for how many. `pick` is a
random choice, by an arbitrary number.
-/

namespace Rensa

/-- The value that the number `r` selects. -/
def pick {α : Type} (r : ℕ) (l : List α) : Option α := l[r % l.length]?

theorem pick_mem {α : Type} {r : ℕ} {l : List α} {a : α} (h : pick r l = some a) : a ∈ l :=
  List.mem_of_getElem? h

theorem pick_eq_none {α : Type} {r : ℕ} {l : List α} : pick r l = none ↔ l = [] := by
  rw [pick, List.getElem?_eq_none_iff]
  constructor
  · intro h
    rcases Nat.eq_zero_or_pos l.length with h0 | hpos
    · exact List.length_eq_zero_iff.1 h0
    · have := Nat.mod_lt r hpos
      omega
  · rintro rfl
    exact Nat.zero_le _

/-- A random choice of values, at most `n` of them: the bits of `r` say
which. -/
def pickMany {α : Type} (r n : ℕ) (l : List α) : List α :=
  ((l.zipIdx.filter fun p => r.testBit p.2).map Prod.fst).take n

/-- At most one value for each key. -/
structure KeySet {κ α : Type} (key : α → κ) where
  items : List α
  nodup : (items.map key).Nodup

namespace KeySet

variable {κ α : Type} {key : α → κ} {s t : KeySet key} {k : κ} {a : α}

instance : Membership κ (KeySet key) := ⟨fun s k => k ∈ s.items.map key⟩

theorem mem_def : k ∈ s ↔ k ∈ s.items.map key := Iff.rfl

instance [DecidableEq κ] : Decidable (k ∈ s) := inferInstanceAs (Decidable (k ∈ s.items.map key))

/-- The set without values. -/
def empty : KeySet key := ⟨[], List.nodup_nil⟩

/-- How many values there are. -/
def length (s : KeySet key) : ℕ := s.items.length

@[simp] theorem not_mem_empty : k ∉ (empty : KeySet key) := List.not_mem_nil

@[simp] theorem length_empty : (empty : KeySet key).length = 0 := rfl

theorem mem_of_item (h : a ∈ s.items) : key a ∈ s := List.mem_map_of_mem h

theorem exists_item (h : k ∈ s) : ∃ a ∈ s.items, key a = k := List.mem_map.1 h

/-- The values a predicate keeps. -/
def retain (s : KeySet key) (p : α → Bool) : KeySet key :=
  ⟨s.items.filter p, s.nodup.sublist (List.filter_sublist.map key)⟩

theorem length_retain_le (s : KeySet key) (p : α → Bool) : (s.retain p).length ≤ s.length :=
  List.length_filter_le _ _

variable [DecidableEq κ]

/-- Adds a value, unless there is one with its key. -/
def insert (s : KeySet key) (a : α) : KeySet key :=
  if h : key a ∈ s then s
  else ⟨s.items ++ [a], by
    rw [List.map_append, List.map_cons, List.map_nil, ← List.concat_eq_append]
    exact s.nodup.concat h⟩

theorem insert_of_mem (h : key a ∈ s) : s.insert a = s := dif_pos h

theorem items_insert (h : key a ∉ s) : (s.insert a).items = s.items ++ [a] := by
  rw [insert, dif_neg h]

@[simp] theorem mem_insert : k ∈ s.insert a ↔ k ∈ s ∨ k = key a := by
  by_cases h : key a ∈ s
  · rw [insert_of_mem h]
    constructor
    · exact .inl
    · rintro (hk | rfl)
      · exact hk
      · exact h
  · rw [mem_def, items_insert h, List.map_append, List.mem_append]
    simp [mem_def]

theorem length_insert (h : key a ∉ s) : (s.insert a).length = s.length + 1 := by
  rw [length, items_insert h, List.length_append]
  rfl

theorem length_insert_le (s : KeySet key) (a : α) : (s.insert a).length ≤ s.length + 1 := by
  by_cases h : key a ∈ s
  · rw [insert_of_mem h]
    exact Nat.le_succ _
  · exact Nat.le_of_eq (length_insert h)

/-- Removes the value with a key. -/
def remove (s : KeySet key) (k : κ) : KeySet key := s.retain fun a => key a ≠ k

@[simp] theorem mem_remove {k' : κ} : k ∈ s.remove k' ↔ k ∈ s ∧ k ≠ k' := by
  simp only [mem_def, remove, retain, List.mem_map, List.mem_filter, decide_eq_true_eq]
  constructor
  · rintro ⟨a, ⟨ha, hne⟩, rfl⟩
    exact ⟨⟨a, ha, rfl⟩, hne⟩
  · rintro ⟨⟨a, ha, rfl⟩, hne⟩
    exact ⟨a, ⟨ha, hne⟩, rfl⟩

theorem remove_of_not_mem (h : k ∉ s) : s.remove k = s := by
  have hitems : (s.remove k).items = s.items := by
    refine List.filter_eq_self.2 fun a ha => ?_
    rw [decide_eq_true_eq]
    rintro rfl
    exact h (mem_of_item ha)
  obtain ⟨items, hnodup⟩ := s
  unfold remove retain at hitems ⊢
  congr

theorem length_remove_le (s : KeySet key) (k : κ) : (s.remove k).length ≤ s.length :=
  length_retain_le _ _

theorem length_remove (h : k ∈ s) : (s.remove k).length + 1 = s.length := by
  have hkeys : (s.remove k).items.map key = (s.items.map key).erase k := by
    rw [s.nodup.erase_eq_filter, List.filter_map]
    refine congrArg (List.map key) (List.filter_congr fun a _ => ?_)
    by_cases ha : key a = k <;> simp [ha]
  have hlen := congrArg List.length hkeys
  rw [List.length_map, List.length_erase_of_mem h, List.length_map] at hlen
  have hpos : 0 < s.items.length := by
    obtain ⟨a, ha, -⟩ := exists_item h
    exact List.length_pos_of_mem ha
  rw [length, length, hlen]
  omega

/-- The values of `s`, and those of `t` with other keys. -/
def union (s t : KeySet key) : KeySet key := t.items.foldl insert s

theorem mem_foldl_insert (l : List α) (s : KeySet key) :
    k ∈ l.foldl insert s ↔ k ∈ s ∨ k ∈ l.map key := by
  induction l generalizing s with
  | nil => simp
  | cons a l ih =>
    rw [List.foldl_cons, ih, mem_insert, List.map_cons, List.mem_cons, or_assoc]

@[simp] theorem mem_union : k ∈ s.union t ↔ k ∈ s ∨ k ∈ t := mem_foldl_insert _ _

/-- The values of a list, the first one of each key. -/
def ofList (l : List α) : KeySet key := l.foldl insert empty

@[simp] theorem mem_ofList {l : List α} : k ∈ (ofList l : KeySet key) ↔ k ∈ l.map key := by
  rw [ofList, mem_foldl_insert]
  simp

end KeySet

end Rensa
