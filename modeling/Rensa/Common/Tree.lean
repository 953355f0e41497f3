import Mathlib
/-!
# Trees with numbers as keys

A `Tree` is an ordered map from numbers, kept as its entries by rising
key. Entries are put in, taken out by key, or cut off below a key, and the
last entry is the one with the largest key: an entry above all others is
put at the end, and stays the last one where the cut is not above it.
-/

namespace Rensa

/-- An ordered map from numbers. -/
@[ext] structure Tree (α : Type) where
  entries : List (ℕ × α)
  sorted : entries.Pairwise fun a b => a.1 < b.1

namespace Tree

variable {α : Type} (t : Tree α) (k : ℕ) (a : α)

/-- The tree without entries. -/
def empty : Tree α := ⟨[], .nil⟩

/-- The tree with an entry, in place of the one with that key. -/
def insert : Tree α where
  entries := t.entries.filter (fun e => e.1 < k) ++ (k, a) :: t.entries.filter fun e => k < e.1
  sorted := by
    have hbelow : ∀ e ∈ t.entries.filter fun e => e.1 < k, e.1 < k := fun e he => by
      simpa using (List.mem_filter.1 he).2
    have habove : ∀ e ∈ t.entries.filter fun e => k < e.1, k < e.1 := fun e he => by
      simpa using (List.mem_filter.1 he).2
    refine List.pairwise_append.2 ⟨t.sorted.filter _,
      List.pairwise_cons.2 ⟨habove, t.sorted.filter _⟩, fun x hx y hy => ?_⟩
    have hx' := hbelow x hx
    rcases List.mem_cons.1 hy with rfl | hy
    · exact hx'
    · exact hx'.trans (habove y hy)

/-- The tree without the entry with a key. -/
def remove : Tree α := ⟨t.entries.filter fun e => e.1 ≠ k, t.sorted.filter _⟩

/-- The entries from a key on. -/
def above : Tree α := ⟨t.entries.filter fun e => k ≤ e.1, t.sorted.filter _⟩

/-- The entries below a key. -/
def below : Tree α := ⟨t.entries.filter fun e => e.1 < k, t.sorted.filter _⟩

/-- The entry with a key. -/
def get : Option α := (t.entries.find? fun e => e.1 = k).map Prod.snd

/-- The entries up to a key. -/
def upTo : Tree α := ⟨t.entries.filter fun e => e.1 ≤ k, t.sorted.filter _⟩

/-- The entry with the largest key. -/
def last : Option (ℕ × α) := t.entries.getLast?

variable {t k a}

/-! ## Reading entries -/

variable {h : ℕ}

/-- An entry is found in a part of the tree that has all entries with its
key. -/
theorem find_filter_of {p : ℕ × α → Bool} (l : List (ℕ × α))
    (hp : ∀ e : ℕ × α, e.1 = h → p e = true) :
    (l.filter p).find? (fun e => e.1 = h) = l.find? fun e => e.1 = h := by
  rw [List.find?_filter]
  congr 1
  funext e
  by_cases he : e.1 = h
  · simp [he, hp e he]
  · simp [he]

/-- None is found in a part that has no entry with its key. -/
theorem find_filter_none {p : ℕ × α → Bool} (l : List (ℕ × α))
    (hp : ∀ e : ℕ × α, e.1 = h → p e = false) :
    (l.filter p).find? (fun e => e.1 = h) = none := by
  refine List.find?_eq_none.2 fun e he heq => ?_
  have hkey : e.1 = h := by simpa using heq
  rw [List.mem_filter, hp e hkey] at he
  cases he.2

theorem get_insert : (t.insert k a).get h = if h = k then some a else t.get h := by
  show ((t.entries.filter (fun e => e.1 < k) ++ (k, a) ::
    t.entries.filter fun e => k < e.1).find? fun e => e.1 = h).map Prod.snd = _
  rw [List.find?_append, List.find?_cons]
  rcases Nat.lt_trichotomy h k with hlt | rfl | hgt
  · rw [find_filter_of _ fun e he => by simpa [he] using hlt,
      find_filter_none _ fun e he => by simpa [he] using hlt.le, if_neg (by omega)]
    simp [hlt.ne', get]
  · rw [find_filter_none _ fun e he => by simp [he], if_pos rfl]
    simp
  · rw [find_filter_none _ fun e he => by simpa [he] using hgt.le,
      find_filter_of _ fun e he => by simpa [he] using hgt, if_neg (by omega)]
    simp [hgt.ne, get]

theorem get_remove : (t.remove k).get h = if h = k then none else t.get h := by
  show ((t.entries.filter fun e => e.1 ≠ k).find? fun e => e.1 = h).map Prod.snd = _
  by_cases hk : h = k
  · rw [find_filter_none _ fun e he => by simp [he, hk], if_pos hk]
    rfl
  · rw [find_filter_of _ fun e he => by simpa [he] using hk, if_neg hk]
    rfl

theorem get_above : (t.above k).get h = if k ≤ h then t.get h else none := by
  show ((t.entries.filter fun e => k ≤ e.1).find? fun e => e.1 = h).map Prod.snd = _
  by_cases hk : k ≤ h
  · rw [find_filter_of _ fun e he => by simpa [he] using hk, if_pos hk]
    rfl
  · rw [find_filter_none _ fun e he => by simpa [he] using hk, if_neg hk]
    rfl

@[simp] theorem get_empty : (empty : Tree α).get h = none := rfl

theorem get_below : (t.below k).get h = if h < k then t.get h else none := by
  show ((t.entries.filter fun e => e.1 < k).find? fun e => e.1 = h).map Prod.snd = _
  by_cases hk : h < k
  · rw [find_filter_of _ fun e he => by simpa [he] using hk, if_pos hk]
    rfl
  · rw [find_filter_none _ fun e he => by simpa [he] using hk, if_neg hk]
    rfl

/-- What is found under a key is an entry, and every entry is found. -/
theorem get_eq_some_iff : t.get h = some a ↔ (h, a) ∈ t.entries := by
  rw [get, Option.map_eq_some_iff]
  constructor
  · rintro ⟨e, he, rfl⟩
    have hkey : e.1 = h := by simpa using List.find?_some he
    rw [← hkey]
    exact List.mem_of_find?_eq_some he
  · intro hmem
    obtain ⟨l, r, hlr⟩ := List.append_of_mem hmem
    have hsorted := t.sorted
    rw [hlr] at hsorted
    -- the entries before it have other keys
    have hnone : l.find? (fun e => e.1 = h) = none := by
      refine List.find?_eq_none.2 fun e he => ?_
      have hlt := (List.pairwise_append.1 hsorted).2.2 e he (h, a) List.mem_cons_self
      simpa using hlt.ne
    exact ⟨(h, a), by rw [hlr, List.find?_append, hnone]; simp, rfl⟩

/-! ## The last entry -/

/-- An entry above all others goes to the end. -/
theorem entries_insert (h : ∀ e ∈ t.entries, e.1 < k) :
    (t.insert k a).entries = t.entries ++ [(k, a)] := by
  have hbelow : t.entries.filter (fun e => e.1 < k) = t.entries :=
    List.filter_eq_self.2 fun e he => decide_eq_true (h e he)
  have habove : t.entries.filter (fun e => k < e.1) = [] :=
    List.filter_eq_nil_iff.2 fun e he => by
      have := h e he
      simp only [decide_eq_true_eq]
      omega
  show t.entries.filter (fun e => e.1 < k) ++ (k, a) :: t.entries.filter (fun e => k < e.1) = _
  rw [hbelow, habove]

/-- The last entry stays where the cut is not above it. -/
theorem last_above {e : ℕ × α} (h : t.last = some e) (hk : k ≤ e.1) :
    (t.above k).last = some e := by
  obtain ⟨l, hl⟩ : ∃ l, t.entries = l ++ [e] := List.getLast?_eq_some_iff.1 h
  show (t.entries.filter fun e => k ≤ e.1).getLast? = some e
  rw [hl, List.filter_append, List.filter_cons_of_pos (by simpa using hk), List.filter_nil,
    List.getLast?_concat]

/-- No key is above the last one. -/
theorem le_last {e x : ℕ × α} (h : t.last = some e) (hx : x ∈ t.entries) : x.1 ≤ e.1 := by
  obtain ⟨l, hl⟩ : ∃ l, t.entries = l ++ [e] := List.getLast?_eq_some_iff.1 h
  have hsorted := t.sorted
  rw [hl] at hx hsorted
  rcases List.mem_append.1 hx with hx | hx
  · exact ((List.pairwise_append.1 hsorted).2.2 x hx e List.mem_cons_self).le
  · exact (congrArg Prod.fst (List.mem_singleton.1 hx)).le

/-- Nothing is left where the cut is above the last entry. -/
theorem last_above_none {e : ℕ × α} (h : t.last = some e) (hk : e.1 < k) :
    (t.above k).last = none := by
  have hnil : t.entries.filter (fun e => k ≤ e.1) = [] := by
    refine List.filter_eq_nil_iff.2 fun x hx => ?_
    have hle := le_last h hx
    simp only [decide_eq_true_eq]
    omega
  show (t.entries.filter fun e => k ≤ e.1).getLast? = none
  rw [hnil, List.getLast?_nil]

@[simp] theorem above_zero : t.above 0 = t := by
  ext1
  exact List.filter_eq_self.2 fun e _ => decide_eq_true (Nat.zero_le e.1)

theorem upTo_eq_self (h : ∀ e ∈ t.entries, e.1 ≤ k) : (t.upTo k).entries = t.entries :=
  List.filter_eq_self.2 fun e he => decide_eq_true (h e he)

end Tree

end Rensa
