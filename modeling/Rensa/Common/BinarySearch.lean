import Mathlib
/-!
# Binary search among equal keys

A binary search for a key in a sorted list lands on any entry of that key,
and without one on the place where it belongs. Which entry is a parameter,
the landing: a number for each key, taken modulo the number of the entries.
So the outcomes are exactly the indices between the two bounds of the key
(`search_lt`, `exists_landing`), and a range between two searches is the
range of the keys where neither can land elsewhere (`mem_slice_lowerBound`).
-/

namespace Rensa

namespace BinarySearch

variable {α β : Type} [LinearOrder β] (key : α → β)

/-- How many entries come before a key. -/
def lowerBound (l : List α) (k : β) : ℕ := (l.takeWhile fun x => key x < k).length

/-- How many entries come before all greater keys. -/
def upperBound (l : List α) (k : β) : ℕ := (l.takeWhile fun x => key x ≤ k).length

/-- Where a search for a key lands. -/
def search (landing : β → ℕ) (l : List α) (k : β) : ℕ :=
  lowerBound key l k + landing k % max 1 (upperBound key l k - lowerBound key l k)

/-- The keys do not fall along the list. -/
def Sorted (l : List α) : Prop := l.Pairwise fun x y => key x ≤ key y

variable {l : List α} {k k' : β} {x y : α}

theorem lowerBound_le_length (l : List α) (k : β) : lowerBound key l k ≤ l.length :=
  (List.takeWhile_prefix _).length_le

theorem upperBound_le_length (l : List α) (k : β) : upperBound key l k ≤ l.length :=
  (List.takeWhile_prefix _).length_le

theorem lowerBound_le_upperBound (l : List α) (k : β) :
    lowerBound key l k ≤ upperBound key l k := by
  unfold lowerBound upperBound
  induction l with
  | nil => exact le_refl _
  | cons x l ih =>
    by_cases hx : key x < k
    · rw [List.takeWhile_cons_of_pos (by simpa using hx),
        List.takeWhile_cons_of_pos (by simpa using hx.le)]
      exact Nat.succ_le_succ ih
    · rw [List.takeWhile_cons_of_neg (by simpa using hx)]
      exact Nat.zero_le _

theorem upperBound_le_lowerBound (l : List α) (h : k < k') :
    upperBound key l k ≤ lowerBound key l k' := by
  unfold lowerBound upperBound
  induction l with
  | nil => exact le_refl _
  | cons x l ih =>
    by_cases hx : key x ≤ k
    · rw [List.takeWhile_cons_of_pos (by simpa using hx),
        List.takeWhile_cons_of_pos (by simpa using lt_of_le_of_lt hx h)]
      exact Nat.succ_le_succ ih
    · rw [List.takeWhile_cons_of_neg (by simpa using hx)]
      exact Nat.zero_le _

theorem lowerBound_le_search (landing : β → ℕ) (l : List α) (k : β) :
    lowerBound key l k ≤ search key landing l k := Nat.le_add_right _ _

theorem search_lt (landing : β → ℕ) (l : List α) (k : β) : search key landing l k <
    lowerBound key l k + max 1 (upperBound key l k - lowerBound key l k) :=
  Nat.add_lt_add_left (Nat.mod_lt _ (Nat.lt_of_lt_of_le Nat.one_pos (le_max_left _ _))) _

theorem search_le_upperBound (landing : β → ℕ) (l : List α) (k : β) :
    search key landing l k ≤ upperBound key l k := by
  have hle := lowerBound_le_upperBound key l k
  have hlt := search_lt key landing l k
  omega

/-- A search for a greater key lands no earlier. -/
theorem search_mono (landing : β → ℕ) (l : List α) (h : k ≤ k') :
    search key landing l k ≤ search key landing l k' := by
  rcases h.eq_or_lt with rfl | h
  · exact le_refl _
  · exact (search_le_upperBound key landing l k).trans
      ((upperBound_le_lowerBound key l h).trans (lowerBound_le_search key landing l k'))

/-- Where there is one entry of the key at most, a search lands on its
lower bound. -/
theorem search_eq_lowerBound (landing : β → ℕ)
    (h : upperBound key l k ≤ lowerBound key l k + 1) :
    search key landing l k = lowerBound key l k := by
  unfold search
  rw [max_eq_left (by omega), Nat.mod_one, Nat.add_zero]

/-- **Every entry of the key is landed on** by some search. -/
theorem exists_landing {i : ℕ} (hle : lowerBound key l k ≤ i) (hlt : i < upperBound key l k) :
    ∃ landing : β → ℕ, search key landing l k = i := by
  refine ⟨fun _ => i - lowerBound key l k, ?_⟩
  have hlanding : i - lowerBound key l k < upperBound key l k - lowerBound key l k := by omega
  unfold search
  rw [max_eq_right (by omega), Nat.mod_eq_of_lt hlanding]
  omega

/-! ## In a sorted list -/

variable {key}

omit [LinearOrder β] in
/-- A downward closed test passes on a prefix. -/
private theorem lt_length_takeWhile {p : α → Bool} (h : l.Pairwise fun x y => p y → p x) {i : ℕ}
    (hi : l[i]? = some x) : i < (l.takeWhile p).length ↔ p x := by
  induction l generalizing i with
  | nil => cases hi
  | cons y l ih =>
    rw [List.pairwise_cons] at h
    by_cases hy : p y
    · rw [List.takeWhile_cons_of_pos hy, List.length_cons]
      cases i with
      | zero =>
        cases hi
        exact iff_of_true (Nat.succ_pos _) hy
      | succ i => rw [Nat.succ_lt_succ_iff, ih h.2 hi]
    · rw [List.takeWhile_cons_of_neg hy]
      refine iff_of_false (Nat.not_lt_zero i) fun hx => hy ?_
      rcases List.mem_cons.1 (List.mem_of_getElem? hi) with rfl | hmem
      · exact hx
      · exact h.1 x hmem hx

theorem Sorted.lt_lowerBound_iff (h : Sorted key l) {i : ℕ} (hi : l[i]? = some x) (k : β) :
    i < lowerBound key l k ↔ key x < k := by
  have hdown : l.Pairwise fun x y => decide (key y < k) = true → decide (key x < k) = true :=
    h.imp fun hxy hy => decide_eq_true (lt_of_le_of_lt hxy (of_decide_eq_true hy))
  exact (lt_length_takeWhile hdown hi).trans decide_eq_true_iff

theorem Sorted.lt_upperBound_iff (h : Sorted key l) {i : ℕ} (hi : l[i]? = some x) (k : β) :
    i < upperBound key l k ↔ key x ≤ k := by
  have hdown : l.Pairwise fun x y => decide (key y ≤ k) = true → decide (key x ≤ k) = true :=
    h.imp fun hxy hy => decide_eq_true (hxy.trans (of_decide_eq_true hy))
  exact (lt_length_takeWhile hdown hi).trans decide_eq_true_iff

/-- The entries of a key are those between its bounds. -/
theorem Sorted.eq_iff (h : Sorted key l) {i : ℕ} (hi : l[i]? = some x) (k : β) :
    key x = k ↔ lowerBound key l k ≤ i ∧ i < upperBound key l k := by
  rw [h.lt_upperBound_iff hi, ← Nat.not_lt, h.lt_lowerBound_iff hi, not_lt, and_comm,
    le_antisymm_iff]

omit [LinearOrder β] in
/-- The entries of a range of indices. -/
theorem mem_slice {i j : ℕ} :
    x ∈ (l.take j).drop i ↔ ∃ n, i ≤ n ∧ n < j ∧ l[n]? = some x := by
  rw [List.mem_iff_getElem?]
  constructor
  · rintro ⟨n, hn⟩
    rw [List.getElem?_drop, List.getElem?_take] at hn
    split at hn
    next hlt => exact ⟨i + n, Nat.le_add_right i n, hlt, hn⟩
    · cases hn
  · rintro ⟨n, hle, hlt, hn⟩
    refine ⟨n - i, ?_⟩
    rw [List.getElem?_drop, List.getElem?_take, Nat.add_sub_cancel' hle, if_pos hlt, hn]

/-- **The range between two lower bounds** holds the keys between them. -/
theorem Sorted.mem_slice_lowerBound (h : Sorted key l) :
    x ∈ (l.take (lowerBound key l k')).drop (lowerBound key l k) ↔
      x ∈ l ∧ k ≤ key x ∧ key x < k' := by
  rw [mem_slice]
  constructor
  · rintro ⟨n, hle, hlt, hn⟩
    refine ⟨List.mem_of_getElem? hn, ?_, (h.lt_lowerBound_iff hn k').1 hlt⟩
    exact not_lt.1 fun hkey => Nat.not_lt.2 hle ((h.lt_lowerBound_iff hn k).2 hkey)
  · rintro ⟨hx, hle, hlt⟩
    obtain ⟨n, hn⟩ := List.mem_iff_getElem?.1 hx
    refine ⟨n, ?_, (h.lt_lowerBound_iff hn k').2 hlt, hn⟩
    exact Nat.not_lt.1 fun hn' => not_lt.2 hle ((h.lt_lowerBound_iff hn k).1 hn')

/-- Where no entry has a key of a range, its two lower bounds are one. -/
theorem Sorted.lowerBound_le_lowerBound (h : Sorted key l)
    (hnone : ∀ x ∈ l, ¬ (k ≤ key x ∧ key x < k')) : lowerBound key l k' ≤ lowerBound key l k := by
  by_contra hlt
  rw [Nat.not_le] at hlt
  have hlength := lowerBound_le_length key l k'
  obtain ⟨x, hx⟩ : ∃ x, l[lowerBound key l k]? = some x :=
    ⟨_, List.getElem?_eq_getElem (by omega)⟩
  have hk : k ≤ key x := not_lt.1 fun hk => lt_irrefl _ ((h.lt_lowerBound_iff hx k).2 hk)
  exact hnone x (List.mem_of_getElem? hx) ⟨hk, (h.lt_lowerBound_iff hx k').1 hlt⟩

/-- Where no two entries share a key, its bounds are one apart at most. -/
theorem Sorted.upperBound_le_succ (h : Sorted key l) (hnodup : l.Nodup)
    (hone : ∀ x ∈ l, ∀ y ∈ l, key x = k → key y = k → x = y) :
    upperBound key l k ≤ lowerBound key l k + 1 := by
  by_contra hlt
  rw [Nat.not_le] at hlt
  have hlength := upperBound_le_length key l k
  obtain ⟨x, hx⟩ : ∃ x, l[lowerBound key l k]? = some x :=
    ⟨_, List.getElem?_eq_getElem (by omega)⟩
  obtain ⟨y, hy⟩ : ∃ y, l[lowerBound key l k + 1]? = some y :=
    ⟨_, List.getElem?_eq_getElem (by omega)⟩
  have hsame : x = y := hone x (List.mem_of_getElem? hx) y (List.mem_of_getElem? hy)
    ((h.eq_iff hx k).2 ⟨le_refl _, by omega⟩) ((h.eq_iff hy k).2 ⟨by omega, hlt⟩)
  have hindex : lowerBound key l k = lowerBound key l k + 1 :=
    (List.getElem?_inj (by omega) hnodup).1 ((hx.trans (congrArg some hsame)).trans hy.symm)
  omega

omit [LinearOrder β] in
/-- What is left after a downward closed test. -/
private theorem dropWhile_eq_filter {p : α → Bool} (h : l.Pairwise fun x y => p y → p x) :
    l.dropWhile p = l.filter fun x => !p x := by
  induction l with
  | nil => rfl
  | cons x l ih =>
    rw [List.pairwise_cons] at h
    by_cases hx : p x
    · rw [List.dropWhile_cons_of_pos hx, List.filter_cons_of_neg (by simpa using hx), ih h.2]
    · rw [List.dropWhile_cons_of_neg hx, eq_comm, List.filter_eq_self]
      intro y hy
      rcases List.mem_cons.1 hy with rfl | hy
      · simpa using hx
      · simpa using fun hpy => hx (h.1 y hy hpy)

/-- **Dropping the front up to a key** leaves the greater keys. -/
theorem Sorted.dropWhile_le (h : Sorted key l) (k : β) :
    (l.dropWhile fun x => key x ≤ k) = l.filter fun x => k < key x := by
  have hdown : l.Pairwise fun x y => decide (key y ≤ k) = true → decide (key x ≤ k) = true :=
    h.imp fun hxy hy => decide_eq_true (hxy.trans (of_decide_eq_true hy))
  rw [dropWhile_eq_filter hdown]
  refine List.filter_congr fun x _ => ?_
  rw [← decide_not, decide_eq_decide, not_le]

/-- What is dropped are the keys up to it. -/
theorem Sorted.mem_takeWhile_le (h : Sorted key l) :
    x ∈ (l.takeWhile fun x => key x ≤ k) ↔ x ∈ l ∧ key x ≤ k := by
  constructor
  · intro hx
    have hle := List.mem_takeWhile_imp hx
    exact ⟨List.takeWhile_subset _ hx, of_decide_eq_true hle⟩
  · rintro ⟨hx, hle⟩
    rw [← List.takeWhile_append_dropWhile (p := fun x => decide (key x ≤ k)) (l := l),
      h.dropWhile_le, List.mem_append, List.mem_filter] at hx
    rcases hx with hx | ⟨-, hlt⟩
    · exact hx
    · exact absurd hle (not_le.2 (of_decide_eq_true hlt))

end BinarySearch

end Rensa
