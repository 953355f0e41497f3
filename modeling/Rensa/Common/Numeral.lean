import Mathlib.Data.List.TakeWhile
import Mathlib.Data.Nat.Digits.Lemmas
/-!
# Numerals with leading zeros

A numeral is a list of digits, the highest first. It is a number and how
many zeros are in front of it, and nothing else (`join_split`,
`split_join`): so changing the base while keeping these zeros is undone by
changing it back (`rebase_rebase`). Digits are written as the characters of
an alphabet (`spell`), and read again (`unspell`); in base ten, as decimals.
-/

namespace Rensa

/-! ## Numerals -/

namespace Numeral

variable {b c : ℕ} {ds : List ℕ}

/-- The leading zeros and the number of a numeral. -/
def split (b : ℕ) (ds : List ℕ) : ℕ × ℕ :=
  ((ds.takeWhile (· = 0)).length, Nat.ofDigits b ds.reverse)

/-- The numeral of a number, with some zeros in front. -/
def join (b : ℕ) (p : ℕ × ℕ) : List ℕ := List.replicate p.1 0 ++ (Nat.digits b p.2).reverse

/-- Another base, with the same leading zeros. -/
def rebase (b c : ℕ) (ds : List ℕ) : List ℕ := join c (split b ds)

/-- The highest digit of a number is not zero. -/
theorem digits_reverse_cases (b n : ℕ) : (Nat.digits b n).reverse = [] ∧ n = 0 ∨
    ∃ d rest, (Nat.digits b n).reverse = d :: rest ∧ d ≠ 0 := by
  rcases Nat.eq_zero_or_pos n with rfl | hn
  · exact .inl ⟨by rw [Nat.digits_zero]; rfl, rfl⟩
  · have hne : Nat.digits b n ≠ [] := Nat.digits_ne_nil_iff_ne_zero.2 (by omega)
    refine .inr ⟨(Nat.digits b n).getLast hne, (Nat.digits b n).dropLast.reverse, ?_,
      Nat.getLast_digit_ne_zero b (by omega)⟩
    conv_lhs => rw [← List.dropLast_append_getLast hne]
    rw [List.reverse_append]
    rfl

theorem split_join (b : ℕ) (p : ℕ × ℕ) : split b (join b p) = p := by
  obtain ⟨zeros, n⟩ := p
  refine Prod.ext ?_ ?_
  · show ((List.replicate zeros 0 ++ (Nat.digits b n).reverse).takeWhile (· = 0)).length = zeros
    have hzeros : ∀ x ∈ List.replicate zeros 0, decide (x = 0) = true := fun x hx => by
      rw [List.eq_of_mem_replicate hx]
      rfl
    rw [List.takeWhile_append_of_pos hzeros, List.length_append, List.length_replicate]
    rcases digits_reverse_cases b n with ⟨hnil, -⟩ | ⟨d, rest, hcons, hd⟩
    · rw [hnil]
      rfl
    · rw [hcons, List.takeWhile_cons_of_neg (by simpa using hd)]
      rfl
  · show Nat.ofDigits b (List.replicate zeros 0 ++ (Nat.digits b n).reverse).reverse = n
    rw [List.reverse_append, List.reverse_reverse, List.reverse_replicate,
      Nat.ofDigits_append_replicate_zero, Nat.ofDigits_digits]

/-- Zeros, and then a digit that is none. -/
theorem exists_zeros (ds : List ℕ) : ∃ rest, ds = List.replicate (ds.takeWhile (· = 0)).length 0 ++
    rest ∧ ∀ d ∈ rest.head?, d ≠ 0 := by
  refine ⟨ds.dropWhile (· = 0), ?_, ?_⟩
  · have hzeros : ds.takeWhile (· = 0) = List.replicate (ds.takeWhile (· = 0)).length 0 :=
      List.eq_replicate_of_mem fun d hd => by simpa using List.mem_takeWhile_imp hd
    rw [← hzeros, List.takeWhile_append_dropWhile]
  · intro d hd
    have hhead := List.head?_dropWhile_not (fun d : ℕ => decide (d = 0)) ds
    rw [hd] at hhead
    simpa using hhead

theorem join_split (hb : 1 < b) (hds : ∀ d ∈ ds, d < b) : join b (split b ds) = ds := by
  obtain ⟨rest, hsplit, hhead⟩ := exists_zeros ds
  have hvalue : Nat.ofDigits b ds.reverse = Nat.ofDigits b rest.reverse := by
    conv_lhs => rw [hsplit]
    rw [List.reverse_append, List.reverse_replicate, Nat.ofDigits_append_replicate_zero]
  have hrest : Nat.digits b (Nat.ofDigits b rest.reverse) = rest.reverse := by
    refine Nat.digits_ofDigits b hb _ (fun d hd => ?_) fun hne => ?_
    · exact hds d (hsplit ▸ List.mem_append_right _ (List.mem_reverse.1 hd))
    · rw [List.getLast_reverse]
      exact hhead _ (List.head?_eq_some_head _)
  show List.replicate _ 0 ++ (Nat.digits b (Nat.ofDigits b ds.reverse)).reverse = ds
  rw [hvalue, hrest, List.reverse_reverse]
  exact hsplit.symm

theorem join_lt (hb : 1 < b) (p : ℕ × ℕ) : ∀ d ∈ join b p, d < b := by
  intro d hd
  rcases List.mem_append.1 hd with hd | hd
  · rw [List.eq_of_mem_replicate hd]
    omega
  · exact Nat.digits_lt_base hb (List.mem_reverse.1 hd)

/-- **Changing the base back** gives the same digits. -/
theorem rebase_rebase (hb : 1 < b) (hds : ∀ d ∈ ds, d < b) : rebase c b (rebase b c ds) = ds := by
  unfold rebase
  rw [split_join, join_split hb hds]

end Numeral

/-! ## Texts over an alphabet -/

section Alphabet

variable {α : Type} [DecidableEq α] {alphabet : List α} {ds : List ℕ} {cs : List α}

/-- The characters of some digits. -/
def spell (alphabet : List α) (ds : List ℕ) : List α := ds.filterMap fun d => alphabet[d]?

/-- The digits of some characters, if they all are of the alphabet. -/
def unspell (alphabet : List α) : List α → Option (List ℕ)
  | [] => some []
  | c :: cs =>
    if c ∈ alphabet then (unspell alphabet cs).map (alphabet.idxOf c :: ·) else none

theorem unspell_lt (h : unspell alphabet cs = some ds) : ∀ d ∈ ds, d < alphabet.length := by
  induction cs generalizing ds with
  | nil =>
    cases h
    exact nofun
  | cons c cs ih =>
    unfold unspell at h
    split at h
    next hc =>
      obtain ⟨ds', hds', rfl⟩ := Option.map_eq_some_iff.1 h
      rintro d (_ | ⟨_, hd⟩)
      · exact List.idxOf_lt_length_of_mem hc
      · exact ih hds' d hd
    · cases h

omit [DecidableEq α] in
theorem spell_cons {d : ℕ} (hd : d < alphabet.length) (ds : List ℕ) :
    spell alphabet (d :: ds) = alphabet[d] :: spell alphabet ds :=
  List.filterMap_cons_some (List.getElem?_eq_getElem hd)

/-- What was read is what was written. -/
theorem spell_unspell (h : unspell alphabet cs = some ds) : spell alphabet ds = cs := by
  induction cs generalizing ds with
  | nil =>
    cases h
    rfl
  | cons c cs ih =>
    unfold unspell at h
    split at h
    next hc =>
      obtain ⟨ds', hds', rfl⟩ := Option.map_eq_some_iff.1 h
      rw [spell_cons (List.idxOf_lt_length_of_mem hc), List.getElem_idxOf, ih hds']
    · cases h

/-- What was written can be read, if no character is there twice. -/
theorem unspell_spell (hnodup : alphabet.Nodup) (hds : ∀ d ∈ ds, d < alphabet.length) :
    unspell alphabet (spell alphabet ds) = some ds := by
  induction ds with
  | nil => rfl
  | cons d ds ih =>
    have hd := hds d List.mem_cons_self
    rw [spell_cons hd, unspell, if_pos (List.getElem_mem hd),
      ih fun d hd => hds d (List.mem_cons_of_mem _ hd), hnodup.idxOf_getElem]
    rfl

end Alphabet

/-! ## Decimals -/

/-- The digits from zero to nine. -/
def decimalDigits : List Char := ['0', '1', '2', '3', '4', '5', '6', '7', '8', '9']

/-- A number in base ten. -/
def decimal (n : ℕ) : List Char :=
  spell decimalDigits (if n = 0 then [0] else (Nat.digits 10 n).reverse)

/-- The number that a decimal is. -/
def readDecimal (cs : List Char) : Option ℕ :=
  (unspell decimalDigits cs).map fun ds => Nat.ofDigits 10 ds.reverse

/-- **What was written as a decimal is read again.** -/
theorem readDecimal_decimal (n : ℕ) : readDecimal (decimal n) = some n := by
  have hlt : ∀ d ∈ (if n = 0 then [0] else (Nat.digits 10 n).reverse), d < 10 := by
    intro d hd
    split at hd
    · rw [List.mem_singleton.1 hd]
      decide
    · exact Nat.digits_lt_base (by decide) (List.mem_reverse.1 hd)
  unfold readDecimal decimal
  rw [unspell_spell (by decide) hlt, Option.map_some]
  split
  next hn =>
    rw [hn]
    rfl
  · rw [List.reverse_reverse, Nat.ofDigits_digits]

theorem decimal_ne_nil (n : ℕ) : decimal n ≠ [] := by
  intro hnil
  have hread := readDecimal_decimal n
  rw [hnil] at hread
  obtain rfl : 0 = n := Option.some.inj hread
  exact absurd hnil (by decide)

/-- A decimal has only digits. -/
theorem mem_decimal {n : ℕ} {c : Char} (hc : c ∈ decimal n) : c ∈ decimalDigits := by
  obtain ⟨d, -, hd⟩ := List.mem_filterMap.1 hc
  exact List.mem_of_getElem? hd

end Rensa
