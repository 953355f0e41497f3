import Mathlib.Data.List.Basic
import Mathlib.Tactic.Common
/-!
# Self-delimiting encodings

An encoding is self-delimiting when no encoding is empty or the beginning
of another one: a reader knows where it ends. Such encodings can be
written one after another without separators. The unsigned varint is
self-delimiting, and so is a string with its length before it.
-/

namespace Rensa

variable {α β γ : Type*}

/-- **No encoding is the beginning of another**, or empty. -/
structure SelfDelimiting (enc : α → List β) : Prop where
  ne_nil : ∀ a, enc a ≠ []
  unique : ∀ {a b : α} {r s : List β}, enc a ++ r = enc b ++ s → a = b ∧ r = s

namespace SelfDelimiting

variable {enc : α → List β}

/-- Lists are told apart by the concatenation of their encodings, whatever
their lengths. -/
theorem flatMap_inj (h : SelfDelimiting enc) {l l' : List α}
    (heq : l.flatMap enc = l'.flatMap enc) : l = l' := by
  induction l generalizing l' with
  | nil =>
    cases l' with
    | nil => rfl
    | cons b l' => exact absurd (List.append_eq_nil_iff.1 heq.symm).1 (h.ne_nil b)
  | cons a l ih =>
    cases l' with
    | nil => exact absurd (List.append_eq_nil_iff.1 heq).1 (h.ne_nil a)
    | cons b l' =>
      rw [List.flatMap_cons, List.flatMap_cons] at heq
      obtain ⟨rfl, hrest⟩ := h.unique heq
      rw [ih hrest]

/-- A head that is read first, and then a rest that is read knowing the
head. -/
theorem cons (h : SelfDelimiting enc) {head : γ → α} {rest : γ → List β}
    (hrest : ∀ {c d : γ} {r s : List β}, head c = head d → rest c ++ r = rest d ++ s →
      c = d ∧ r = s) : SelfDelimiting fun c => enc (head c) ++ rest c where
  ne_nil c hnil := h.ne_nil _ (List.append_eq_nil_iff.1 hnil).1
  unique heq := by
    rw [List.append_assoc, List.append_assoc] at heq
    obtain ⟨hhead, htail⟩ := h.unique heq
    exact hrest hhead htail

end SelfDelimiting

/-- The unsigned varint: seven bits a byte, the lowest first, the eighth bit
set on every byte but the last. -/
def uvarint (n : ℕ) : List UInt8 :=
  if n < 128 then [UInt8.ofNat n] else UInt8.ofNat (n % 128 + 128) :: uvarint (n / 128)

theorem uvarint_of_lt {n : ℕ} (h : n < 128) : uvarint n = [UInt8.ofNat n] := by
  rw [uvarint, if_pos h]

theorem uvarint_of_le {n : ℕ} (h : 128 ≤ n) :
    uvarint n = UInt8.ofNat (n % 128 + 128) :: uvarint (n / 128) := by
  rw [uvarint, if_neg (by omega)]

private theorem toNat_byte {n : ℕ} (h : n < 256) : (UInt8.ofNat n).toNat = n := by
  rw [UInt8.toNat_ofNat']
  omega

/-- A varint is read off the bytes it starts. -/
theorem uvarint_unique {m n : ℕ} {r s : List UInt8} (h : uvarint m ++ r = uvarint n ++ s) :
    m = n ∧ r = s := by
  induction m using Nat.strongRecOn generalizing n with
  | ind m ih =>
    rcases Nat.lt_or_ge m 128 with hm | hm <;> rcases Nat.lt_or_ge n 128 with hn | hn
    · rw [uvarint_of_lt hm, uvarint_of_lt hn] at h
      obtain ⟨hbyte, hrest⟩ := List.cons.inj h
      have hval := congrArg UInt8.toNat hbyte
      rw [toNat_byte (by omega), toNat_byte (by omega)] at hval
      exact ⟨hval, hrest⟩
    · -- the last byte of one, and a byte of the other that is not its last
      rw [uvarint_of_lt hm, uvarint_of_le hn] at h
      have hval := congrArg UInt8.toNat (List.cons.inj h).1
      rw [toNat_byte (by omega), toNat_byte (by omega)] at hval
      omega
    · rw [uvarint_of_le hm, uvarint_of_lt hn] at h
      have hval := congrArg UInt8.toNat (List.cons.inj h).1
      rw [toNat_byte (by omega), toNat_byte (by omega)] at hval
      omega
    · rw [uvarint_of_le hm, uvarint_of_le hn] at h
      obtain ⟨hbyte, hrest⟩ := List.cons.inj h
      have hval := congrArg UInt8.toNat hbyte
      rw [toNat_byte (by omega), toNat_byte (by omega)] at hval
      obtain ⟨hdiv, hrs⟩ := ih (m / 128) (by omega) hrest
      exact ⟨by omega, hrs⟩

theorem selfDelimiting_uvarint : SelfDelimiting uvarint where
  ne_nil n hnil := by
    rw [uvarint] at hnil
    split at hnil <;> cases hnil
  unique := uvarint_unique

/-- A string with its length before it. -/
theorem selfDelimiting_prefixed :
    SelfDelimiting fun bs : List UInt8 => uvarint bs.length ++ bs :=
  selfDelimiting_uvarint.cons fun hlen heq => List.append_inj heq hlen

end Rensa
