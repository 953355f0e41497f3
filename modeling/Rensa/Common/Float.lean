import Mathlib
/-!
# Binary64 rounding of integers

A positive binary64 number is an integer of at most 53 bits times a power
of two, so the nearest one to an integer is found by dropping low bits.
`roundSig` is round-to-nearest, ties to even; no exponent is out of range
for the integers it is used on.
-/

namespace Rensa

/-- The low bits of `n` beyond its 53 highest. -/
def excessBits (n : ℕ) : ℕ := n.size - 53

/-- `n` rounded to 53 significant bits, to nearest, ties to even. -/
def roundSig (n : ℕ) : ℕ :=
  let unit := 2 ^ excessBits n
  let q := n / unit
  let r := n % unit
  if unit < 2 * r ∨ (unit = 2 * r ∧ q % 2 = 1) then (q + 1) * unit else q * unit

/-- `⌈n / 2 ^ k⌉`. -/
def ceilShift (n k : ℕ) : ℕ := (n + (2 ^ k - 1)) / 2 ^ k

theorem le_ceilShift (n k : ℕ) : n ≤ ceilShift n k * 2 ^ k := by
  have hpos : 0 < 2 ^ k := Nat.two_pow_pos k
  have hmod := Nat.div_add_mod (n + (2 ^ k - 1)) (2 ^ k)
  have hlt := Nat.mod_lt (n + (2 ^ k - 1)) hpos
  unfold ceilShift
  rw [Nat.mul_comm] at hmod
  omega

/-- The dropped bits weigh less than `2 ^ -52` of the number. -/
theorem unit_mul_le {n : ℕ} (h : excessBits n ≠ 0) : 2 ^ excessBits n * 2 ^ 52 ≤ n := by
  have hsize : 53 < n.size := by unfold excessBits at h; omega
  have hle : 2 ^ (n.size - 1) ≤ n := Nat.lt_size.1 (by omega)
  have hexp : excessBits n + 52 = n.size - 1 := by unfold excessBits; omega
  rw [← pow_add, hexp]
  exact hle

/-- **Rounding loses less than one part in `2 ^ 52`.** -/
theorem le_roundSig (n : ℕ) : n * 2 ^ 52 ≤ roundSig n * 2 ^ 52 + n := by
  have hfloor : n - n % 2 ^ excessBits n ≤ roundSig n := by
    have hdiv := Nat.div_add_mod n (2 ^ excessBits n)
    rw [Nat.mul_comm] at hdiv
    unfold roundSig
    dsimp only
    split
    · rw [Nat.add_mul]
      omega
    · omega
  by_cases h : excessBits n = 0
  · rw [h, pow_zero, Nat.mod_one, Nat.sub_zero] at hfloor
    exact (Nat.mul_le_mul_right _ hfloor).trans (Nat.le_add_right _ _)
  · have hunit := unit_mul_le h
    have hlt : n % 2 ^ excessBits n < 2 ^ excessBits n := Nat.mod_lt _ (Nat.two_pow_pos _)
    have hle : n ≤ roundSig n + 2 ^ excessBits n := by omega
    calc n * 2 ^ 52 ≤ (roundSig n + 2 ^ excessBits n) * 2 ^ 52 := Nat.mul_le_mul_right _ hle
      _ = roundSig n * 2 ^ 52 + 2 ^ excessBits n * 2 ^ 52 := Nat.add_mul _ _ _
      _ ≤ roundSig n * 2 ^ 52 + n := Nat.add_le_add_left hunit _

end Rensa
