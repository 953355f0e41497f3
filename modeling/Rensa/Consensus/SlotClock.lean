import Mathlib.Tactic.Ring
import Rensa.Consensus.Model.Schedule
/-!
# When the slot clocks are aligned

The background task reads the clock once, and computes when the current
slot ends in whole milliseconds. This is right for a slot interval without
a fraction of a millisecond, as long as the end of the slot, in
milliseconds since the genesis, is a `u64`. Before the genesis the task
waits for the wrong time: the negative wait, cast to `u64`, ends after the
last date there is (`aligned_iff`).
-/

namespace Rensa

namespace Consensus

namespace SlotClock

variable {genesis now : DateTime} {slot : ℕ}

/-- The task publishes slot `p + k`, where `p` is the first one, at the end
of this slot, and the first one ends within a slot from the start of the
task or, if that is later, the genesis. -/
structure Aligned (genesis now : DateTime) (slot : ℕ) (t : Task) : Prop where
  first : t.nextAt = genesis.millis * 1000000 + (t.pos + 1) * slot
  later : max now.millis genesis.millis * 1000000 < t.nextAt
  within : t.nextAt ≤ max now.millis genesis.millis * 1000000 + slot
  next : ∀ k, (Task.advance slot)^[k] t = ⟨t.pos + k, t.nextAt + k * slot⟩

/-- What the loop publishes, and when. -/
theorem iterate_advance (slot : ℕ) (t : Task) (k : ℕ) :
    (Task.advance slot)^[k] t = ⟨t.pos + k, t.nextAt + k * slot⟩ := by
  induction k with
  | zero => simp
  | succ k ih =>
    rw [Function.iterate_succ_apply', ih, Task.advance, Task.mk.injEq]
    refine ⟨rfl, ?_⟩
    push_cast
    ring

/-! ## The start of the task -/

/-- **Before the genesis the task never starts.** -/
theorem start_early (hnow : now.millis < genesis.millis) : start genesis now slot = none := by
  have hmin := now.min_le
  have hmax := genesis.le_max
  have hend : utcNow (wakeAt genesis now) = none := by
    refine dif_neg fun hrange => ?_
    unfold wakeAt asU64 at hrange
    rw [if_pos hnow] at hrange
    unfold dateTimeMin dateTimeMax at *
    omega
  unfold start
  rw [hend]
  rfl

/-- What the task computes from the genesis on, with the milliseconds of the
interval as a `u64`. -/
theorem start_late (hnow : genesis.millis ≤ now.millis) {elapsed m : ℕ}
    (helapsed : now.millis = genesis.millis + elapsed) (hm : asU64 (asMillis slot) = m)
    (t : Task) : start genesis now slot = some t ↔ m ≠ 0 ∧ (elapsed / m + 1) * m < 2 ^ 64 ∧
      t = ⟨elapsed / m, (genesis.millis + (elapsed / m + 1) * m) * 1000000⟩ := by
  have hmin := now.min_le
  have hmax := now.le_max
  have hawake : utcNow (wakeAt genesis now) = some now := by
    unfold wakeAt utcNow
    rw [if_neg (by omega), dif_pos ⟨hmin, hmax⟩]
  have hcast : asU64 (now.millis - genesis.millis) = elapsed := by
    have hmin := genesis.min_le
    unfold asU64
    unfold dateTimeMin dateTimeMax at *
    omega
  unfold start
  simp only [Option.bind_eq_bind, hawake, Option.bind_some, hcast, hm]
  by_cases hzero : m = 0
  · rw [if_pos hzero]
    exact iff_of_false nofun fun h => h.1 hzero
  rw [if_neg hzero, and_iff_right hzero]
  have hpos : 0 < m := Nat.pos_of_ne_zero hzero
  have hturn : elapsed / m + 1 ≤ (elapsed / m + 1) * m := Nat.le_mul_of_pos_right _ hpos
  have hnext : elapsed ≤ (elapsed / m + 1) * m := by
    have := Nat.lt_div_mul_add hpos (a := elapsed)
    rw [Nat.add_mul, Nat.one_mul]
    omega
  unfold checked
  by_cases hfits : (elapsed / m + 1) * m < 2 ^ 64
  · have htask : (now.millis + ((elapsed / m + 1) * m - elapsed : ℕ)) * 1000000 =
        (genesis.millis + (elapsed / m + 1) * m) * 1000000 := by
      rw [helapsed, Nat.cast_sub hnext]
      push_cast
      ring
    rw [if_pos (Nat.lt_of_le_of_lt hturn hfits), Option.bind_some, if_pos hfits, Option.bind_some,
      htask, and_iff_right hfits]
    exact ⟨fun h => (Option.some.inj h).symm, fun h => congrArg some h.symm⟩
  · refine iff_of_false (fun h => ?_) fun h => hfits h.1
    split at h
    · rw [Option.bind_some, if_neg hfits] at h
      cases h
    · cases h

/-- The first slot ends at a multiple of the interval only where no fraction
of a millisecond was lost. -/
theorem slot_of_first {gen : ℤ} {n m : ℕ}
    (h : (gen + ((n : ℤ) + 1) * m) * 1000000 = gen * 1000000 + ((n : ℤ) + 1) * slot) :
    slot = m * 1000000 := by
  have hmul : (n + 1) * (m * 1000000) = (n + 1) * slot := by
    have hcast : ((n : ℤ) + 1) * (m * 1000000) = (n + 1) * slot := by linarith
    exact_mod_cast hcast
  exact (Nat.eq_of_mul_eq_mul_left (Nat.succ_pos n) hmul).symm

/-- Without a fraction the task is aligned. -/
theorem aligned_of_whole {elapsed m : ℕ} (helapsed : now.millis = genesis.millis + elapsed)
    (hm : 0 < m) : Aligned genesis now (1000000 * m)
      ⟨elapsed / m, (genesis.millis + (elapsed / m + 1) * m) * 1000000⟩ := by
  have hlow : ((elapsed / m : ℕ) : ℤ) * m ≤ elapsed := by
    exact_mod_cast Nat.div_mul_le_self elapsed m
  have hhigh : (elapsed : ℤ) < (elapsed / m : ℕ) * m + m := by
    exact_mod_cast Nat.lt_div_mul_add hm
  have hmax : max now.millis genesis.millis = now.millis := max_eq_left (by omega)
  rw [Int.natCast_div] at hlow hhigh
  refine ⟨?_, ?_, ?_, iterate_advance _ _⟩
  · push_cast
    ring
  · rw [hmax, helapsed]
    linarith
  · rw [hmax, helapsed]
    push_cast
    linarith

/-- **When the slot clocks are aligned**: exactly where the task starts at
the genesis or later, the interval has no fraction of a millisecond, and
the milliseconds from the genesis to the end of the current slot are a
`u64`. -/
theorem aligned_iff (genesis now : DateTime) (slot : ℕ) (hslot : 1000000 ≤ slot) :
    (∃ t, start genesis now slot = some t ∧ Aligned genesis now slot t) ↔
      genesis.millis ≤ now.millis ∧ 1000000 ∣ slot ∧
        ((now.millis - genesis.millis).toNat / asMillis slot + 1) * asMillis slot < 2 ^ 64 := by
  by_cases hnow : genesis.millis ≤ now.millis
  · obtain ⟨elapsed, helapsed⟩ := Int.le.dest hnow
    have helapsed' : (now.millis - genesis.millis).toNat = elapsed := by omega
    rw [and_iff_right hnow, helapsed']
    have hstart := start_late hnow helapsed.symm (rfl : asU64 (asMillis slot) = _)
    constructor
    · -- the end of the first slot shows whether a fraction was lost
      rintro ⟨t, ht, haligned⟩
      obtain ⟨hzero, hfits, rfl⟩ := (hstart t).1 ht
      have hwhole := slot_of_first haligned.first
      have hmillis : asMillis slot = asU64 (asMillis slot) := by
        generalize asU64 (asMillis slot) = m at hwhole ⊢
        unfold asMillis
        omega
      rw [← hmillis] at hfits hwhole
      exact ⟨⟨_, hwhole.trans (Nat.mul_comm _ _)⟩, hfits⟩
    · rintro ⟨⟨m, rfl⟩, hfits⟩
      have hmillis : asMillis (1000000 * m) = m := Nat.mul_div_cancel_left m (by decide)
      rw [hmillis] at hfits
      have hm : m ≤ (elapsed / m + 1) * m := Nat.le_mul_of_pos_left m (Nat.succ_pos _)
      have hcast : asU64 (asMillis (1000000 * m)) = m := by
        rw [hmillis]
        unfold asU64
        omega
      rw [hcast] at hstart
      exact ⟨_, (hstart _).2 ⟨by omega, hfits, rfl⟩, aligned_of_whole helapsed.symm (by omega)⟩
  · -- before the genesis the task never comes to a slot
    rw [Int.not_le] at hnow
    refine iff_of_false ?_ fun h => absurd h.1 (Int.not_le.2 hnow)
    rintro ⟨t, ht, -⟩
    rw [start_early hnow] at ht
    cases ht

/-- Milliseconds near the epoch. -/
def atMillis (millis : Fin 10000) : DateTime where
  millis := millis.val
  min_le := by unfold dateTimeMin; omega
  le_max := by unfold dateTimeMax; omega

/-- Slots of two seconds, seven seconds after the genesis. -/
theorem aligned_twoSeconds : ∃ t, start (atMillis 0) (atMillis 7000) 2000000000 = some t ∧
    Aligned (atMillis 0) (atMillis 7000) 2000000000 t :=
  (aligned_iff (atMillis 0) (atMillis 7000) 2000000000 (by decide)).2
    ⟨by decide, by decide, by decide⟩

/-- A task that starts a second before the genesis, and slots of one and a
half milliseconds. -/
theorem early_or_fractional_slots :
    (¬ ∃ t, start (atMillis 1000) (atMillis 0) 2000000000 = some t ∧
      Aligned (atMillis 1000) (atMillis 0) 2000000000 t) ∧
    ¬ ∃ t, start (atMillis 0) (atMillis 0) 1500000 = some t ∧
      Aligned (atMillis 0) (atMillis 0) 1500000 t := by
  constructor
  · rintro ⟨t, ht, -⟩
    rw [start_early (by decide)] at ht
    cases ht
  · rintro ⟨t, ht, haligned⟩
    cases ht
    exact absurd haligned.first (by decide)

end SlotClock

end Consensus

end Rensa
