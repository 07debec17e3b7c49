import Mathlib.Tactic

/-! # Masks and packed fields

What the usual C expressions on unsigned words compute: clearing the low
bits of a word rounds it down to a multiple of a power of two, and a field
put above a smaller value can be read back by shifting and masking. -/

namespace RdmaBench.Lib.Bits

/-- The mask with ones from bit `k` up to bit `w - 1`. -/
theorem testBit_high_mask {w k i : Nat} (hk : k ≤ w) :
    (2 ^ w - 2 ^ k).testBit i = (decide (k ≤ i) && decide (i < w)) := by
  have h : 2 ^ w - 2 ^ k = 2 ^ k * (2 ^ (w - k) - 1) := by
    rw [Nat.mul_sub_one, ← Nat.pow_add, Nat.add_sub_cancel' hk]
  rw [h, Nat.testBit_two_pow_mul, Nat.testBit_two_pow_sub_one]
  by_cases hki : k ≤ i
  · simp only [hki, decide_true, Bool.true_and]
    congr 1
    simp only [eq_iff_iff]
    omega
  · simp [hki]

/-- Clearing the low `k` bits rounds down to a multiple of `2 ^ k`. -/
theorem and_high_mask {w k y : Nat} (hk : k ≤ w) (hy : y < 2 ^ w) :
    y &&& (2 ^ w - 2 ^ k) = y / 2 ^ k * 2 ^ k := by
  apply Nat.eq_of_testBit_eq
  intro i
  rw [Nat.testBit_and, testBit_high_mask hk, Nat.mul_comm, Nat.testBit_two_pow_mul]
  by_cases hki : k ≤ i
  · by_cases hiw : i < w
    · simp [hki, hiw, Nat.testBit_div_two_pow]
    · have hz : y.testBit i = false := Nat.testBit_lt_two_pow
        (lt_of_lt_of_le hy (Nat.pow_le_pow_right (by omega) (by omega)))
      simp [hki, hiw, Nat.testBit_div_two_pow, hz]
  · simp [hki]

/-- A field above bit `i` and a value below it do not overlap. -/
theorem or_shiftLeft_eq_add {i b : Nat} (hb : b < 2 ^ i) (a : Nat) :
    b ||| (a <<< i) = a * 2 ^ i + b := by
  rw [Nat.shiftLeft_eq, Nat.or_comm, Nat.mul_comm, Nat.two_pow_add_eq_or_of_lt hb]

/-! ## 64-bit unsigned words -/

/-- Unsigned subtraction, which wraps. -/
def sub64 (a b : Nat) : Nat := (a + 2 ^ 64 - b) % 2 ^ 64

/-- The complement of a word. -/
def not64 (x : Nat) : Nat := 2 ^ 64 - 1 - x

theorem sub64_of_le {a b : Nat} (h : b ≤ a) (ha : a < 2 ^ 64) : sub64 a b = a - b := by
  unfold sub64
  omega

theorem sub64_of_lt {a b : Nat} (h : a < b) (hb : b < 2 ^ 64) : sub64 a b = a + 2 ^ 64 - b := by
  unfold sub64
  omega

/-- Clearing the bits under a mask of ones. -/
theorem and_not64_mask {k y : Nat} (hk : k ≤ 64) (hy : y < 2 ^ 64) :
    y &&& not64 (2 ^ k - 1) = y / 2 ^ k * 2 ^ k := by
  have hle : 2 ^ k ≤ 2 ^ 64 := Nat.pow_le_pow_right (by omega) hk
  have hpos : 0 < 2 ^ k := Nat.two_pow_pos k
  have he : not64 (2 ^ k - 1) = 2 ^ 64 - 2 ^ k := by
    unfold not64
    omega
  rw [he, and_high_mask hk hy]

end RdmaBench.Lib.Bits
