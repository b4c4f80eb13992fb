import Mathlib

/-!
# The exponent estimator of `flt2dec`

`core/src/num/flt2dec/estimator.rs`. The fixed-point factor 1292913986 / 2 ^ 32 lies between the
fractions 643 / 2136 and 146 / 485, and so does the logarithm of 2. They are neighbours: no
fraction with a denominator below their sum 2621 is between them, so in the range of the
exponents no power of ten is between what the factor and what the logarithm gives.
-/

namespace Estimator

def leadingZeros (x : Nat) : Int := 64 - x.size

/-- `as i16`. -/
def asI16 (x : Int) : Int := x.bmod (2 ^ 16)

def estimateScalingFactor (mant : Nat) (exp : Int) : Int :=
  let nbits := 64 - leadingZeros (mant - 1)
  asI16 ((nbits + exp) * 1292913986 / 2 ^ 32)

section
variable {a b k n : Int}

lemma ten_zpow_le (le : a * Real.log 10 ≤ b * Real.log 2) : (10 : ℝ) ^ a ≤ 2 ^ b := by
  rw [← Real.log_le_log_iff (by positivity) (by positivity), Real.log_zpow, Real.log_zpow]
  exact le

lemma two_zpow_le (le : b * Real.log 2 ≤ a * Real.log 10) : (2 : ℝ) ^ b ≤ 10 ^ a := by
  rw [← Real.log_le_log_iff (by positivity) (by positivity), Real.log_zpow, Real.log_zpow]
  exact le

lemma log_lower : 643 * Real.log 10 ≤ 2136 * Real.log 2 := by
  have power : (10 : ℝ) ^ 643 ≤ 2 ^ 2136 := by
    exact_mod_cast (by decide +kernel : 10 ^ 643 ≤ 2 ^ 2136)
  have logs := Real.log_le_log (by positivity) power
  simpa only [Real.log_pow, Nat.cast_ofNat] using logs

lemma log_upper : 485 * Real.log 2 ≤ 146 * Real.log 10 := by
  have power : (2 : ℝ) ^ 485 ≤ 10 ^ 146 := by
    exact_mod_cast (by decide +kernel : 2 ^ 485 ≤ 10 ^ 146)
  have logs := Real.log_le_log (by positivity) power
  simpa only [Real.log_pow, Nat.cast_ofNat] using logs

lemma lower (low : -1200 ≤ n) (high : n ≤ 1264) (floor : k * 2 ^ 32 ≤ n * 1292913986) :
    (10 : ℝ) ^ (k - 1) ≤ 2 ^ (n - 1) := by
  have ten : 0 < Real.log 10 := Real.log_pos (by norm_num)
  apply ten_zpow_le
  rcases le_or_gt 1 n with pos | neg
  · have below : ((k - 1 : Int) : ℝ) * 2136 ≤ (n - 1 : Int) * 643 := by norm_cast; omega
    have sign : (0 : ℝ) ≤ (n - 1 : Int) := by norm_cast; omega
    nlinarith [mul_le_mul_of_nonneg_left log_lower sign]
  · have below : ((k - 1 : Int) : ℝ) * 485 ≤ (n - 1 : Int) * 146 := by norm_cast; omega
    have sign : ((n - 1 : Int) : ℝ) ≤ 0 := by norm_cast; omega
    nlinarith [mul_le_mul_of_nonpos_left log_upper sign]

lemma upper (low : -1200 ≤ n) (high : n ≤ 1264) (ceil : n * 1292913986 < k * 2 ^ 32) :
    (2 : ℝ) ^ n ≤ 10 ^ k := by
  have ten : 0 < Real.log 10 := Real.log_pos (by norm_num)
  apply two_zpow_le
  rcases le_or_gt 0 n with pos | neg
  · have above : (n : ℝ) * 146 ≤ k * 485 := by norm_cast; omega
    have sign : (0 : ℝ) ≤ n := by norm_cast
    nlinarith [mul_le_mul_of_nonneg_left log_upper sign]
  · have above : (n : ℝ) * 643 ≤ k * 2136 := by norm_cast; omega
    have sign : (n : ℝ) ≤ 0 := by norm_cast; omega
    nlinarith [mul_le_mul_of_nonpos_left log_lower sign]

end

theorem estimate_within_one {mant : Nat} {exp : Int} (pos : 0 < mant) (word : mant < 2 ^ 64)
    (low : -1200 ≤ exp) (high : exp ≤ 1200) :
    (10 : ℝ) ^ (estimateScalingFactor mant exp - 1) < mant * 2 ^ exp ∧
      mant * (2 : ℝ) ^ exp ≤ 10 ^ (estimateScalingFactor mant exp + 1) := by
  have most : (mant - 1).size ≤ 64 := Nat.size_le.mpr (by omega)
  have above : (mant : ℝ) ≤ 2 ^ (mant - 1).size := by
    have bits := Nat.lt_size_self (mant - 1)
    exact_mod_cast (by omega : mant ≤ 2 ^ (mant - 1).size)
  have below : (2 : ℝ) ^ ((mant - 1).size - 1 : Int) < mant := by
    have one : (1 : ℝ) ≤ mant := by exact_mod_cast pos
    cases bits : (mant - 1).size with
    | zero =>
      norm_num
      linarith
    | succ m =>
      have power : 2 ^ m ≤ mant - 1 := Nat.lt_size.mp (by omega)
      simpa using (by exact_mod_cast (by omega : 2 ^ m < mant) : (2 : ℝ) ^ m < mant)
  have narrow : estimateScalingFactor mant exp = ((mant - 1).size + exp) * 1292913986 / 2 ^ 32 := by
    rw [estimateScalingFactor, leadingZeros, asI16, sub_sub_cancel]
    exact Int.bmod_eq_of_le (by omega) (by omega)
  rw [narrow]
  constructor
  · calc
      _ ≤ (2 : ℝ) ^ ((mant - 1).size + exp - 1) := lower (by omega) (by omega) (by omega)
      _ = 2 ^ ((mant - 1).size - 1 : Int) * 2 ^ exp := by
        rw [← zpow_add₀ two_ne_zero]
        ring_nf
      _ < mant * 2 ^ exp := by gcongr
  · calc
      _ ≤ (2 : ℝ) ^ (mant - 1).size * 2 ^ exp := by gcongr
      _ = 2 ^ ((mant - 1).size + exp) := by rw [zpow_add₀ two_ne_zero, zpow_natCast]
      _ ≤ _ := upper (by omega) (by omega) (by omega)

theorem estimate_within_one_thousand :
    (10 : ℝ) ^ (estimateScalingFactor 1000 0 - 1) < (1000 : Nat) * 2 ^ (0 : Int) ∧
      (1000 : Nat) * (2 : ℝ) ^ (0 : Int) ≤ 10 ^ (estimateScalingFactor 1000 0 + 1) :=
  estimate_within_one (by decide) (by decide) (by decide) (by decide)

end Estimator
