import DeskCalc.Proofs.RootSize

/-!
# Rounding to the nearest

Both modes that round to the nearest move a number by half a unit of its last place at most.
A number that has a form at the scale or with the digits that are asked for is kept. Rounding
does not change the sign, and it passes no power of ten that is at least one unit.
-/

namespace DeskCalc

namespace Rounding

/-- Rounding to the nearest moves a dividend by half a divisor at most. -/
theorem mul_quotient_bounds {mode : Rounding} (hmode : mode ≠ .down) (n : Nat) {d : Nat}
    (hd : 0 < d) :
    2 * (mode.quotient n d * d) ≤ 2 * n + d ∧ 2 * n ≤ 2 * (mode.quotient n d * d) + d := by
  have hsplit := Nat.div_add_mod n d
  have hrest := Nat.mod_lt n hd
  have hup : (n / d + 1) * d = d * (n / d) + d := by ring
  have hsame : n / d * d = d * (n / d) := Nat.mul_comm _ _
  unfold quotient
  split
  · next hraises =>
      have hhalf : d ≤ 2 * (n % d) := by
        cases mode <;> simp [raises] at hraises hmode <;> omega
      omega
  · next hraises =>
      have hhalf : 2 * (n % d) ≤ d := by
        cases mode <;> simp [raises] at hraises hmode <;> omega
      omega

/-- A quotient that is at most a whole number is rounded to that number at most. -/
theorem quotient_le_of_le_mul (mode : Rounding) {n m d : Nat} (hd : 0 < d) (h : n ≤ m * d) :
    mode.quotient n d ≤ m := by
  rcases Nat.eq_or_lt_of_le h with rfl | hlt
  · exact (mode.quotient_mul_right m hd).le
  · exact le_trans (mode.quotient_le n d) ((Nat.div_lt_iff_lt_mul hd).mpr hlt)

/-- A quotient that is at least a whole number is rounded to that number at least. -/
theorem le_quotient_of_mul_le (mode : Rounding) {n m d : Nat} (hd : 0 < d) (h : m * d ≤ n) :
    m ≤ mode.quotient n d :=
  le_trans ((Nat.le_div_iff_mul_le hd).mpr h) (mode.le_quotient n d)

theorem abs_signedQuotient_mul_sub_le {mode : Rounding} (hmode : mode ≠ .down) (n : Int)
    {d : Nat} (hd : 0 < d) : |(mode.signedQuotient n d * d - n : ℚ)| ≤ d / 2 := by
  have hsize : |(mode.quotient n.natAbs d * d - n.natAbs : ℚ)| ≤ d / 2 := by
    obtain ⟨hhigh, hlow⟩ := mul_quotient_bounds hmode n.natAbs hd
    have hhigh' : 2 * (mode.quotient n.natAbs d * d : ℚ) ≤ 2 * n.natAbs + d := by
      exact_mod_cast hhigh
    have hlow' : 2 * (n.natAbs : ℚ) ≤ 2 * (mode.quotient n.natAbs d * d) + d := by
      exact_mod_cast hlow
    rw [abs_le]
    constructor <;> linarith only [hhigh', hlow']
  unfold signedQuotient
  split
  · next hneg =>
      have hn : (n : ℚ) = -n.natAbs := by
        rw [Nat.cast_natAbs, abs_of_neg hneg, Int.cast_neg, neg_neg]
      rw [hn, Int.cast_neg, Int.cast_natCast, ← abs_neg]
      convert hsize using 2
      ring
  · next hpos =>
      have hn : (n : ℚ) = n.natAbs := by
        rw [Nat.cast_natAbs, abs_of_nonneg (not_lt.mp hpos)]
      rw [hn, Int.cast_natCast]
      exact hsize

/-- A rounded quotient has no sign but that of the dividend. -/
theorem mul_signedQuotient_nonneg (mode : Rounding) (n : Int) (d : Nat) :
    0 ≤ n * mode.signedQuotient n d := by
  unfold signedQuotient
  split
  · next hneg => exact Int.mul_nonneg_of_nonpos_of_nonpos hneg.le (by omega)
  · next hpos => exact Int.mul_nonneg (not_lt.mp hpos) (by omega)

end Rounding

namespace LongDecimal

/-- A number is moved by half a unit of its new scale at most. -/
theorem abs_value_rescale_sub_le {mode : Rounding} (hmode : mode ≠ .down) (x : LongDecimal)
    (s : Int) : |(x.rescale mode s).value - x.value| ≤ 10 ^ (-s) / 2 := by
  have hunit : (0 : ℚ) < 10 ^ (-s) := zpow_pos (by norm_num) _
  rcases le_or_gt x.scale s with hs | hs
  · rw [value_rescale mode x hs, sub_self, abs_zero]
    linarith only [hunit]
  · set d := tenPow (x.scale - s).toNat with hd
    have hpow : (0 : ℚ) < 10 ^ (-x.scale) := zpow_pos (by norm_num) _
    have hsplit : (10 : ℚ) ^ (-s) = d * 10 ^ (-x.scale) := (tenPow_mul_zpow (by omega)).symm
    have hround := Rounding.abs_signedQuotient_mul_sub_le hmode x.coefficient
      (tenPow_pos (x.scale - s).toNat)
    rw [← hd] at hround
    rw [rescale_of_lt mode x hs, ← hd]
    calc
      |value ⟨mode.signedQuotient x.coefficient d, s⟩ - x.value| =
          |(mode.signedQuotient x.coefficient d * d - x.coefficient : ℚ)| * 10 ^ (-x.scale) := by
        rw [value, value, hsplit, ← mul_assoc, ← sub_mul, abs_mul, abs_of_pos hpow]
      _ ≤ d / 2 * 10 ^ (-x.scale) := mul_le_mul_of_nonneg_right hround hpow.le
      _ = 10 ^ (-s) / 2 := by
        rw [hsplit]
        ring

/-- A number that has a form at the new scale is kept. -/
theorem value_rescale_of_value_eq (mode : Rounding) {x y : LongDecimal} (h : x.value = y.value)
    {s : Int} (hs : y.scale ≤ s) : (x.rescale mode s).value = x.value := by
  rw [rescale_of_value_eq mode h, value_rescale mode y hs, h]

theorem withDigits_eq (mode : Rounding) (x : LongDecimal) (n : Nat) :
    x.withDigits mode n = x.rescale mode (n - x.magnitude) := by
  rw [withDigits, magnitude]
  congr 1
  omega

/-- To round to significant digits is to round at the scale that the magnitude gives. -/
theorem value_significant (mode : Rounding) (x : LongDecimal) (n : Nat) :
    (x.significant mode n).value = (x.rescale mode (n - x.magnitude)).value := by
  unfold significant
  split
  · next hdigits =>
      have hle : x.scale ≤ n - x.magnitude := by
        rw [magnitude]
        omega
      rw [value_rescale mode x hle]
  · rw [withDigits_eq]

theorem value_withDigits (mode : Rounding) (x : LongDecimal) (n : Nat) :
    (x.withDigits mode n).value = (x.significant mode n).value := by
  rw [value_significant, withDigits_eq]

theorem value_rescale_zero {x : LongDecimal} (hx : x.value = 0) (mode : Rounding) (s : Int) :
    x.rescale mode s = ⟨0, s⟩ := by
  rw [rescale, if_pos (value_eq_zero_iff.mp hx)]

theorem value_significant_zero {x : LongDecimal} (hx : x.value = 0) (mode : Rounding) (n : Nat) :
    (x.significant mode n).value = 0 := by
  rw [value_significant, value_rescale_zero hx, value_eq_zero_iff]

/-- A number below a power of ten is moved by half a unit of its last digit at most. -/
theorem abs_value_significant_sub_le {mode : Rounding} (hmode : mode ≠ .down) {x : LongDecimal}
    {k : Int} (h : |x.value| < 10 ^ k) (n : Nat) :
    |(x.significant mode n).value - x.value| ≤ 10 ^ (k - n) / 2 := by
  by_cases hzero : x.value = 0
  · rw [value_significant_zero hzero, hzero, sub_zero, abs_zero]
    positivity
  · have hle : (10 : ℚ) ^ (-(n - x.magnitude)) ≤ 10 ^ (k - n) := by
      apply zpow_le_zpow_right₀ (by norm_num)
      have hmagnitude := magnitude_le_of_value_lt h (mt value_eq_zero_iff.mpr hzero)
      omega
    have hround := abs_value_rescale_sub_le hmode x (n - x.magnitude)
    rw [value_significant]
    linarith only [hle, hround]

/-- A number that has a form with at most the digits asked for is kept. -/
theorem value_significant_of_fits (mode : Rounding) {x y : LongDecimal} (h : x.value = y.value)
    {k : Int} (hk : |x.value| < 10 ^ k) {n : Nat} (hs : y.scale ≤ n - k) :
    (x.significant mode n).value = x.value := by
  by_cases hzero : x.value = 0
  · rw [value_significant_zero hzero, hzero]
  · have hmagnitude := magnitude_le_of_value_lt hk (mt value_eq_zero_iff.mpr hzero)
    rw [value_significant, value_rescale_of_value_eq mode h (by omega)]

/-- A power of ten of one unit at least is a number of units, also of those at a larger scale. -/
theorem zpow_eq_units {k s : Int} (h : -s ≤ k) {s' : Int} (hs : s ≤ s') :
    (10 : ℚ) ^ k = (tenPow (k + s).toNat * tenPow (s' - s).toNat : Nat) * 10 ^ (-s') := by
  rw [← tenPow_add]
  exact (tenPow_mul_zpow (by omega)).symm

/-- A power of ten of one unit at least is not passed. -/
theorem abs_value_rescale_le_zpow (mode : Rounding) {x : LongDecimal} {k s : Int}
    (h : |x.value| ≤ 10 ^ k) (hk : -s ≤ k) : |(x.rescale mode s).value| ≤ 10 ^ k := by
  rcases le_or_gt x.scale s with hs | hs
  · rwa [value_rescale mode x hs]
  -- At the old scale the power of ten is a multiple of the divisor, and rounding stops at those.
  · rw [abs_value_eq_natAbs, zpow_eq_units hk hs.le] at h
    have hcoefficient :
        x.coefficient.natAbs ≤ tenPow (k + s).toNat * tenPow (x.scale - s).toNat := by
      exact_mod_cast le_of_mul_le_mul_right h (zpow_pos (by norm_num) _)
    have hround := mode.quotient_le_of_le_mul (tenPow_pos _) hcoefficient
    rw [abs_value_rescale_of_lt mode x hs, zpow_eq_units hk le_rfl, sub_self, Int.toNat_zero,
      tenPow_zero, Nat.mul_one]
    exact mul_le_mul_of_nonneg_right (by exact_mod_cast hround) (zpow_nonneg (by norm_num) _)

theorem zpow_le_abs_value_rescale (mode : Rounding) {x : LongDecimal} {k s : Int}
    (h : 10 ^ k ≤ |x.value|) (hk : -s ≤ k) : 10 ^ k ≤ |(x.rescale mode s).value| := by
  rcases le_or_gt x.scale s with hs | hs
  · rwa [value_rescale mode x hs]
  · rw [abs_value_eq_natAbs, zpow_eq_units hk hs.le] at h
    have hcoefficient :
        tenPow (k + s).toNat * tenPow (x.scale - s).toNat ≤ x.coefficient.natAbs := by
      exact_mod_cast le_of_mul_le_mul_right h (zpow_pos (by norm_num) _)
    have hround := mode.le_quotient_of_mul_le (tenPow_pos _) hcoefficient
    rw [abs_value_rescale_of_lt mode x hs, zpow_eq_units hk le_rfl, sub_self, Int.toNat_zero,
      tenPow_zero, Nat.mul_one]
    exact mul_le_mul_of_nonneg_right (by exact_mod_cast hround) (zpow_nonneg (by norm_num) _)

theorem abs_value_significant_le_zpow (mode : Rounding) {x : LongDecimal} {k : Int}
    (h : |x.value| ≤ 10 ^ k) {n : Nat} (hn : 0 < n) :
    |(x.significant mode n).value| ≤ 10 ^ k := by
  by_cases hzero : x.value = 0
  · rw [value_significant_zero hzero, abs_zero]
    positivity
  · have hlt : |x.value| < 10 ^ (k + 1) :=
      lt_of_le_of_lt h (zpow_lt_zpow_right₀ (by norm_num) (by omega))
    have hmagnitude := magnitude_le_of_value_lt hlt (mt value_eq_zero_iff.mpr hzero)
    rw [value_significant]
    exact abs_value_rescale_le_zpow mode h (by omega)

/-- Rounding to one digit or more does not pass the power of ten below. -/
theorem zpow_le_abs_value_significant (mode : Rounding) {x : LongDecimal} {k : Int}
    (h : 10 ^ k ≤ |x.value|) {n : Nat} (hn : 0 < n) : 10 ^ k ≤ |(x.significant mode n).value| := by
  have hc : x.coefficient ≠ 0 := by
    intro hzero
    rw [value_eq_zero_iff.mpr hzero, abs_zero] at h
    exact absurd h (not_le.mpr (zpow_pos (by norm_num) _))
  have hk : k < x.magnitude :=
    (zpow_lt_zpow_iff_right₀ (by norm_num)).mp (h.trans_lt x.abs_value_lt_magnitude)
  calc
    (10 : ℚ) ^ k ≤ 10 ^ (x.magnitude - 1) := zpow_le_zpow_right₀ (by norm_num) (by omega)
    _ ≤ |(x.rescale mode (n - x.magnitude)).value| :=
      zpow_le_abs_value_rescale mode (tenPow_magnitude_le hc) (by omega)
    _ = |(x.significant mode n).value| := by rw [value_significant]

/-- Rounding leaves no sign but that of the number. -/
theorem value_mul_value_rescale_nonneg (mode : Rounding) (x : LongDecimal) (s : Int) :
    0 ≤ x.value * (x.rescale mode s).value := by
  rcases le_or_gt x.scale s with hs | hs
  · rw [value_rescale mode x hs]
    exact mul_self_nonneg x.value
  · have hsign := mode.mul_signedQuotient_nonneg x.coefficient (tenPow (x.scale - s).toNat)
    rw [rescale_of_lt mode x hs, ← value_mul_at]
    rw [value]
    exact mul_nonneg (by exact_mod_cast hsign) (zpow_nonneg (by norm_num) _)

theorem value_rescale_nonneg (mode : Rounding) {x : LongDecimal} (h : 0 ≤ x.value) (s : Int) :
    0 ≤ (x.rescale mode s).value := by
  rcases h.eq_or_lt with hzero | hpos
  · have hkept := value_rescale_of_value_eq mode (y := ⟨0, s⟩)
      (hzero.symm.trans (value_eq_zero_iff.mpr rfl).symm) (le_refl s)
    rw [hkept]
    exact h
  · exact nonneg_of_mul_nonneg_right (value_mul_value_rescale_nonneg mode x s) hpos

theorem guardedDigits_pos (magnitude : Int) (precision : Nat) :
    0 < guardedDigits magnitude precision := by
  rw [guardedDigits, guardedScale, guardDigits]
  omega

/-- Digits counted for a magnitude reach to the working scale. -/
theorem zpow_sub_guardedDigits_le (magnitude : Int) (precision : Nat) :
    (10 : ℚ) ^ (magnitude - guardedDigits magnitude precision) ≤
      10 ^ (-(guardedScale precision : Int)) := by
  apply zpow_le_zpow_right₀ (by norm_num)
  rw [guardedDigits]
  omega

end LongDecimal

end DeskCalc
