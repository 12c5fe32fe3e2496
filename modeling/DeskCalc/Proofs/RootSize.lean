import DeskCalc.Proofs.Magnitude
import DeskCalc.Proofs.Shown
import Mathlib.Data.Nat.Cast.Order.Field
import Mathlib.Data.Nat.Sqrt

/-!
# The size of rounded numbers and of roots

Rounding moves a number by one unit of its last place at most. The floor root squared is no
larger than the radicand, so a root is far below the exponent limit if its radicand is
below it, whatever the scale of the root is.
-/

namespace DeskCalc

/-- The Newton steps are those of the library. -/
theorem descendRoot_eq_iter (n guess : Nat) : descendRoot n guess = Nat.sqrt.iter n guess := by
  fun_induction descendRoot n guess with
  | case1 guess next h ih => rw [Nat.sqrt.iter, dif_pos h, ih]
  | case2 guess next h => rw [Nat.sqrt.iter, dif_neg h]

theorem floorRoot_eq_sqrt (n : Nat) : floorRoot n = Nat.sqrt n := by
  rw [floorRoot, Nat.sqrt, descendRoot_eq_iter, twoPow, Nat.one_shiftLeft, Nat.pow_eq]

namespace Rounding

theorem natAbs_signedQuotient (mode : Rounding) (n : Int) (d : Nat) :
    (mode.signedQuotient n d).natAbs = mode.quotient n.natAbs d := by
  unfold signedQuotient
  split
  · rw [Int.natAbs_neg, Int.natAbs_natCast]
  · exact Int.natAbs_natCast _

theorem natAbs_signedQuotient_le (mode : Rounding) (n : Int) (d : Nat) :
    (mode.signedQuotient n d).natAbs ≤ n.natAbs / d + 1 := by
  rw [natAbs_signedQuotient]
  exact mode.quotient_le n.natAbs d

theorem abs_signedQuotient_le (mode : Rounding) (n : Int) (d : Nat) :
    |(mode.signedQuotient n d : ℚ)| ≤ |(n : ℚ)| / d + 1 := by
  have hle := mode.natAbs_signedQuotient_le n d
  have hdiv : ((n.natAbs / d : Nat) : ℚ) ≤ (n.natAbs : ℚ) / d := Nat.cast_div_le
  rw [← Int.cast_abs, ← Int.cast_abs, Int.abs_eq_natAbs, Int.abs_eq_natAbs, Int.cast_natCast,
    Int.cast_natCast]
  calc
    ((mode.signedQuotient n d).natAbs : ℚ) ≤ (n.natAbs / d : Nat) + 1 := by exact_mod_cast hle
    _ ≤ (n.natAbs : ℚ) / d + 1 := by linarith

end Rounding

namespace LongDecimal

theorem abs_value_eq (x : LongDecimal) :
    |x.value| = |(x.coefficient : ℚ)| * (10 : ℚ) ^ (-x.scale) := by
  have hpow : (0 : ℚ) < 10 ^ (-x.scale) := zpow_pos (by norm_num) _
  rw [value, abs_mul, abs_of_pos hpow]

theorem abs_value_eq_natAbs (x : LongDecimal) :
    |x.value| = x.coefficient.natAbs * (10 : ℚ) ^ (-x.scale) := by
  rw [abs_value_eq, ← Int.cast_abs, Int.abs_eq_natAbs, Int.cast_natCast]

/-- A number at a smaller scale has the rounded digits of its magnitude. -/
theorem abs_value_rescale_of_lt (mode : Rounding) (x : LongDecimal) {s : Int} (h : s < x.scale) :
    |(x.rescale mode s).value| =
      (mode.quotient x.coefficient.natAbs (tenPow (x.scale - s).toNat) : Nat) * 10 ^ (-s) := by
  rw [rescale_of_lt mode x h, abs_value_eq_natAbs, Rounding.natAbs_signedQuotient]

theorem abs_value_rescale_le (mode : Rounding) (x : LongDecimal) (s : Int) :
    |(x.rescale mode s).value| ≤ |x.value| + (10 : ℚ) ^ (-s) := by
  have hunit : (0 : ℚ) < 10 ^ (-s) := zpow_pos (by norm_num) _
  rcases le_or_gt x.scale s with hs | hs
  · rw [value_rescale mode x hs]
    linarith
  · have hten : (10 : ℚ) ≠ 0 := by norm_num
    have hsplit : (10 : ℚ) ^ (-x.scale) = 10 ^ (-s) / (tenPow (x.scale - s).toNat : ℚ) := by
      rw [cast_tenPow, ← zpow_natCast, ← zpow_sub₀ hten]
      congr 1
      omega
    have hle := mode.abs_signedQuotient_le x.coefficient (tenPow (x.scale - s).toNat)
    rw [rescale_of_lt mode x hs, abs_value_eq, abs_value_eq, hsplit]
    calc
      |(mode.signedQuotient x.coefficient (tenPow (x.scale - s).toNat) : ℚ)| * 10 ^ (-s) ≤
          (|(x.coefficient : ℚ)| / (tenPow (x.scale - s).toNat : ℚ) + 1) * 10 ^ (-s) :=
        mul_le_mul_of_nonneg_right hle hunit.le
      _ = |(x.coefficient : ℚ)| * (10 ^ (-s) / (tenPow (x.scale - s).toNat : ℚ)) +
          10 ^ (-s) := by ring

theorem abs_value_lt_magnitude (x : LongDecimal) : |x.value| < (10 : ℚ) ^ x.magnitude := by
  have hten : (10 : ℚ) ≠ 0 := by norm_num
  have hpow : (0 : ℚ) < 10 ^ (-x.scale) := zpow_pos (by norm_num) _
  have hlog : (x.coefficient.natAbs : ℚ) < 10 ^ (Nat.log 10 x.coefficient.natAbs + 1) := by
    exact_mod_cast Nat.lt_pow_succ_log_self (by norm_num) x.coefficient.natAbs
  rw [Nat.cast_natAbs, Int.cast_abs, ← zpow_natCast] at hlog
  rw [abs_value_eq, magnitude, digits, Digits.count_eq_log, sub_eq_add_neg, zpow_add₀ hten]
  exact mul_lt_mul_of_pos_right hlog hpow

/-- Within the limit are the numbers below it in size whose scale is within it too. -/
theorem isBounded_iff_size {x : LongDecimal} :
    x.isBounded = true ↔
      |x.value| < 10 ^ exponentLimit ∧ -exponentLimit < x.scale ∧ x.scale ≤ exponentLimit := by
  constructor
  · intro h
    obtain ⟨-, -, hmagnitude⟩ := isBounded_iff.mp h
    refine ⟨lt_of_lt_of_le x.abs_value_lt_magnitude ?_, scale_of_isBounded h⟩
    exact zpow_le_zpow_right₀ (by norm_num) hmagnitude
  · rintro ⟨hsize, hlow, hhigh⟩
    exact isBounded_of_scale hsize hlow hhigh

/-- A number is at most doubled when it is rounded to one digit or more. -/
theorem abs_value_significant_le (mode : Rounding) (x : LongDecimal) {n : Nat} (hn : 0 < n) :
    |(x.significant mode n).value| ≤ 2 * |x.value| := by
  have hnonneg := abs_nonneg x.value
  unfold significant
  split
  · linarith
  · next hdigits =>
      have hc : x.coefficient ≠ 0 := by
        intro hzero
        have hone : x.digits = 1 := by
          rw [digits, hzero]
          rfl
        omega
      have hunit : (10 : ℚ) ^ (-(x.scale + n - x.digits)) ≤ 10 ^ (x.magnitude - 1) := by
        apply zpow_le_zpow_right₀ (by norm_num)
        rw [magnitude]
        omega
      calc
        |(x.withDigits mode n).value| ≤ |x.value| + 10 ^ (-(x.scale + n - x.digits)) :=
          abs_value_rescale_le mode x _
        _ ≤ |x.value| + |x.value| := by
          have hfirst := tenPow_magnitude_le hc
          linarith
        _ = 2 * |x.value| := by ring

/-- The digits that a radicand gets for a root, an even number of them behind the point. -/
def radicandShift (x : LongDecimal) (n : Nat) : Nat :=
  let lacking := 2 * (n + 5) - x.digits
  if (x.scale + lacking) % 2 = 0 then lacking else lacking + 1

/-- The floor root that a root is rounded from. -/
def rootDigits (x : LongDecimal) (n : Nat) : LongDecimal :=
  ⟨Nat.sqrt (x.coefficient.natAbs * tenPow (x.radicandShift n)),
    (x.scale + x.radicandShift n) / 2⟩

theorem root_eq (x : LongDecimal) (n : Nat) :
    x.root n = (x.rootDigits n).significant .halfEven n := by
  rw [rootDigits, ← floorRoot_eq_sqrt]
  rfl

theorem two_mul_scale_rootDigits (x : LongDecimal) (n : Nat) :
    2 * (x.rootDigits n).scale = x.scale + x.radicandShift n := by
  have heven : (x.scale + x.radicandShift n) % 2 = 0 := by
    unfold radicandShift
    dsimp only
    split <;> omega
  simp only [rootDigits]
  omega

theorem value_rootDigits_nonneg (x : LongDecimal) (n : Nat) : 0 ≤ (x.rootDigits n).value :=
  value_natCast_nonneg _ _

/-- A number at an even scale is its coefficient in squares of the unit of half the scale. -/
theorem abs_value_eq_radicand (x : LongDecimal) (n : Nat) :
    |x.value| = (x.coefficient.natAbs * tenPow (x.radicandShift n) : Nat) *
      (10 ^ (-(x.rootDigits n).scale)) ^ 2 := by
  have hscale := x.two_mul_scale_rootDigits n
  have hunit : ((10 : ℚ) ^ (-(x.rootDigits n).scale)) ^ 2 =
      10 ^ (-(x.scale + x.radicandShift n)) := by
    rw [← zpow_natCast, ← zpow_mul]
    congr 1
    omega
  rw [abs_value_eq_natAbs, hunit]
  exact (value_shift x.coefficient.natAbs x.scale (x.radicandShift n)).symm

/-- The floor root lies below the root, by less than a unit of its last place. -/
theorem sq_value_rootDigits_le (x : LongDecimal) (n : Nat) :
    (x.rootDigits n).value ^ 2 ≤ |x.value| ∧
      |x.value| < ((x.rootDigits n).value + 10 ^ (-(x.rootDigits n).scale)) ^ 2 := by
  have hunit : (0 : ℚ) < (10 ^ (-(x.rootDigits n).scale)) ^ 2 :=
    pow_pos (zpow_pos (by norm_num) _) 2
  set c := x.coefficient.natAbs * tenPow (x.radicandShift n) with hc
  have hlow : ((Nat.sqrt c : ℚ)) ^ 2 ≤ c := by exact_mod_cast Nat.sqrt_le' c
  have hhigh : (c : ℚ) < (Nat.sqrt c + 1) ^ 2 := by exact_mod_cast Nat.lt_succ_sqrt' c
  have hvalue : (x.rootDigits n).value = Nat.sqrt c * 10 ^ (-(x.rootDigits n).scale) := by
    rw [value, hc]
    rfl
  rw [x.abs_value_eq_radicand n, ← hc, hvalue, ← add_one_mul, mul_pow, mul_pow]
  exact ⟨mul_le_mul_of_nonneg_right hlow hunit.le, mul_lt_mul_of_pos_right hhigh hunit⟩

/-- The square of a rounded root is at most four times the radicand. -/
theorem sq_value_root_le (x : LongDecimal) {n : Nat} (hn : 0 < n) :
    (x.root n).value ^ 2 ≤ 4 * |x.value| := by
  have hround := abs_value_significant_le .halfEven (x.rootDigits n) hn
  have hfloor := (x.sq_value_rootDigits_le n).1
  calc
    (x.root n).value ^ 2 = |((x.rootDigits n).significant .halfEven n).value| ^ 2 := by
      rw [root_eq, sq_abs]
    _ ≤ (2 * |(x.rootDigits n).value|) ^ 2 := pow_le_pow_left₀ (abs_nonneg _) hround 2
    _ = 4 * (x.rootDigits n).value ^ 2 := by
      rw [mul_pow, sq_abs]
      norm_num
    _ ≤ 4 * |x.value| := by linarith

/-- A root is below the exponent limit in size if its radicand is. -/
theorem abs_value_sqrt_lt {x y : LongDecimal} {precision : Nat}
    (h : x.sqrt precision = .ok y) (hx : |x.value| < 10 ^ exponentLimit) :
    |y.value| < 10 ^ exponentLimit ∧ y.scale = guardedScale precision := by
  have hlimit : (10 : ℚ) ^ (1 : Int) ≤ 10 ^ exponentLimit :=
    zpow_le_zpow_right₀ (by norm_num) (by decide)
  rw [zpow_one] at hlimit
  generalize (10 : ℚ) ^ exponentLimit = limit at hx hlimit ⊢
  unfold sqrt sqrtWith at h
  split at h
  · cases h
  · cases h
    refine ⟨?_, rescale_scale _ _ _⟩
    have hunit : (10 : ℚ) ^ (-(guardedScale precision : Int)) ≤ 1 :=
      zpow_le_one_of_nonpos₀ (by norm_num) (by omega)
    have hrescale := abs_value_rescale_le .halfEven
      (if x.coefficient = 0 || x.isOne then x
        else x.root (guardedDigits (Int.tdiv x.magnitude 2 + 1) precision))
      (guardedScale precision)
    refine lt_of_le_of_lt hrescale ?_
    split
    · next hsimple =>
        have hone : |x.value| ≤ 1 := by
          rcases Bool.or_eq_true_iff.mp hsimple with hzero | hone
          · rw [value_eq_zero_iff.mpr (of_decide_eq_true hzero), abs_zero]
            norm_num
          · rw [value_of_isOne hone, abs_one]
        linarith
    · have hdigits : 0 < guardedDigits (Int.tdiv x.magnitude 2 + 1) precision := by
        rw [guardedDigits, guardedScale, guardDigits]
        omega
      have hsq := sq_value_root_le x hdigits
      rw [← sq_abs] at hsq
      nlinarith [abs_nonneg (x.root (guardedDigits (Int.tdiv x.magnitude 2 + 1) precision)).value]

end LongDecimal

end DeskCalc
