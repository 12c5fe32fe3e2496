import DeskCalc.Proofs.DecimalValue
import Mathlib.Data.Nat.Log

/-!
# The magnitude of a long decimal

The number of digits is one more than the logarithm. A number that is far below the
exponent limit is therefore within it as soon as its scale is.
-/

namespace DeskCalc

namespace Digits

theorem length_toDigits (n : Nat) : (Nat.toDigits 10 n).length = Nat.log 10 n + 1 := by
  apply le_antisymm
  · rw [Nat.length_toDigits_le_iff (by norm_num) (Nat.succ_pos _)]
    exact Nat.lt_pow_succ_log_self (by norm_num) n
  · have hpos : 0 < (Nat.toDigits 10 n).length := Nat.length_toDigits_pos
    have hlt := (Nat.length_toDigits_le_iff (b := 10) (n := n) (by norm_num) hpos).mp le_rfl
    exact Nat.log_lt_of_lt_pow' hpos.ne' hlt

/-- The binary length gives a lower bound because `10 ^ 59` is below `2 ^ 196`. -/
theorem log2_mul_div_le_log (n : Nat) : n.log2 * 59 / 196 ≤ Nat.log 10 n := by
  rcases Nat.eq_zero_or_pos n with rfl | hn
  · simp
  · apply Nat.le_log_of_pow_le (by norm_num)
    refine le_trans ?_ (Nat.log2_self_le hn.ne')
    rw [← Nat.pow_le_pow_iff_left (n := 196) (by norm_num), ← pow_mul, ← pow_mul]
    calc
      10 ^ (n.log2 * 59 / 196 * 196) ≤ 10 ^ (59 * n.log2) :=
        Nat.pow_le_pow_right (by norm_num) (by omega)
      _ = (10 ^ 59) ^ n.log2 := pow_mul _ _ _
      _ ≤ (2 ^ 196) ^ n.log2 := Nat.pow_le_pow_left (by norm_num) _
      _ = 2 ^ (n.log2 * 196) := by rw [← pow_mul, Nat.mul_comm]

theorem count_eq_log (n : Nat) : count n = Nat.log 10 n + 1 := by
  have hknown := log2_mul_div_le_log n
  have hlength := length_toDigits (n / 10 ^ (n.log2 * 59 / 196))
  rw [Nat.log_div_base_pow] at hlength
  change n.log2 * 59 / 196 + (Nat.toDigits 10 (n / 10 ^ (n.log2 * 59 / 196))).length = _
  omega

theorem count_le_of_lt {n k : Nat} (h : n < tenPow k) (hk : 0 < k) : count n ≤ k := by
  rw [count_eq_log]
  exact Nat.log_lt_of_lt_pow' hk.ne' h

theorem lt_tenPow_count (n : Nat) : n < tenPow (count n) := by
  rw [count_eq_log]
  exact Nat.lt_pow_succ_log_self (by norm_num) n

theorem tenPow_le_of_count {n : Nat} (hn : 0 < n) : tenPow (count n - 1) ≤ n := by
  rw [count_eq_log]
  exact Nat.pow_log_le_self 10 hn.ne'

end Digits

namespace LongDecimal

theorem withinLimit_iff {e : Int} :
    withinLimit e = true ↔ -exponentLimit ≤ e ∧ e ≤ exponentLimit := by
  rw [withinLimit, Bool.and_eq_true, decide_eq_true_eq, decide_eq_true_eq]

theorem isBounded_iff {x : LongDecimal} :
    x.isBounded = true ↔
      (-exponentLimit ≤ x.scale ∧ x.scale ≤ exponentLimit) ∧
        -exponentLimit ≤ x.magnitude ∧ x.magnitude ≤ exponentLimit := by
  rw [isBounded, Bool.and_eq_true, withinLimit_iff, withinLimit_iff]

theorem isBounded_neg {x : LongDecimal} : x.neg.isBounded = x.isBounded := by
  simp only [isBounded, magnitude, digits, neg, Int.natAbs_neg]

theorem one_le_digits (x : LongDecimal) : 1 ≤ x.digits := by
  rw [digits, Digits.count_eq_log]
  exact Nat.le_add_left 1 _

theorem tenPow_magnitude_le {x : LongDecimal} (h : x.coefficient ≠ 0) :
    (10 : ℚ) ^ (x.magnitude - 1) ≤ |x.value| := by
  have hten : (10 : ℚ) ≠ 0 := by norm_num
  have hpow : (0 : ℚ) < 10 ^ (-x.scale) := zpow_pos (by norm_num) _
  have hlog : (10 : ℚ) ^ Nat.log 10 x.coefficient.natAbs ≤ x.coefficient.natAbs := by
    exact_mod_cast Nat.pow_log_le_self 10 (Int.natAbs_ne_zero.mpr h)
  have hexponent : x.magnitude - 1 = (Nat.log 10 x.coefficient.natAbs : Int) + -x.scale := by
    rw [magnitude, digits, Digits.count_eq_log]
    omega
  rw [hexponent, zpow_add₀ hten, zpow_natCast, value, abs_mul, abs_of_pos hpow]
  apply mul_le_mul_of_nonneg_right _ hpow.le
  rwa [Nat.cast_natAbs, Int.cast_abs] at hlog

theorem magnitude_le_of_value_lt {x : LongDecimal} {k : Int} (h : |x.value| < 10 ^ k)
    (hc : x.coefficient ≠ 0) : x.magnitude ≤ k := by
  have hlt := lt_of_le_of_lt (tenPow_magnitude_le hc) h
  have hexponent := (zpow_lt_zpow_iff_right₀ (by norm_num)).mp hlt
  omega

/-- Every coefficient has a digit, so the smallest scale is not reached. -/
theorem scale_of_isBounded {x : LongDecimal} (h : x.isBounded = true) :
    -exponentLimit < x.scale ∧ x.scale ≤ exponentLimit := by
  have hdigits := x.one_le_digits
  rw [isBounded_iff, magnitude] at h
  omega

/-- A number whose size is below the exponent limit is bounded if its scale is. -/
theorem isBounded_of_scale {x : LongDecimal} (h : |x.value| < 10 ^ exponentLimit)
    (hlow : -exponentLimit < x.scale) (hhigh : x.scale ≤ exponentLimit) :
    x.isBounded = true := by
  have hdigits := x.one_le_digits
  have hmagnitude : x.magnitude ≤ exponentLimit := by
    by_cases hc : x.coefficient = 0
    · have hone : x.digits = 1 := by
        rw [digits, hc]
        rfl
      rw [magnitude, hone]
      omega
    · exact magnitude_le_of_value_lt h hc
  rw [isBounded_iff]
  rw [magnitude] at hmagnitude ⊢
  omega

/-- A number other than zero has no small scale unless it is large. -/
theorem neg_limit_lt_scale {x : LongDecimal} (h : |x.value| < 10 ^ exponentLimit)
    (hc : x.coefficient ≠ 0) : -exponentLimit < x.scale := by
  have hdigits := x.one_le_digits
  have hmagnitude := magnitude_le_of_value_lt h hc
  rw [magnitude] at hmagnitude
  omega

end LongDecimal

end DeskCalc
