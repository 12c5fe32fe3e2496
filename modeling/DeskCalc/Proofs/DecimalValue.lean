import DeskCalc.Decimal96
import DeskCalc.LongDecimal
import Mathlib.Algebra.Order.Field.Power
import Mathlib.Data.Rat.Cast.Order
import Mathlib.Tactic.FieldSimp
import Mathlib.Tactic.Linarith
import Mathlib.Tactic.NormNum
import Mathlib.Tactic.Ring

/-!
# The number of a decimal

A decimal denotes a rational number, and many decimals denote the same one. They
differ by zeros at the end of the coefficient, so two of them are compared at the
larger scale. Sums and products are described by the numbers alone.
-/

namespace DeskCalc

theorem cast_tenPow (n : Nat) : (tenPow n : ℚ) = 10 ^ n := by
  simp [tenPow]

theorem tenPow_mul_zpow {n : Nat} {e e' : Int} (h : n + e = e') :
    (tenPow n : ℚ) * 10 ^ e = 10 ^ e' := by
  rw [cast_tenPow, ← zpow_natCast, ← zpow_add₀ (by norm_num), h]

namespace LongDecimal

/-- The number that a long decimal denotes. -/
def value (x : LongDecimal) : ℚ := x.coefficient * (10 : ℚ) ^ (-x.scale)

@[simp] theorem value_zero : zero.value = 0 := by
  simp [value, zero]

theorem value_integer (n : Int) : value ⟨n, 0⟩ = n := by
  simp [value]

theorem value_eq_div (x : LongDecimal) (h : 0 ≤ x.scale) :
    x.value = x.coefficient / tenPow x.scale.toNat := by
  obtain ⟨c, s⟩ := x
  lift s to Nat using h
  rw [value, cast_tenPow, zpow_neg, Int.toNat_natCast, zpow_natCast, div_eq_mul_inv]

@[simp] theorem value_neg (x : LongDecimal) : x.neg.value = -x.value := by
  simp [value, neg]

theorem value_eq_zero_iff {x : LongDecimal} : x.value = 0 ↔ x.coefficient = 0 := by
  have hpow : (10 : ℚ) ^ (-x.scale) ≠ 0 := zpow_ne_zero _ (by norm_num)
  rw [value, mul_eq_zero_iff_right hpow, Int.cast_eq_zero]

/-- Zeros at the end of the coefficient do not change the number. -/
theorem value_shift (c s : Int) (k : Nat) :
    value ⟨c * tenPow k, s + k⟩ = value ⟨c, s⟩ := by
  have hten : (10 : ℚ) ≠ 0 := by norm_num
  simp only [value, Int.cast_mul, Int.cast_natCast, cast_tenPow]
  rw [neg_add, zpow_add₀ hten, zpow_neg, zpow_neg, zpow_natCast]
  field_simp

theorem value_shift_of_le (x : LongDecimal) {s : Int} (h : x.scale ≤ s) :
    value ⟨x.coefficient * tenPow (s - x.scale).toNat, s⟩ = x.value := by
  have hs : s = x.scale + ((s - x.scale).toNat : Nat) := by omega
  calc
    value ⟨x.coefficient * tenPow (s - x.scale).toNat, s⟩ =
        value ⟨x.coefficient * tenPow (s - x.scale).toNat,
          x.scale + ((s - x.scale).toNat : Nat)⟩ := by rw [← hs]
    _ = x.value := value_shift x.coefficient x.scale _

theorem value_at_injective {c c' s : Int} (h : value ⟨c, s⟩ = value ⟨c', s⟩) : c = c' := by
  have hpow : (10 : ℚ) ^ (-s) ≠ 0 := zpow_ne_zero _ (by norm_num)
  exact Int.cast_injective (mul_right_cancel₀ hpow h)

/-- Numbers without a sign are compared by multiplying across. -/
theorem value_natCast_eq_iff {n s n' s' : Nat} :
    value ⟨n, s⟩ = value ⟨n', s'⟩ ↔ n * tenPow s' = n' * tenPow s := by
  have hleft := value_shift n s s'
  have hright := value_shift n' s' s
  rw [← hleft, ← hright, add_comm (s' : Int)]
  constructor
  · intro h
    exact_mod_cast value_at_injective h
  · intro h
    rw [← Nat.cast_mul, ← Nat.cast_mul, h]

theorem value_natCast_lt_iff {n s n' s' : Nat} :
    value ⟨n, s⟩ < value ⟨n', s'⟩ ↔ n * tenPow s' < n' * tenPow s := by
  have hpow : (0 : ℚ) < 10 ^ (-((s : Int) + s')) := zpow_pos (by norm_num) _
  rw [← value_shift n s s', ← value_shift n' s' s, add_comm (s' : Int), value, value,
    mul_lt_mul_iff_left₀ hpow, Int.cast_lt, ← Nat.cast_mul, ← Nat.cast_mul, Nat.cast_lt]

theorem value_natCast_nonneg (n : Nat) (s : Int) : 0 ≤ value ⟨n, s⟩ := by
  have hpow : (0 : ℚ) < 10 ^ (-s) := zpow_pos (by norm_num) _
  exact mul_nonneg (Int.cast_nonneg (Int.natCast_nonneg n)) hpow.le

/-- A coefficient of `k` digits at most gives a number below the power at its point. -/
theorem value_lt_zpow {n k : Nat} (h : n < tenPow k) (point : Int) :
    value ⟨n, k - point⟩ < 10 ^ point := by
  have hten : (10 : ℚ) ≠ 0 := by norm_num
  have hpow : (0 : ℚ) < 10 ^ (-((k : Int) - point)) := zpow_pos (by norm_num) _
  have hn : (n : ℚ) < 10 ^ (k : Int) := by
    rw [zpow_natCast, ← cast_tenPow]
    exact_mod_cast h
  calc
    value ⟨n, k - point⟩ < 10 ^ (k : Int) * 10 ^ (-((k : Int) - point)) := by
      rw [value, Int.cast_natCast]
      exact mul_lt_mul_of_pos_right hn hpow
    _ = 10 ^ point := by
      rw [← zpow_add₀ hten]
      congr 1
      omega

theorem zpow_le_value {n k : Nat} (h : tenPow k ≤ n) (point : Int) :
    10 ^ point ≤ value ⟨n, k - point⟩ := by
  have hten : (10 : ℚ) ≠ 0 := by norm_num
  have hpow : (0 : ℚ) < 10 ^ (-((k : Int) - point)) := zpow_pos (by norm_num) _
  have hn : (10 : ℚ) ^ (k : Int) ≤ n := by
    rw [zpow_natCast, ← cast_tenPow]
    exact_mod_cast h
  calc
    (10 : ℚ) ^ point = 10 ^ (k : Int) * 10 ^ (-((k : Int) - point)) := by
      rw [← zpow_add₀ hten]
      congr 1
      omega
    _ ≤ value ⟨n, k - point⟩ := by
      rw [value, Int.cast_natCast]
      exact mul_le_mul_of_nonneg_right hn hpow.le

/-- Of two decimals of one number, that of the larger scale has more zeros at its end. -/
theorem coefficient_of_value_eq {x y : LongDecimal} (h : x.value = y.value)
    (hle : x.scale ≤ y.scale) :
    y.coefficient = x.coefficient * tenPow (y.scale - x.scale).toNat := by
  apply value_at_injective (s := y.scale)
  rw [value_shift_of_le x hle]
  exact h.symm

theorem rescale_of_le (mode : Rounding) (x : LongDecimal) {s : Int} (h : x.scale ≤ s) :
    x.rescale mode s = ⟨x.coefficient * tenPow (s - x.scale).toNat, s⟩ := by
  rw [rescale]
  split
  · next hzero => rw [hzero, zero_mul]
  · rfl

theorem value_rescale (mode : Rounding) (x : LongDecimal) {s : Int} (h : x.scale ≤ s) :
    (x.rescale mode s).value = x.value := by
  rw [rescale_of_le mode x h]
  exact value_shift_of_le x h

theorem value_add_at (c c' s : Int) : value ⟨c + c', s⟩ = value ⟨c, s⟩ + value ⟨c', s⟩ := by
  simp only [value, Int.cast_add, add_mul]

theorem value_sub_at (c c' s : Int) : value ⟨c - c', s⟩ = value ⟨c, s⟩ - value ⟨c', s⟩ := by
  simp only [value, Int.cast_sub, sub_mul]

theorem value_alignedSum (a b : LongDecimal) :
    (alignedSum a b).value = a.value + b.value := by
  have ha := value_rescale .down a (le_max_left a.scale b.scale)
  have hb := value_rescale .down b (le_max_right a.scale b.scale)
  rw [alignedSum, value_add_at, ← ha, ← hb]
  simp only [value, rescale_scale]

theorem value_padToward (x : LongDecimal) (s : Int) : (x.padToward s).value = x.value :=
  value_shift x.coefficient x.scale _

theorem value_sum (a b : LongDecimal) : (sum a b).value = a.value + b.value := by
  rw [sum]
  split
  · next hb => rw [value_padToward, value_eq_zero_iff.mpr hb, add_zero]
  · split
    · next ha => rw [value_padToward, value_eq_zero_iff.mpr ha, zero_add]
    · exact value_alignedSum a b

theorem value_shortest (x : LongDecimal) : x.shortest.value = x.value := by
  rw [shortest]
  split
  · next hzero => rw [value_zero, value_eq_zero_iff.mpr hzero]
  · generalize hstrip : Digits.stripZeros (x.digits.log2 + 1) x.coefficient.natAbs = r
    have hback := Digits.stripZeros_mul (x.digits.log2 + 1) x.coefficient.natAbs
    rw [hstrip] at hback
    have hcoefficient : x.coefficient.sign * r.1 * tenPow r.2 = x.coefficient := by
      rw [mul_assoc, ← Nat.cast_mul, hback, Int.sign_mul_natAbs]
    have hshift := value_shift (x.coefficient.sign * r.1) (x.scale - r.2) r.2
    rw [hcoefficient, Int.sub_add_cancel] at hshift
    exact hshift.symm

theorem isOne_iff {x : LongDecimal} :
    x.isOne = true ↔ 0 ≤ x.scale ∧ x.coefficient = tenPow x.scale.toNat := by
  rw [isOne, Bool.and_eq_true, decide_eq_true_eq, decide_eq_true_eq]

theorem value_of_isOne {x : LongDecimal} (h : x.isOne = true) : x.value = 1 := by
  obtain ⟨hscale, hcoefficient⟩ := isOne_iff.mp h
  have hone : value ⟨1, 0⟩ = 1 := by simp [value]
  rw [← hone, ← value_shift_of_le ⟨1, 0⟩ hscale, Int.sub_zero, one_mul, ← hcoefficient]

theorem value_mul_at (c c' s s' : Int) :
    value ⟨c * c', s + s'⟩ = value ⟨c, s⟩ * value ⟨c', s'⟩ := by
  have hten : (10 : ℚ) ≠ 0 := by norm_num
  simp only [value, Int.cast_mul, neg_add, zpow_add₀ hten]
  ring

theorem value_product (a b : LongDecimal) : (product a b).value = a.value * b.value := by
  rw [product]
  split
  · next ha => rw [value_shortest, value_of_isOne ha, one_mul]
  · split
    · next hb => rw [value_shortest, value_of_isOne hb, mul_one]
    · exact value_mul_at _ _ _ _

end LongDecimal

namespace Decimal96

/-- The long decimal with the same coefficient and the same scale. -/
def toLong (x : Decimal96) : LongDecimal := ⟨x.signed, x.scale⟩

/-- The number that a decimal denotes. -/
def value (x : Decimal96) : ℚ := x.toLong.value

end Decimal96

end DeskCalc
