import DeskCalc.Proofs.EqualOperands

/-!
# Exact sums of long decimals

A sum or a difference of values within the exponent limit is given exactly unless it reaches
the limit in size, and then it is an overflow. Neither how far the scales lie apart nor how
many digits cancel matters, because the scale of the result lies between those of the operands.
-/

namespace DeskCalc.LongDecimal

/-- A result that is an overflow exactly if the number in question reaches the exponent limit,
and otherwise a value of this number within the limit. -/
structure ExactWithinLimit (q : ℚ) (r : Except ArithmeticError LongDecimal) : Prop where
  overflow : r = .error .overflow ↔ 10 ^ exponentLimit ≤ |q|
  exact : |q| < 10 ^ exponentLimit → ∃ z, r = .ok z ∧ z.value = q ∧ z.isBounded = true

/-- Adding and subtracting with some number of places in force. -/
structure ExactSums (a b : LongDecimal) (precision : Nat) : Prop where
  sum : ExactWithinLimit (a.value + b.value) (Operand.binary .add precision a b)
  difference : ExactWithinLimit (a.value - b.value) (Operand.binary .sub precision a b)
  /-- Digits that cancel completely leave a zero at the larger scale. -/
  cancelled : a.value = b.value →
    Operand.binary .sub precision a b = .ok ⟨0, max a.scale b.scale⟩

section Bounded

variable {a b : LongDecimal} (ha : a.isBounded = true) (hb : b.isBounded = true)

include ha hb

/-- The scale of a difference is that of an operand, so a zero of it is within the limit. -/
theorem sub_of_value_eq (h : a.value = b.value) : a.sub b = .ok ⟨0, max a.scale b.scale⟩ := by
  obtain ⟨halow, hahigh⟩ := scale_of_isBounded ha
  obtain ⟨hblow, hbhigh⟩ := scale_of_isBounded hb
  have hcoefficient : (alignedSum a b.neg).coefficient = 0 := by
    rw [← value_eq_zero_iff, value_alignedSum, value_neg, h, add_neg_cancel]
  have hzero : alignedSum a b.neg = ⟨0, max a.scale b.scale⟩ := by
    calc
      alignedSum a b.neg = ⟨(alignedSum a b.neg).coefficient, max a.scale b.scale⟩ := rfl
      _ = ⟨0, max a.scale b.scale⟩ := by rw [hcoefficient]
  have hsize : |value ⟨0, max a.scale b.scale⟩| < 10 ^ exponentLimit := by
    rw [value_eq_zero_iff.mpr rfl, abs_zero]
    exact zpow_pos (by norm_num) _
  rw [sub, hzero]
  exact (orOverflow_of_scale hsize (by dsimp only; omega) (by dsimp only; omega)).1

/-- The sum and the difference of values within the limit are refused for their size alone. -/
theorem exactSums_of_isBounded (precision : Nat) : ExactSums a b precision where
  sum := ⟨(givenBySize_add ha hb).eq_overflow_iff, add_of_isBounded ha hb⟩
  difference := ⟨(givenBySize_sub ha hb).eq_overflow_iff, sub_of_isBounded ha hb⟩
  cancelled := sub_of_value_eq ha hb

end Bounded

/-- Scales as far apart as the limit allows. -/
theorem exactSums_far_apart :
    (isBounded ⟨1, -99999⟩ = true ∧ isBounded ⟨1, 100000⟩ = true) ∧
      ExactSums ⟨1, -99999⟩ ⟨1, 100000⟩ 0 :=
  ⟨⟨by decide, by decide⟩, exactSums_of_isBounded (by decide) (by decide) 0⟩

end DeskCalc.LongDecimal
