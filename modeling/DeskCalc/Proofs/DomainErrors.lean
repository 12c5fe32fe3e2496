import DeskCalc.Machine
import DeskCalc.Proofs.ExactArithmetic
import DeskCalc.Proofs.GuardedResult
import DeskCalc.Proofs.Shown
import Mathlib.Data.Rat.Floor

/-!
# What domain errors tell

A division by zero, a negative radicand and a negative exponent are properties of the
numbers that an operator is given, at whatever scale they are held. Decimals of 96 bits
have one exception: a negative zero, which is no negative number, has no root.
-/

namespace DeskCalc

/-- The integer between zero and a number that is nearest to it. -/
def towardZero (q : ℚ) : Int := if 0 ≤ q then ⌊q⌋ else ⌈q⌉

@[simp] theorem towardZero_intCast (n : Int) : towardZero n = n := by
  simp [towardZero]

theorem towardZero_neg (q : ℚ) : towardZero (-q) = -towardZero q := by
  unfold towardZero
  rcases lt_trichotomy q 0 with hq | rfl | hq
  · rw [if_pos (by linarith), if_neg (by linarith), Int.floor_neg]
  · simp
  · rw [if_neg (by linarith), if_pos hq.le, Int.ceil_neg]

theorem towardZero_natCast_div (n d : Nat) : towardZero ((n : ℚ) / d) = (n / d : Nat) := by
  have hfloor := Rat.floor_intCast_div_natCast n d
  rw [Int.cast_natCast] at hfloor
  rw [towardZero, if_pos (by positivity), hfloor]
  rfl

/-- Cutting off the fraction of a quotient leaves the integer toward zero. -/
theorem Rounding.down_signedQuotient (n : Int) (d : Nat) :
    down.signedQuotient n d = towardZero ((n : ℚ) / d) := by
  rcases le_or_gt 0 n with hn | hn
  · lift n to Nat using hn
    rw [signedQuotient_natCast, down_quotient, Int.cast_natCast, towardZero_natCast_div]
  · obtain ⟨m, rfl⟩ : ∃ m : Nat, n = -m := ⟨n.natAbs, by omega⟩
    rw [signedQuotient, if_pos hn, Int.natAbs_neg, Int.natAbs_natCast, down_quotient,
      Int.cast_neg, Int.cast_natCast, neg_div, towardZero_neg, towardZero_natCast_div]

namespace LongDecimal

theorem truncate_eq_towardZero (x : LongDecimal) : x.truncate = towardZero x.value := by
  rw [truncate]
  rcases le_or_gt x.scale 0 with hs | hs
  · rw [rescale_of_le .down x hs, ← value_shift_of_le x hs, value_integer, towardZero_intCast]
  · rw [rescale_of_lt .down x hs, Rounding.down_signedQuotient, value_eq_div x hs.le, Int.sub_zero]

theorem value_neg_iff {x : LongDecimal} : x.value < 0 ↔ x.coefficient < 0 := by
  have hpow : (0 : ℚ) < 10 ^ (-x.scale) := zpow_pos (by norm_num) _
  rw [value, mul_neg_iff, Int.cast_lt_zero, Int.cast_pos]
  constructor
  · rintro (⟨-, hneg⟩ | ⟨hc, -⟩)
    · exact absurd hpow (not_lt.mpr hneg.le)
    · exact hc
  · intro hc
    exact Or.inr ⟨hc, hpow⟩

theorem div_eq_divisionByZero_iff (a b : LongDecimal) (precision : Nat) :
    a.div b precision = .error .divisionByZero ↔ b.value = 0 := by
  rw [value_eq_zero_iff]
  rcases a.div_cases b precision with ⟨hb, hdiv⟩ | ⟨hb, hdiv⟩
  · exact iff_of_true hdiv hb
  · exact iff_of_false (hdiv.ne_error (by decide)) hb

theorem sqrt_eq_negativeRadicand_iff (x : LongDecimal) (precision : Nat) :
    x.sqrt precision = .error .negativeRadicand ↔ x.value < 0 := by
  rw [value_neg_iff, sqrt, sqrtWith]
  split
  · next hx => simp [hx]
  · next hx => simp [hx]

theorem pow_eq_negativeExponent_iff (x exponent : LongDecimal) (precision : Nat) :
    x.pow exponent precision = .error .negativeExponent ↔ towardZero exponent.value < 0 := by
  rw [← truncate_eq_towardZero]
  rcases x.pow_cases exponent precision with ⟨hn, hpow⟩ | ⟨hn, hpow⟩
  · exact iff_of_true hpow hn
  · exact iff_of_false (hpow.ne_error (by decide)) (not_lt.mpr hn)

end LongDecimal

namespace Decimal96

/-- A zero that has a minus sign. -/
def IsNegativeZero (x : Decimal96) : Prop := x.negative = true ∧ x.value = 0

theorem value_eq_zero_iff {x : Decimal96} : x.value = 0 ↔ x.isZero = true := by
  rw [value, LongDecimal.value_eq_zero_iff, isZero, beq_iff_eq, ← natAbs_signed,
    Int.natAbs_eq_zero]
  rfl

theorem value_neg_iff {x : Decimal96} :
    x.value < 0 ↔ x.negative = true ∧ x.isZero = false := by
  have hzero : x.isZero = false ↔ x.coefficient ≠ 0 := by simp [isZero]
  rw [value, LongDecimal.value_neg_iff, hzero]
  change x.signed < 0 ↔ _
  unfold signed
  cases x.negative with
  | false => simp
  | true => simp [Nat.pos_iff_ne_zero]

theorem signed_truncate (x : Decimal96) : x.truncate.signed = towardZero x.value := by
  have hwhole := truncate_eq x
  have hsigned : x.truncate.signed =
      if x.negative then -(x.truncate.coefficient : Int) else x.truncate.coefficient := rfl
  rw [hsigned, hwhole, LongDecimal.truncate_eq_towardZero, value, toLong_eq]
  cases x.negative with
  | false => rfl
  | true => simp [towardZero_neg]

/-- What is refused for its size alone is an overflow. -/
theorem eq_overflow_of_orOverflow {x : Option Decimal96} {e : ArithmeticError}
    (h : orOverflow x = .error e) : e = .overflow := by
  cases x with
  | none =>
      cases h
      rfl
  | some y => cases h

theorem div_eq_divisionByZero_iff (a b : Decimal96) :
    a.div b = .error .divisionByZero ↔ b.value = 0 := by
  rw [value_eq_zero_iff, div]
  split
  · next hb => simp [hb]
  · next hb =>
      refine iff_of_false ?_ hb
      intro h
      cases eq_overflow_of_orOverflow h

/-- The minus sign alone decides, also on a zero. -/
theorem sqrt_eq_negativeRadicand_iff (x : Decimal96) :
    x.sqrt = .error .negativeRadicand ↔ x.value < 0 ∨ x.IsNegativeZero := by
  have hsign : x.value < 0 ∨ x.IsNegativeZero ↔ x.negative = true := by
    rw [value_neg_iff, IsNegativeZero, value_eq_zero_iff, ← and_or_left]
    cases x.isZero <;> simp
  rw [hsign, sqrt]
  split
  · next hx => simp [hx]
  · next hx =>
      refine iff_of_false ?_ hx
      split <;> simp

theorem pow_eq_negativeExponent_iff (x exponent : Decimal96) :
    x.pow exponent = .error .negativeExponent ↔ towardZero exponent.value < 0 := by
  have hwhole : towardZero exponent.value < 0 ↔
      exponent.truncate.negative = true ∧ exponent.truncate.isZero = false := by
    rw [← value_neg_iff, ← signed_truncate, value, LongDecimal.value_neg_iff]
    rfl
  rw [hwhole, pow]
  split
  · next hn => simp [hn]
  · next hn =>
      refine iff_of_false ?_ fun h => hn h.1
      intro h
      split at h
      · cases h
      · cases eq_overflow_of_orOverflow h

end Decimal96

/-- What the domain errors of a decimal number type tell about two operands: they are the
errors of a zero divisor, of a refused radicand and of an exponent whose integer toward
zero is negative, and of nothing else. -/
structure DomainErrors {α : Type} [Operand α] (value : α → ℚ) (refused : α → Prop)
    (precision : Nat) (a b : α) : Prop where
  divisionByZero :
    Operand.binary .div precision a b = .error .divisionByZero ↔ value b = 0
  negativeRadicand :
    Operand.unary .sqrt precision a = .error .negativeRadicand ↔ refused a
  negativeExponent :
    Operand.binary .pow precision a b = .error .negativeExponent ↔ towardZero (value b) < 0

/-- Domain errors are those of the numbers in both decimal types, except that decimals of 96
bits refuse the root of a negative zero. -/
theorem domainErrors (precision : Nat) (a b : Decimal96) (x y : LongDecimal) :
    DomainErrors Decimal96.value (fun r => r.value < 0 ∨ r.IsNegativeZero) precision a b ∧
      DomainErrors LongDecimal.value (fun r => r.value < 0) precision x y := by
  constructor
  · exact ⟨a.div_eq_divisionByZero_iff b, a.sqrt_eq_negativeRadicand_iff,
      a.pow_eq_negativeExponent_iff b⟩
  · exact ⟨x.div_eq_divisionByZero_iff y precision, x.sqrt_eq_negativeRadicand_iff precision,
      x.pow_eq_negativeExponent_iff y precision⟩

/-- The root of zero is refused once it has been negated. -/
theorem negativeRadicand_of_negated_zero :
    Decimal96.zero.neg.value = 0 ∧
      Operand.unary .sqrt 4 Decimal96.zero.neg = .error .negativeRadicand ∧
      (Machine.evaluate (α := Decimal96) { precision := 4, maxPrecision := 1000 }
        "_0 v".toList).2 = [.fault (.arithmetic .negativeRadicand)] := by
  refine ⟨?_, rfl, by decide +kernel⟩
  rw [Decimal96.value_neg, Decimal96.value_zero, neg_zero]

end DeskCalc
