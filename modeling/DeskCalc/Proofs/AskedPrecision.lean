import DeskCalc.Proofs.DomainErrors

/-!
# The precision that a number asks for

A number may serve as a precision if it is not negative and its integer is below the bound.
Both decimal types find the integer first and look for the sign there. Long decimals have
lost it by then if the number lies between minus one and zero, and decimals of 96 bits still
have it if the number is a negative zero. Everywhere else equal numbers ask for one
precision.
-/

namespace DeskCalc

theorem towardZero_nonneg_iff {q : ℚ} : 0 ≤ towardZero q ↔ -1 < q := by
  rw [towardZero]
  split
  · next hq =>
      exact iff_of_true (Int.floor_nonneg.mpr hq) (lt_of_lt_of_le (by norm_num) hq)
  · have hceil : -1 < ⌈q⌉ ↔ ((-1 : Int) : ℚ) < q := Int.lt_ceil
    rw [Int.cast_neg, Int.cast_one] at hceil
    rw [← hceil]
    omega

/-- The precision that a number asks for: its integer toward zero, unless the number is
negative or the integer too large. -/
def precisionOf? (q : ℚ) : Option Nat :=
  if q < 0 ∨ (precisionBound : Int) ≤ towardZero q then none else some (towardZero q).toNat

theorem precisionOf?_of_neg {q : ℚ} (h : q < 0) : precisionOf? q = none := if_pos (Or.inl h)

theorem precisionOf?_zero : precisionOf? 0 = some 0 := by
  have hzero : towardZero 0 = 0 := towardZero_intCast 0
  rw [precisionOf?, hzero, if_neg (by decide)]
  rfl

namespace LongDecimal

/-- Only the integer is looked at. -/
theorem toPrecision?_of_towardZero (y : LongDecimal) :
    y.toPrecision? =
      if 0 ≤ towardZero y.value ∧ towardZero y.value < precisionBound then
        some (towardZero y.value).toNat
      else none := by
  rw [toPrecision?, truncate_eq_towardZero]

theorem toPrecision?_of_nonneg {y : LongDecimal} (h : 0 ≤ y.value) :
    y.toPrecision? = precisionOf? y.value := by
  have hint : 0 ≤ towardZero y.value := towardZero_nonneg_iff.mpr (lt_of_lt_of_le (by norm_num) h)
  rw [toPrecision?_of_towardZero, precisionOf?]
  by_cases hlt : towardZero y.value < precisionBound
  · rw [if_pos ⟨hint, hlt⟩, if_neg (not_or.mpr ⟨not_lt.mpr h, not_le.mpr hlt⟩)]
  · rw [if_neg (fun hboth => hlt hboth.2), if_pos (Or.inr (not_lt.mp hlt))]

theorem toPrecision?_of_le {y : LongDecimal} (h : y.value ≤ -1) : y.toPrecision? = none := by
  rw [toPrecision?_of_towardZero, if_neg]
  exact fun hboth => absurd (towardZero_nonneg_iff.mp hboth.1) (not_lt.mpr h)

/-- Between minus one and zero the integer is zero. -/
theorem toPrecision?_of_between {y : LongDecimal} (hlow : -1 < y.value) (hhigh : y.value < 0) :
    y.toPrecision? = some 0 := by
  have hzero : towardZero y.value = 0 := by
    rw [towardZero, if_neg (not_le.mpr hhigh)]
    exact Int.ceil_eq_zero_iff.mpr ⟨hlow, hhigh.le⟩
  rw [toPrecision?_of_towardZero, hzero, if_pos (by decide)]
  rfl

theorem toPrecision?_eq_precisionOf?_iff (y : LongDecimal) :
    y.toPrecision? = precisionOf? y.value ↔ ¬ (-1 < y.value ∧ y.value < 0) := by
  rcases le_or_gt 0 y.value with hnonneg | hneg
  · exact iff_of_true (toPrecision?_of_nonneg hnonneg) (fun h => absurd h.2 (not_lt.mpr hnonneg))
  · rw [precisionOf?_of_neg hneg]
    rcases le_or_gt y.value (-1) with hle | hgt
    · exact iff_of_true (toPrecision?_of_le hle) (fun h => absurd h.1 (not_lt.mpr hle))
    · rw [toPrecision?_of_between hgt hneg]
      exact iff_of_false (Option.some_ne_none 0) (not_not.mpr ⟨hgt, hneg⟩)

end LongDecimal

namespace Decimal96

theorem toPrecision?_of_negative {x : Decimal96} (h : x.negative = true) :
    x.toPrecision? = none := by
  rw [toPrecision?]
  exact if_pos h

theorem toPrecision?_eq_precisionOf?_iff (x : Decimal96) :
    x.toPrecision? = precisionOf? x.value ↔ ¬ x.IsNegativeZero := by
  cases hsign : x.negative with
  | false =>
      have hnonneg : 0 ≤ x.toLong.value := by
        refine not_lt.mp fun hneg => ?_
        rw [← value, value_neg_iff, hsign] at hneg
        exact absurd hneg.1 Bool.false_ne_true
      rw [toPrecision?_toLong hsign, LongDecimal.toPrecision?_of_nonneg hnonneg]
      exact iff_of_true rfl (fun h => absurd (hsign.symm.trans h.1) Bool.false_ne_true)
  | true =>
      rw [toPrecision?_of_negative hsign]
      by_cases hzero : x.value = 0
      · rw [hzero, precisionOf?_zero]
        exact iff_of_false (Option.some_ne_none 0).symm (not_not.mpr ⟨hsign, hzero⟩)
      · have hneg : x.value < 0 := by
          rw [value_neg_iff, ← Bool.not_eq_true, ← value_eq_zero_iff]
          exact ⟨hsign, hzero⟩
        rw [precisionOf?_of_neg hneg]
        exact iff_of_true rfl (fun h => hzero h.2)

end Decimal96

/-- How a decimal of each type is taken for a precision. -/
structure AskedPrecisions (x : Decimal96) (y : LongDecimal) : Prop where
  /-- A decimal of 96 bits is taken as its number asks for, unless it is a negative zero. -/
  decimal : x.toPrecision? = precisionOf? x.value ↔ ¬ x.IsNegativeZero
  /-- A negative zero is refused. -/
  negativeZero : x.IsNegativeZero → x.toPrecision? = none
  /-- A long decimal is taken as its number asks for, unless that lies between minus one and
  zero. -/
  long : y.toPrecision? = precisionOf? y.value ↔ ¬ (-1 < y.value ∧ y.value < 0)
  /-- Between minus one and zero it is taken for zero. -/
  between : -1 < y.value ∧ y.value < 0 → y.toPrecision? = some 0
  /-- Equal numbers of both types ask for the same, with these two exceptions. -/
  agreement : x.value = y.value →
    (x.toPrecision? = y.toPrecision? ↔
      ¬ x.IsNegativeZero ∧ ¬ (-1 < y.value ∧ y.value < 0))

/-- Every decimal asks for the precision of its number, but for a negative zero of 96 bits and
long decimals between minus one and zero. -/
theorem askedPrecisions (x : Decimal96) (y : LongDecimal) : AskedPrecisions x y := by
  have hx := x.toPrecision?_eq_precisionOf?_iff
  have hy := y.toPrecision?_eq_precisionOf?_iff
  have hnegativeZero (h : x.IsNegativeZero) : x.toPrecision? = none :=
    Decimal96.toPrecision?_of_negative h.1
  have hbetween (h : -1 < y.value ∧ y.value < 0) : y.toPrecision? = some 0 :=
    LongDecimal.toPrecision?_of_between h.1 h.2
  refine ⟨hx, hnegativeZero, hy, hbetween, fun hvalue => ?_⟩
  by_cases hzero : x.IsNegativeZero
  · -- The number is zero, which only the long decimal is taken for.
    have hnumber : y.value = 0 := hvalue ▸ hzero.2
    refine iff_of_false ?_ (fun h => h.1 hzero)
    rw [hnegativeZero hzero, LongDecimal.toPrecision?_of_nonneg hnumber.ge, hnumber,
      precisionOf?_zero]
    exact (Option.some_ne_none 0).symm
  · rw [hx.mpr hzero, hvalue, eq_comm, hy]
    exact ⟨fun h => ⟨hzero, h⟩, fun h => h.2⟩

/-- Minus a half is refused as a decimal of 96 bits, and taken for zero as a long one. -/
theorem toPrecision?_of_negative_half :
    ∃ (x : Decimal96) (y : LongDecimal), Decimal96.ofLiteral? "-0.5".toList = some x ∧
      LongDecimal.ofLiteral? "-0.5".toList = some y ∧ x.value = y.value ∧ y.value < 0 ∧
      x.toPrecision? = none ∧ y.toPrecision? = some 0 := by
  refine ⟨⟨true, 5, 1, by decide, by decide⟩, ⟨-5, 1⟩, by decide +kernel, by decide +kernel, rfl,
    ?_, rfl, by decide +kernel⟩
  rw [LongDecimal.value_neg_iff]
  decide

end DeskCalc
