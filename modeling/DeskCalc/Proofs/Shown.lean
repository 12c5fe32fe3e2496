import DeskCalc.Proofs.DecimalValue

/-!
# What is shown depends on the number alone

A decimal is rescaled before it is shown or taken for a precision. Rescaling gives
the same result for all decimals of one number, and a decimal of 96 bits is shown
like the long decimal of its parts. Only the sign of a zero is lost between them.
-/

namespace DeskCalc

namespace Rounding

theorem raises_mul_mul_right (mode : Rounding) (q r d : Nat) {k : Nat} (h : 0 < k) :
    mode.raises q (r * k) (d * k) = mode.raises q r d := by
  have hle : d * k ≤ 2 * (r * k) ↔ d ≤ 2 * r := by
    rw [← Nat.mul_assoc, Nat.mul_le_mul_right_iff h]
  have hlt : d * k < 2 * (r * k) ↔ d < 2 * r := by
    rw [← Nat.mul_assoc, Nat.mul_lt_mul_right h]
  have heq : d * k = 2 * (r * k) ↔ d = 2 * r := by
    rw [← Nat.mul_assoc, Nat.mul_left_inj h.ne']
  cases mode with
  | down => rfl
  | halfUp => simp only [raises, hle]
  | halfEven => simp only [raises, hlt, heq]

/-- A factor common to dividend and divisor does not matter in any mode. -/
theorem quotient_mul_mul_right (mode : Rounding) (n d : Nat) {k : Nat} (h : 0 < k) :
    mode.quotient (n * k) (d * k) = mode.quotient n d := by
  unfold quotient
  rw [Nat.mul_div_mul_right _ _ h, Nat.mul_mod_mul_right, raises_mul_mul_right mode _ _ _ h]

theorem signedQuotient_mul_mul_right (mode : Rounding) (n : Int) (d : Nat) {k : Nat}
    (h : 0 < k) : mode.signedQuotient (n * k) (d * k) = mode.signedQuotient n d := by
  have hneg : n * k < 0 ↔ n < 0 := by
    rw [← not_le, ← not_le, Int.mul_nonneg_iff_of_pos_right (by exact_mod_cast h)]
  have habs : (n * k).natAbs = n.natAbs * k := by rw [Int.natAbs_mul, Int.natAbs_natCast]
  simp only [signedQuotient, hneg, habs, quotient_mul_mul_right mode _ d h]

/-- A whole quotient is kept by every mode, whatever its sign. -/
theorem signedQuotient_mul_right (mode : Rounding) (q : Int) {d : Nat} (h : 0 < d) :
    mode.signedQuotient (q * d) d = q := by
  have hone : mode.signedQuotient (q * d) (1 * d) = mode.signedQuotient q 1 :=
    signedQuotient_mul_mul_right mode q 1 h
  rw [Nat.one_mul] at hone
  rw [hone, signedQuotient, quotient_one]
  split <;> omega

theorem signedQuotient_natCast (mode : Rounding) (n d : Nat) :
    mode.signedQuotient n d = mode.quotient n d :=
  if_neg (not_lt.mpr (Int.natCast_nonneg n))

theorem signedQuotient_neg (mode : Rounding) (n : Int) {d : Nat} (h : 0 < d) :
    mode.signedQuotient (-n) d = -mode.signedQuotient n d := by
  have hzero : mode.quotient 0 d = 0 := by
    simpa using mode.quotient_mul_right 0 h
  unfold signedQuotient
  rw [Int.natAbs_neg]
  rcases lt_trichotomy n 0 with hn | rfl | hn
  · rw [if_neg (by omega), if_pos hn, neg_neg]
  · simp [hzero]
  · rw [if_pos (by omega), if_neg (by omega)]

end Rounding

namespace LongDecimal

theorem rescale_of_lt (mode : Rounding) (x : LongDecimal) {s : Int} (h : s < x.scale) :
    x.rescale mode s = ⟨mode.signedQuotient x.coefficient (tenPow (x.scale - s).toNat), s⟩ := by
  rw [rescale]
  split
  · next hzero =>
      have hnone := mode.signedQuotient_mul_right 0 (tenPow_pos (x.scale - s).toNat)
      rw [zero_mul] at hnone
      rw [hzero, hnone]
  · rw [if_neg (not_le.mpr h)]

/-- Where the larger scale is left, the zeros at the end are dropped exactly. -/
theorem rescale_of_value_eq_of_le (mode : Rounding) {x y : LongDecimal}
    (h : x.value = y.value) (hle : x.scale ≤ y.scale) (s : Int) :
    y.rescale mode s = x.rescale mode s := by
  have hy := coefficient_of_value_eq h hle
  -- The new scale lies beyond both scales, between them or before both.
  rcases le_or_gt y.scale s with hys | hys
  · have hsplit : (s - x.scale).toNat = (y.scale - x.scale).toNat + (s - y.scale).toNat := by
      omega
    rw [rescale_of_le mode y hys, rescale_of_le mode x (le_trans hle hys), hy, hsplit,
      tenPow_add, Nat.cast_mul, mul_assoc]
  · rw [rescale_of_lt mode y hys, hy]
    rcases le_or_gt x.scale s with hxs | hxs
    · have hsplit : (y.scale - x.scale).toNat = (s - x.scale).toNat + (y.scale - s).toNat := by
        omega
      rw [rescale_of_le mode x hxs, hsplit, tenPow_add, Nat.cast_mul, ← mul_assoc,
        Rounding.signedQuotient_mul_right mode _ (tenPow_pos _)]
    · have hsplit : (y.scale - s).toNat = (x.scale - s).toNat + (y.scale - x.scale).toNat := by
        omega
      rw [rescale_of_lt mode x hxs, hsplit, tenPow_add,
        Rounding.signedQuotient_mul_mul_right mode _ _ (tenPow_pos _)]

theorem rescale_of_value_eq (mode : Rounding) {x y : LongDecimal} (h : x.value = y.value)
    (s : Int) : x.rescale mode s = y.rescale mode s := by
  rcases le_total x.scale y.scale with hle | hle
  · exact (rescale_of_value_eq_of_le mode h hle s).symm
  · exact rescale_of_value_eq_of_le mode h.symm hle s

theorem toFixed_of_value_eq {x y : LongDecimal} (h : x.value = y.value) (places : Nat) :
    x.toFixed places = y.toFixed places := by
  rw [toFixed, toFixed, rescale_of_value_eq .halfUp h]

theorem toPrecision?_of_value_eq {x y : LongDecimal} (h : x.value = y.value) :
    x.toPrecision? = y.toPrecision? := by
  rw [toPrecision?, toPrecision?, truncate, truncate, rescale_of_value_eq .down h]

theorem rescale_neg (mode : Rounding) (x : LongDecimal) (s : Int) :
    x.neg.rescale mode s = (x.rescale mode s).neg := by
  rcases le_or_gt x.scale s with hs | hs
  · rw [rescale_of_le mode x hs, rescale_of_le mode x.neg hs]
    exact congrArg (LongDecimal.mk · s) (neg_mul _ _)
  · rw [rescale_of_lt mode x hs, rescale_of_lt mode x.neg hs]
    exact congrArg (LongDecimal.mk · s) (mode.signedQuotient_neg _ (tenPow_pos _))

/-- What becomes of a coefficient without a sign. -/
theorem rescale_natCast (mode : Rounding) (n s places : Nat) :
    (rescale mode ⟨n, s⟩ places).coefficient =
      (if s ≤ places then n * tenPow (places - s)
        else mode.quotient n (tenPow (s - places)) : Nat) := by
  by_cases hs : s ≤ places
  · rw [rescale_of_le mode _ (Int.ofNat_le.mpr hs), if_pos hs, Int.toNat_sub, Nat.cast_mul]
  · rw [rescale_of_lt mode _ (Int.ofNat_lt.mpr (not_le.mp hs)), if_neg hs, Int.toNat_sub]
    exact mode.signedQuotient_natCast n _

end LongDecimal

namespace Decimal96

/-- The long decimal with the same parts, but without the sign. -/
def unsigned (x : Decimal96) : LongDecimal := ⟨x.coefficient, x.scale⟩

theorem toLong_eq (x : Decimal96) :
    x.toLong = if x.negative then x.unsigned.neg else x.unsigned := by
  unfold toLong signed
  split <;> rfl

theorem scaled_eq (x : Decimal96) (places : Nat) :
    (x.scaled places : Int) = (x.unsigned.rescale .halfUp places).coefficient := by
  rw [unsigned, LongDecimal.rescale_natCast, scaled]

theorem truncate_eq (x : Decimal96) : (x.truncate.coefficient : Int) = x.unsigned.truncate := by
  have h := LongDecimal.rescale_natCast .down x.coefficient x.scale 0
  rw [LongDecimal.truncate, unsigned]
  refine Eq.trans ?_ h.symm
  by_cases hs : x.scale ≤ 0
  · have hzero : x.scale = 0 := Nat.le_zero.mp hs
    simp [truncate, hzero]
  · simp [truncate, hs]

/-- Rounding leaves the sign beside the magnitude. -/
theorem rescale_toLong (x : Decimal96) (places : Nat) :
    x.toLong.rescale .halfUp places =
      ⟨if x.negative then -(x.scaled places : Int) else x.scaled places, places⟩ := by
  have hunsigned : x.unsigned.rescale .halfUp places = ⟨x.scaled places, places⟩ := by
    calc
      x.unsigned.rescale .halfUp places =
          ⟨(x.unsigned.rescale .halfUp places).coefficient,
            (x.unsigned.rescale .halfUp places).scale⟩ := rfl
      _ = ⟨x.scaled places, places⟩ := by rw [scaled_eq, LongDecimal.rescale_scale]
  rw [toLong_eq]
  cases x.negative with
  | false => exact hunsigned
  | true =>
      rw [if_pos rfl, LongDecimal.rescale_neg, hunsigned]
      rfl

theorem toFixed_toLong (x : Decimal96) (places : Nat) :
    x.toFixed places = x.toLong.toFixed places := by
  unfold toFixed LongDecimal.toFixed
  rw [rescale_toLong]
  cases x.negative with
  | false =>
      have hsign : ¬ (x.scaled places : Int) < 0 := by omega
      simp only [Bool.false_eq_true, if_false, Int.natAbs_natCast, hsign, decide_false]
  | true =>
      simp only [if_true, Int.natAbs_neg, Int.natAbs_natCast]
      unfold fixedPoint
      by_cases hzero : x.scaled places = 0
      · simp [hzero]
      · have hsign : 0 < x.scaled places := Nat.pos_of_ne_zero hzero
        simp [hzero, hsign]

/-- A negative number has no precision, and only the sign of a zero would matter. -/
theorem toPrecision?_toLong {x : Decimal96} (h : x.negative = false) :
    x.toPrecision? = x.toLong.toPrecision? := by
  have hwhole := truncate_eq x
  have hsign : x.truncate.negative = false := h
  unfold toPrecision? LongDecimal.toPrecision?
  rw [toLong_eq, h]
  simp only [hsign, Bool.false_eq_true, if_false, ← hwhole, Int.natCast_nonneg, true_and,
    Nat.cast_lt, Int.toNat_natCast]

/-- A decimal of 96 bits and a long one of the same number are shown alike. -/
theorem toFixed_of_value_eq {x : Decimal96} {y : LongDecimal} (h : x.value = y.value)
    (places : Nat) : x.toFixed places = y.toFixed places := by
  rw [toFixed_toLong]
  exact LongDecimal.toFixed_of_value_eq h places

theorem toPrecision?_of_value_eq {x : Decimal96} {y : LongDecimal} (h : x.value = y.value)
    (hsign : x.negative = false) : x.toPrecision? = y.toPrecision? := by
  rw [toPrecision?_toLong hsign]
  exact LongDecimal.toPrecision?_of_value_eq h

end Decimal96

end DeskCalc
