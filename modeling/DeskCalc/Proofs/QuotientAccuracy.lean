import DeskCalc.Proofs.EqualOperands

/-!
# The accuracy of quotients

A quotient is rounded three times: the inverse of the divisor, its product with the dividend,
and the result at the working scale. The magnitudes of both operands bound the size of the
quotient, so whatever inverse is used, if it is right to a unit of its last digit, the quotient
is right to ten units of the working scale. The inverse in use is off by little more than half
a unit.
-/

namespace DeskCalc.LongDecimal

/-- The digits that an inverse is rounded from. -/
def inverseDigits (x : LongDecimal) (n : Nat) : LongDecimal :=
  let shift := n + x.digits + 1
  ⟨x.coefficient.sign * Rounding.halfUp.quotient (tenPow shift) x.coefficient.natAbs,
    shift - x.scale⟩

theorem inverse_eq (x : LongDecimal) (n : Nat) :
    x.inverse n = (x.inverseDigits n).significant .halfEven n := rfl

theorem scale_inverseDigits (x : LongDecimal) (n : Nat) :
    (x.inverseDigits n).scale = n + 1 + x.magnitude := by
  simp only [inverseDigits, magnitude]
  omega

/-- A number times the digits of its inverse is one, up to half of what its coefficient counts in
the last place. -/
theorem abs_value_mul_inverseDigits_sub_le {x : LongDecimal} (hx : x.coefficient ≠ 0) (n : Nat) :
    |x.value * (x.inverseDigits n).value - 1| ≤
      x.coefficient.natAbs / 2 * 10 ^ (-((n + x.digits + 1 : Nat) : Int)) := by
  set shift := n + x.digits + 1
  set c := x.coefficient.natAbs with hc
  set q := Rounding.halfUp.quotient (tenPow shift) c
  have hunit : (0 : ℚ) < 10 ^ (-(shift : Int)) := zpow_pos (by norm_num) _
  have hone : (tenPow shift : ℚ) * 10 ^ (-(shift : Int)) = 1 := by
    rw [tenPow_mul_zpow (add_neg_cancel _), zpow_zero]
  have hproduct : x.value * (x.inverseDigits n).value = q * c * 10 ^ (-(shift : Int)) := by
    have hcoefficient : x.coefficient * (x.coefficient.sign * q) = q * c := by
      rw [← mul_assoc, Int.mul_sign_self, mul_comm]
    have hscale : x.scale + (shift - x.scale) = shift := by omega
    calc
      x.value * (x.inverseDigits n).value =
          value ⟨x.coefficient * (x.coefficient.sign * q), x.scale + (shift - x.scale)⟩ :=
        (value_mul_at _ _ _ _).symm
      _ = q * c * 10 ^ (-(shift : Int)) := by
        rw [hcoefficient, hscale, value]
        push_cast
        rfl
  have hround : |(q * c - tenPow shift : ℚ)| ≤ c / 2 := by
    have hmoved := Rounding.abs_signedQuotient_mul_sub_le (by decide : Rounding.halfUp ≠ .down)
      (tenPow shift) (Int.natAbs_pos.mpr hx)
    rwa [Rounding.signedQuotient_natCast, Int.cast_natCast, Int.cast_natCast] at hmoved
  calc
    |x.value * (x.inverseDigits n).value - 1| =
        |(q * c - tenPow shift : ℚ)| * 10 ^ (-(shift : Int)) := by
      rw [hproduct, ← hone, ← sub_mul, abs_mul, abs_of_pos hunit]
    _ ≤ c / 2 * 10 ^ (-(shift : Int)) := mul_le_mul_of_nonneg_right hround hunit.le

theorem abs_value_inverseDigits_sub_le {x : LongDecimal} (hx : x.coefficient ≠ 0) (n : Nat) :
    |(x.inverseDigits n).value - x.value⁻¹| ≤ 10 ^ (-(n + 1 + x.magnitude)) / 2 := by
  have hvalue : x.value ≠ 0 := mt value_eq_zero_iff.mp hx
  have hsize : (0 : ℚ) < |x.value| := abs_pos.mpr hvalue
  have hsplit : (x.coefficient.natAbs : ℚ) * 10 ^ (-((n + x.digits + 1 : Nat) : Int)) =
      |x.value| * 10 ^ (-(n + 1 + x.magnitude)) := by
    rw [abs_value_eq, Nat.cast_natAbs, Int.cast_abs, mul_assoc, ← zpow_add₀ (by norm_num),
      magnitude]
    congr 2
    push_cast
    ring
  have hproduct := abs_value_mul_inverseDigits_sub_le hx n
  rw [div_mul_eq_mul_div, hsplit] at hproduct
  have hdistance : x.value * (x.inverseDigits n).value - 1 =
      x.value * ((x.inverseDigits n).value - x.value⁻¹) := by
    rw [mul_sub, mul_inv_cancel₀ hvalue]
  rw [hdistance, abs_mul, mul_div_assoc] at hproduct
  exact le_of_mul_le_mul_left hproduct hsize

/-- Digits are counted for the largest inverse that a magnitude admits. -/
theorem abs_value_inverseDigits_le {x : LongDecimal} (hx : x.coefficient ≠ 0) (n : Nat) :
    |(x.inverseDigits n).value| ≤ 10 ^ (1 - x.magnitude) := by
  have hc : 0 < x.coefficient.natAbs := Int.natAbs_pos.mpr hx
  have hdigits := x.one_le_digits
  have hfirst : tenPow (n + x.digits + 1) ≤ tenPow (n + 2) * x.coefficient.natAbs := by
    have hcount := Digits.tenPow_le_of_count hc
    calc
      tenPow (n + x.digits + 1) = tenPow (n + 2) * tenPow (x.digits - 1) := by
        rw [← tenPow_add]
        congr 1
        omega
      _ ≤ tenPow (n + 2) * x.coefficient.natAbs := Nat.mul_le_mul_left _ hcount
  have hround := Rounding.halfUp.quotient_le_of_le_mul hc hfirst
  have hcoefficient : (x.inverseDigits n).coefficient.natAbs =
      Rounding.halfUp.quotient (tenPow (n + x.digits + 1)) x.coefficient.natAbs := by
    rw [inverseDigits, Int.natAbs_mul, Int.natAbs_sign_of_ne_zero hx, Nat.one_mul,
      Int.natAbs_natCast]
  rw [abs_value_eq_natAbs, hcoefficient, scale_inverseDigits]
  calc
    (Rounding.halfUp.quotient (tenPow (n + x.digits + 1)) x.coefficient.natAbs : ℚ) *
          10 ^ (-(n + 1 + x.magnitude)) ≤ tenPow (n + 2) * 10 ^ (-(n + 1 + x.magnitude)) :=
      mul_le_mul_of_nonneg_right (by exact_mod_cast hround) (zpow_nonneg (by norm_num) _)
    _ = 10 ^ (1 - x.magnitude) := tenPow_mul_zpow (by omega)

theorem abs_value_inverse_le {x : LongDecimal} (hx : x.coefficient ≠ 0) {n : Nat} (hn : 0 < n) :
    |(x.inverse n).value| ≤ 10 ^ (1 - x.magnitude) :=
  abs_value_significant_le_zpow .halfEven (abs_value_inverseDigits_le hx n) hn

/-- The digits of an inverse are rounded at its last digit, or the inverse is the power of ten
that needs one digit more, and is kept. -/
theorem abs_value_inverse_sub_digits_le {x : LongDecimal} (hx : x.coefficient ≠ 0) {n : Nat}
    (hn : 0 < n) :
    |(x.inverse n).value - (x.inverseDigits n).value| ≤ 10 ^ (1 - x.magnitude - n) / 2 := by
  rw [inverse_eq]
  rcases (abs_value_inverseDigits_le hx n).lt_or_eq with hlt | hpower
  · exact abs_value_significant_sub_le (by decide) hlt n
  -- The power of ten has one digit more than the magnitude admits, and all behind it are zeros.
  · have hshort : ∃ c, (x.inverseDigits n).value = value ⟨c, x.magnitude - 1⟩ := by
      rcases eq_or_eq_neg_of_abs_eq hpower with hpos | hneg
      · exact ⟨1, by rw [hpos, value, Int.cast_one, one_mul, neg_sub]⟩
      · exact ⟨-1, by rw [hneg, value, Int.cast_neg, Int.cast_one, neg_one_mul, neg_sub]⟩
    obtain ⟨c, hc⟩ := hshort
    have hlt : |(x.inverseDigits n).value| < 10 ^ (2 - x.magnitude) := by
      rw [hpower]
      exact zpow_lt_zpow_right₀ (by norm_num) (by omega)
    rw [value_significant_of_fits .halfEven hc hlt (by simp only; omega), sub_self, abs_zero]
    positivity

theorem abs_value_inverse_sub_le {x : LongDecimal} (hx : x.coefficient ≠ 0) {n : Nat}
    (hn : 0 < n) :
    |(x.inverse n).value - x.value⁻¹| ≤ 101 / 200 * 10 ^ (1 - x.magnitude - n) := by
  have hround := abs_value_inverse_sub_digits_le hx hn
  have hdigits := abs_value_inverseDigits_sub_le hx n
  have hguard : (10 : ℚ) ^ (-(n + 1 + x.magnitude)) = 10 ^ (1 - x.magnitude - n) / 100 := by
    have hshift : -(n + 1 + x.magnitude) = 1 - x.magnitude - n - 2 := by omega
    rw [hshift, zpow_sub₀ (by norm_num)]
    norm_num
  calc
    |(x.inverse n).value - x.value⁻¹| ≤
        |(x.inverse n).value - (x.inverseDigits n).value| +
          |(x.inverseDigits n).value - x.value⁻¹| := abs_sub_le _ _ _
    _ ≤ 10 ^ (1 - x.magnitude - n) / 2 + 10 ^ (-(n + 1 + x.magnitude)) / 2 :=
      add_le_add hround hdigits
    _ = 101 / 200 * 10 ^ (1 - x.magnitude - n) := by
      rw [hguard]
      ring

/-- The unit of a quotient comes from the sizes of the dividend and of the inverse. -/
theorem zpow_quotient (k k' j : Int) :
    (10 : ℚ) ^ (k - k' + 1 - j) = 10 ^ k * 10 ^ (1 - k' - j) := by
  rw [← zpow_add₀ (by norm_num)]
  congr 1
  ring

/-- The product with an inverse is as large as the magnitudes of both operands admit. -/
theorem abs_value_product_lt (a : LongDecimal) {i : LongDecimal} {k : Int}
    (hi : |i.value| ≤ 10 ^ (1 - k)) : |(product a i).value| < 10 ^ (a.magnitude - k + 1) := by
  have hsplit := zpow_quotient a.magnitude k 0
  rw [sub_zero, sub_zero] at hsplit
  rw [value_product, abs_mul, hsplit]
  exact mul_lt_mul_of_lt_of_le_of_nonneg_of_pos a.abs_value_lt_magnitude hi (abs_nonneg _)
    (zpow_pos (by norm_num) _)

/-- The digits that a quotient is computed with. -/
def quotientDigits (a b : LongDecimal) (precision : Nat) : Nat :=
  guardedDigits (a.magnitude - b.magnitude + 1) precision

theorem quotientDigits_pos (a b : LongDecimal) (precision : Nat) :
    0 < quotientDigits a b precision := guardedDigits_pos _ precision

/-- A quotient that is given has a divisor other than zero and is rounded three times. -/
theorem divWith_eq_ok {inverse : LongDecimal → Nat → LongDecimal} {a b q : LongDecimal}
    {precision : Nat} (h : divWith inverse a b precision = .ok q) :
    b.value ≠ 0 ∧
      q = ((product a (inverse b (quotientDigits a b precision))).significant .halfEven
        (quotientDigits a b precision)).rescale .halfEven (guardedScale precision) := by
  unfold divWith at h
  split at h
  · cases h
  next hb =>
  dsimp only at h
  split at h
  · cases h
  · exact ⟨mt value_eq_zero_iff.mp hb, (isBounded_of_orOverflow h).1⟩

theorem abs_inv_value_le {b : LongDecimal} (hb : b.value ≠ 0) :
    |b.value⁻¹| ≤ 10 ^ (1 - b.magnitude) := by
  have hlow := tenPow_magnitude_le (mt value_eq_zero_iff.mpr hb)
  rw [abs_inv, ← neg_sub, zpow_neg]
  exact inv_anti₀ (zpow_pos (by norm_num) _) hlow

/-- An inverse that is off by a unit of the last of `n` digits at most. They are counted from the
first one below the power of ten that the magnitude of the divisor admits, also if the inverse is
that power itself. -/
def IsNearInverse (b i : LongDecimal) (n : Nat) : Prop :=
  |i.value - b.value⁻¹| ≤ 10 ^ (1 - b.magnitude - n)

theorem isNearInverse_inverse {b : LongDecimal} (hb : b.coefficient ≠ 0) {n : Nat} (hn : 0 < n) :
    IsNearInverse b (b.inverse n) n := by
  have hdistance := abs_value_inverse_sub_le hb hn
  have hunit : (0 : ℚ) < 10 ^ (1 - b.magnitude - n) := zpow_pos (by norm_num) _
  rw [IsNearInverse]
  linarith only [hdistance, hunit]

section Inverse

variable {b i : LongDecimal} {n : Nat} (hi : IsNearInverse b i n) (a : LongDecimal)

include hi

/-- An inverse brings its unit into a quotient, at the size of the quotient. -/
theorem IsNearInverse.abs_value_product_sub_le :
    |(product a i).value - a.value / b.value| ≤ 10 ^ (a.magnitude - b.magnitude + 1 - n) := by
  calc
    |(product a i).value - a.value / b.value| = |a.value| * |i.value - b.value⁻¹| := by
      rw [value_product, div_eq_mul_inv, ← mul_sub, abs_mul]
    _ ≤ 10 ^ a.magnitude * 10 ^ (1 - b.magnitude - n) :=
      mul_le_mul a.abs_value_lt_magnitude.le hi (abs_nonneg _) (zpow_nonneg (by norm_num) _)
    _ = 10 ^ (a.magnitude - b.magnitude + 1 - n) := (zpow_quotient _ _ _).symm

/-- With that unit the product may have one digit more than the quotient. -/
theorem IsNearInverse.abs_value_product_lt (hb : b.value ≠ 0) :
    |(product a i).value| < 10 ^ (a.magnitude - b.magnitude + 2) := by
  set k := a.magnitude - b.magnitude + 1 with hk
  have hnext : a.magnitude - b.magnitude + 2 = k + 1 := by omega
  have hquotient : |a.value / b.value| < 10 ^ k := by
    have hsplit := zpow_quotient a.magnitude b.magnitude 0
    rw [sub_zero, sub_zero] at hsplit
    rw [div_eq_mul_inv, abs_mul, hsplit]
    exact mul_lt_mul_of_lt_of_le_of_nonneg_of_pos a.abs_value_lt_magnitude (abs_inv_value_le hb)
      (abs_nonneg _) (zpow_pos (by norm_num) _)
  have hunit : (10 : ℚ) ^ (k - n) ≤ 10 ^ k := zpow_le_zpow_right₀ (by norm_num) (by omega)
  have hproduct := hi.abs_value_product_sub_le a
  have hsum := abs_sub_abs_le_abs_sub (product a i).value (a.value / b.value)
  rw [hnext, zpow_add_one₀ (by norm_num)]
  have hpos : (0 : ℚ) < 10 ^ k := zpow_pos (by norm_num) _
  linarith only [hquotient, hunit, hproduct, hsum, hpos]

end Inverse

/-- A quotient that is taken with a near inverse is off by less than ten units of its last place:
by one that the inverse brings along, by five where the product has a digit more, and by half a
unit at the working scale. -/
theorem divWith_accurate {inverse : LongDecimal → Nat → LongDecimal} {a b q : LongDecimal}
    {precision : Nat}
    (hinverse : IsNearInverse b (inverse b (quotientDigits a b precision))
      (quotientDigits a b precision))
    (h : divWith inverse a b precision = .ok q) :
    |q.value - a.value / b.value| < 10 ^ (-((precision : Int) + 15)) ∧
      q.scale = precision + 16 := by
  obtain ⟨hb, rfl⟩ := divWith_eq_ok h
  refine ⟨?_, rescale_scale _ _ _⟩
  set n := quotientDigits a b precision with hn
  set k := a.magnitude - b.magnitude + 1 with hk
  set unrounded := product a (inverse b n)
  set rounded := unrounded.significant .halfEven n
  set unit : ℚ := 10 ^ (-(guardedScale precision : Int)) with hunit
  have hlast : (10 : ℚ) ^ (k - n) ≤ unit := zpow_sub_guardedDigits_le k precision
  have hproduct : |unrounded.value - a.value / b.value| ≤ 10 ^ (k - n) :=
    hinverse.abs_value_product_sub_le a
  have hdigits : |rounded.value - unrounded.value| ≤ 5 * 10 ^ (k - n) := by
    have hnext : a.magnitude - b.magnitude + 2 - n = k - n + 1 := by omega
    have hmoved := abs_value_significant_sub_le (by decide : Rounding.halfEven ≠ .down)
      (hinverse.abs_value_product_lt a hb) n
    rw [hnext, zpow_add_one₀ (by norm_num)] at hmoved
    linarith only [hmoved]
  have hscale : |(rounded.rescale .halfEven (guardedScale precision)).value - rounded.value| ≤
      unit / 2 :=
    abs_value_rescale_sub_le (by decide) rounded _
  have hplace : (10 : ℚ) ^ (-((precision : Int) + 15)) = 10 * unit := by
    have hexponent : -((precision : Int) + 15) = 1 + -(guardedScale precision : Int) := by
      rw [guardedScale, guardDigits]
      omega
    rw [hexponent, zpow_one_add₀ (by norm_num)]
  have hpos : 0 < unit := zpow_pos (by norm_num) _
  have houter := abs_sub_le (rounded.rescale .halfEven (guardedScale precision)).value
    rounded.value (a.value / b.value)
  have hmiddle := abs_sub_le rounded.value unrounded.value (a.value / b.value)
  rw [hplace]
  linarith only [hlast, hproduct, hdigits, hscale, houter, hmiddle, hpos]

/-- Every quotient that is given is right to fifteen digits behind those that are shown, and has
the working scale. -/
theorem div_accurate {a b q : LongDecimal} {precision : Nat} (h : a.div b precision = .ok q) :
    |q.value - a.value / b.value| < 10 ^ (-((precision : Int) + 15)) ∧
      q.scale = precision + 16 := by
  have hb : b.coefficient ≠ 0 := mt value_eq_zero_iff.mpr (divWith_eq_ok h).1
  exact divWith_accurate (isNearInverse_inverse hb (quotientDigits_pos a b precision)) h

/-- Two thousand by three thousandths, without digits behind the point. -/
theorem div_accurate_thirds :
    div ⟨2, -3⟩ ⟨3, 3⟩ 0 = .ok ⟨6666666666666666666667, 16⟩ ∧
      |value ⟨6666666666666666666667, 16⟩ - value ⟨2, -3⟩ / value ⟨3, 3⟩| <
        10 ^ (-(((0 : Nat) : Int) + 15)) ∧
      (16 : Int) = (0 : Nat) + 16 := by
  have h : div ⟨2, -3⟩ ⟨3, 3⟩ 0 = .ok ⟨6666666666666666666667, 16⟩ := by decide +kernel
  exact ⟨h, div_accurate h⟩

end DeskCalc.LongDecimal
