import DeskCalc.Proofs.DomainErrors
import DeskCalc.Proofs.NearestRounding

/-!
# Operands of equal numbers

Long decimals of one number differ in their scales. Sums, differences and quotients by an
operand other than zero depend on the numbers alone, and so does every product whose summed
scale lies within the exponent limit. The scale of a product is checked as it stands, and
the scale of a zero counts for the size of a quotient.
-/

namespace DeskCalc.LongDecimal

theorem magnitude_of_value_eq {x y : LongDecimal} (h : x.value = y.value)
    (hx : x.coefficient ≠ 0) : x.magnitude = y.magnitude := by
  have hy : y.coefficient ≠ 0 := by rwa [ne_eq, ← value_eq_zero_iff, ← h, value_eq_zero_iff]
  have hxy := lt_of_le_of_lt (tenPow_magnitude_le hx) (h ▸ y.abs_value_lt_magnitude)
  have hyx := lt_of_le_of_lt (tenPow_magnitude_le hy) (h.symm ▸ x.abs_value_lt_magnitude)
  have hle := (zpow_lt_zpow_iff_right₀ (by norm_num)).mp hxy
  have hge := (zpow_lt_zpow_iff_right₀ (by norm_num)).mp hyx
  omega

theorem value_significant_of_value_eq (mode : Rounding) {x y : LongDecimal}
    (h : x.value = y.value) (n : Nat) :
    (x.significant mode n).value = (y.significant mode n).value := by
  by_cases hx : x.value = 0
  · rw [value_significant_zero hx, value_significant_zero (h ▸ hx)]
  · have hc : x.coefficient ≠ 0 := fun hzero => hx (value_eq_zero_iff.mpr hzero)
    rw [value_significant, value_significant, magnitude_of_value_eq h hc,
      rescale_of_value_eq mode h]

/-- The zeros at the end of a divisor go into the shift that its inverse is taken with. -/
theorem inverse_of_value_eq_of_le {x y : LongDecimal} (h : x.value = y.value)
    (hx : x.coefficient ≠ 0) (hle : x.scale ≤ y.scale) (n : Nat) :
    x.inverse n = y.inverse n := by
  have hmagnitude := magnitude_of_value_eq h hx
  have hy := coefficient_of_value_eq h hle
  set k := (y.scale - x.scale).toNat with hk
  have hdigits : y.digits = x.digits + k := by
    rw [magnitude, magnitude] at hmagnitude
    omega
  have hone : (tenPow k : Int).sign = 1 :=
    Int.sign_eq_one_of_pos (by exact_mod_cast tenPow_pos k)
  have hsign : y.coefficient.sign = x.coefficient.sign := by
    rw [hy, Int.sign_mul, hone, mul_one]
  have habs : y.coefficient.natAbs = x.coefficient.natAbs * tenPow k := by
    rw [hy, Int.natAbs_mul, Int.natAbs_natCast]
  have hshift : tenPow (n + y.digits + 1) = tenPow (n + x.digits + 1) * tenPow k := by
    rw [← tenPow_add, hdigits]
    congr 1
    omega
  have hscale : ((n + y.digits + 1 : Nat) : Int) - y.scale =
      ((n + x.digits + 1 : Nat) : Int) - x.scale := by
    rw [magnitude, magnitude] at hmagnitude
    omega
  simp only [inverse]
  rw [hshift, hsign, habs, Rounding.quotient_mul_mul_right _ _ _ (tenPow_pos k), hscale]

theorem inverse_of_value_eq {x y : LongDecimal} (h : x.value = y.value)
    (hx : x.coefficient ≠ 0) (n : Nat) : x.inverse n = y.inverse n := by
  have hy : y.coefficient ≠ 0 := by rwa [ne_eq, ← value_eq_zero_iff, ← h, value_eq_zero_iff]
  rcases le_total x.scale y.scale with hle | hle
  · exact inverse_of_value_eq_of_le h hx hle n
  · exact (inverse_of_value_eq_of_le h.symm hy hle n).symm

/-- Whether the scale of a product leaves room for a digit within the exponent limit. -/
def ProductFits (a b : LongDecimal) : Prop :=
  -exponentLimit < a.scale + b.scale ∧ a.scale + b.scale ≤ exponentLimit

/-- Whether the digits and scales of dividend and divisor tell of a quotient within the
exponent limit. -/
def QuotientFits (a b : LongDecimal) : Prop := a.magnitude - b.magnitude ≤ exponentLimit

/-- Two results that are one error, or values of one number. -/
inductive SameResult : Except ArithmeticError LongDecimal → Except ArithmeticError LongDecimal →
    Prop
  | ok {x y : LongDecimal} (h : x.value = y.value) : SameResult (.ok x) (.ok y)
  | error (e : ArithmeticError) : SameResult (.error e) (.error e)

theorem orOverflow_of_le {x : LongDecimal} (h : (10 : ℚ) ^ exponentLimit ≤ |x.value|) :
    x.orOverflow = .error .overflow := by
  rw [orOverflow_eq_overflow_iff]
  intro hbounded
  exact absurd (isBounded_iff_size.mp hbounded).1 (not_lt.mpr h)

/-- What an operator gives that is refused for the size of its exact result alone. -/
def GivenBySize (q : ℚ) (r : Except ArithmeticError LongDecimal) : Prop :=
  (|q| < 10 ^ exponentLimit ∧ ∃ z, r = .ok z ∧ z.value = q) ∨
    (10 ^ exponentLimit ≤ |q| ∧ r = .error .overflow)

theorem GivenBySize.sameResult {q : ℚ} {r r' : Except ArithmeticError LongDecimal}
    (h : GivenBySize q r) (h' : GivenBySize q r') : SameResult r r' := by
  rcases h with ⟨hsize, z, rfl, hz⟩ | ⟨hsize, rfl⟩ <;>
    rcases h' with ⟨hsize', z', rfl, hz'⟩ | ⟨hsize', rfl⟩
  · exact .ok (hz.trans hz'.symm)
  · exact absurd hsize (not_lt.mpr hsize')
  · exact absurd hsize' (not_lt.mpr hsize)
  · exact .error .overflow

theorem GivenBySize.eq_overflow_iff {q : ℚ} {r : Except ArithmeticError LongDecimal}
    (h : GivenBySize q r) : r = .error .overflow ↔ 10 ^ exponentLimit ≤ |q| := by
  rcases h with ⟨hsize, z, rfl, -⟩ | ⟨hsize, rfl⟩
  · exact iff_of_false nofun (not_le.mpr hsize)
  · exact iff_of_true rfl hsize

section Bounded

variable {a b : LongDecimal} (ha : a.isBounded = true) (hb : b.isBounded = true)
include ha hb

theorem givenBySize_add : GivenBySize (a.value + b.value) (a.add b) := by
  rcases lt_or_ge |a.value + b.value| (10 ^ exponentLimit) with hsize | hsize
  · obtain ⟨z, hz, hvalue, -⟩ := add_of_isBounded ha hb hsize
    exact Or.inl ⟨hsize, z, hz, hvalue⟩
  · refine Or.inr ⟨hsize, orOverflow_of_le ?_⟩
    rwa [value_sum]

theorem givenBySize_sub : GivenBySize (a.value - b.value) (a.sub b) := by
  rcases lt_or_ge |a.value - b.value| (10 ^ exponentLimit) with hsize | hsize
  · obtain ⟨z, hz, hvalue, -⟩ := sub_of_isBounded ha hb hsize
    exact Or.inl ⟨hsize, z, hz, hvalue⟩
  · refine Or.inr ⟨hsize, orOverflow_of_le ?_⟩
    rwa [value_alignedSum, value_neg, ← sub_eq_add_neg]

theorem givenBySize_mul (hfits : ProductFits a b) :
    GivenBySize (a.value * b.value) (a.mul b) := by
  obtain ⟨hlow, hhigh⟩ := hfits
  rcases lt_or_ge |a.value * b.value| (10 ^ exponentLimit) with hsize | hsize
  · obtain ⟨z, hz, hvalue, -⟩ := mul_of_isBounded ha hb hlow hhigh hsize
    exact Or.inl ⟨hsize, z, hz, hvalue⟩
  · refine Or.inr ⟨hsize, ?_⟩
    rw [← value_product] at hsize
    rw [mul, if_pos (withinLimit_iff.mpr ⟨hlow.le, hhigh⟩), orOverflow_of_le hsize]

theorem mul_eq_overflow_iff :
    a.mul b = .error .overflow ↔
      ¬ ProductFits a b ∨ 10 ^ exponentLimit ≤ |a.value * b.value| := by
  by_cases hfits : ProductFits a b
  · rw [(givenBySize_mul ha hb hfits).eq_overflow_iff]
    simp [hfits]
  · refine iff_of_true (mul_eq_overflow ha hb ?_) (Or.inl hfits)
    rcases not_and_or.mp hfits with hlow | hhigh
    · exact Or.inl (not_lt.mp hlow)
    · exact Or.inr (not_le.mp hhigh)

end Bounded

theorem div_of_fits {a b : LongDecimal} (hb : b.value ≠ 0) (h : QuotientFits a b)
    (precision : Nat) :
    a.div b precision =
      (((product a (b.inverse (guardedDigits (a.magnitude - b.magnitude + 1) precision))).significant
        .halfEven (guardedDigits (a.magnitude - b.magnitude + 1) precision)).rescale
          .halfEven (guardedScale precision)).orOverflow := by
  have hdigits : ¬ exponentLimit + 1 < a.magnitude - b.magnitude + 1 := by
    rw [QuotientFits] at h
    omega
  rw [div, divWith, if_neg (mt value_eq_zero_iff.mpr hb)]
  exact if_neg hdigits

theorem div_of_not_fits {a b : LongDecimal} (hb : b.value ≠ 0) (h : ¬ QuotientFits a b)
    (precision : Nat) : a.div b precision = .error .overflow := by
  have hdigits : exponentLimit + 1 < a.magnitude - b.magnitude + 1 := by
    rw [QuotientFits] at h
    omega
  rw [div, divWith, if_neg (mt value_eq_zero_iff.mpr hb)]
  exact if_pos hdigits

/-- The quotient of a zero is a zero at the working scale. -/
theorem div_of_zero {a b : LongDecimal} (ha : a.value = 0) (hb : b.value ≠ 0)
    (h : QuotientFits a b) (precision : Nat) :
    a.div b precision = orOverflow ⟨0, guardedScale precision⟩ := by
  rw [div_of_fits hb h, value_rescale_zero]
  apply value_significant_zero
  rw [value_product, ha, zero_mul]

theorem isBounded_zero_iff (s : Nat) : isBounded ⟨0, s⟩ = true ↔ (s : Int) ≤ exponentLimit := by
  have hzero : value ⟨0, s⟩ = 0 := value_eq_zero_iff.mpr rfl
  have hlimit : (0 : ℚ) < 10 ^ exponentLimit := zpow_pos (by norm_num) _
  rw [isBounded_iff_size, hzero, abs_zero]
  have hlow : -exponentLimit < (s : Int) := by
    rw [exponentLimit]
    omega
  exact ⟨fun h => h.2.2, fun h => ⟨hlimit, hlow, h⟩⟩

theorem div_of_zero_eq_overflow_iff {a b : LongDecimal} (ha : a.value = 0) (hb : b.value ≠ 0)
    (precision : Nat) :
    a.div b precision = .error .overflow ↔
      ¬ QuotientFits a b ∨ exponentLimit < guardedScale precision := by
  by_cases hfits : QuotientFits a b
  · rw [div_of_zero ha hb hfits, orOverflow_eq_overflow_iff, isBounded_zero_iff, not_le]
    simp [hfits]
  · exact iff_of_true (div_of_not_fits hb hfits precision) (Or.inl hfits)

/-- Quotients of equal numbers are equal if the dividends are counted for the same size. -/
theorem div_of_value_eq {a a' b b' : LongDecimal} (ha : a.value = a'.value)
    (hb : b.value = b'.value) (hzero : b.value ≠ 0) (hmagnitude : a.magnitude = a'.magnitude)
    (precision : Nat) : a.div b precision = a'.div b' precision := by
  have hzero' : b'.value ≠ 0 := hb ▸ hzero
  have hc : b.coefficient ≠ 0 := mt value_eq_zero_iff.mpr hzero
  have hmagnitude' := magnitude_of_value_eq hb hc
  by_cases hfits : QuotientFits a b
  · have hfits' : QuotientFits a' b' := by rwa [QuotientFits, ← hmagnitude, ← hmagnitude']
    rw [div_of_fits hzero hfits, div_of_fits hzero' hfits', ← hmagnitude, ← hmagnitude',
      ← inverse_of_value_eq hb hc]
    congr 1
    apply rescale_of_value_eq
    apply value_significant_of_value_eq
    rw [value_product, value_product, ha]
  · have hfits' : ¬ QuotientFits a' b' := by rwa [QuotientFits, ← hmagnitude, ← hmagnitude']
    rw [div_of_not_fits hzero hfits, div_of_not_fits hzero' hfits']

/-- What arithmetic on a pair of operands has in common with that on another pair of the same
numbers. -/
structure SameArithmetic (a b a' b' : LongDecimal) (precision : Nat) : Prop where
  add : SameResult (a.add b) (a'.add b')
  sub : SameResult (a.sub b) (a'.sub b')
  /-- Products whose summed scales fit have the same error or the same number. -/
  mul : ProductFits a b → ProductFits a' b' → SameResult (a.mul b) (a'.mul b')
  /-- Quotients are equal, those of a zero if both pairs tell of one that fits. -/
  div : (a.value = 0 → b.value ≠ 0 → QuotientFits a b ∧ QuotientFits a' b') →
    a.div b precision = a'.div b' precision
  /-- Apart from its size, the summed scale alone makes a product an overflow. -/
  productOverflow : a.mul b = .error .overflow ↔
    ¬ ProductFits a b ∨ 10 ^ exponentLimit ≤ |a.value * b.value|
  /-- A zero is divided unless its scale or that of the quotient leaves no room. -/
  zeroOverflow : a.value = 0 → b.value ≠ 0 →
    (a.div b precision = .error .overflow ↔
      ¬ QuotientFits a b ∨ exponentLimit < guardedScale precision)

/-- Operands of equal numbers are added, subtracted, multiplied and divided alike, whatever
their scales are, as long as these leave room for a product and for the quotient of a zero. -/
theorem sameArithmetic_of_value_eq {a a' b b' : LongDecimal} (ha : a.isBounded = true)
    (ha' : a'.isBounded = true) (hb : b.isBounded = true) (hb' : b'.isBounded = true)
    (hvalue : a.value = a'.value) (hvalue' : b.value = b'.value) (precision : Nat) :
    SameArithmetic a b a' b' precision where
  add := by
    have h := givenBySize_add ha hb
    rw [hvalue, hvalue'] at h
    exact h.sameResult (givenBySize_add ha' hb')
  sub := by
    have h := givenBySize_sub ha hb
    rw [hvalue, hvalue'] at h
    exact h.sameResult (givenBySize_sub ha' hb')
  mul hfits hfits' := by
    have h := givenBySize_mul ha hb hfits
    rw [hvalue, hvalue'] at h
    exact h.sameResult (givenBySize_mul ha' hb' hfits')
  div hzeros := by
    by_cases hb0 : b.value = 0
    · rw [(a.div_eq_divisionByZero_iff b precision).mpr hb0,
        (a'.div_eq_divisionByZero_iff b' precision).mpr (hvalue' ▸ hb0)]
    · by_cases ha0 : a.value = 0
      · obtain ⟨hfits, hfits'⟩ := hzeros ha0 hb0
        rw [div_of_zero ha0 hb0 hfits, div_of_zero (hvalue ▸ ha0) (hvalue' ▸ hb0) hfits']
      · have hmagnitude := magnitude_of_value_eq hvalue (mt value_eq_zero_iff.mpr ha0)
        exact div_of_value_eq hvalue hvalue' hb0 hmagnitude precision
  productOverflow := mul_eq_overflow_iff ha hb
  zeroOverflow ha0 hb0 := div_of_zero_eq_overflow_iff ha0 hb0 precision

/-- Zeros of different scales, divided by and multiplied with one number at two scales. -/
theorem sameArithmetic_of_value_eq_zeros :
    value ⟨0, 0⟩ = value ⟨0, 60000⟩ ∧ value ⟨15, 1⟩ = value ⟨150, 2⟩ ∧
      SameArithmetic ⟨0, 0⟩ ⟨15, 1⟩ ⟨0, 60000⟩ ⟨150, 2⟩ 4 := by
  have hzeros : value ⟨0, 0⟩ = value ⟨0, 60000⟩ :=
    (value_eq_zero_iff.mpr rfl).trans (value_eq_zero_iff.mpr rfl).symm
  have hshift : value ⟨15, 1⟩ = value ⟨150, 2⟩ := (value_shift 15 1 1).symm
  exact ⟨hzeros, hshift,
    sameArithmetic_of_value_eq (by decide) (by decide) (by decide) (by decide) hzeros hshift 4⟩

/-- The same two numbers have a product or none, as their scales say. A zero times a zero and a
zero divided by another number are overflows at the ends of the range of scales. -/
theorem mul_of_value_eq_overflow :
    (isBounded ⟨1, 50000⟩ = true ∧ isBounded ⟨10, 50001⟩ = true) ∧
      value ⟨1, 50000⟩ = value ⟨10, 50001⟩ ∧
      mul ⟨1, 50000⟩ ⟨1, 50000⟩ = .ok ⟨1, 100000⟩ ∧
      mul ⟨10, 50001⟩ ⟨1, 50000⟩ = .error .overflow ∧
      mul ⟨0, -60000⟩ ⟨0, -60000⟩ = .error .overflow ∧
      div ⟨0, -99999⟩ ⟨1, 5⟩ 4 = .error .overflow := by
  refine ⟨by decide, (value_shift 1 50000 1).symm, ?_⟩
  decide +kernel

end DeskCalc.LongDecimal
