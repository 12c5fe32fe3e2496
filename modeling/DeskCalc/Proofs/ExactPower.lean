import DeskCalc.Proofs.PowerAccuracy

/-!
# Powers of integers

The power of an integer has no more significant digits than digits before the point, and an
estimate that is off by half a digit at most counts all of these. A power that fits into the
digits kept is found exactly: the bounds that enclose it can only be rounded to the same digits
if these are its own.
-/

namespace DeskCalc

/-- Two multiples that are less than one unit apart are the same. -/
theorem eq_of_mul_bounds {p q unit : Nat} (hunit : 0 < unit)
    (hlow : 2 * (p * unit) ≤ 2 * (q * unit) + unit)
    (hhigh : 2 * (q * unit) ≤ 2 * (p * unit) + unit) : p = q := by
  rcases Nat.lt_trichotomy p q with hlt | heq | hlt
  · have hstep := Nat.mul_le_mul_right unit hlt
    rw [Nat.succ_mul] at hstep
    omega
  · exact heq
  · have hstep := Nat.mul_le_mul_right unit hlt
    rw [Nat.succ_mul] at hstep
    omega

namespace Bracket

variable {width v : Nat}

/-- A natural has only zeros behind its leading digits. -/
def Fits (width v : Nat) : Prop := tenPow (Digits.count v - width) ∣ v

/-- A number between bounds of the same length has as many digits as they have in all. -/
theorem count_of_encloses {b : Bracket} (hb : b.Encloses v) (digits : Nat) (hdigits : 1 < digits)
    (hlower : Digits.count b.lower = digits) (hupper : Digits.count b.upper = digits) :
    Digits.count v = digits + b.shift := by
  have hpos : 0 < b.lower := by
    apply Nat.pos_of_ne_zero
    intro hzero
    rw [hzero] at hlower
    exact absurd hlower hdigits.ne
  have hlow : tenPow (digits - 1 + b.shift) ≤ v := by
    have hfirst := Digits.tenPow_le_of_count hpos
    rw [hlower] at hfirst
    rw [tenPow_add]
    exact (Nat.mul_le_mul_right _ hfirst).trans hb.lower
  have hhigh : v < tenPow (digits + b.shift) := by
    have hlast := Digits.lt_tenPow_count b.upper
    rw [hupper] at hlast
    rw [tenPow_add]
    exact hb.upper.trans_lt (Nat.mul_lt_mul_of_pos_right hlast (tenPow_pos _))
  apply le_antisymm
  · exact Digits.count_le_of_lt hhigh (by omega)
  · have hlt := (Nat.pow_lt_pow_iff_right (by decide)).mp (hlow.trans_lt (Digits.lt_tenPow_count v))
    omega

/-- What both bounds are rounded to is half a unit from the number between them at most. -/
theorem mul_bounds_of_encloses {b : Bracket} (hb : b.Encloses v) {mode : Rounding}
    (hmode : mode ≠ .down) {d : Nat} (hd : 0 < d)
    (hagree : mode.quotient b.lower d = mode.quotient b.upper d) :
    2 * (mode.quotient b.lower d * (d * tenPow b.shift)) ≤ 2 * v + d * tenPow b.shift ∧
      2 * v ≤ 2 * (mode.quotient b.lower d * (d * tenPow b.shift)) + d * tenPow b.shift := by
  have hlow := (Rounding.mul_quotient_bounds hmode b.lower hd).1
  have hhigh := (Rounding.mul_quotient_bounds hmode b.upper hd).2
  rw [← hagree] at hhigh
  have hscaledLow := Nat.mul_le_mul_right (tenPow b.shift) hlow
  have hscaledHigh := Nat.mul_le_mul_right (tenPow b.shift) hhigh
  have henclosedLow := hb.lower
  have henclosedHigh := hb.upper
  constructor
  · linarith only [hscaledLow, henclosedLow]
  · linarith only [hscaledHigh, henclosedHigh]

/-- Bounds that are rounded to the same digits leave one number that fits between them. -/
theorem rounded?_of_fits (hw : 0 < width) {b : Bracket} (hb : b.Encloses v) (hfits : Fits width v)
    {r : Nat × Nat} (hr : b.rounded? width = some r) : r.1 * tenPow r.2 = v := by
  obtain ⟨rfl, hagree⟩ := rounded?_eq_some.mp hr
  simp only [roundTo, Prod.mk.injEq, Nat.add_left_cancel_iff] at hagree ⊢
  obtain ⟨hdigits, hlost⟩ := hagree
  rw [hlost] at hdigits
  set k := Digits.count b.lower - width with hk
  rw [Nat.add_comm, tenPow_add]
  rcases Nat.eq_zero_or_pos k with hzero | hpos
  -- No digit is lost, so the bounds are the same.
  · rw [hzero, tenPow_zero, Rounding.quotient_one, Rounding.quotient_one] at hdigits
    rw [hzero, tenPow_zero, Rounding.quotient_one, Nat.one_mul]
    exact le_antisymm hb.lower (hdigits ▸ hb.upper)
  · obtain ⟨w, hv⟩ : tenPow k * tenPow b.shift ∣ v := by
      have hcount := count_of_encloses hb (width + k) (by omega) (by omega) (by omega)
      have hdrop : width + k + b.shift - width = k + b.shift := by omega
      rwa [Fits, hcount, hdrop, tenPow_add] at hfits
    obtain ⟨hlow, hhigh⟩ := mul_bounds_of_encloses hb (by decide) (tenPow_pos k) hdigits.symm
    rw [hv, Nat.mul_comm _ w] at hlow hhigh ⊢
    rw [eq_of_mul_bounds (Nat.mul_pos (tenPow_pos k) (tenPow_pos _)) hlow hhigh]

/-- Rounding to one digit or more does not pass the power of ten below. -/
theorem tenPow_le_roundTo (hw : 0 < width) {n shift j : Nat} (h : tenPow j ≤ n * tenPow shift) :
    tenPow j ≤ (roundTo width n shift).1 * tenPow (roundTo width n shift).2 := by
  have hn : 0 < n := Nat.pos_of_mul_pos_right ((tenPow_pos j).trans_le h)
  set last := Digits.count n - 1 with hlast
  set k := Digits.count n - width with hk
  have hkept : tenPow (last - k) ≤ Rounding.halfEven.quotient n (tenPow k) := by
    apply Rounding.halfEven.le_quotient_of_mul_le (tenPow_pos k)
    rw [← tenPow_add, Nat.sub_add_cancel (by omega)]
    exact Digits.tenPow_le_of_count hn
  have hj : j ≤ last + shift := by
    have hlt : tenPow j < tenPow (last + 1 + shift) := by
      have hcount := Digits.lt_tenPow_count n
      have hdigits : Digits.count n ≤ last + 1 := by omega
      rw [tenPow_add]
      exact h.trans_lt (Nat.mul_lt_mul_of_pos_right
        (hcount.trans_le (Nat.pow_le_pow_right (by decide) hdigits)) (tenPow_pos shift))
    have hexponent := (Nat.pow_lt_pow_iff_right (by decide)).mp hlt
    omega
  calc
    tenPow j ≤ tenPow (last - k + (shift + k)) := Nat.pow_le_pow_right (by decide) (by omega)
    _ = tenPow (last - k) * tenPow (shift + k) := tenPow_add _ _
    _ ≤ Rounding.halfEven.quotient n (tenPow k) * tenPow (shift + k) :=
      Nat.mul_le_mul_right _ hkept

end Bracket

theorem roundedPower_of_fits {width m n : Nat} (hw : 0 < width)
    (h : Bracket.Fits width (m ^ n)) (attempts inner : Nat) :
    (roundedPower width m n attempts inner).1 * tenPow (roundedPower width m n attempts inner).2 =
      m ^ n := by
  obtain ⟨b, hb, hr⟩ := roundedPower_encloses width m n attempts inner
  exact Bracket.rounded?_of_fits hw hb h hr

theorem tenPow_le_roundedPower {width m n : Nat} (hw : 0 < width) {j : Nat}
    (h : tenPow j ≤ m ^ n) (attempts inner : Nat) :
    tenPow j ≤ (roundedPower width m n attempts inner).1 *
      tenPow (roundedPower width m n attempts inner).2 := by
  obtain ⟨b, hb, hr⟩ := roundedPower_encloses width m n attempts inner
  rw [← (Bracket.rounded?_eq_some.mp hr).2]
  exact Bracket.tenPow_le_roundTo hw (h.trans hb.upper)

namespace LongDecimal

variable {x e r : LongDecimal} {z : Int} {n width : Nat}

theorem coefficient_eq_zero_iff (hz : x.value = z) : x.coefficient = 0 ↔ z = 0 := by
  rw [← value_eq_zero_iff, hz, Int.cast_eq_zero]

/-- The zeros behind the point of an integer. -/
theorem tenPow_dvd_coefficient (hz : x.value = z) :
    tenPow x.scale.toNat ∣ x.coefficient.natAbs := by
  rcases le_or_gt 0 x.scale with hscale | hscale
  · have hcoefficient := coefficient_of_value_eq ((value_integer z).trans hz.symm) hscale
    rw [Int.sub_zero] at hcoefficient
    rw [hcoefficient, Int.natAbs_mul, Int.natAbs_natCast]
    exact Nat.dvd_mul_left _ _
  · rw [Int.toNat_of_nonpos hscale.le, tenPow_zero]
    exact Nat.one_dvd _

theorem fits_of_integer (hz : x.value = z) (hroom : |x.value| ^ n < 10 ^ width)
    (hw : 0 < width) : Bracket.Fits width (x.coefficient.natAbs ^ n) := by
  have hsize : x.coefficient.natAbs ^ n < tenPow (width + x.scale.toNat * n) := by
    have hunits : (10 : ℚ) ^ (x.scale * n) ≤ 10 ^ (x.scale.toNat * n) := by
      rw [← zpow_natCast]
      apply zpow_le_zpow_right₀ (by norm_num)
      push_cast
      exact mul_le_mul_of_nonneg_right (Int.self_le_toNat _) (Int.natCast_nonneg n)
    have hcast : ((x.coefficient.natAbs ^ n : Nat) : ℚ) < tenPow (width + x.scale.toNat * n) := by
      calc
        ((x.coefficient.natAbs ^ n : Nat) : ℚ) = |x.value| ^ n * 10 ^ (x.scale * n) := by
          rw [pow_abs_value, mul_assoc, ← zpow_add₀ (by norm_num), neg_add_cancel, zpow_zero,
            mul_one]
        _ < 10 ^ width * 10 ^ (x.scale.toNat * n) :=
          mul_lt_mul_of_lt_of_le_of_nonneg_of_pos hroom hunits (by positivity) (by positivity)
        _ = tenPow (width + x.scale.toNat * n) := by rw [cast_tenPow, pow_add]
    exact_mod_cast hcast
  have hcount := Digits.count_le_of_lt hsize (by omega)
  calc
    tenPow (Digits.count (x.coefficient.natAbs ^ n) - width) ∣ tenPow (x.scale.toNat * n) :=
      Nat.pow_dvd_pow 10 (by omega)
    _ = tenPow x.scale.toNat ^ n := Nat.pow_mul 10 _ _
    _ ∣ x.coefficient.natAbs ^ n := pow_dvd_pow_of_dvd (tenPow_dvd_coefficient hz) n

/-- A power of an integer that has room before the point is exact. -/
theorem value_power_of_integer (hz : x.value = z) (hroom : |x.value| ^ n < 10 ^ width)
    (hw : 0 < width) : (x.power n width).value = x.value ^ n := by
  have hkept {y : LongDecimal} (hy : y.value = x.value ^ n) :
      (y.significant .halfEven width).value = x.value ^ n := by
    have hinteger : y.value = value ⟨z ^ n, 0⟩ := by
      rw [hy, hz, value_integer, Int.cast_pow]
    have hsize : |y.value| < 10 ^ (width : Int) := by
      rwa [hy, abs_pow, zpow_natCast]
    rw [value_significant_of_fits .halfEven hinteger hsize (by simp only [sub_self, le_refl]), hy]
  unfold power
  split
  · next hone =>
      rw [value_withDigits]
      exact hkept (by rw [hone, pow_one])
  · have hexact := roundedPower_of_fits hw (fits_of_integer hz hroom hw) 64
      (width + Digits.count n + 10)
    generalize roundedPower width x.coefficient.natAbs n 64 (width + Digits.count n + 10) = r
      at hexact
    obtain ⟨c, shift⟩ := r
    apply hkept
    have hsize : |value ⟨if x.coefficient < 0 ∧ n % 2 = 1 then -(c : Int) else c,
        x.scale * n - shift⟩| = |x.value ^ n| := by
      rw [abs_value_signed, abs_pow, pow_abs_value, ← hexact, Nat.cast_mul, cast_tenPow]
    have hapart := abs_sub_of_mul_nonneg (x.signed_mul_pow_nonneg n c (x.scale * n - shift))
    rw [hsize, sub_self, abs_zero, abs_eq_zero, sub_eq_zero] at hapart
    exact hapart

/-- A rounded power does not pass the power of ten below. -/
theorem zpow_le_abs_value_power {k : Int} (h : 10 ^ k ≤ |x.value| ^ n) (hw : 0 < width) :
    10 ^ k ≤ |(x.power n width).value| := by
  unfold power
  split
  · next hone =>
      rw [hone, pow_one] at h
      rw [value_withDigits]
      exact zpow_le_abs_value_significant .halfEven h hw
  · rw [pow_abs_value] at h
    have hunit : (0 : ℚ) < 10 ^ (-(x.scale * n)) := zpow_pos (by norm_num) _
    -- The same power of ten at the scale of the coefficient, or one if this is below one.
    have hcoefficient : tenPow (k + x.scale * n).toNat ≤ x.coefficient.natAbs ^ n := by
      have hsome : 0 < x.coefficient.natAbs ^ n := by
        apply Nat.pos_of_ne_zero
        intro hzero
        rw [hzero, Nat.cast_zero, zero_mul] at h
        exact absurd h (not_le.mpr (zpow_pos (by norm_num) _))
      rcases le_total (k + x.scale * n) 0 with hbelow | habove
      · rw [Int.toNat_of_nonpos hbelow]
        exact hsome
      · have hsplit : (10 : ℚ) ^ k = tenPow (k + x.scale * n).toNat * 10 ^ (-(x.scale * n)) :=
          (tenPow_mul_zpow (by omega)).symm
        rw [hsplit] at h
        exact_mod_cast le_of_mul_le_mul_right h hunit
    have hdigits := tenPow_le_roundedPower hw hcoefficient 64 (width + Digits.count n + 10)
    generalize roundedPower width x.coefficient.natAbs n 64 (width + Digits.count n + 10) = r
      at hdigits
    obtain ⟨c, shift⟩ := r
    apply zpow_le_abs_value_significant .halfEven _ hw
    rw [abs_value_signed]
    calc
      (10 : ℚ) ^ k ≤ tenPow (k + x.scale * n).toNat * 10 ^ (-(x.scale * n)) := by
        rw [tenPow_mul_zpow rfl]
        exact zpow_le_zpow_right₀ (by norm_num) (by omega)
      _ ≤ c * 10 ^ shift * 10 ^ (-(x.scale * n)) := by
        apply mul_le_mul_of_nonneg_right _ hunit.le
        rw [← cast_tenPow shift]
        exact_mod_cast hdigits

theorem pow_lt_of_isBounded (hw : 0 < width) (h : (x.power n width).isBounded = true) :
    |x.value| ^ n < 10 ^ exponentLimit := by
  by_contra hlarge
  exact absurd (isBounded_iff_size.mp h).1
    (not_lt.mpr (zpow_le_abs_value_power (not_lt.mp hlarge) hw))

/-- Half a digit is no more than the ceiling and the digit added to it make up for. -/
theorem pow_lt_of_estimate (hx : x.coefficient ≠ 0) {q : ℚ} (h : n * x.size ≤ (q : ℝ) + 1 / 2)
    (precision : Nat) : |x.value| ^ n < 10 ^ guardedDigits (⌈q⌉ + 1) precision := by
  have hceiling : (q : ℝ) ≤ (⌈q⌉ : ℤ) := by exact_mod_cast Int.le_ceil q
  have hwidth : ((⌈q⌉ : ℤ) : ℝ) + 1 ≤ guardedDigits (⌈q⌉ + 1) precision := by
    have hwhole : ⌈q⌉ + 1 ≤ (guardedDigits (⌈q⌉ + 1) precision : ℤ) := by
      rw [guardedDigits]
      omega
    exact_mod_cast hwhole
  have hreal : ((|x.value| ^ n : ℚ) : ℝ) < ((10 ^ guardedDigits (⌈q⌉ + 1) precision : ℚ) : ℝ) := by
    rw [pow_abs_value_eq_rpow hx, Rat.cast_pow, Rat.cast_ofNat, ← Real.rpow_natCast]
    apply Real.rpow_lt_rpow_of_exponent_lt (by norm_num)
    linarith only [h, hceiling, hwidth]
  exact Rat.cast_lt.mp hreal

/-- A power of an integer that is given is exact if the digits counted for it hold one that is in
range. -/
theorem value_powWith_of_room {log : Float → Float} {precision : Nat} (hz : x.value = z)
    (hn : towardZero e.value = n)
    (hroom : x.coefficient ≠ 0 → 0 < n → n < 2 ^ 63 → |x.value| ^ n < 10 ^ exponentLimit →
      |x.value| ^ n < 10 ^ guardedDigits (⌈Double.value (x.powerSize log n)⌉ + 1) precision)
    (h : powWith log x e precision = .ok r) : r.value = x.value ^ n := by
  have htruncate : e.truncate = n := (truncate_eq_towardZero e).trans hn
  have hbounded : r.isBounded = true := by
    rcases powWith_cases log x e precision with ⟨-, hneg⟩ | ⟨-, hguarded⟩
    · rw [h] at hneg
      cases hneg
    · rw [h] at hguarded
      exact hguarded.isBounded
  rcases powWith_eq_ok_cases htruncate h with hexact | ⟨hx, hpos, hword, -, rfl⟩
  · exact hexact
  · have hw := guardedDigits_pos (⌈Double.value (x.powerSize log n)⌉ + 1) precision
    exact value_power_of_integer hz (hroom hx hpos hword (pow_lt_of_isBounded hw hbounded)) hw

/-- An accurate logarithm gives an estimate within half a digit for an integer other than zero and
one, since only small exponents leave its power in range. -/
theorem abs_estimate_sub_le_half {log : Float → Float} (hz : x.value = z) (hz2 : 2 ≤ |z|)
    (hlog : AccurateAt log x.leadingDouble) (hn : 0 < n) (hn' : n < 2 ^ 63)
    (hrange : |x.value| ^ n < 10 ^ exponentLimit) :
    |(Double.value (x.powerSize log n) : ℝ) - n * x.size| ≤ 1 / 2 := by
  have hx : x.coefficient ≠ 0 := by
    apply mt (coefficient_eq_zero_iff hz).mp
    rintro rfl
    exact absurd hz2 (by decide)
  have hsize : 1 ≤ 4 * x.size := by
    have hfour : (10 : ℚ) ^ (1 : Int) ≤ |x.value| ^ 4 := by
      have htwo : (2 : ℚ) ≤ |x.value| := by
        rw [hz]
        exact_mod_cast hz2
      have hpower := pow_le_pow_left₀ (by norm_num) htwo 4
      norm_num at hpower ⊢
      linarith only [hpower]
    have hlog := le_logb_of_zpow_le (pow_abs_value_pos hx 4) hfour
    rw [logb_pow] at hlog
    exact_mod_cast hlog
  have hproduct : n * x.size < 100000 := by
    have hcast : ((|x.value| ^ n : ℚ) : ℝ) < ((10 ^ exponentLimit : ℚ) : ℝ) :=
      Rat.cast_lt.mpr hrange
    rw [pow_abs_value_eq_rpow hx, Rat.cast_zpow, Rat.cast_ofNat, ← Real.rpow_intCast,
      Real.rpow_lt_rpow_left_iff (by norm_num), exponentLimit] at hcast
    exact_mod_cast hcast
  rcases estimate_cases hx hlog hn hn' with hlarge | ⟨-, hnear⟩
  · rw [abs_of_nonneg (by linarith only [hsize])] at hlarge
    exact absurd hlarge (not_le.mpr hproduct)
  · have hexponent : (n : ℝ) ≤ 400000 := by
      have hmul := mul_le_mul_of_nonneg_left hsize (Nat.cast_nonneg n)
      linarith only [hmul, hproduct]
    rw [slack] at hnear
    linarith only [hnear, hexponent]

/-- A power of an integer is exact if its estimate is off by half a digit at most, however many
digits it has. -/
theorem powWith_of_integer {log : Float → Float} {precision : Nat} (hz : x.value = z)
    (hn : towardZero e.value = n)
    (hestimate : z ≠ 0 → |x.value| ^ n < 10 ^ exponentLimit →
      |(Double.value (x.powerSize log n) : ℝ) - n * x.size| ≤ 1 / 2)
    (h : powWith log x e precision = .ok r) : r.value = x.value ^ n := by
  apply value_powWith_of_room hz hn _ h
  intro hx _ _ hrange
  have hnear := (abs_le.mp (hestimate (mt (coefficient_eq_zero_iff hz).mpr hx) hrange)).1
  apply pow_lt_of_estimate hx
  linarith only [hnear]

/-- Minus ten with two zeros behind the point, and an exponent that is cut to twenty-five. -/
theorem powWith_of_integer_ten :
    value ⟨-1000, 2⟩ = (-10 : Int) ∧
      towardZero (value ⟨259, 1⟩) = (25 : Nat) ∧
      |(Double.value (powerSize (fun _ => Float.ofNat 16) ⟨-1000, 2⟩ 25) : ℝ) -
        (25 : Nat) * size ⟨-1000, 2⟩| ≤ 1 / 2 ∧
      powWith (fun _ => Float.ofNat 16) ⟨-1000, 2⟩ ⟨259, 1⟩ 0 = .ok ⟨-10 ^ 41, 16⟩ ∧
      value ⟨-10 ^ 41, 16⟩ = value ⟨-1000, 2⟩ ^ 25 := by
  have hz : value ⟨-1000, 2⟩ = (-10 : Int) := by norm_num [value]
  have hn : towardZero (value ⟨259, 1⟩) = (25 : Nat) := (truncate_eq_towardZero _).symm.trans rfl
  have hestimate : |(Double.value (powerSize (fun _ => Float.ofNat 16) ⟨-1000, 2⟩ 25) : ℝ) -
      (25 : Nat) * size ⟨-1000, 2⟩| ≤ 1 / 2 := by
    apply abs_estimate_sub_le_half hz (by decide) (accurateAt_sixteen (by decide +kernel))
      (by decide) (by decide)
    have hpower : |((-10 : Int) : ℚ)| ^ 25 = 10 ^ (25 : Int) := by norm_num
    rw [hz, hpower]
    exact zpow_lt_zpow_right₀ (by norm_num) (by decide)
  have h : powWith (fun _ => Float.ofNat 16) ⟨-1000, 2⟩ ⟨259, 1⟩ 0 = .ok ⟨-10 ^ 41, 16⟩ := by
    decide +kernel
  exact ⟨hz, hn, hestimate, h, powWith_of_integer hz hn (fun _ _ => hestimate) h⟩

/-- With an accurate logarithm all powers of integers are exact. -/
theorem powWith_of_accurateAt {log : Float → Float} {precision : Nat} (hz : x.value = z)
    (hlog : z ≠ 0 → AccurateAt log x.leadingDouble) (hn : towardZero e.value = n)
    (h : powWith log x e precision = .ok r) : r.value = x.value ^ n := by
  apply value_powWith_of_room hz hn _ h
  intro hx hpos hword hrange
  have hinteger : z ≠ 0 := mt (coefficient_eq_zero_iff hz).mpr hx
  rcases (Int.one_le_abs hinteger).eq_or_lt with hone | htwo
  -- The estimate for a power of one may be far off, but any digit is enough.
  · have hunit : |x.value| = 1 := by
      rw [hz]
      exact_mod_cast hone.symm
    rw [hunit, one_pow]
    exact one_lt_pow₀ (by norm_num) (guardedDigits_pos _ precision).ne'
  · have hnear := (abs_le.mp (abs_estimate_sub_le_half hz htwo (hlog hinteger) hpos hword
      hrange)).1
    apply pow_lt_of_estimate hx
    linarith only [hnear]

end LongDecimal

end DeskCalc
