import DeskCalc.Proofs.NearestRounding
import DeskCalc.Proofs.PowerOverflow

/-!
# The accuracy of powers

The significant digits of a power are right, but how many are kept is counted from an estimate in
doubles. As long as the estimate is short by fifteen digits at most, the guard digits make up for
it and the digits that are shown are right. A large power by an exponent beyond about `10 ^ 15`
can lose more of them, and digits before the point besides.
-/

namespace DeskCalc.LongDecimal

/-- Numbers that are not on different sides of zero are as far apart as their magnitudes. -/
theorem abs_sub_of_mul_nonneg {a b : ℚ} (h : 0 ≤ a * b) : |a - b| = |(|a| - |b|)| := by
  rcases mul_nonneg_iff.mp h with ⟨ha, hb⟩ | ⟨ha, hb⟩
  · rw [abs_of_nonneg ha, abs_of_nonneg hb]
  · rw [abs_of_nonpos ha, abs_of_nonpos hb, ← neg_sub_neg, abs_sub_comm]

/-- The sign that the digits of a power are given is that of the power. -/
theorem signed_mul_pow_nonneg (x : LongDecimal) (n c : Nat) (s : Int) :
    0 ≤ value ⟨if x.coefficient < 0 ∧ n % 2 = 1 then -(c : Int) else c, s⟩ * x.value ^ n := by
  have hc : 0 ≤ value ⟨c, s⟩ := value_natCast_nonneg c s
  by_cases hneg : x.coefficient < 0 ∧ n % 2 = 1
  · have hpow : x.value ^ n ≤ 0 :=
      (Nat.odd_iff.mpr hneg.2).pow_nonpos (value_neg_iff.mpr hneg.1).le
    have hvalue : value ⟨-(c : Int), s⟩ = -value ⟨c, s⟩ := value_neg ⟨c, s⟩
    rw [if_pos hneg, hvalue]
    exact mul_nonneg_of_nonpos_of_nonpos (neg_nonpos.mpr hc) hpow
  · have hpow : 0 ≤ x.value ^ n := by
      rcases not_and_or.mp hneg with hpos | heven
      · exact pow_nonneg (not_lt.mp (mt value_neg_iff.mp hpos)) n
      · exact (Nat.even_iff.mpr (Nat.mod_two_ne_one.mp heven)).pow_nonneg _
    rw [if_neg hneg]
    exact mul_nonneg hc hpow

/-- Rounding to significant digits leaves the sign, as far as there is one. -/
theorem value_significant_mul_nonneg (mode : Rounding) {x : LongDecimal} {q : ℚ}
    (h : 0 ≤ x.value * q) (n : Nat) : 0 ≤ (x.significant mode n).value * q := by
  rcases eq_or_ne x.value 0 with hzero | hne
  · rw [value_significant_zero hzero, zero_mul]
  · have hsign : 0 ≤ x.value * (x.significant mode n).value := by
      rw [value_significant]
      exact value_mul_value_rescale_nonneg mode x _
    have hsquare : 0 < x.value ^ 2 := sq_pos_of_ne_zero hne
    apply nonneg_of_mul_nonneg_right _ hsquare
    calc
      0 ≤ x.value * (x.significant mode n).value * (x.value * q) := mul_nonneg hsign h
      _ = x.value ^ 2 * ((x.significant mode n).value * q) := by ring

/-- A rounded power has no sign but that of the power. -/
theorem value_power_mul_pow_nonneg (x : LongDecimal) (n width : Nat) :
    0 ≤ (x.power n width).value * x.value ^ n := by
  unfold power
  split
  · next hone =>
      rw [hone, pow_one, mul_comm]
      exact value_mul_value_rescale_nonneg .halfEven x _
  · exact value_significant_mul_nonneg .halfEven (x.signed_mul_pow_nonneg n _ _) width

/-- A rounded power differs from the power by a small part of it. -/
theorem abs_value_power_sub_le (x : LongDecimal) (n : Nat) {width : Nat} (hw : 0 < width) :
    |(x.power n width).value - x.value ^ n| ≤ 3 * partBehind width * |x.value| ^ n := by
  rw [abs_sub_of_mul_nonneg (x.value_power_mul_pow_nonneg n width), abs_pow]
  exact near_power x hw

/-- A power that is given is exact, or it has the digits that its estimate asks for. -/
theorem powWith_eq_ok_cases {log : Float → Float} {x e r : LongDecimal} {n precision : Nat}
    (hn : e.truncate = n) (h : powWith log x e precision = .ok r) :
    r.value = x.value ^ n ∨
      (x.coefficient ≠ 0 ∧ 0 < n ∧ n < 2 ^ 63 ∧
        ¬ Float.ofInt exponentLimit < (x.powerSize log n).abs ∧
        r = x.power n
          (guardedDigits (⌈Double.value (x.powerSize log n)⌉ + 1) precision)) := by
  rw [powWith_of_truncate log x hn] at h
  split at h
  · cases h
  next hword =>
  split at h
  · next hzero =>
      cases h
      exact Or.inl (by rw [hzero, pow_zero, ofInt, value_integer, Int.cast_one])
  next hpos =>
  split at h
  · next hx =>
      cases h
      exact Or.inl (by rw [value_eq_zero_iff.mpr hx, value_zero, zero_pow hpos])
  next hx =>
  split at h
  · cases h
  next hguard =>
  obtain ⟨rfl, -⟩ := isBounded_of_orOverflow h
  rw [Double.ceiling_eq]
  refine Or.inr ⟨hx, Nat.pos_of_ne_zero hpos, not_le.mp hword, ?_, rfl⟩
  intro hlarge
  exact hguard (by rw [decide_eq_true hlarge, Bool.or_true])

/-- The digits that are counted from an estimate reach as far behind it as the working scale. -/
theorem partBehind_guardedDigits_le (q : ℚ) (precision : Nat) :
    (partBehind (guardedDigits (⌈q⌉ + 1) precision) : ℝ) ≤ 10 ^ (-q - (precision + 16) : ℝ) := by
  have hceiling : (q : ℝ) ≤ (⌈q⌉ : ℤ) := by exact_mod_cast Int.le_ceil q
  have hwidth : ((⌈q⌉ : ℤ) : ℝ) + 1 + (precision + 16) ≤
      guardedDigits (⌈q⌉ + 1) precision := by
    have hwhole : ⌈q⌉ + 1 + (precision + 16) ≤ (guardedDigits (⌈q⌉ + 1) precision : ℤ) := by
      rw [guardedDigits, guardedScale, guardDigits]
      omega
    exact_mod_cast hwhole
  rw [partBehind, Rat.cast_zpow, Rat.cast_ofNat, ← Real.rpow_intCast]
  apply Real.rpow_le_rpow_of_exponent_le (by norm_num)
  push_cast
  linarith only [hceiling, hwidth]

/-- However small the magnitude is, sixteen digits are kept besides those that are shown. -/
theorem partBehind_guardedDigits_le_unit (magnitude : Int) (precision : Nat) :
    partBehind (guardedDigits magnitude precision) ≤ 10 ^ (-((precision : ℤ) + 15)) := by
  apply zpow_le_zpow_right₀ (by norm_num)
  rw [guardedDigits, guardedScale, guardDigits]
  omega

theorem pow_abs_value_eq_rpow {x : LongDecimal} (hx : x.coefficient ≠ 0) (n : Nat) :
    ((|x.value| ^ n : ℚ) : ℝ) = 10 ^ (n * x.size) := by
  rw [← logb_pow, Real.rpow_logb (by norm_num) (by norm_num)]
  exact Rat.cast_pos.mpr (pow_abs_value_pos hx n)

/-- What an estimate is short by is lost of the guard digits. -/
theorem abs_power_sub_le_of_estimate {x : LongDecimal} (hx : x.coefficient ≠ 0) {n : Nat}
    {q : ℚ} {t : ℝ} (h : n * x.size ≤ q + t) (precision : Nat) :
    ((|(x.power n (guardedDigits (⌈q⌉ + 1) precision)).value - x.value ^ n| : ℚ) : ℝ) ≤
      3 * 10 ^ (t - (precision + 16)) := by
  set width := guardedDigits (⌈q⌉ + 1) precision
  have hw : 0 < width := guardedDigits_pos _ precision
  have hpart : (partBehind width : ℝ) ≤ 10 ^ (-q - (precision + 16) : ℝ) :=
    partBehind_guardedDigits_le q precision
  have hpower : ((|x.value| ^ n : ℚ) : ℝ) ≤ 10 ^ (q + t) := by
    rw [pow_abs_value_eq_rpow hx]
    exact Real.rpow_le_rpow_of_exponent_le (by norm_num) h
  have hrational := (Rat.cast_le (K := ℝ)).mpr (x.abs_value_power_sub_le n hw)
  rw [Rat.cast_mul, Rat.cast_mul, Rat.cast_ofNat] at hrational
  calc
    ((|(x.power n width).value - x.value ^ n| : ℚ) : ℝ) ≤
        3 * partBehind width * (|x.value| ^ n : ℚ) := hrational
    _ ≤ 3 * 10 ^ (-q - (precision + 16) : ℝ) * 10 ^ (q + t) := by
      apply mul_le_mul _ hpower _ (by positivity)
      · exact mul_le_mul_of_nonneg_left hpart (by norm_num)
      · exact_mod_cast (pow_abs_value_pos hx n).le
    _ = 3 * 10 ^ (t - (precision + 16)) := by
      rw [mul_assoc, ← Real.rpow_add (by norm_num)]
      congr 2
      ring

/-- Digits are taken of a number near to where it has them. -/
theorem natAbs_scale_leading_lt {x : LongDecimal} (hx : x.isBounded = true) :
    x.leading.scale.natAbs < 10 ^ 6 := by
  obtain ⟨-, hlow, hhigh⟩ := isBounded_iff.mp hx
  rw [leading, withDigits, rescale_scale]
  rw [magnitude, exponentLimit] at hlow hhigh
  omega

theorem abs_size_le {x : LongDecimal} (hx : x.coefficient ≠ 0) (h : x.isBounded = true) :
    |x.size| ≤ 100001 := by
  obtain ⟨-, hlow, hhigh⟩ := isBounded_iff.mp h
  have hdown := le_logb_of_zpow_le (abs_value_pos hx) (tenPow_magnitude_le hx)
  have hup := logb_le_of_lt_zpow (abs_value_pos hx) x.abs_value_lt_magnitude
  have hlow' : (-100000 : ℝ) ≤ x.magnitude := by
    rw [exponentLimit] at hlow
    exact_mod_cast hlow
  have hhigh' : (x.magnitude : ℝ) ≤ 100000 := by
    rw [exponentLimit] at hhigh
    exact_mod_cast hhigh
  push_cast at hdown hup
  rw [size, abs_le]
  push_cast
  constructor
  · linarith only [hdown, hlow']
  · linarith only [hup, hhigh']

/-- An estimate that is admitted is off by the slack at most. -/
theorem abs_estimate_sub_size_le_slack {log : Float → Float} {x : LongDecimal}
    (hx : x.coefficient ≠ 0) (hbounded : x.isBounded = true)
    (hlog : AccurateAt log x.leadingDouble) {n : Nat} (hn : 0 < n) (hn' : n < 2 ^ 63)
    (h : ¬ Float.ofInt exponentLimit < (x.powerSize log n).abs) :
    |(Double.value (x.powerSize log n) : ℝ) - n * x.size| ≤ slack n := by
  set q := Double.value (x.powerSize log n) with hq
  obtain ⟨hfinite, hnear⟩ := abs_estimate_sub_size_le hx hlog (natAbs_scale_leading_lt hbounded)
    hn hn'
  rw [← hq] at hnear
  have hn63 : (n : ℝ) < 2 ^ 63 := by exact_mod_cast hn'
  have hexact : |(n : ℝ) * x.size| = n * |x.size| := by rw [abs_mul, Nat.abs_cast]
  have hsize := abs_size_le hx hbounded
  -- The guard compares doubles. It bounds the number once this is known not to be huge.
  have hsmall : |q| < 2 ^ 200 := by
    have hsub := abs_sub_abs_le_abs_sub (q : ℝ) (n * x.size)
    have hcast : |(q : ℝ)| < 2 ^ 200 := by
      have hmul := mul_le_mul_of_nonneg_left hsize (Nat.cast_nonneg n)
      rw [hexact] at hsub
      linarith only [hsub, hnear, hmul, hn63]
    exact_mod_cast hcast
  have hlimit : |(q : ℝ)| ≤ 100000 := by
    have hle := not_lt.mp (mt (Double.ofInt_lt_abs_iff (n := exponentLimit) (by decide) hfinite
      hsmall).mpr h)
    rw [exponentLimit] at hle
    exact_mod_cast hle
  have hsub := abs_sub_abs_le_abs_sub (n * x.size) (q : ℝ)
  rw [abs_sub_comm, hexact] at hsub
  rw [slack]
  linarith only [hnear, hlimit, hsub, hn63]

/-- How near a result is to the power of a number. -/
structure PowerAccuracy (x r : LongDecimal) (n precision : Nat) : Prop where
  /-- The significant digits are right. -/
  relative : |r.value - x.value ^ n| ≤ 3 * 10 ^ (-((precision : ℤ) + 15)) * |x.value| ^ n
  /-- The guard digits are used up by the slack of the estimate. -/
  distance : ((|r.value - x.value ^ n| : ℚ) : ℝ) ≤ 3 * 10 ^ (slack n - (precision + 16))
  /-- The digits that are shown are right unless both the exponent and the power are large. -/
  shown : n ≤ 18 * 10 ^ 14 ∨ |x.value| ^ n ≤ 10 ^ 14 →
    |r.value - x.value ^ n| ≤ 10 ^ (-(precision : ℤ))

theorem slack_le_fifteen {n : Nat} (h : n ≤ 18 * 10 ^ 14) : slack n ≤ 15 := by
  have hcast : (n : ℝ) ≤ 18 * 10 ^ 14 := by exact_mod_cast h
  rw [slack]
  linarith only [hcast]

/-- A slack of fifteen digits leaves those that are shown. -/
theorem le_shown_of_slack {d : ℚ} {n precision : Nat} (hn : n ≤ 18 * 10 ^ 14)
    (h : (d : ℝ) ≤ 3 * 10 ^ (slack n - (precision + 16))) : d ≤ 10 ^ (-(precision : ℤ)) := by
  have hle : (10 : ℝ) ^ (slack n - (precision + 16)) ≤ 10 ^ (-(precision : ℝ)) / 10 := by
    rw [← Real.rpow_sub_one (by norm_num)]
    apply Real.rpow_le_rpow_of_exponent_le (by norm_num)
    linarith only [slack_le_fifteen hn]
  have hpos : (0 : ℝ) < 10 ^ (-(precision : ℝ)) := by positivity
  have hcast : ((10 ^ (-(precision : ℤ)) : ℚ) : ℝ) = 10 ^ (-(precision : ℝ)) := by
    rw [Rat.cast_zpow, Rat.cast_ofNat, ← Real.rpow_intCast]
    push_cast
    rfl
  have hreal : (d : ℝ) ≤ ((10 ^ (-(precision : ℤ)) : ℚ) : ℝ) := by
    rw [hcast]
    linarith only [h, hle, hpos]
  exact Rat.cast_le.mp hreal

/-- A number with fourteen digits before the point has those that are shown among its
significant ones. -/
theorem le_shown_of_small {d q : ℚ} {precision : Nat} (hq : q ≤ 10 ^ 14)
    (h : d ≤ 3 * 10 ^ (-((precision : ℤ) + 15)) * q) : d ≤ 10 ^ (-(precision : ℤ)) := by
  have hunit : (10 : ℚ) ^ (-((precision : ℤ) + 15)) = 10 ^ (-(precision : ℤ)) / 10 ^ 15 := by
    rw [neg_add', zpow_sub₀ (by norm_num)]
    norm_num
  have hpos : (0 : ℚ) < 10 ^ (-(precision : ℤ)) := zpow_pos (by norm_num) _
  have hroom := mul_le_mul_of_nonneg_left hq hpos.le
  rw [hunit] at h
  linarith only [h, hroom, hpos]

theorem PowerAccuracy.of_distance {x r : LongDecimal} {n precision : Nat}
    (hrelative : |r.value - x.value ^ n| ≤ 3 * 10 ^ (-((precision : ℤ) + 15)) * |x.value| ^ n)
    (hdistance : ((|r.value - x.value ^ n| : ℚ) : ℝ) ≤
      3 * 10 ^ (slack n - (precision + 16))) : PowerAccuracy x r n precision := by
  refine ⟨hrelative, hdistance, ?_⟩
  rintro (hshort | hsmall)
  · exact le_shown_of_slack hshort hdistance
  · exact le_shown_of_small hsmall hrelative

theorem PowerAccuracy.of_eq {x r : LongDecimal} {n : Nat} (precision : Nat)
    (h : r.value = x.value ^ n) : PowerAccuracy x r n precision := by
  apply PowerAccuracy.of_distance
  · rw [h, sub_self, abs_zero]
    positivity
  · rw [h, sub_self, abs_zero, Rat.cast_zero]
    positivity

/-- A power that is given has the significant digits of the exact power, and is right to the
digits that are shown if the exponent or the power is not too large for the estimate. -/
theorem powWith_accurate {log : Float → Float} {x e r : LongDecimal} (hx : x.isBounded = true)
    (hlog : x.coefficient ≠ 0 → AccurateAt log x.leadingDouble) {n precision : Nat}
    (hn : towardZero e.value = n) (h : powWith log x e precision = .ok r) :
    PowerAccuracy x r n precision := by
  have htruncate : e.truncate = n := (truncate_eq_towardZero e).trans hn
  rcases powWith_eq_ok_cases htruncate h with hexact | ⟨hc, hpos, hword, hlimit, rfl⟩
  · exact PowerAccuracy.of_eq precision hexact
  · set q := Double.value (x.powerSize log n)
    have hestimate : |(q : ℝ) - n * x.size| ≤ slack n :=
      abs_estimate_sub_size_le_slack hc hx (hlog hc) hpos hword hlimit
    apply PowerAccuracy.of_distance
    · apply (abs_value_power_sub_le x n (guardedDigits_pos _ precision)).trans
      apply mul_le_mul_of_nonneg_right _ (pow_abs_value_pos hc n).le
      exact mul_le_mul_of_nonneg_left (partBehind_guardedDigits_le_unit _ precision) (by norm_num)
    · apply abs_power_sub_le_of_estimate hc
      linarith only [(abs_le.mp hestimate).1]

/-- The power of a number hardly above one, with half an exponent. -/
theorem powWith_accurate_above_one :
    isBounded ⟨1000000000000029, 15⟩ = true ∧
      AccurateAt (fun _ => Float.ofBits 0x4030000000000004)
        (leadingDouble ⟨1000000000000029, 15⟩) ∧
      powWith (fun _ => Float.ofBits 0x4030000000000004) ⟨1000000000000029, 15⟩ ⟨35, 1⟩ 4 =
        .ok ⟨1000000000000087000000, 21⟩ ∧
      PowerAccuracy ⟨1000000000000029, 15⟩ ⟨1000000000000087000000, 21⟩ 3 4 := by
  have hpower : powWith (fun _ => Float.ofBits 0x4030000000000004) ⟨1000000000000029, 15⟩
      ⟨35, 1⟩ 4 = .ok ⟨1000000000000087000000, 21⟩ := by decide +kernel
  have hn : towardZero (value ⟨35, 1⟩) = (3 : Nat) := (truncate_eq_towardZero _).symm.trans rfl
  exact ⟨by decide, accurateAt_above_one, hpower,
    powWith_accurate (by decide) (fun _ => accurateAt_above_one) hn hpower⟩

/-- The double of the digits of `1 + 1 / 10 ^ 15` has a logarithm that rounds to that of one. -/
theorem accurateAt_next_to_one :
    AccurateAt (fun _ => Float.ofNat 16) (leadingDouble ⟨1000000000000001, 15⟩) := by
  have hunpack : (Float.ofNat 10000000000000010).toModel.unpack =
      .finite .positive 5000000000000005 1 (by norm_num) := rfl
  have hdouble : Double.value (leadingDouble ⟨1000000000000001, 15⟩) = 10000000000000010 := by
    change Double.number (Float.ofNat 10000000000000010).toModel.unpack = _
    rw [hunpack]
    norm_num [Double.number, Float.Model.UnpackedFloat.Sign.apply]
  have hlog : Real.logb 10 10000000000000010 = 16 + Real.logb 10 (1 + 1 / 10 ^ 15) := by
    rw [← logb_sixteen_places (by norm_num)]
    norm_num
  obtain ⟨hlow, hhigh⟩ := logb_one_add_bounds (t := 1 / 10 ^ 15) (by norm_num)
  obtain ⟨hfinite, hvalue⟩ := Double.value_ofNat (n := 16) (by norm_num)
  refine ⟨hfinite, ?_⟩
  have hpos : (0 : ℝ) ≤ 1 / 10 ^ 15 / (2.8 * (1 + 1 / 10 ^ 15)) := by positivity
  rw [hvalue, hdouble]
  push_cast
  rw [hlog, abs_le]
  constructor
  · linarith only [hhigh]
  · linarith only [hlow, hpos]

/-- The upper bound of a bracket bounds a power at any scale. -/
theorem pow_value_le_bracket (width m n : Nat) (s : Int) :
    value ⟨m, s⟩ ^ n ≤
      (Bracket.pow width m n).upper * 10 ^ ((Bracket.pow width m n).shift - s * n) := by
  have hunit : (0 : ℚ) ≤ 10 ^ (-(s * n)) := zpow_nonneg (by norm_num) _
  have hupper : ((m ^ n : Nat) : ℚ) ≤
      (Bracket.pow width m n).upper * 10 ^ (Bracket.pow width m n).shift := by
    have henclosed := (Bracket.encloses_pow width m n).upper
    exact_mod_cast henclosed
  calc
    value ⟨m, s⟩ ^ n = (m ^ n : Nat) * 10 ^ (-(s * n)) := by
      rw [value, mul_pow, Int.cast_natCast, ← zpow_natCast (10 ^ (-s)), ← zpow_mul, neg_mul,
        Nat.cast_pow]
    _ ≤ (Bracket.pow width m n).upper * 10 ^ (Bracket.pow width m n).shift * 10 ^ (-(s * n)) :=
      mul_le_mul_of_nonneg_right hupper hunit
    _ = (Bracket.pow width m n).upper * 10 ^ ((Bracket.pow width m n).shift - s * n) := by
      rw [mul_assoc, ← zpow_natCast, ← zpow_add₀ (by norm_num), sub_eq_add_neg]

/-- The size of a power with twenty-two digits before its point. -/
theorem pow_next_to_one_lt :
    value ⟨1000000000000001, 15⟩ ^ 50000000000000000 < 5184705528586942846449 + 1 / 2 := by
  have hbracket : Bracket.pow 48 1000000000000001 50000000000000000 =
      ⟨518470552858694284644923864782851440969396388399,
        518470552858694284644923864783017276891770115286, 749999999999999974⟩ := by
    decide +kernel
  have hbound := pow_value_le_bracket 48 1000000000000001 50000000000000000 15
  rw [hbracket] at hbound
  apply lt_of_le_of_lt hbound
  norm_num

/-- A power whose estimate is zero although it has twenty-two digits before its point: with those
of the precision and the guard digits one too few is kept. -/
theorem powWith_beyond_shown :
    isBounded ⟨1000000000000001, 15⟩ = true ∧
      AccurateAt (fun _ => Float.ofNat 16) (leadingDouble ⟨1000000000000001, 15⟩) ∧
      powWith (fun _ => Float.ofNat 16) ⟨1000000000000001, 15⟩ ⟨50000000000000000, 0⟩ 4 =
        .ok ⟨518470552858694284645, -1⟩ ∧
      (10 : ℚ) ^ (-4 : ℤ) < |value ⟨518470552858694284645, -1⟩ -
        value ⟨1000000000000001, 15⟩ ^ 50000000000000000| := by
  have hpower := pow_next_to_one_lt
  have hvalue : value ⟨518470552858694284645, -1⟩ = 5184705528586942846450 := by
    norm_num [value]
  refine ⟨by decide, accurateAt_next_to_one, by decide +kernel, ?_⟩
  generalize value ⟨1000000000000001, 15⟩ ^ 50000000000000000 = power at hpower ⊢
  rw [hvalue]
  apply lt_of_lt_of_le _ (le_abs_self _)
  norm_num
  linarith only [hpower]

end DeskCalc.LongDecimal
