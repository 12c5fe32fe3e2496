import DeskCalc.Proofs.DomainErrors
import DeskCalc.Proofs.PowerEstimate
import DeskCalc.Proofs.WideProduct

/-!
# The reasons for which a power is refused

A power is refused if its exponent is no machine word or if it is too large, and a long decimal
also if the digits that are kept of it reach beyond the exponent limit. The size is that of the
exact power, up to what products of ninety-six bits are rounded by and up to the slack of an
estimate in doubles. Bases of one at most are refused for their exponent alone.
-/

namespace DeskCalc

namespace LongDecimal

/-- The reasons for which a power of a long decimal is refused. -/
inductive PowerRefused (x : LongDecimal) (n precision : Nat) : Prop
  /-- The exponent is no machine word. -/
  | exponent (h : 2 ^ 63 ≤ n)
  /-- The power reaches the limit, up to the slack. -/
  | large (h : (10 : ℝ) ^ (100000 - slack n) ≤ (|x.value| ^ n : ℚ))
  /-- The power is so small that the digits kept of it reach beyond the limit. -/
  | small (hx : x.value ≠ 0)
    (h : ((|x.value| ^ n : ℚ) : ℝ) ≤ 10 ^ (precision + 16 + slack n - 100000))
  /-- The precision alone leaves no room for the digits of any power. -/
  | digits (h : 100000 ≤ precision + 18 + slack n)

theorem slack_pos (n : Nat) : 0 < slack n := by
  rw [slack]
  positivity

theorem logb_le_of_lt_zpow {q : ℚ} (hq : 0 < q) {k : Int} (h : q < 10 ^ k) :
    Real.logb 10 q ≤ k := by
  have hcast : (q : ℝ) ≤ ((10 ^ k : ℚ) : ℝ) := Rat.cast_le.mpr h.le
  rw [Rat.cast_zpow, Rat.cast_ofNat, ← Real.rpow_intCast] at hcast
  exact (Real.logb_le_iff_le_rpow (by norm_num) (Rat.cast_pos.mpr hq)).mpr hcast

theorem le_logb_of_zpow_le {q : ℚ} (hq : 0 < q) {k : Int} (h : 10 ^ k ≤ q) :
    (k : ℝ) ≤ Real.logb 10 q := by
  have hcast : ((10 ^ k : ℚ) : ℝ) ≤ (q : ℝ) := Rat.cast_le.mpr h
  rw [Rat.cast_zpow, Rat.cast_ofNat, ← Real.rpow_intCast] at hcast
  exact (Real.le_logb_iff_rpow_le (by norm_num) (Rat.cast_pos.mpr hq)).mpr hcast

section

variable {x : LongDecimal} (hx : x.coefficient ≠ 0) {n precision : Nat}
include hx

theorem pow_abs_value_pos (n : Nat) : 0 < |x.value| ^ n := pow_pos (abs_value_pos hx) n

omit hx in
theorem logb_pow (x : LongDecimal) (n : Nat) :
    Real.logb 10 ((|x.value| ^ n : ℚ) : ℝ) = n * x.size := by
  rw [Rat.cast_pow, Real.logb_pow, size]

theorem PowerRefused.of_large (h : 100000 - slack n ≤ n * x.size) :
    PowerRefused x n precision := by
  apply PowerRefused.large
  rw [← logb_pow] at h
  exact (Real.le_logb_iff_rpow_le (by norm_num)
    (Rat.cast_pos.mpr (pow_abs_value_pos hx n))).mp h

theorem PowerRefused.of_small (h : n * x.size ≤ precision + 16 + slack n - 100000) :
    PowerRefused x n precision := by
  apply PowerRefused.small (mt value_eq_zero_iff.mp hx)
  rw [← logb_pow] at h
  exact (Real.logb_le_iff_le_rpow (by norm_num)
    (Rat.cast_pos.mpr (pow_abs_value_pos hx n))).mp h

/-- A rounded power is bounded unless it is too large or its digits go too far behind the point. -/
theorem size_of_not_isBounded {width : Nat} (hw : 16 ≤ width)
    (h : ¬ (x.power n width).isBounded = true) :
    100000 - 1 / 2 ^ 30 ≤ n * x.size ∨ n * x.size ≤ width - 100000 + 1 / 2 ^ 30 := by
  have hpos := pow_abs_value_pos hx n
  have hnear : Near (3 * partBehind width) |(x.power n width).value| (|x.value| ^ n) :=
    near_power x (by omega)
  have hpart : partBehind width ≤ 10 ^ (-15 : Int) :=
    zpow_le_zpow_right₀ (by norm_num) (by omega)
  have hpart' : 3 * partBehind width ≤ 1 / 2 ^ 30 :=
    le_trans (mul_le_mul_of_nonneg_left hpart (by norm_num)) (by norm_num)
  have hlog := (hnear.mono hpart' hpos.le).abs_logb_sub_le hpos (by norm_num)
  rw [logb_pow] at hlog
  push_cast at hlog
  obtain ⟨hdown, hup⟩ := abs_le.mp hlog
  set r := x.power n width with hr
  have hvalue : 0 < |r.value| := by
    have hlow := (abs_le.mp hnear).1
    have hsmall : 3 * partBehind width < 1 := lt_of_le_of_lt hpart' (by norm_num)
    have hmul := mul_lt_mul_of_pos_right hsmall hpos
    linarith only [hlow, hmul]
  have hcoefficient : r.coefficient ≠ 0 := mt value_eq_zero_iff.mpr (abs_pos.mp hvalue)
  have hlimit : ((exponentLimit : Int) : ℝ) = 100000 := by norm_num [exponentLimit]
  by_cases hsize : |r.value| < 10 ^ exponentLimit
  · right
    have hscale : exponentLimit < r.scale := by
      by_contra hle
      exact h (isBounded_iff_size.mpr
        ⟨hsize, neg_limit_lt_scale hsize hcoefficient, not_lt.mp hle⟩)
    have hdigits : r.digits ≤ width + 1 := digits_power_le x n width
    have hmagnitude : r.magnitude ≤ width - exponentLimit := by
      rw [magnitude]
      omega
    have hbound := logb_le_of_lt_zpow hvalue r.abs_value_lt_magnitude
    have hcast : (r.magnitude : ℝ) ≤ width - 100000 := by
      rw [← hlimit]
      exact_mod_cast hmagnitude
    push_cast at hbound
    linarith only [hbound, hcast, hdown]
  · left
    have hbound := le_logb_of_zpow_le hvalue (not_lt.mp hsize)
    rw [hlimit] at hbound
    push_cast at hbound
    linarith only [hbound, hup]

/-- An estimate beyond the limit tells of a power that is hardly within it. -/
theorem powerRefused_of_limit_lt {q : ℚ} (hq : |(q : ℝ) - n * x.size| + 1 / 2 ^ 30 ≤ slack n)
    (h : exponentLimit < |q|) : PowerRefused x n precision := by
  have hdown := neg_abs_le ((q : ℝ) - n * x.size)
  have hup := le_abs_self ((q : ℝ) - n * x.size)
  have hlarge : ((100000 : Int) : ℝ) < |(q : ℝ)| := by
    rw [exponentLimit] at h
    exact_mod_cast h
  have hprecision : (0 : ℝ) ≤ precision := Nat.cast_nonneg precision
  rcases le_total 0 (q : ℝ) with hpos | hneg
  · rw [abs_of_nonneg hpos] at hlarge
    push_cast at hlarge
    apply PowerRefused.of_large hx
    linarith only [hlarge, hup, hq]
  · rw [abs_of_nonpos hneg] at hlarge
    push_cast at hlarge
    apply PowerRefused.of_small hx
    linarith only [hlarge, hdown, hq, hprecision]

end

theorem slack_lt {n : Nat} (hn : n < 2 ^ 63) : slack n < 73729 := by
  have hcast : (n : ℝ) < 2 ^ 63 := by exact_mod_cast hn
  rw [slack]
  linarith only [hcast]

/-- The working digits of a power, by its estimate. -/
theorem guardedDigits_le (q : ℚ) (precision : Nat) :
    (guardedDigits (⌈q⌉ + 1) precision : ℝ) ≤ max ((q : ℝ) + 2) 0 + precision + 16 := by
  have hceiling : ((⌈q⌉ : Int) : ℝ) < q + 1 := by exact_mod_cast Int.ceil_lt_add_one q
  have hwhole : (((⌈q⌉ + 1).toNat : Nat) : ℝ) ≤ max ((q : ℝ) + 2) 0 := by
    rcases le_total 0 (⌈q⌉ + 1) with hpos | hneg
    · have hcast : (((⌈q⌉ + 1).toNat : Nat) : ℝ) = ⌈q⌉ + 1 := by
        exact_mod_cast Int.toNat_of_nonneg hpos
      rw [hcast]
      exact le_max_of_le_left (by linarith only [hceiling])
    · rw [Int.toNat_of_nonpos hneg, Nat.cast_zero]
      exact le_max_right _ _
  rw [guardedDigits, guardedScale, guardDigits]
  push_cast
  linarith only [hwhole]

/-- A power of as many digits as its estimate asks for is given unless it is hardly within the
limit. -/
theorem powerRefused_of_not_isBounded {x : LongDecimal} (hx : x.coefficient ≠ 0) {q : ℚ}
    {n precision : Nat} (hq : |(q : ℝ) - n * x.size| + 1 / 2 ^ 30 ≤ slack n)
    (h : ¬ (x.power n (guardedDigits (⌈q⌉ + 1) precision)).isBounded = true) :
    PowerRefused x n precision := by
  have hwidth : 16 ≤ guardedDigits (⌈q⌉ + 1) precision := by
    rw [guardedDigits, guardedScale, guardDigits]
    omega
  have hnear := abs_nonneg ((q : ℝ) - n * x.size)
  rcases size_of_not_isBounded hx hwidth h with hlarge | hsmall
  · apply PowerRefused.of_large hx
    linarith only [hlarge, hq, hnear]
  · have hdigits := guardedDigits_le q precision
    rcases le_total ((q : ℝ) + 2) 0 with hnone | hsome
    · rw [max_eq_right hnone] at hdigits
      apply PowerRefused.of_small hx
      linarith only [hsmall, hdigits, hq, hnear]
    · rw [max_eq_left hsome] at hdigits
      have hup := le_abs_self ((q : ℝ) - n * x.size)
      apply PowerRefused.digits
      linarith only [hsmall, hdigits, hq, hup]

/-- A power by a natural exponent: the special cases come before the estimate. -/
theorem powWith_of_truncate (log : Float → Float) (x : LongDecimal) {e : LongDecimal} {n : Nat}
    (hn : e.truncate = n) (precision : Nat) :
    powWith log x e precision =
      if 2 ^ 63 ≤ n then .error .overflow
      else if n = 0 then .ok (ofInt 1)
      else if x.coefficient = 0 then .ok zero
      else if (x.powerSize log n).isNaN || Float.ofInt exponentLimit < (x.powerSize log n).abs then
        .error .overflow
      else
        let width := guardedDigits (Double.ceiling (x.powerSize log n) + 1) precision
        (x.power n width).orOverflow := by
  have hword : ((twoPow 63 : Nat) : Int) ≤ n ↔ 2 ^ 63 ≤ n := Int.ofNat_le
  unfold powWith
  rw [hn, if_neg (by omega)]
  simp only [hword, Int.natCast_eq_zero, Int.toNat_natCast]

/-- A power is an overflow for one of the reasons only. -/
theorem powerRefused_of_overflow {log : Float → Float} {x e : LongDecimal}
    (hlog : x.coefficient ≠ 0 → AccurateAt log x.leadingDouble) {n precision : Nat}
    (hn : e.truncate = n) (h : powWith log x e precision = .error .overflow) :
    PowerRefused x n precision := by
  rw [powWith_of_truncate log x hn] at h
  by_cases hword : 2 ^ 63 ≤ n
  · exact .exponent hword
  rw [if_neg hword] at h
  by_cases hzero : n = 0
  · rw [if_pos hzero] at h
    cases h
  rw [if_neg hzero] at h
  by_cases hx : x.coefficient = 0
  · rw [if_pos hx] at h
    cases h
  rw [if_neg hx] at h
  have hn' : n < 2 ^ 63 := not_le.mp hword
  have hslack := slack_pos n
  by_cases hfar : 100000 ≤ n * |x.size|
  -- The estimate is not looked at, since the power itself is beyond the limit.
  · rcases le_total 0 x.size with hpos | hneg
    · rw [abs_of_nonneg hpos] at hfar
      apply PowerRefused.of_large hx
      linarith only [hfar, hslack]
    · rw [abs_of_nonpos hneg] at hfar
      have hprecision : (0 : ℝ) ≤ precision := Nat.cast_nonneg precision
      apply PowerRefused.of_small hx
      linarith only [hfar, hslack, hprecision]
  · obtain ⟨hfinite, hnear⟩ :=
      (estimate_cases hx (hlog hx) (Nat.pos_of_ne_zero hzero) hn').resolve_left hfar
    have hsmall : |Double.value (x.powerSize log n)| < 2 ^ 200 := by
      have hexact : |(n : ℝ) * x.size| = n * |x.size| := by rw [abs_mul, Nat.abs_cast]
      have hsub := abs_sub_abs_le_abs_sub (Double.value (x.powerSize log n) : ℝ) (n * x.size)
      have hcast : |(Double.value (x.powerSize log n) : ℝ)| < 2 ^ 200 := by
        linarith only [hexact, hsub, hnear, hfar, slack_lt hn']
      exact_mod_cast hcast
    have hlimit := Double.ofInt_lt_abs_iff (n := exponentLimit) (by decide) hfinite hsmall
    split at h
    · next hguard =>
        rw [Double.isNaN_of_isFinite hfinite, Bool.false_or, decide_eq_true_eq] at hguard
        exact powerRefused_of_limit_lt hx hnear (hlimit.mp hguard)
    · have hbounded := orOverflow_eq_overflow_iff.mp h
      rw [Double.ceiling_eq] at hbounded
      exact powerRefused_of_not_isBounded hx hnear hbounded

theorem powWith_eq_ok {log : Float → Float} {x e : LongDecimal} {n precision : Nat}
    (hn : towardZero e.value = n) (h : powWith log x e precision ≠ .error .overflow) :
    ∃ r, powWith log x e precision = .ok r := by
  have htruncate : e.truncate = n := (truncate_eq_towardZero e).trans hn
  rcases powWith_cases log x e precision with ⟨hneg, -⟩ | ⟨-, hguarded⟩
  · omega
  · generalize powWith log x e precision = result at h hguarded
    cases hguarded with
    | bounded hr => exact ⟨_, rfl⟩
    | overflow => exact absurd rfl h

/-- The powers of zero are looked up before anything is estimated. -/
theorem powWith_of_zero {log : Float → Float} {x e : LongDecimal} (hx : x.coefficient = 0)
    {n precision : Nat} (hn : e.truncate = n) (hword : n < 2 ^ 63) :
    ∃ r, powWith log x e precision = .ok r := by
  rw [powWith_of_truncate log x hn, if_neg (not_le.mpr hword)]
  by_cases hzero : n = 0
  · rw [if_pos hzero]
    exact ⟨_, rfl⟩
  · rw [if_neg hzero, if_pos hx]
    exact ⟨_, rfl⟩

/-- One is not refused by any machine word unless the precision is very large. -/
theorem PowerRefused.exponent_of_abs_eq_one {x : LongDecimal} {n precision : Nat}
    (h : PowerRefused x n precision) (hx : |x.value| = 1) (hprecision : precision ≤ 26000) :
    2 ^ 63 ≤ n := by
  by_contra hword
  have hslack := slack_lt (not_le.mp hword)
  have hroom : (precision : ℝ) ≤ 26000 := by exact_mod_cast hprecision
  have hone : ((|x.value| ^ n : ℚ) : ℝ) = 1 := by rw [hx, one_pow, Rat.cast_one]
  cases h with
  | exponent h => exact hword h
  | large h =>
      rw [hone] at h
      have hpos : 0 < 100000 - slack n := by linarith only [hslack]
      exact absurd h (not_le.mpr (Real.one_lt_rpow (by norm_num) hpos))
  | small hzero h =>
      rw [hone] at h
      have hneg : precision + 16 + slack n - 100000 < 0 := by linarith only [hslack, hroom]
      exact absurd h (not_le.mpr (Real.rpow_lt_one_of_one_lt_of_neg (by norm_num) hneg))
  | digits h => linarith only [h, hslack, hroom]

end LongDecimal

/-- A unit of the largest scale for each factor does not double a power. -/
theorem pow_one_add_unit_le {n : Nat} (hn : n < 2 ^ 64) :
    (1 + 10 ^ (-28 : Int) : ℚ) ^ n ≤ 2 := by
  have hunit : (10 : ℚ) ^ (-28 : Int) = 1 / 10 ^ 28 := by norm_num
  have hcast : (n : ℚ) < 2 ^ 64 := by exact_mod_cast hn
  have hhalf : (1 : ℚ) / 2 ≤ (1 - 1 / 10 ^ 28) ^ n := by
    have hbernoulli := one_add_mul_le_pow (a := -(1 / 10 ^ 28 : ℚ)) (by norm_num) n
    rw [← sub_eq_add_neg] at hbernoulli
    linarith only [hbernoulli, hcast]
  have hproduct : (1 + 1 / 10 ^ 28 : ℚ) ^ n * (1 - 1 / 10 ^ 28) ^ n ≤ 1 := by
    rw [← mul_pow]
    exact pow_le_one₀ (by norm_num) (by norm_num)
  have hpos : (0 : ℚ) ≤ (1 + 1 / 10 ^ 28) ^ n := by positivity
  have hmul := mul_le_mul_of_nonneg_left hhalf hpos
  rw [hunit]
  linarith only [hmul, hproduct]

namespace Decimal96

/-- The reasons for which a power of ninety-six bits is refused. -/
inductive PowerRefused (x : Decimal96) (n : Nat) : Prop
  /-- The exponent is no machine word. -/
  | exponent (h : 2 ^ 64 ≤ n)
  /-- The whole part of a square is too large. -/
  | square (hn : n = 2) (h : 2 ^ 96 - 1 / 2 ≤ |x.value| ^ n)
  /-- The whole part of the power is too large once each factor is enlarged by what it may be
  rounded by. -/
  | short (hn : 2 < n) (hn' : n < 1024) (hx : 1 < |x.value|)
    (h : 2 ^ 96 - 1 / 2 ≤ (|x.value| * (1 + 10 ^ (-28 : Int))) ^ n)
  /-- In the same way, with a limit that is a hundredth lower. -/
  | long (hn : 1024 ≤ n) (hx : 1 < |x.value|)
    (h : 2 ^ 189 / 10 ^ 28 ≤ (|x.value| * (1 + 10 ^ (-28 : Int))) ^ n)

/-- A bound for bases of one at least is a bound for every base. -/
theorem base_of_le_pow {m limit : ℚ} {n : Nat} (hn : n < 2 ^ 64) (hlimit : 2 < limit)
    (h : limit ≤ (max 1 m * (1 + 10 ^ (-28 : Int))) ^ n) :
    1 < m ∧ limit ≤ (m * (1 + 10 ^ (-28 : Int))) ^ n := by
  rcases le_or_gt m 1 with hm | hm
  · have hgrowth := pow_one_add_unit_le hn
    rw [max_eq_left hm, one_mul] at h
    linarith only [h, hlimit, hgrowth]
  · rw [max_eq_right hm.le] at h
    exact ⟨hm, h⟩

/-- A power of a machine word is refused for one of the reasons only. -/
theorem power?_of_size (x : Decimal96) {n : Nat} (hn : n < 2 ^ 64) :
    Outcome (fun _ => True) (PowerRefused x n) (x.power? n) := by
  have hmax : (1 : ℚ) ≤ max 1 |x.value| := le_max_left _ _
  have hbase : |x.value| ≤ max 1 |x.value| := le_max_right _ _
  unfold power?
  by_cases hzero : n = 0
  · rw [if_pos hzero]
    exact .some trivial
  rw [if_neg hzero]
  split
  · exact .some trivial
  split
  · exact .some trivial
  by_cases hone : n = 1
  · rw [if_pos hone]
    exact .some trivial
  rw [if_neg hone]
  by_cases htwo : n = 2
  · rw [if_pos htwo]
    apply (mul?_of_size x x (le_max_left 1 (|x.value| * |x.value|)) (le_max_right _ _)).mono
    · exact fun _ _ => trivial
    · intro hlarge
      apply PowerRefused.square htwo
      rcases le_max_iff.mp hlarge with hsmall | hsquare
      · norm_num at hsmall
      · rwa [htwo, sq]
  rw [if_neg htwo]
  by_cases hshort : n < 1024
  · rw [if_pos hshort]
    apply (shortPower?_of_size hmax hbase (Nat.pos_of_ne_zero hzero)).mono
    · exact fun _ => id
    · intro hlarge
      obtain ⟨hx, h⟩ := base_of_le_pow hn (by norm_num) hlarge
      exact .short (by omega) hshort hx h
  · rw [if_neg hshort]
    apply (longPower?_of_size hmax hbase (by omega)).mono
    · exact fun _ => id
    · intro hlarge
      obtain ⟨hx, h⟩ := base_of_le_pow hn (by norm_num) hlarge
      exact .long (not_lt.mp hshort) hx h

/-- The exponent of a power is the integer toward zero. -/
theorem coefficient_truncate {e : Decimal96} (he : e.negative = false) {n : Nat}
    (hn : towardZero e.value = n) : e.truncate.negative = false ∧ e.truncate.coefficient = n := by
  have hsign : e.truncate.negative = false := he
  have hsigned := signed_truncate e
  have hwhole : e.truncate.signed = e.truncate.coefficient := by
    simp [signed, hsign]
  rw [hn, hwhole] at hsigned
  exact ⟨hsign, by exact_mod_cast hsigned⟩

theorem pow_of_not_negative (x : Decimal96) {e : Decimal96} (he : e.negative = false) {n : Nat}
    (hn : towardZero e.value = n) :
    x.pow e = if 2 ^ 64 ≤ n then .error .overflow else orOverflow (x.power? n) := by
  obtain ⟨hsign, hcoefficient⟩ := coefficient_truncate he hn
  rw [pow, hsign, hcoefficient]
  rfl

theorem powerRefused_of_overflow {x e : Decimal96} (he : e.negative = false) {n : Nat}
    (hn : towardZero e.value = n) (h : x.pow e = .error .overflow) : PowerRefused x n := by
  rw [pow_of_not_negative x he hn] at h
  by_cases hword : 2 ^ 64 ≤ n
  · exact .exponent hword
  · rw [if_neg hword] at h
    have houtcome := x.power?_of_size (not_le.mp hword)
    generalize x.power? n = r at h houtcome
    cases houtcome with
    | some _ => cases h
    | none hrefused => exact hrefused

theorem pow_eq_ok {x e : Decimal96} (he : e.negative = false) {n : Nat}
    (hn : towardZero e.value = n) (h : x.pow e ≠ .error .overflow) : ∃ r, x.pow e = .ok r := by
  rw [pow_of_not_negative x he hn] at h ⊢
  split at h
  · exact absurd rfl h
  · next hword =>
      rw [if_neg hword]
      cases hr : x.power? n with
      | none =>
          rw [hr] at h
          exact absurd rfl h
      | some r => exact ⟨r, rfl⟩

/-- A base of one at most is not refused by any machine word. -/
theorem PowerRefused.exponent_of_abs_le_one {x : Decimal96} {n : Nat} (h : PowerRefused x n)
    (hx : |x.value| ≤ 1) : 2 ^ 64 ≤ n := by
  cases h with
  | exponent h => exact h
  | square hn h =>
      have hone := pow_le_one₀ (n := n) (abs_nonneg x.value) hx
      linarith only [h, hone]
  | short hn hn' hlarge h => exact absurd hx (not_le.mpr hlarge)
  | long hn hlarge h => exact absurd hx (not_le.mpr hlarge)

end Decimal96

end DeskCalc
