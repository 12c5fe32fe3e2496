import DeskCalc.Proofs.PowerRefusal

/-!
# When a power is an overflow

In both number types an overflow has one of the reasons for which a power is refused. The limits
of these reasons are met: there are powers just below the exact limits that overflow.
-/

namespace DeskCalc

/-- What it means that powers of a number type overflow for a reason. The natural exponent `n` is
what the operand is truncated to, and `bound` is that of the machine word it has to fit. -/
structure OverflowHasReason {α : Type} (power : Except ArithmeticError α) (base : ℚ) (n bound : Nat)
    (one : α) (room refused : Prop) : Prop where
  /-- An exponent without a whole part gives one. -/
  zeroExponent : n = 0 → power = .ok one
  zeroBase : base = 0 → n < bound → ∃ r, power = .ok r
  unitBase : |base| = 1 → room → n < bound → ∃ r, power = .ok r
  overflow : power = .error .overflow → refused

/-- Powers overflow only for a machine word that is too short or for a size that is hardly below
the limit: with ninety-six bits, if the exponent has no minus sign, and with long decimals, if the
logarithm of the base is accurate. -/
theorem overflowHasReason (x e : Decimal96) (he : e.negative = false) {n : Nat}
    (hn : towardZero e.value = n) {log : Float → Float} (y f : LongDecimal)
    (hlog : y.coefficient ≠ 0 → AccurateAt log y.leadingDouble) {m : Nat}
    (hm : towardZero f.value = m) (precision : Nat) :
    OverflowHasReason (x.pow e) x.value n (2 ^ 64) Decimal96.one True (x.PowerRefused n) ∧
      OverflowHasReason (y.powWith log f precision) y.value m (2 ^ 63) (.ofInt 1)
        (precision ≤ 26000) (y.PowerRefused m precision) := by
  have htruncate : f.truncate = m := (LongDecimal.truncate_eq_towardZero f).trans hm
  constructor
  · have hoverflow : x.pow e = .error .overflow → x.PowerRefused n :=
      Decimal96.powerRefused_of_overflow he hn
    have hok (hx : |x.value| ≤ 1) (hword : n < 2 ^ 64) : ∃ r, x.pow e = .ok r := by
      apply Decimal96.pow_eq_ok he hn
      exact fun h => absurd ((hoverflow h).exponent_of_abs_le_one hx) (not_le.mpr hword)
    constructor
    · rintro rfl
      rw [Decimal96.pow_of_not_negative x he hn]
      rfl
    · intro hx
      apply hok
      rw [hx, abs_zero]
      exact zero_le_one
    · exact fun hx _ => hok hx.le
    · exact hoverflow
  · have hoverflow : y.powWith log f precision = .error .overflow →
        y.PowerRefused m precision := LongDecimal.powerRefused_of_overflow hlog htruncate
    constructor
    · rintro rfl
      rw [LongDecimal.powWith_of_truncate log y htruncate]
      rfl
    · intro hy hword
      exact LongDecimal.powWith_of_zero (LongDecimal.value_eq_zero_iff.mp hy) htruncate hword
    · intro hy hroom hword
      apply LongDecimal.powWith_eq_ok hm
      exact fun h => absurd ((hoverflow h).exponent_of_abs_eq_one hy hroom) (not_le.mpr hword)
    · exact hoverflow

/-- Sixteen is the logarithm of the leading digits of a power of ten. -/
theorem LongDecimal.accurateAt_sixteen {x : LongDecimal}
    (h : x.leading.coefficient.natAbs = 10 ^ 16) :
    AccurateAt (fun _ => Float.ofNat 16) x.leadingDouble := by
  have hunpack : (Float.ofNat (10 ^ 16)).toModel.unpack =
      .finite .positive 5000000000000000 1 (by norm_num) := rfl
  have hdouble : Double.value x.leadingDouble = 10 ^ 16 := by
    rw [LongDecimal.leadingDouble, h, Double.value, hunpack]
    norm_num [Double.number, Float.Model.UnpackedFloat.Sign.apply]
  have hlog : Real.logb 10 ((10 : ℝ) ^ 16) = 16 := by
    rw [Real.logb_pow, Real.logb_self_eq_one (by norm_num)]
    norm_num
  obtain ⟨hfinite, hvalue⟩ := Double.value_ofNat (n := 16) (by norm_num)
  constructor
  · exact hfinite
  · rw [hvalue, hdouble]
    push_cast
    rw [hlog, sub_self, abs_zero]
    positivity

/-- Powers of ten beyond either limit. -/
theorem overflowHasReason_tens :
    (Decimal96.pow ⟨false, 10, 0, by decide, by decide⟩ ⟨false, 30, 0, by decide, by decide⟩ =
        .error .overflow ∧
      Decimal96.PowerRefused ⟨false, 10, 0, by decide, by decide⟩ 30) ∧
      LongDecimal.powWith (fun _ => Float.ofNat 16) ⟨10, 0⟩ ⟨200000, 0⟩ 4 = .error .overflow ∧
        LongDecimal.PowerRefused ⟨10, 0⟩ 200000 4 := by
  have hnarrow : Decimal96.pow ⟨false, 10, 0, by decide, by decide⟩
      ⟨false, 30, 0, by decide, by decide⟩ = .error .overflow := by decide +kernel
  have hlong : LongDecimal.powWith (fun _ => Float.ofNat 16) ⟨10, 0⟩ ⟨200000, 0⟩ 4 =
      .error .overflow := by decide +kernel
  obtain ⟨hreason, hreason'⟩ := overflowHasReason
    ⟨false, 10, 0, by decide, by decide⟩ ⟨false, 30, 0, by decide, by decide⟩ rfl
    ((Decimal96.signed_truncate _).symm.trans rfl) (n := 30)
    ⟨10, 0⟩ ⟨200000, 0⟩ (fun _ => LongDecimal.accurateAt_sixteen rfl)
    ((LongDecimal.truncate_eq_towardZero _).symm.trans rfl) (m := 200000) 4
  exact ⟨⟨hnarrow, hreason.overflow hnarrow⟩, hlong, hreason'.overflow hlong⟩

/-- The logarithm of a number that is hardly above one. -/
theorem logb_one_add_bounds {t : ℝ} (ht : 0 < t) :
    t / (2.8 * (1 + t)) ≤ Real.logb 10 (1 + t) ∧ Real.logb 10 (1 + t) ≤ t / 2.07 := by
  obtain ⟨hlow, hhigh⟩ := log_ten_bounds
  have hpos : 0 < Real.log 10 := lt_of_lt_of_le (by norm_num) hlow
  have hup := Real.log_le_sub_one_of_pos (show 0 < 1 + t by linarith only [ht])
  have hdown := Real.one_sub_inv_le_log_of_pos (show 0 < 1 + t by linarith only [ht])
  have hpart : 1 - (1 + t)⁻¹ = t / (1 + t) := by
    field_simp
    ring
  constructor
  · calc
      t / (2.8 * (1 + t)) = t / (1 + t) / 2.8 := by rw [div_div, mul_comm]
      _ ≤ Real.log (1 + t) / 2.8 := by
        apply div_le_div_of_nonneg_right _ (by norm_num)
        rw [← hpart]
        exact hdown
      _ ≤ Real.log (1 + t) / Real.log 10 := by
        apply div_le_div_of_nonneg_left _ hpos hhigh
        exact Real.log_nonneg (by linarith only [ht])
  · calc
      Real.log (1 + t) / Real.log 10 ≤ t / Real.log 10 := by
        apply div_le_div_of_nonneg_right _ hpos.le
        linarith only [hup]
      _ ≤ t / 2.07 := div_le_div_of_nonneg_left ht.le (by norm_num) hlow

/-- The logarithm of the leading digits of such a number. -/
theorem logb_sixteen_places {t : ℝ} (ht : 0 < t) :
    Real.logb 10 (10 ^ 16 * (1 + t)) = 16 + Real.logb 10 (1 + t) := by
  rw [Real.logb_mul (by norm_num) (by positivity), Real.logb_pow,
    Real.logb_self_eq_one (by norm_num)]
  norm_num

/-- A power of a number hardly above one, bounded without being computed. -/
theorem pow_one_add_lt {t : ℚ} (ht : 0 < t) {n k : Nat} (h : n * t < 2.07 * k) :
    (1 + t) ^ n < 10 ^ k := by
  have ht' : (0 : ℝ) < t := Rat.cast_pos.mpr ht
  have hbase : (0 : ℝ) < 1 + t := by linarith only [ht']
  have hsize : (n : ℝ) * t < 2.07 * k := by
    have hcast := (Rat.cast_lt (K := ℝ)).mpr h
    push_cast at hcast
    exact hcast
  have hlog : Real.logb 10 ((1 + t : ℝ) ^ n) < k := by
    have hup := mul_le_mul_of_nonneg_left (logb_one_add_bounds ht').2 (Nat.cast_nonneg n)
    rw [← mul_div_assoc, le_div_iff₀ (by norm_num)] at hup
    rw [Real.logb_pow]
    linarith only [hup, hsize]
  have hpow := (Real.logb_lt_iff_lt_rpow (by norm_num) (pow_pos hbase n)).mp hlog
  rw [Real.rpow_natCast] at hpow
  exact_mod_cast hpow

/-- A double that is above the logarithm of the leading digits of `1 + 29 / 10 ^ 15` by less than
two units of its last place. -/
theorem LongDecimal.accurateAt_above_one :
    AccurateAt (fun _ => Float.ofBits 0x4030000000000004)
      (leadingDouble ⟨1000000000000029, 15⟩) := by
  have hunpack : (Float.ofNat 10000000000000290).toModel.unpack =
      .finite .positive 5000000000000145 1 (by norm_num) := rfl
  have hresult : (Float.ofBits 0x4030000000000004).toModel.unpack =
      .finite .positive 4503599627370500 (-48) (by norm_num) := rfl
  have hdouble : Double.value (leadingDouble ⟨1000000000000029, 15⟩) = 10000000000000290 := by
    change Double.number (Float.ofNat 10000000000000290).toModel.unpack = _
    rw [hunpack]
    norm_num [Double.number, Float.Model.UnpackedFloat.Sign.apply]
  have hvalue : Double.value (Float.ofBits 0x4030000000000004) = 16 + 1 / 2 ^ 46 := by
    rw [Double.value, hresult]
    norm_num [Double.number, Float.Model.UnpackedFloat.Sign.apply]
  have hlog : Real.logb 10 10000000000000290 = 16 + Real.logb 10 (1 + 29 / 10 ^ 15) := by
    rw [← logb_sixteen_places (by norm_num)]
    norm_num
  obtain ⟨hlow, hhigh⟩ := logb_one_add_bounds (t := 29 / 10 ^ 15) (by norm_num)
  constructor
  · rfl
  · rw [hvalue, hdouble]
    push_cast
    rw [hlog, abs_le]
    constructor
    · linarith only [hhigh]
    · have hroom : (71 : ℝ) / 10 ^ 16 ≤ 29 / 10 ^ 15 / (2.8 * (1 + 29 / 10 ^ 15)) := by norm_num
      linarith only [hlow, hroom]

theorem LongDecimal.pow_above_one_lt :
    value ⟨1000000000000029, 15⟩ ^ 7100000000000000000 < 10 ^ 100000 := by
  have hvalue : value ⟨1000000000000029, 15⟩ = 1 + 29 / 10 ^ 15 := by
    norm_num [value]
  rw [hvalue]
  exact pow_one_add_lt (by norm_num) (by norm_num)

/-- Powers within the limits that overflow: those of one by an exponent that is no machine word, a
short and a long power whose factors are rounded, a small number whose digits have no scale, and a
power whose estimate is too large. -/
theorem pow_overflow_within_limits :
    (Decimal96.pow ⟨false, 1, 0, by decide, by decide⟩ ⟨false, 2 ^ 64, 0, by decide, by decide⟩ =
        .error .overflow ∧
      LongDecimal.pow ⟨1, 0⟩ ⟨2 ^ 63, 0⟩ 4 = .error .overflow) ∧
    (Decimal96.value ⟨false, 60224876314468548964443852467, 23, by decide, by decide⟩ ^ 5 <
        2 ^ 96 - 1 / 2 ∧
      Decimal96.pow ⟨false, 60224876314468548964443852467, 23, by decide, by decide⟩
        ⟨false, 5, 0, by decide, by decide⟩ = .error .overflow) ∧
    (Decimal96.value ⟨false, 10671305, 7, by decide, by decide⟩ ^ 1024 < 2 ^ 96 - 1 / 2 ∧
      Decimal96.pow ⟨false, 10671305, 7, by decide, by decide⟩
        ⟨false, 1024, 0, by decide, by decide⟩ = .error .overflow) ∧
    ((10 : ℚ) ^ (-100000 : Int) ≤ LongDecimal.value ⟨1, 99990⟩ ^ 1 ∧
      AccurateAt (fun _ => Float.ofNat 16) (LongDecimal.leadingDouble ⟨1, 99990⟩) ∧
      LongDecimal.powWith (fun _ => Float.ofNat 16) ⟨1, 99990⟩ ⟨1, 0⟩ 4 = .error .overflow) ∧
    LongDecimal.value ⟨1000000000000029, 15⟩ ^ 7100000000000000000 < 10 ^ 100000 ∧
      AccurateAt (fun _ => Float.ofBits 0x4030000000000004)
        (LongDecimal.leadingDouble ⟨1000000000000029, 15⟩) ∧
      LongDecimal.powWith (fun _ => Float.ofBits 0x4030000000000004) ⟨1000000000000029, 15⟩
        ⟨7100000000000000000, 0⟩ 4 = .error .overflow := by
  have hshort : Decimal96.value
      ⟨false, 60224876314468548964443852467, 23, by decide, by decide⟩ ^ 5 < 2 ^ 96 - 1 / 2 := by
    rw [Decimal96.value_eq]
    norm_num [Decimal96.signed]
  have hlong : Decimal96.value ⟨false, 10671305, 7, by decide, by decide⟩ ^ 1024 <
      2 ^ 96 - 1 / 2 := by
    rw [Decimal96.value_eq, pow_mul _ 32 32]
    norm_num [Decimal96.signed]
  have hsmall : (10 : ℚ) ^ (-100000 : Int) ≤ LongDecimal.value ⟨1, 99990⟩ ^ 1 := by
    rw [LongDecimal.value, pow_one, Int.cast_one, one_mul]
    exact zpow_le_zpow_right₀ (by norm_num) (by norm_num)
  exact ⟨⟨by decide +kernel, rfl⟩, ⟨hshort, by decide +kernel⟩, ⟨hlong, by decide +kernel⟩,
    ⟨hsmall, LongDecimal.accurateAt_sixteen rfl, by decide +kernel⟩,
    LongDecimal.pow_above_one_lt, LongDecimal.accurateAt_above_one, by decide +kernel⟩

end DeskCalc
