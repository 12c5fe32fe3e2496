import DeskCalc.Proofs.DoubleConversion
import DeskCalc.Proofs.RoundedPower
import Mathlib.Analysis.Complex.ExponentialBounds
import Mathlib.Analysis.SpecialFunctions.Log.Base

/-!
# The estimate of the size of a power

The decimal logarithm of a power is estimated in doubles, from seventeen digits of the base. The
logarithm of the platform is trusted to two units of its last place; the other errors come from
the digits left out and from four roundings. Together they stay below the slack, which grows with
the exponent.
-/

namespace DeskCalc

theorem log_ten_bounds : 2.07 ≤ Real.log 10 ∧ Real.log 10 ≤ 2.8 := by
  have hlow : Real.log 8 ≤ Real.log 10 := Real.log_le_log (by norm_num) (by norm_num)
  have hhigh : Real.log 10 ≤ Real.log 16 := Real.log_le_log (by norm_num) (by norm_num)
  have height : Real.log 8 = 3 * Real.log 2 := by
    rw [← Real.log_rpow (by norm_num)]
    norm_num
  have hsixteen : Real.log 16 = 4 * Real.log 2 := by
    rw [← Real.log_rpow (by norm_num)]
    norm_num
  have htwo := Real.log_two_gt_d9
  have htwo' := Real.log_two_lt_d9
  constructor
  · linarith only [hlow, height, htwo]
  · linarith only [hhigh, hsixteen, htwo']

/-- Numbers that differ by a small part have logarithms that differ by no more. -/
theorem abs_logb_sub_le {a b t : ℝ} (hb : 0 < b) (ht : t ≤ 1 / 4) (h : |a - b| ≤ t * b) :
    |Real.logb 10 a - Real.logb 10 b| ≤ t := by
  obtain ⟨hlow, hhigh⟩ := abs_le.mp h
  have ht0 : 0 ≤ t := nonneg_of_mul_nonneg_left (le_trans (abs_nonneg _) h) hb
  have hfar : 3 / 4 * b ≤ a := by
    have hmul := mul_le_mul_of_nonneg_right ht hb.le
    linarith only [hlow, hmul]
  have ha : 0 < a := lt_of_lt_of_le (by positivity) hfar
  have hup : Real.log (a / b) ≤ t := by
    have hratio : a / b ≤ 1 + t := by
      rw [div_le_iff₀ hb]
      linarith only [hhigh]
    have hlog := Real.log_le_sub_one_of_pos (div_pos ha hb)
    linarith only [hratio, hlog]
  have hdown : -(2 * t) ≤ Real.log (a / b) := by
    have hratio : b / a ≤ 1 + 2 * t := by
      rw [div_le_iff₀ ha]
      have hmul := mul_le_mul_of_nonneg_left hfar ht0
      linarith only [hlow, hmul, mul_nonneg ht0 hb.le]
    have hlog := Real.log_le_sub_one_of_pos (div_pos hb ha)
    rw [← inv_div, Real.log_inv]
    linarith only [hratio, hlog]
  have hten : 2 ≤ Real.log 10 := le_trans (by norm_num) log_ten_bounds.1
  have hsplit : Real.logb 10 a - Real.logb 10 b = Real.log (a / b) / Real.log 10 := by
    rw [← Real.logb_div ha.ne' hb.ne', Real.logb]
  have hpos : 0 < Real.log 10 := lt_of_lt_of_le (by norm_num) hten
  rw [hsplit, abs_div, abs_of_pos hpos, div_le_iff₀ hpos]
  have hroom := mul_le_mul_of_nonneg_left hten ht0
  rw [abs_le]
  constructor
  · linarith only [hdown, hroom]
  · linarith only [hup, hroom, ht0]

theorem Near.abs_logb_sub_le {t a b : ℚ} (h : Near t a b) (hb : 0 < b) (ht : t ≤ 1 / 4) :
    |Real.logb 10 a - Real.logb 10 b| ≤ t := by
  have ht' : (t : ℝ) ≤ ((1 / 4 : ℚ) : ℝ) := Rat.cast_le.mpr ht
  apply DeskCalc.abs_logb_sub_le (Rat.cast_pos.mpr hb)
  · norm_num at ht' ⊢
    exact ht'
  · exact_mod_cast h

/-- Factors with errors have a product whose error is bounded by theirs. -/
theorem abs_mul_sub_mul_le (a b a' b' : ℝ) :
    |a * b - a' * b'| ≤ |a - a'| * |b| + |a'| * |b - b'| := by
  calc
    |a * b - a' * b'| = |(a - a') * b + a' * (b - b')| := by
      congr 1
      ring
    _ ≤ |(a - a') * b| + |a' * (b - b')| := abs_add_le _ _
    _ = |a - a'| * |b| + |a'| * |b - b'| := by rw [abs_mul, abs_mul]

/-- Four roundings after a logarithm that is off by `69 / 2 ^ 53`: those of the difference, of the
exponent and of the product, and what is below the smallest double in each. -/
theorem abs_estimate_sub_le {l e d m p n ε : ℝ} (hε : ε ≤ 1 / 2 ^ 100) (hn : 1 ≤ n)
    (he : |e - l| ≤ 69 / 2 ^ 53) (hd : |d - e| ≤ 1 / 2 ^ 52 * |e| + ε)
    (hm : |m - n| ≤ 1 / 2 ^ 52 * n + ε) (hp : |p - d * m| ≤ 1 / 2 ^ 52 * |d * m| + ε) :
    |p - n * l| ≤ 9 * n / 2 ^ 50 + 1 / 2 ^ 50 * (n * |l|) := by
  have hl : 0 ≤ |l| := abs_nonneg l
  have hsize : |e| ≤ |l| + 69 / 2 ^ 53 := by
    have hsub := abs_sub_abs_le_abs_sub e l
    linarith only [hsub, he]
  have hfirst : |d - l| ≤ 1 / 2 ^ 52 * |l| + 70 / 2 ^ 53 := by
    have hsub := abs_sub_le d e l
    linarith only [hsub, hd, he, hsize, hε]
  have hsecond : |m - n| ≤ 3 / 2 ^ 53 * n := by linarith only [hm, hε, hn]
  have hfactor : |m| ≤ (1 + 3 / 2 ^ 53) * n := by
    have hsub := abs_sub_abs_le_abs_sub m n
    rw [abs_of_nonneg (by linarith only [hn] : (0 : ℝ) ≤ n)] at hsub
    linarith only [hsub, hsecond]
  have hproduct : |d * m - l * n| ≤
      (1 / 2 ^ 52 * |l| + 70 / 2 ^ 53) * ((1 + 3 / 2 ^ 53) * n) + |l| * (3 / 2 ^ 53 * n) := by
    apply le_trans (abs_mul_sub_mul_le d m l n) (add_le_add _ _)
    · exact mul_le_mul hfirst hfactor (abs_nonneg m) (by positivity)
    · exact mul_le_mul_of_nonneg_left hsecond hl
  have hpos : 0 ≤ n := le_trans zero_le_one hn
  have hexact : |l * n| = |l| * n := by rw [abs_mul, abs_of_nonneg hpos]
  have hlast : |d * m| ≤ |d * m - l * n| + |l| * n := by
    have hsub := abs_sub_abs_le_abs_sub (d * m) (l * n)
    linarith only [hsub, hexact]
  have hspread :
      (1 / 2 ^ 52 * |l| + 70 / 2 ^ 53) * ((1 + 3 / 2 ^ 53) * n) + |l| * (3 / 2 ^ 53 * n) =
        (5 / 2 ^ 53 + 3 / 2 ^ 105) * (|l| * n) + (70 / 2 ^ 53 + 210 / 2 ^ 106) * n := by ring
  have hsum := abs_sub_le p (d * m) (l * n)
  have hsize' : 0 ≤ |l| * n := mul_nonneg hl hpos
  rw [hspread] at hproduct
  rw [mul_comm n l, mul_comm n |l|]
  linarith only [hsum, hp, hlast, hproduct, hsize', hn, hε]

/-- Whether `log` gives the decimal logarithm of a double up to two units of its last place. -/
structure AccurateAt (log : Float → Float) (z : Float) : Prop where
  finite : (log z).isFinite = true
  near : |(Double.value (log z) : ℝ) - Real.logb 10 (Double.value z)| ≤ 1 / 2 ^ 47

/-- What a double approximates is near to it but for numbers that are too small to matter. -/
theorem Double.Approximates.abs_sub_le {x : Float} {q : ℚ} (h : Double.Approximates x q) :
    |(Double.value x : ℝ) - q| ≤ 1 / 2 ^ 52 * |(q : ℝ)| + 1 / 2 ^ 100 := by
  have hleast : (2 : ℚ) ^ (-1074 : Int) ≤ 2 ^ (-100 : Int) :=
    zpow_le_zpow_right₀ (by norm_num) (by norm_num)
  have hunit : (2 : ℚ) ^ (-52 : Int) = 1 / 2 ^ 52 := by norm_num
  have hround : (2 : ℚ) ^ (-100 : Int) = 1 / 2 ^ 100 := by norm_num
  have hnear := le_trans h.near (add_le_add_right hleast _)
  rw [hunit, hround] at hnear
  have hcast := (Rat.cast_le (K := ℝ)).mpr hnear
  push_cast at hcast
  exact hcast

theorem Double.Approximates.abs_value_le {x : Float} {q : ℚ} (h : Double.Approximates x q) :
    |Double.value x| ≤ 2 * |q| + 1 := by
  have hleast : (2 : ℚ) ^ (-1074 : Int) ≤ 1 :=
    zpow_le_one_of_nonpos₀ (by norm_num) (by norm_num)
  have hpart : (2 : ℚ) ^ (-52 : Int) * |q| ≤ |q| :=
    mul_le_of_le_one_left (abs_nonneg q) (zpow_le_one_of_nonpos₀ (by norm_num) (by norm_num))
  have hnear := le_trans h.near (add_le_add hpart hleast)
  have hsub := abs_sub_abs_le_abs_sub (Double.value x) q
  linarith only [hnear, hsub]

namespace LongDecimal

/-- The double that the logarithm of a number is taken of. -/
def leadingDouble (x : LongDecimal) : Float := Float.ofNat x.leading.coefficient.natAbs

/-- The decimal logarithm of the magnitude of a number. -/
noncomputable def size (x : LongDecimal) : ℝ := Real.logb 10 (|x.value| : ℚ)

/-- How far the estimate for the exponent `n` is off at most, with some room. -/
noncomputable def slack (n : Nat) : ℝ := (9 * n + 2 ^ 21) / 2 ^ 50

theorem abs_value_pos {x : LongDecimal} (hx : x.coefficient ≠ 0) : 0 < |x.value| := by
  rw [abs_pos]
  exact mt value_eq_zero_iff.mp hx

theorem near_leading (x : LongDecimal) : Near (10 ^ (-16 : Int)) |x.leading.value| |x.value| :=
  near_withDigits _ x (by norm_num)

/-- The leading digits of a number other than zero. -/
theorem leading_coefficient {x : LongDecimal} (hx : x.coefficient ≠ 0) :
    0 < x.leading.coefficient.natAbs ∧ x.leading.coefficient.natAbs < 10 ^ 18 := by
  constructor
  · apply Nat.pos_of_ne_zero
    intro hzero
    have hlost : x.leading.value = 0 := value_eq_zero_iff.mpr (Int.natAbs_eq_zero.mp hzero)
    have hnear := x.near_leading
    have hpos := abs_value_pos hx
    rw [Near, hlost, abs_zero, zero_sub, abs_neg, abs_of_pos hpos] at hnear
    norm_num at hnear
    linarith only [hnear, hpos]
  · have hdigits : x.leading.digits ≤ 18 := digits_withDigits_le _ x 17
    exact lt_of_lt_of_le (Digits.lt_tenPow_count _) (Nat.pow_le_pow_right (by norm_num) hdigits)

/-- The logarithm of a number by its digits and their scale. -/
theorem size_eq {x : LongDecimal} (hx : x.coefficient ≠ 0) :
    x.size = Real.logb 10 x.coefficient.natAbs - x.scale := by
  have hc : (x.coefficient.natAbs : ℝ) ≠ 0 :=
    Nat.cast_ne_zero.mpr (Int.natAbs_ne_zero.mpr hx)
  have hvalue : ((|x.value| : ℚ) : ℝ) = x.coefficient.natAbs * (10 : ℝ) ^ (-x.scale) := by
    rw [abs_value_eq_natAbs, Rat.cast_mul, Rat.cast_zpow, Rat.cast_natCast, Rat.cast_ofNat]
  have hpow : Real.logb 10 ((10 : ℝ) ^ (-x.scale)) = -x.scale := by
    rw [← Real.rpow_intCast, Real.logb_rpow (by norm_num) (by norm_num)]
    push_cast
    rfl
  rw [size, hvalue, Real.logb_mul hc (zpow_ne_zero _ (by norm_num)), hpow, ← sub_eq_add_neg]

/-- The double of the leading digits is near to them. -/
theorem near_leadingDouble {x : LongDecimal} (hx : x.coefficient ≠ 0) :
    Near (1 / 2 ^ 51) (Double.value x.leadingDouble) x.leading.coefficient.natAbs := by
  obtain ⟨hpos, hlt⟩ := leading_coefficient hx
  have happrox := Double.approximates_ofNat (lt_trans hlt (by norm_num))
  have hunit : (2 : ℚ) ^ (-52 : Int) = 1 / 2 ^ 52 := by norm_num
  have hleast : (2 : ℚ) ^ (-1074 : Int) ≤ 2 ^ (-52 : Int) :=
    zpow_le_zpow_right₀ (by norm_num) (by norm_num)
  have hone : (1 : ℚ) ≤ x.leading.coefficient.natAbs := by exact_mod_cast hpos
  have hnear := le_trans happrox.near (add_le_add_right hleast _)
  rw [hunit, Nat.abs_cast] at hnear
  apply le_trans hnear
  linarith only [hone]

/-- The logarithm of the double is that of the number at its scale, nearly. -/
theorem abs_logb_leadingDouble_sub_le {x : LongDecimal} (hx : x.coefficient ≠ 0) :
    |Real.logb 10 (Double.value x.leadingDouble) - x.leading.scale - x.size| ≤ 5 / 2 ^ 53 := by
  obtain ⟨hpos, -⟩ := leading_coefficient hx
  have hlead : x.leading.coefficient ≠ 0 := Int.natAbs_ne_zero.mp hpos.ne'
  have hdouble := (near_leadingDouble hx).abs_logb_sub_le (Nat.cast_pos.mpr hpos) (by norm_num)
  have hdigits := x.near_leading.abs_logb_sub_le (abs_value_pos hx) (by norm_num)
  have hsize : Real.logb 10 (|x.leading.value| : ℚ) = _ := size_eq hlead
  have hcut : ((10 ^ (-16 : Int) : ℚ) : ℝ) ≤ 1 / 2 ^ 53 := by norm_num
  have hsum := abs_sub_le (Real.logb 10 (Double.value x.leadingDouble) - x.leading.scale)
    (Real.logb 10 x.leading.coefficient.natAbs - x.leading.scale) x.size
  rw [hsize] at hdigits
  rw [sub_sub_sub_cancel_right] at hsum
  rw [Rat.cast_natCast] at hdouble
  push_cast at hdouble
  have hrest : |_ - x.size| ≤ _ := le_trans hdigits hcut
  linarith only [hdouble, hrest, hsum]

/-- The logarithm of a double of eighteen digits. -/
theorem abs_logb_leadingDouble_le {x : LongDecimal} (hx : x.coefficient ≠ 0) :
    |Real.logb 10 (Double.value x.leadingDouble)| ≤ 19 := by
  obtain ⟨hpos, hlt⟩ := leading_coefficient hx
  have hdouble := (near_leadingDouble hx).abs_logb_sub_le (Nat.cast_pos.mpr hpos) (by norm_num)
  have hone : (1 : ℝ) ≤ x.leading.coefficient.natAbs := by exact_mod_cast hpos
  have hlow : 0 ≤ Real.logb 10 x.leading.coefficient.natAbs :=
    Real.logb_nonneg (by norm_num) hone
  have hhigh : Real.logb 10 x.leading.coefficient.natAbs ≤ 18 := by
    rw [Real.logb_le_iff_le_rpow (by norm_num) (by linarith only [hone])]
    have hle : (x.leading.coefficient.natAbs : ℝ) ≤ 10 ^ 18 := by exact_mod_cast hlt.le
    exact_mod_cast hle
  rw [Rat.cast_natCast] at hdouble
  push_cast at hdouble
  obtain ⟨hdown, hup⟩ := abs_le.mp hdouble
  rw [abs_le]
  constructor
  · linarith only [hdown, hlow]
  · linarith only [hup, hhigh]

theorem abs_estimate_sub_size_le {log : Float → Float} {x : LongDecimal} (hx : x.coefficient ≠ 0)
    (hlog : AccurateAt log x.leadingDouble) (hscale : x.leading.scale.natAbs < 10 ^ 6) {n : Nat}
    (hn : 0 < n) (hn' : n < 2 ^ 63) :
    (x.powerSize log n).isFinite = true ∧
      |(Double.value (x.powerSize log n) : ℝ) - n * x.size| ≤
        9 * n / 2 ^ 50 + 1 / 2 ^ 50 * (n * |x.size|) := by
  set z := log x.leadingDouble with hz
  set s := x.leading.scale with hs
  have hlogb := abs_logb_leadingDouble_le hx
  have hlead := abs_logb_leadingDouble_sub_le hx
  obtain ⟨hfinite, hvalue⟩ := Double.value_ofInt (lt_trans hscale (by norm_num))
  -- The difference of the logarithm and the scale, before it is rounded.
  have hexact : |((Double.value z - s : ℚ) : ℝ) - x.size| ≤ 69 / 2 ^ 53 := by
    have hsum := abs_add_le (Double.value z - Real.logb 10 (Double.value x.leadingDouble) : ℝ)
      (Real.logb 10 (Double.value x.leadingDouble) - s - x.size)
    have hnear := hlog.near
    have hsplit : ((Double.value z - s : ℚ) : ℝ) - x.size =
        (Double.value z - Real.logb 10 (Double.value x.leadingDouble) : ℝ) +
          (Real.logb 10 (Double.value x.leadingDouble) - s - x.size) := by
      push_cast
      ring
    rw [hsplit]
    linarith only [hsum, hnear, hlead]
  have hsmall : |(Double.value z - s : ℚ)| < 10 ^ 7 := by
    have hlogarithm : |(Double.value z : ℝ)| ≤ 20 := by
      have hsub := abs_sub_abs_le_abs_sub (Double.value z : ℝ)
        (Real.logb 10 (Double.value x.leadingDouble))
      have hnear := hlog.near
      linarith only [hsub, hnear, hlogb]
    have hz' : |Double.value z| ≤ 20 := by exact_mod_cast hlogarithm
    have hs' : |(s : ℚ)| < 10 ^ 6 := by
      rw [← Int.cast_abs, Int.abs_eq_natAbs]
      exact_mod_cast hscale
    have hsum := abs_sub (Double.value z) s
    linarith only [hsum, hz', hs']
  have hdifference : Double.Approximates (z - Float.ofInt s) (Double.value z - s) := by
    have hsub := Double.approximates_sub hlog.finite hfinite
    rw [hvalue] at hsub
    exact hsub (lt_trans hsmall (by norm_num))
  have hexponent : Double.Approximates (Float.ofInt n) n :=
    Double.approximates_ofNat (lt_trans hn' (by norm_num))
  have hproduct : Double.Approximates (x.powerSize log n)
      (Double.value (z - Float.ofInt s) * Double.value (Float.ofInt n)) := by
    apply Double.approximates_mul hdifference.finite hexponent.finite
    have hleft : |Double.value (z - Float.ofInt s)| ≤ 2 ^ 26 := by
      have hle := hdifference.abs_value_le
      linarith only [hle, hsmall]
    have hright : |Double.value (Float.ofInt n)| ≤ 2 ^ 65 := by
      have hle := hexponent.abs_value_le
      have hcast : (n : ℚ) < 2 ^ 63 := by exact_mod_cast hn'
      rw [Nat.abs_cast] at hle
      linarith only [hle, hcast]
    rw [abs_mul]
    apply lt_of_le_of_lt (mul_le_mul hleft hright (abs_nonneg _) (by norm_num))
    norm_num
  refine ⟨hproduct.finite, ?_⟩
  have hn1 : (1 : ℝ) ≤ n := by exact_mod_cast hn
  have hd := hdifference.abs_sub_le
  have hm := hexponent.abs_sub_le
  have hp := hproduct.abs_sub_le
  rw [Rat.cast_natCast, Nat.abs_cast] at hm
  rw [Rat.cast_mul] at hp
  exact abs_estimate_sub_le le_rfl hn1 hexact hd hm hp

/-- The estimate is off by less than the slack unless the power is out of range. -/
theorem estimate_cases {log : Float → Float} {x : LongDecimal} (hx : x.coefficient ≠ 0)
    (hlog : AccurateAt log x.leadingDouble) {n : Nat} (hn : 0 < n) (hn' : n < 2 ^ 63) :
    100000 ≤ n * |x.size| ∨
      (x.powerSize log n).isFinite = true ∧
        |(Double.value (x.powerSize log n) : ℝ) - n * x.size| + 1 / 2 ^ 30 ≤ slack n := by
  have hn1 : (1 : ℝ) ≤ n := by exact_mod_cast hn
  by_cases hlarge : 100000 ≤ n * |x.size|
  · exact Or.inl hlarge
  · right
    have hsize : |x.size| < 100000 := by
      have hle := le_mul_of_one_le_left (abs_nonneg x.size) hn1
      linarith only [hle, hlarge]
    have hscale : x.leading.scale.natAbs < 10 ^ 6 := by
      obtain ⟨hdown, hup⟩ := abs_le.mp (abs_logb_leadingDouble_sub_le hx)
      obtain ⟨hdown', hup'⟩ := abs_le.mp (abs_logb_leadingDouble_le hx)
      obtain ⟨hdown'', hup''⟩ := abs_lt.mp hsize
      have hcast : |(x.leading.scale : ℝ)| < 10 ^ 6 := by
        rw [abs_lt]
        constructor
        · linarith only [hup, hdown', hup'', hdown'']
        · linarith only [hdown, hup', hdown'', hup'']
      rw [← Int.cast_abs, Int.abs_eq_natAbs] at hcast
      exact_mod_cast hcast
    obtain ⟨hfinite, hnear⟩ := abs_estimate_sub_size_le hx hlog hscale hn hn'
    refine ⟨hfinite, ?_⟩
    rw [slack]
    linarith only [hlarge, hnear]

end LongDecimal

end DeskCalc
