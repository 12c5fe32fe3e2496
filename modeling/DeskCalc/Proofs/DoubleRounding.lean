import DeskCalc.Double
import Mathlib

/-!
# Rounding to a double

A number `m * 2 ^ e` is rounded by shifting its mantissa to 53 bits and looking at the bits that
fall out. Only two facts about them are used here: what is left is one of the two neighbours of
the quotient, and it is the quotient itself if no bit is lost.
-/

namespace DeskCalc.Double

open Float.Model (Format UnpackedFloat totalExponent)
open Float.Model.UnpackedFloat

/-- The number that an unpacked double denotes; one that is not finite counts as zero. -/
def number : UnpackedFloat → ℚ
  | .finite s m e _ => s.apply m * (2 : ℚ) ^ e
  | _ => 0

/-- Whether an unpacked double is finite and in the form in which doubles are unpacked. -/
def IsCanonical : UnpackedFloat → Prop
  | .finite _ m e _ => m < 2 ^ 53 ∧ -1074 ≤ e ∧ (2 ^ 52 ≤ m ∨ e = -1074)
  | .zero _ => True
  | _ => False

/-- The exponent at which `m * 2 ^ e` has 53 bits, or the least one. -/
def target (m : Nat) (e : Int) : Int := max (m.log2 + 1 + e - 53) (-1074)

theorem targetExponent_eq (m : Nat) (e : Int) :
    Format.binary64.targetExponent (totalExponent m e) = target m e := rfl

theorem mantissa_shiftRight (x : ExtendedMantissa) (k : Nat) :
    (x >>> k).mantissa = x.mantissa / 2 ^ k := by
  induction k with
  | zero => exact (Nat.div_one _).symm
  | succ k ih =>
      change (x >>> k).mantissa / 2 = _
      rw [ih, Nat.div_div_eq_div_mul, Nat.pow_succ]

/-- Shifting out zeros leaves nothing behind. -/
theorem shiftRight_of_dvd {m k : Nat} (h : 2 ^ k ∣ m) :
    ExtendedMantissa.ofMantissaAndAccuracy m .exact >>> k =
      ExtendedMantissa.ofMantissaAndAccuracy (m / 2 ^ k) .exact := by
  induction k with
  | zero =>
      rw [Nat.pow_zero, Nat.div_one]
      rfl
  | succ k ih =>
      have hhalf : 2 ^ k ∣ m := dvd_trans (Nat.pow_dvd_pow 2 (Nat.le_succ k)) h
      have heven : m / 2 ^ k % 2 = 0 := by
        obtain ⟨c, rfl⟩ := h
        rw [Nat.pow_succ, Nat.mul_assoc, Nat.mul_div_cancel_left _ (Nat.two_pow_pos k)]
        exact Nat.mul_mod_right 2 c
      change (ExtendedMantissa.ofMantissaAndAccuracy m .exact >>> k).shiftRightOne = _
      rw [ih hhalf]
      simp only [ExtendedMantissa.shiftRightOne, ExtendedMantissa.ofMantissaAndAccuracy, heven,
        Nat.pow_succ, ← Nat.div_div_eq_div_mul]
      rfl

theorem roundedMantissa_bounds (x : ExtendedMantissa) :
    x.mantissa ≤ x.roundedMantissa ∧ x.roundedMantissa ≤ x.mantissa + 1 := by
  obtain ⟨m, round, sticky⟩ := x
  cases round <;> cases sticky <;>
    simp [ExtendedMantissa.roundedMantissa, ExtendedMantissa.accuracy,
      Accuracy.roundToNearestEven]
  -- Only a tie is left, which goes up if the mantissa is odd.
  omega

/-- The mantissa of `m * 2 ^ e` at its target, rounded. -/
def roundedAt (m : Nat) (e : Int) : Nat :=
  (ExtendedMantissa.ofMantissaAndAccuracy m .exact >>> (target m e - e).toNat).roundedMantissa

theorem roundedAt_bounds (m : Nat) (e : Int) :
    m / 2 ^ (target m e - e).toNat ≤ roundedAt m e ∧
      roundedAt m e ≤ m / 2 ^ (target m e - e).toNat + 1 := by
  have hbounds := roundedMantissa_bounds
    (ExtendedMantissa.ofMantissaAndAccuracy m .exact >>> (target m e - e).toNat)
  rw [mantissa_shiftRight] at hbounds
  exact hbounds

theorem roundedAt_of_dvd {m : Nat} {e : Int} (h : 2 ^ (target m e - e).toNat ∣ m) :
    roundedAt m e = m / 2 ^ (target m e - e).toNat := by
  rw [roundedAt, shiftRight_of_dvd h]
  rfl

/-- The double `± m * 2 ^ e`, which is a zero if its mantissa is. -/
def ofParts (s : Sign) (m : Nat) (e : Int) : UnpackedFloat :=
  if h : m = 0 then .zero s else .finite s m e (Nat.pos_of_ne_zero h)

@[simp] theorem number_ofParts (s : Sign) (m : Nat) (e : Int) :
    number (ofParts s m e) = s.apply m * (2 : ℚ) ^ e := by
  unfold ofParts
  split
  · next h =>
      rw [h]
      cases s <;> simp [number, Sign.apply]
  · rfl

theorem isCanonical_ofParts {s : Sign} {m : Nat} {e : Int} (hm : m < 2 ^ 53) (he : -1074 ≤ e)
    (hfull : 2 ^ 52 ≤ m ∨ e = -1074) : IsCanonical (ofParts s m e) := by
  unfold ofParts
  split
  · trivial
  · exact ⟨hm, he, hfull⟩

/-- The second shift moves a mantissa by one bit if it was rounded up to 54 bits. -/
theorem shiftToTargetExponent_carry {r : Nat} {t : Int} (hr : r ≤ 2 ^ 53) (ht : -1074 ≤ t) :
    shiftToTargetExponent Format.binary64 r t .exact =
      if r = 2 ^ 53 then (ExtendedMantissa.ofMantissaAndAccuracy (2 ^ 52) .exact, t + 1)
      else (ExtendedMantissa.ofMantissaAndAccuracy r .exact, t) := by
  split
  · next hcarry =>
      have htarget : target (2 ^ 53) t = t + 1 := by
        rw [target, Nat.log2_two_pow]
        omega
      have hone : (t + 1 - t).toNat = 1 := by omega
      rw [shiftToTargetExponent, targetExponent_eq, hcarry, htarget, shiftToExponent, hone]
      rfl
  · next hsmall =>
      have hlog : r.log2 ≤ 52 := by
        rcases Nat.eq_zero_or_pos r with rfl | hpos
        · decide
        · have hlt : r.log2 < 53 := (Nat.log2_lt hpos.ne').mpr (by omega)
          omega
      have hnone : (target r t - t).toNat = 0 := by
        rw [target]
        omega
      rw [shiftToTargetExponent, targetExponent_eq, shiftToExponent, hnone]
      exact congrArg _ (add_zero t)

theorem le_target (m : Nat) (e : Int) : -1074 ≤ target m e := le_max_right _ _

theorem roundedAt_le (m : Nat) (e : Int) : roundedAt m e ≤ 2 ^ 53 := by
  have hbound := (roundedAt_bounds m e).2
  have hlt : m / 2 ^ (target m e - e).toNat < 2 ^ 53 := by
    rw [Nat.div_lt_iff_lt_mul (Nat.two_pow_pos _), ← Nat.pow_add]
    apply lt_of_lt_of_le (Nat.lt_log2_self (n := m))
    apply Nat.pow_le_pow_right (by norm_num)
    rw [target]
    omega
  omega

/-- Above the least exponent a target leaves 53 bits. -/
theorem le_roundedAt {m : Nat} {e : Int} (hm : 0 < m) (he : e ≤ target m e)
    (ht : target m e ≠ -1074) : 2 ^ 52 ≤ roundedAt m e := by
  apply le_trans _ (roundedAt_bounds m e).1
  rw [Nat.le_div_iff_mul_le (Nat.two_pow_pos _), ← Nat.pow_add]
  apply le_trans _ (Nat.log2_self_le hm.ne')
  apply Nat.pow_le_pow_right (by norm_num)
  rw [target] at he ht ⊢
  omega

theorem roundWithAccuracy_eq (s : Sign) {m : Nat} {e : Int} (he : e ≤ target m e) :
    roundWithAccuracy Format.binary64 s m e .exact =
      if roundedAt m e = 2 ^ 53 then ofParts s (2 ^ 52) (target m e + 1)
      else ofParts s (roundedAt m e) (target m e) := by
  have hfirst : shiftToTargetExponent Format.binary64 m e .exact =
      (ExtendedMantissa.ofMantissaAndAccuracy m .exact >>> (target m e - e).toNat, target m e) := by
    have hexponent : e + ((target m e - e).toNat : Int) = target m e := by omega
    rw [shiftToTargetExponent, targetExponent_eq, shiftToExponent, hexponent]
  have hcarry := shiftToTargetExponent_carry (roundedAt_le m e) (le_target m e)
  unfold roundWithAccuracy
  rw [hfirst]
  change (let r := shiftToTargetExponent Format.binary64 (roundedAt m e) (target m e) .exact
    ofParts s r.1.mantissa r.2) = _
  rw [hcarry]
  split <;> rfl

theorem isCanonical_roundWithAccuracy (s : Sign) {m : Nat} {e : Int} (hm : 0 < m)
    (he : e ≤ target m e) : IsCanonical (roundWithAccuracy Format.binary64 s m e .exact) := by
  have hleast := le_target m e
  rw [roundWithAccuracy_eq s he]
  split
  · exact isCanonical_ofParts (by norm_num) (by omega) (Or.inl (le_refl _))
  · next hcarry =>
      have hle := roundedAt_le m e
      apply isCanonical_ofParts (by omega) hleast
      by_cases ht : target m e = -1074
      · exact Or.inr ht
      · exact Or.inl (le_roundedAt hm he ht)

theorem number_roundWithAccuracy (s : Sign) {m : Nat} {e : Int} (he : e ≤ target m e) :
    number (roundWithAccuracy Format.binary64 s m e .exact) =
      s.apply (roundedAt m e) * (2 : ℚ) ^ target m e := by
  rw [roundWithAccuracy_eq s he]
  split
  · next hcarry =>
      rw [number_ofParts, hcarry, zpow_add_one₀ (by norm_num)]
      cases s <;> simp only [Sign.apply] <;> push_cast <;> ring
  · exact number_ofParts s _ _

/-- A double that a number is rounded to. -/
structure Rounds (q : ℚ) (x : UnpackedFloat) : Prop where
  canonical : IsCanonical x
  near : |number x - q| ≤ 2 ^ (-52 : Int) * |q| + 2 ^ (-1074 : Int)

theorem abs_apply (s : Sign) (m : Int) (u : ℚ) : |(s.apply m : ℚ) * u| = |(m : ℚ) * u| := by
  cases s <;> simp [Sign.apply]

theorem apply_sub (s : Sign) (m n : Int) (u v : ℚ) :
    |(s.apply m : ℚ) * u - s.apply n * v| = |m * u - n * v| := by
  cases s with
  | positive => rfl
  | negative =>
      rw [← abs_neg]
      congr 1
      simp only [Sign.apply]
      push_cast
      ring

/-- A unit of the last place is a small part of the number, or the least one there is. -/
theorem twoPow_target_le {m : Nat} (e : Int) (hm : 0 < m) :
    (2 : ℚ) ^ target m e ≤ 2 ^ (-52 : Int) * (m * 2 ^ e) + 2 ^ (-1074 : Int) := by
  have hleast : (0 : ℚ) < 2 ^ (-1074 : Int) := zpow_pos (by norm_num) _
  have hlog : (2 : ℚ) ^ m.log2 ≤ m := by exact_mod_cast Nat.log2_self_le hm.ne'
  rcases le_total ((m.log2 : Int) + 1 + e - 53) (-1074) with hlow | hhigh
  · rw [target, max_eq_right hlow]
    have hpos : (0 : ℚ) ≤ 2 ^ (-52 : Int) * (m * 2 ^ e) := by positivity
    linarith
  · have hsplit : (2 : ℚ) ^ ((m.log2 : Int) + 1 + e - 53) =
        2 ^ (-52 : Int) * (2 ^ m.log2 * 2 ^ e) := by
      rw [← zpow_natCast, ← zpow_add₀ (by norm_num), ← zpow_add₀ (by norm_num)]
      congr 1
      ring
    rw [target, max_eq_left hhigh, hsplit]
    have hle : (2 : ℚ) ^ m.log2 * 2 ^ e ≤ m * 2 ^ e :=
      mul_le_mul_of_nonneg_right hlog (by positivity)
    have hmul := mul_le_mul_of_nonneg_left hle (by positivity : (0 : ℚ) ≤ 2 ^ (-52 : Int))
    linarith

theorem abs_roundedAt_sub_le {m : Nat} {e : Int} (he : e ≤ target m e) :
    |(roundedAt m e : ℚ) * 2 ^ target m e - m * 2 ^ e| ≤ 2 ^ target m e := by
  have hunit : (0 : ℚ) < 2 ^ e := zpow_pos (by norm_num) _
  obtain ⟨hlow, hhigh⟩ := roundedAt_bounds m e
  set k := (target m e - e).toNat with hk
  have hsplit : (2 : ℚ) ^ target m e = (2 ^ k : Nat) * 2 ^ e := by
    rw [Nat.cast_pow, Nat.cast_ofNat, ← zpow_natCast, ← zpow_add₀ (by norm_num)]
    congr 1
    omega
  have hfloor : m / 2 ^ k * 2 ^ k ≤ m := Nat.div_mul_le_self m (2 ^ k)
  have hceil : m < (m / 2 ^ k + 1) * 2 ^ k :=
    Nat.lt_mul_of_div_lt (Nat.lt_succ_self _) (by positivity)
  have hlow' : (m : ℚ) ≤ roundedAt m e * (2 ^ k : Nat) + (2 ^ k : Nat) := by
    have hle := Nat.mul_le_mul_right (2 ^ k) hlow
    exact_mod_cast (by nlinarith : m ≤ roundedAt m e * 2 ^ k + 2 ^ k)
  have hhigh' : (roundedAt m e : ℚ) * (2 ^ k : Nat) ≤ m + (2 ^ k : Nat) := by
    have hle := Nat.mul_le_mul_right (2 ^ k) hhigh
    exact_mod_cast (by nlinarith : roundedAt m e * 2 ^ k ≤ m + 2 ^ k)
  rw [hsplit, ← mul_assoc, ← sub_mul, abs_mul, abs_of_pos hunit]
  apply mul_le_mul_of_nonneg_right _ hunit.le
  rw [abs_le]
  constructor <;> linarith

theorem rounds_roundWithAccuracy (s : Sign) {m : Nat} {e : Int} (hm : 0 < m)
    (he : e ≤ target m e) :
    Rounds (s.apply m * 2 ^ e) (roundWithAccuracy Format.binary64 s m e .exact) := by
  have hpos : (0 : ℚ) ≤ m * 2 ^ e := by positivity
  refine ⟨isCanonical_roundWithAccuracy s hm he, ?_⟩
  rw [number_roundWithAccuracy s he, apply_sub, abs_apply, Int.cast_natCast, Int.cast_natCast,
    abs_of_nonneg hpos]
  exact le_trans (abs_roundedAt_sub_le he) (twoPow_target_le e hm)

/-- A number is kept if no bit is lost. -/
theorem number_roundWithAccuracy_of_dvd (s : Sign) {m : Nat} {e : Int} (he : e ≤ target m e)
    (h : 2 ^ (target m e - e).toNat ∣ m) :
    number (roundWithAccuracy Format.binary64 s m e .exact) = s.apply m * 2 ^ e := by
  have hback : roundedAt m e * 2 ^ (target m e - e).toNat = m := by
    rw [roundedAt_of_dvd h, Nat.div_mul_cancel h]
  have hsplit : (2 : ℚ) ^ target m e = 2 ^ (target m e - e).toNat * 2 ^ e := by
    rw [← zpow_natCast, ← zpow_add₀ (by norm_num)]
    congr 1
    omega
  rw [number_roundWithAccuracy s he, hsplit, ← mul_assoc]
  congr 1
  conv_rhs => rw [← hback]
  cases s <;> simp [Sign.apply]

theorem log2_shiftLeft {m : Nat} (hm : 0 < m) (k : Nat) : (m <<< k).log2 = m.log2 + k := by
  have hpos : m <<< k ≠ 0 := by
    rw [Nat.shiftLeft_eq]
    positivity
  rw [Nat.log2_eq_iff hpos, Nat.shiftLeft_eq, Nat.pow_add, Nat.add_right_comm, Nat.pow_add]
  have hself := Nat.log2_self_le hm.ne'
  have hlt := Nat.lt_log2_self (n := m)
  constructor
  · exact Nat.mul_le_mul_right _ hself
  · exact Nat.mul_lt_mul_of_pos_right hlt (Nat.two_pow_pos k)

theorem target_shiftLeft {m : Nat} (hm : 0 < m) (e : Int) (k : Nat) :
    target (m <<< k) (e - k) = target m e := by
  rw [target, target, log2_shiftLeft hm]
  congr 1
  push_cast
  ring

theorem shiftLeft_mul_zpow (m : Nat) (e : Int) (k : Nat) :
    ((m <<< k : Nat) : ℚ) * 2 ^ (e - k) = m * 2 ^ e := by
  rw [Nat.shiftLeft_eq, Nat.cast_mul, Nat.cast_pow, Nat.cast_ofNat, mul_assoc, ← zpow_natCast,
    ← zpow_add₀ (by norm_num)]
  congr 2
  ring

theorem apply_shiftLeft (s : Sign) (m : Nat) (e : Int) (k : Nat) :
    (s.apply ((m <<< k : Nat) : Int) : ℚ) * 2 ^ (e - k) = s.apply m * 2 ^ e := by
  cases s <;>
    simp only [Sign.apply, Int.cast_neg, Int.cast_natCast, neg_mul, shiftLeft_mul_zpow]

/-- The mantissa is lengthened before it is rounded if it is too short. -/
theorem round_eq (s : Sign) (m : Nat) (e : Int) :
    UnpackedFloat.round Format.binary64 s m e =
      roundWithAccuracy Format.binary64 s (m <<< (e - target m e).toNat)
        (e - (e - target m e).toNat) .exact := rfl

theorem rounds_round (s : Sign) {m : Nat} (hm : 0 < m) (e : Int) :
    Rounds (s.apply m * 2 ^ e) (UnpackedFloat.round Format.binary64 s m e) := by
  set k := (e - target m e).toNat with hk
  have hpos : 0 < m <<< k := by
    rw [Nat.shiftLeft_eq]
    positivity
  have htarget := target_shiftLeft hm e k
  have hle : e - k ≤ target (m <<< k) (e - k) := by omega
  have hrounds := rounds_roundWithAccuracy s hpos hle
  rwa [apply_shiftLeft] at hrounds

/-- A number of 53 bits is kept. -/
theorem number_round_of_lt (s : Sign) {m : Nat} {e : Int} (hm : 0 < m) (hlt : m < 2 ^ 53)
    (he : -1074 ≤ e) : number (UnpackedFloat.round Format.binary64 s m e) = s.apply m * 2 ^ e := by
  have hlog : m.log2 < 53 := (Nat.log2_lt hm.ne').mpr hlt
  have hle : target m e ≤ e := by
    rw [target]
    omega
  set k := (e - target m e).toNat with hk
  have htarget := target_shiftLeft hm e k
  have hnone : (target (m <<< k) (e - k) - (e - k)).toNat = 0 := by omega
  have hdvd : 2 ^ (target (m <<< k) (e - k) - (e - k)).toNat ∣ m <<< k := by
    rw [hnone]
    exact one_dvd _
  rw [round_eq, ← hk, number_roundWithAccuracy_of_dvd s (by omega) hdvd, apply_shiftLeft]

theorem rounds_zero (s : Sign) : Rounds 0 (.zero s) := by
  refine ⟨trivial, ?_⟩
  simp [number]

theorem rounds_normalize (m e : Int) (z : Sign) :
    Rounds (m * 2 ^ e) (UnpackedFloat.normalize Format.binary64 m e z) := by
  unfold UnpackedFloat.normalize
  rcases lt_trichotomy m 0 with hneg | rfl | hpos
  · rw [Int.compare_eq_lt.mpr hneg]
    have hrounds := rounds_round .negative (m := (-m).toNat) (by omega) e
    have hvalue : Sign.negative.apply ((-m).toNat : Int) = m := by
      simp only [Sign.apply]
      omega
    rwa [hvalue] at hrounds
  · rw [Int.cast_zero, zero_mul]
    exact rounds_zero z
  · rw [Int.compare_eq_gt.mpr hpos]
    have hrounds := rounds_round .positive (m := m.toNat) (by omega) e
    have hvalue : Sign.positive.apply (m.toNat : Int) = m := by
      simp only [Sign.apply]
      omega
    rwa [hvalue] at hrounds

end DeskCalc.Double
