import DeskCalc.Proofs.DomainErrors
import DeskCalc.Proofs.NearestRounding
import Mathlib.Analysis.Real.Sqrt

/-!
# The accuracy of roots

The magnitude of a radicand is halved toward zero and increased by one, which gives a power of
ten above the root whether the magnitude is even or odd and whatever its sign is. The digits that
are counted for it reach to the working scale, so a root that is right to a unit of its last digit
is right to a unit and a half of the working scale, whichever way it is found. The floor root is
taken to five digits more and is such a root. One that ends at the working scale or before is its
own floor root and is kept by both roundings.
-/

namespace DeskCalc.LongDecimal

/-- An exponent of a power of ten above the root, which the digits of the root are counted by. -/
def rootMagnitude (x : LongDecimal) : Int := Int.tdiv x.magnitude 2 + 1

theorem magnitude_le_two_mul_rootMagnitude (x : LongDecimal) :
    x.magnitude ≤ 2 * x.rootMagnitude := by
  rw [rootMagnitude, Int.tdiv_eq_ediv]
  split <;> grind

theorem le_digits_add_radicandShift (x : LongDecimal) (n : Nat) :
    2 * (n + 5) ≤ x.digits + x.radicandShift n := by
  unfold radicandShift
  dsimp only
  split <;> omega

theorem zpow_two_mul (k : Int) : (10 : ℚ) ^ (2 * k) = (10 ^ k) ^ 2 := by
  rw [← zpow_natCast, ← zpow_mul, mul_comm]
  rfl

section Digits

variable {x : LongDecimal} (hx : x.coefficient ≠ 0) {k : Int} (hk : |x.value| < 10 ^ (2 * k))
  (n : Nat)

include hk in
theorem value_rootDigits_lt : (x.rootDigits n).value < 10 ^ k := by
  apply lt_of_pow_lt_pow_left₀ 2 (zpow_nonneg (by norm_num) _)
  rw [← zpow_two_mul]
  exact (x.sq_value_rootDigits_le n).1.trans_lt hk

include hx hk

/-- The floor root has five digits more than are asked for. -/
theorem le_scale_rootDigits : n + 5 - k ≤ (x.rootDigits n).scale := by
  have hscale := x.two_mul_scale_rootDigits n
  have hshift := x.le_digits_add_radicandShift n
  have hmagnitude := magnitude_le_of_value_lt hk hx
  rw [magnitude] at hmagnitude
  omega

/-- It is off by less than half a unit of the last digit asked for. -/
theorem zpow_scale_rootDigits_le : (10 : ℚ) ^ (-(x.rootDigits n).scale) ≤ 10 ^ (k - n) / 2 := by
  have hscale := le_scale_rootDigits hx hk n
  have hunit : (0 : ℚ) < 10 ^ (k - n) := zpow_pos (by norm_num) _
  calc
    (10 : ℚ) ^ (-(x.rootDigits n).scale) ≤ 10 ^ (k - n - 1) :=
      zpow_le_zpow_right₀ (by norm_num) (by omega)
    _ = 10 ^ (k - n) / 10 := zpow_sub_one₀ (by norm_num) _
    _ ≤ 10 ^ (k - n) / 2 := by linarith only [hunit]

end Digits

/-- An exact root that ends where the floor root does, or before, is the floor root. -/
theorem value_rootDigits_of_sq {x d : LongDecimal} {n : Nat} (h : d.value ^ 2 = |x.value|)
    (hscale : d.scale ≤ (x.rootDigits n).scale) : (x.rootDigits n).value = |d.value| := by
  set y := x.rootDigits n with hy
  obtain ⟨hlow, hhigh⟩ : y.value ^ 2 ≤ |x.value| ∧ |x.value| < (y.value + 10 ^ (-y.scale)) ^ 2 :=
    x.sq_value_rootDigits_le n
  have hpos : 0 ≤ y.value := x.value_rootDigits_nonneg n
  have hunit : (0 : ℚ) < 10 ^ (-y.scale) := zpow_pos (by norm_num) _
  rw [← h, ← sq_abs d.value] at hlow hhigh
  have hle := le_of_sq_le_sq hlow (abs_nonneg _)
  have hlt := lt_of_pow_lt_pow_left₀ 2 (add_nonneg hpos hunit.le) hhigh
  -- In units of the last place of the floor root both are naturals, and there is none between.
  obtain ⟨k, hk⟩ : ∃ k : Nat, |d.value| = k * 10 ^ (-y.scale) := by
    refine ⟨(d.rescale .down y.scale).coefficient.natAbs, ?_⟩
    have hkept := value_rescale .down d hscale
    rw [← hkept, abs_value_eq, rescale_scale, Nat.cast_natAbs, Int.cast_abs]
  obtain ⟨r, hr⟩ : ∃ r : Nat, y.value = r * 10 ^ (-y.scale) := ⟨_, rfl⟩
  rw [hk, hr, ← add_one_mul] at hlt
  have hnat : k < r + 1 := by exact_mod_cast lt_of_mul_lt_mul_right hlt hunit.le
  apply le_antisymm hle
  rw [hk, hr]
  exact mul_le_mul_of_nonneg_right (by exact_mod_cast Nat.le_of_lt_succ hnat) hunit.le

/-- How near a result at a precision is to the root of a number. -/
structure RootAccuracy (x r : LongDecimal) (precision : Nat) : Prop where
  nonneg : 0 ≤ r.value
  distance : |(r.value - √x.value : ℝ)| ≤ 2 * 10 ^ (-((precision : ℤ) + 16))
  /-- The same without real numbers. -/
  squares : max (r.value - 2 * 10 ^ (-((precision : ℤ) + 16))) 0 ^ 2 ≤ x.value ∧
    x.value ≤ (r.value + 2 * 10 ^ (-((precision : ℤ) + 16))) ^ 2
  /-- A root with at most sixteen places behind those that are shown is given exactly. -/
  exactRoot : ∀ d : LongDecimal, d.scale ≤ precision + 16 → d.value ^ 2 = x.value →
    r.value = |d.value|

/-- A number near to a lower bound of a root has bounds of the root around it. -/
theorem sq_bounds_of_near {a r y t d : ℚ} (hy : 0 ≤ y) (ht : 0 ≤ t)
    (hlow : y ^ 2 ≤ a) (hhigh : a ≤ (y + t) ^ 2) (hnear : |r - y| + t ≤ d) :
    max (r - d) 0 ^ 2 ≤ a ∧ a ≤ (r + d) ^ 2 := by
  obtain ⟨hbelow, habove⟩ := abs_le.mp (le_sub_iff_add_le.mpr hnear)
  constructor
  · have hmax : max (r - d) 0 ≤ y := max_le (by linarith only [habove, ht]) hy
    exact le_trans (pow_le_pow_left₀ (le_max_right _ _) hmax 2) hlow
  · have hle : y + t ≤ r + d := by linarith only [hbelow]
    exact le_trans hhigh (pow_le_pow_left₀ (add_nonneg hy ht) hle 2)

/-- Bounds of a root in squares bound the distance from it. -/
theorem abs_sub_sqrt_le {a r d : ℚ} (hr : 0 ≤ r) (hd : 0 ≤ d) (hlow : max (r - d) 0 ^ 2 ≤ a)
    (hhigh : a ≤ (r + d) ^ 2) : |(r - √a : ℝ)| ≤ d := by
  have hbelow : ((max (r - d) 0 : ℚ) : ℝ) ≤ √a := by
    apply Real.le_sqrt_of_sq_le
    exact_mod_cast hlow
  have habove : √(a : ℝ) ≤ ((r + d : ℚ) : ℝ) := by
    apply Real.sqrt_le_iff.mpr
    exact ⟨by exact_mod_cast add_nonneg hr hd, by exact_mod_cast hhigh⟩
  have hmax : ((r - d : ℚ) : ℝ) ≤ (max (r - d) 0 : ℚ) := by exact_mod_cast le_max_left _ _
  push_cast at hmax hbelow habove
  rw [abs_le]
  constructor <;> linarith

/-- The distance from a root gives bounds of it in squares. -/
theorem sq_bounds_of_abs_sub_sqrt_le {a r d : ℚ} (ha : 0 ≤ a) (h : |(r - √a : ℝ)| ≤ d) :
    max (r - d) 0 ^ 2 ≤ a ∧ a ≤ (r + d) ^ 2 := by
  obtain ⟨hbelow, habove⟩ := abs_le.mp h
  have hroot : √(a : ℝ) ^ 2 = a := Real.sq_sqrt (by exact_mod_cast ha)
  constructor
  · have hmax : ((max (r - d) 0 : ℚ) : ℝ) ≤ √a := by
      push_cast
      exact max_le (by linarith only [habove]) (Real.sqrt_nonneg _)
    have hnonneg : (0 : ℝ) ≤ (max (r - d) 0 : ℚ) := by exact_mod_cast le_max_right (r - d) 0
    have hsq := pow_le_pow_left₀ hnonneg hmax 2
    rw [hroot] at hsq
    exact_mod_cast hsq
  · have hsum : √(a : ℝ) ≤ ((r + d : ℚ) : ℝ) := by
      push_cast
      linarith only [hbelow]
    have hsq := pow_le_pow_left₀ (Real.sqrt_nonneg _) hsum 2
    rw [hroot] at hsq
    exact_mod_cast hsq

theorem RootAccuracy.of_distance {x r : LongDecimal} {precision : Nat} (hx : 0 ≤ x.value)
    (hr : 0 ≤ r.value)
    (hdistance : |(r.value - √x.value : ℝ)| ≤ 2 * 10 ^ (-((precision : ℤ) + 16)))
    (hexact : ∀ d : LongDecimal, d.scale ≤ precision + 16 → d.value ^ 2 = x.value →
      r.value = |d.value|) : RootAccuracy x r precision := by
  refine ⟨hr, hdistance, ?_, hexact⟩
  apply sq_bounds_of_abs_sub_sqrt_le hx
  push_cast
  exact hdistance

/-- A result that is the root exactly is as near as can be. -/
theorem RootAccuracy.of_sq {x r : LongDecimal} (precision : Nat) (hr : 0 ≤ r.value)
    (h : r.value ^ 2 = x.value) : RootAccuracy x r precision := by
  apply RootAccuracy.of_distance (h ▸ sq_nonneg _) hr
  · have hroot : √(x.value : ℝ) = r.value := by
      rw [← h, Rat.cast_pow, Real.sqrt_sq (by exact_mod_cast hr)]
    rw [hroot, sub_self, abs_zero]
    positivity
  · intro d _ hd
    rw [← abs_of_nonneg hr]
    exact (sq_eq_sq_iff_abs_eq_abs _ _).mp (h.trans hd.symm)

/-- A root that is off by a unit of the last of `n` digits at most, and that is exact where these
digits are enough. -/
structure IsNearRoot (x r : LongDecimal) (n : Nat) : Prop where
  distance : ∀ k : Int, 10 ^ (2 * (k - 1)) ≤ x.value → x.value < 10 ^ (2 * k) →
    |(r.value - √x.value : ℝ)| ≤ 10 ^ (k - n)
  exactRoot : ∀ d : LongDecimal, d.digits ≤ n → d.value ^ 2 = x.value → r.value = |d.value|

theorem value_abs_coefficient (x : LongDecimal) :
    value ⟨|x.coefficient|, x.scale⟩ = |x.value| := by
  rw [abs_value_eq, value, Int.cast_abs]

section FloorRoot

variable {x : LongDecimal} (hx : 0 < x.value) {n : Nat}

include hx

theorem abs_value_root_sub_sqrt_le {k : Int} (hk : x.value < 10 ^ (2 * k)) :
    |((x.root n).value - √x.value : ℝ)| ≤ 10 ^ (k - n) := by
  have hcoefficient : x.coefficient ≠ 0 := mt value_eq_zero_iff.mpr hx.ne'
  have hfloor := x.value_rootDigits_nonneg n
  obtain ⟨hlow, hhigh⟩ := x.sq_value_rootDigits_le n
  rw [← abs_of_pos hx] at hk
  have hlt : |(x.rootDigits n).value| < 10 ^ k := by
    rw [abs_of_nonneg hfloor]
    exact value_rootDigits_lt hk n
  have hround : |(x.root n).value - (x.rootDigits n).value| ≤ 10 ^ (k - n) / 2 := by
    rw [root_eq]
    exact abs_value_significant_sub_le (by decide) hlt n
  have hplace := zpow_scale_rootDigits_le hcoefficient hk n
  have hroot : 0 ≤ (x.root n).value := by
    rw [root_eq, value_significant]
    exact value_rescale_nonneg .halfEven hfloor _
  rw [abs_of_pos hx] at hlow hhigh
  obtain ⟨hbelow, habove⟩ := sq_bounds_of_near (d := 10 ^ (k - n)) hfloor
    (zpow_nonneg (by norm_num) _) hlow hhigh.le (by linarith only [hround, hplace])
  have hdistance := abs_sub_sqrt_le hroot (zpow_nonneg (by norm_num) _) hbelow habove
  push_cast at hdistance
  exact hdistance

/-- The digits of an exact root tell how many places it has, and the floor root has more. -/
theorem value_root_of_sq {d : LongDecimal} (hd : d.digits ≤ n) (h : d.value ^ 2 = x.value) :
    (x.root n).value = |d.value| := by
  have hcoefficient : x.coefficient ≠ 0 := mt value_eq_zero_iff.mpr hx.ne'
  have hsize := d.abs_value_lt_magnitude
  have hk : |x.value| < 10 ^ (2 * d.magnitude) := by
    rw [abs_of_pos hx, ← h, ← sq_abs, zpow_two_mul]
    exact pow_lt_pow_left₀ hsize (abs_nonneg _) (by decide)
  have hscale := le_scale_rootDigits hcoefficient hk n
  have hplaces : d.scale ≤ n - d.magnitude := by
    rw [magnitude]
    omega
  have hexact : (x.rootDigits n).value = |d.value| :=
    value_rootDigits_of_sq (h.trans (abs_of_pos hx).symm) (by omega)
  have hlt : |(x.rootDigits n).value| < 10 ^ d.magnitude := by rwa [hexact, abs_abs]
  rw [root_eq, value_significant_of_fits .halfEven (hexact.trans d.value_abs_coefficient.symm)
    hlt hplaces, hexact]

/-- The root that is rounded from the floor root is such a root. -/
theorem isNearRoot_root : IsNearRoot x (x.root n) n :=
  ⟨fun _ _ hk => abs_value_root_sub_sqrt_le hx hk, fun _ => value_root_of_sq hx⟩

end FloorRoot

/-- A positive number lies between the squares of two powers of ten. -/
theorem exists_zpow_two_mul_le {x : LongDecimal} (hx : 0 < x.value) :
    ∃ k ≤ x.rootMagnitude, 10 ^ (2 * (k - 1)) ≤ x.value ∧ x.value < 10 ^ (2 * k) := by
  have hlow := tenPow_magnitude_le (mt value_eq_zero_iff.mpr hx.ne')
  have hhigh := x.abs_value_lt_magnitude
  have hmagnitude := x.magnitude_le_two_mul_rootMagnitude
  rw [abs_of_pos hx] at hlow hhigh
  refine ⟨(x.magnitude + 1) / 2, by omega, ?_, ?_⟩
  · exact le_trans (zpow_le_zpow_right₀ (by norm_num) (by omega)) hlow
  · exact lt_of_lt_of_le hhigh (zpow_le_zpow_right₀ (by norm_num) (by omega))

section NearRoot

variable {x r : LongDecimal} (hx : 0 < x.value) {precision : Nat}
  (hr : IsNearRoot x r (guardedDigits x.rootMagnitude precision))

include hx hr

/-- The unit of the last digit is at most one of the working scale, and smaller than the root. -/
theorem IsNearRoot.abs_sub_sqrt_le_unit :
    0 ≤ r.value ∧ |(r.value - √x.value : ℝ)| ≤ 10 ^ (-(guardedScale precision : ℤ)) := by
  obtain ⟨k, hle, hlow, hhigh⟩ := exists_zpow_two_mul_le hx
  have hpos := guardedDigits_pos x.rootMagnitude precision
  have hdigits := zpow_sub_guardedDigits_le x.rootMagnitude precision
  set n := guardedDigits x.rootMagnitude precision
  have hdistance := hr.distance k hlow hhigh
  constructor
  · have hroot : ((10 : ℝ) ^ (k - 1)) ≤ √x.value := by
      have hsquare := (Rat.cast_le (K := ℝ)).mpr hlow
      rw [zpow_two_mul] at hsquare
      push_cast at hsquare
      exact Real.le_sqrt_of_sq_le hsquare
    have hsmaller : (10 : ℝ) ^ (k - n) ≤ 10 ^ (k - 1) :=
      zpow_le_zpow_right₀ (by norm_num) (by omega)
    have hbelow := (abs_le.mp hdistance).1
    have hnonneg : (0 : ℝ) ≤ r.value := by linarith only [hroot, hsmaller, hbelow]
    exact_mod_cast hnonneg
  · have hunit := (Rat.cast_le (K := ℝ)).mpr hdigits
    push_cast at hunit
    exact (hdistance.trans (zpow_le_zpow_right₀ (by norm_num) (by omega))).trans hunit

/-- A root that ends at the working scale has no more digits than are computed. -/
theorem IsNearRoot.value_rescale_of_sq {d : LongDecimal} (hd : d.scale ≤ guardedScale precision)
    (h : d.value ^ 2 = x.value) :
    (r.rescale .halfEven (guardedScale precision)).value = |d.value| := by
  have hcoefficient : d.coefficient ≠ 0 := by
    intro hzero
    rw [value_eq_zero_iff.mpr hzero, zero_pow two_ne_zero] at h
    exact hx.ne h
  have hsize : |d.value| < 10 ^ x.rootMagnitude := by
    apply lt_of_pow_lt_pow_left₀ 2 (zpow_nonneg (by norm_num) _)
    calc
      |d.value| ^ 2 = |x.value| := by rw [sq_abs, h, abs_of_pos hx]
      _ < 10 ^ x.magnitude := x.abs_value_lt_magnitude
      _ ≤ 10 ^ (2 * x.rootMagnitude) :=
        zpow_le_zpow_right₀ (by norm_num) x.magnitude_le_two_mul_rootMagnitude
      _ = (10 ^ x.rootMagnitude) ^ 2 := zpow_two_mul _
  have hmagnitude := magnitude_le_of_value_lt hsize hcoefficient
  have hdigits : d.digits ≤ guardedDigits x.rootMagnitude precision := by
    rw [magnitude] at hmagnitude
    rw [guardedDigits]
    omega
  have hroot := hr.exactRoot d hdigits h
  rw [value_rescale_of_value_eq .halfEven (hroot.trans d.value_abs_coefficient.symm) hd, hroot]

/-- Rounding to the working scale moves a root by half a unit of it at most. -/
theorem rootAccuracy_of_isNearRoot :
    RootAccuracy x (r.rescale .halfEven (guardedScale precision)) precision := by
  obtain ⟨hnonneg, hdistance⟩ := hr.abs_sub_sqrt_le_unit hx
  apply RootAccuracy.of_distance hx.le (value_rescale_nonneg .halfEven hnonneg _)
  · have hplace : (10 : ℝ) ^ (-((precision : ℤ) + 16)) = 10 ^ (-(guardedScale precision : ℤ)) :=
      rfl
    have hround := (Rat.cast_le (K := ℝ)).mpr
      (abs_value_rescale_sub_le (by decide : Rounding.halfEven ≠ .down) r (guardedScale precision))
    push_cast at hround
    have hsum := abs_sub_le ((r.rescale .halfEven (guardedScale precision)).value : ℝ) r.value
      (√x.value)
    have hunit : (0 : ℝ) < 10 ^ (-(guardedScale precision : ℤ)) := zpow_pos (by norm_num) _
    rw [hplace]
    linarith only [hdistance, hround, hsum, hunit]
  · intro d hd h
    exact hr.value_rescale_of_sq hx hd h

end NearRoot

/-- Zero and one, which no digits are computed for, are their own roots. -/
theorem rootAccuracy_self {x : LongDecimal} (h : (x.coefficient = 0 || x.isOne) = true)
    (precision : Nat) :
    RootAccuracy x (x.rescale .halfEven (guardedScale precision)) precision := by
  obtain ⟨c, hform, hsq⟩ : ∃ c : Nat, x.value = value ⟨c, 0⟩ ∧ c ^ 2 = c := by
    rcases Bool.or_eq_true_iff.mp h with hzero | hone
    · refine ⟨0, ?_, rfl⟩
      rw [value_eq_zero_iff.mpr (of_decide_eq_true hzero), eq_comm, value_eq_zero_iff]
      rfl
    · refine ⟨1, ?_, rfl⟩
      rw [value_of_isOne hone, value_integer]
      norm_num
  have hkept := value_rescale_of_value_eq .halfEven hform
    (Int.natCast_nonneg (guardedScale precision))
  rw [value_integer, Int.cast_natCast] at hform
  apply RootAccuracy.of_sq precision
  · rw [hkept, hform]
    exact Nat.cast_nonneg c
  · rw [hkept, hform]
    exact_mod_cast hsq

/-- A number that is not negative has a root at every precision, near to the exact one and equal
to it if that ends at the working scale, if only the root that it is taken with is near. -/
theorem sqrtWith_accurate {root : LongDecimal → Nat → LongDecimal} {x : LongDecimal}
    (h : 0 ≤ x.value) (precision : Nat)
    (hroot : 0 < x.value → x.isOne = false →
      IsNearRoot x (root x (guardedDigits x.rootMagnitude precision))
        (guardedDigits x.rootMagnitude precision)) :
    ∃ r, sqrtWith root x precision = .ok r ∧ RootAccuracy x r precision := by
  have hsign : ¬ x.coefficient < 0 := fun hneg => not_lt.mpr h (value_neg_iff.mpr hneg)
  rw [sqrtWith, if_neg hsign]
  refine ⟨_, rfl, ?_⟩
  split
  · next hsimple => exact rootAccuracy_self hsimple precision
  · next hsimple =>
      rw [Bool.or_eq_true, not_or, decide_eq_true_eq, Bool.not_eq_true] at hsimple
      have hpos : 0 < x.value := h.lt_of_ne' (mt value_eq_zero_iff.mp hsimple.1)
      exact rootAccuracy_of_isNearRoot hpos (hroot hpos hsimple.2)

/-- A number that is not negative has a root at every precision, near to the exact one and equal
to it if that ends at the working scale. -/
theorem sqrt_accurate {x : LongDecimal} (h : 0 ≤ x.value) (precision : Nat) :
    ∃ r, x.sqrt precision = .ok r ∧ RootAccuracy x r precision :=
  sqrtWith_accurate h precision fun hpos _ => isNearRoot_root hpos

/-- The root of two ten-thousandths, whose magnitude is odd and below zero. -/
theorem sqrt_accurate_small :
    0 ≤ value ⟨2, 4⟩ ∧
      sqrt ⟨2, 4⟩ 4 = .ok ⟨1414213562373095049, 20⟩ ∧
      RootAccuracy ⟨2, 4⟩ ⟨1414213562373095049, 20⟩ 4 := by
  have hnonneg : 0 ≤ value ⟨2, 4⟩ := value_natCast_nonneg 2 4
  have hroot : sqrt ⟨2, 4⟩ 4 = .ok ⟨1414213562373095049, 20⟩ := by decide +kernel
  obtain ⟨r, hr, haccurate⟩ := sqrt_accurate hnonneg 4
  rw [hroot] at hr
  cases hr
  exact ⟨hnonneg, hroot, haccurate⟩

end DeskCalc.LongDecimal
