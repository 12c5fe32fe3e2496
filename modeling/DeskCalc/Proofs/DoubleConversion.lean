import DeskCalc.Proofs.DoubleValue
import Mathlib.Data.Rat.Floor

/-!
# Doubles and integers

A natural of 53 bits is a double, and a longer one is rounded once. Finite doubles are compared
as their numbers are, and the ceiling of a double is that of its number.
-/

namespace DeskCalc.Double

open Float.Model (Format UnpackedFloat)
open Float.Model.UnpackedFloat

theorem isFinite_ofModel {u : UnpackedFloat} (h : IsCanonical u)
    (hback : (Float.Model.pack u).unpack = u) :
    (Float.ofModel (Float.Model.pack u)).isFinite = true := by
  change (Float.Model.pack u).unpack.isFinite = true
  rw [hback]
  exact isFinite_of_isCanonical h

/-- A word of 53 bits is a double. -/
theorem unpack_toFloat {n : Nat} (h : n < 2 ^ 53) :
    IsCanonical n.toUInt64.toFloat.toModel.unpack ∧
      number n.toUInt64.toFloat.toModel.unpack = n := by
  have hnat : n.toUInt64.toNat = n :=
    UInt64.toNat_ofNat_of_lt' (lt_trans h (by norm_num [UInt64.size]))
  have hrounds := rounds_normalize n 0 .positive
  rw [zpow_zero, mul_one, Int.cast_natCast] at hrounds
  have hsmall : |(n : ℚ)| < 2 ^ 150 := by
    rw [Nat.abs_cast]
    exact_mod_cast lt_trans h (by norm_num)
  have hunpack : n.toUInt64.toFloat.toModel.unpack =
      UnpackedFloat.normalize Format.binary64 n 0 .positive := by
    rw [← unpack_of_rounds hrounds hsmall]
    change (Float.Model.pack
      (UnpackedFloat.normalize _ (n.toUInt64.toNat : Int) 0 .positive)).unpack = _
    rw [hnat]
  rw [hunpack]
  refine ⟨hrounds.canonical, ?_⟩
  rcases Nat.eq_zero_or_pos n with rfl | hpos
  · rfl
  · rw [UnpackedFloat.normalize, Int.compare_eq_gt.mpr (by omega)]
    have hkept := number_round_of_lt .positive hpos h (e := 0) (by norm_num)
    rwa [zpow_zero, mul_one] at hkept

/-- A natural of 53 bits is a double. -/
theorem value_ofNat {n : Nat} (h : n < 2 ^ 53) :
    (Float.ofNat n).isFinite = true ∧ value (Float.ofNat n) = n := by
  have hword : Float.ofNat n = n.toUInt64.toFloat * Float.ofBits 0x3FF0000000000000 :=
    dif_pos ⟨h, Nat.zero_le 22⟩
  obtain ⟨hcanonical, hnumber⟩ := unpack_toFloat h
  have hone : (Float.ofBits 0x3FF0000000000000).toModel.unpack =
      .finite .positive (2 ^ 52) (-52) (Nat.two_pow_pos 52) := rfl
  have hsmall : |number n.toUInt64.toFloat.toModel.unpack *
      number (Float.ofBits 0x3FF0000000000000).toModel.unpack| < 2 ^ 150 := by
    have hunit : number (Float.ofBits 0x3FF0000000000000).toModel.unpack = 1 := by
      rw [hone]
      norm_num [number, Sign.apply]
    rw [hnumber, hunit, mul_one, Nat.abs_cast]
    exact_mod_cast lt_trans h (by norm_num)
  have hrounds := rounds_mul hcanonical (isCanonical_unpack (x := .ofBits 0x3FF0000000000000) rfl)
  have hback := unpack_of_rounds hrounds hsmall
  rw [hword]
  refine ⟨isFinite_ofModel hrounds.canonical hback, ?_⟩
  change number (Float.Model.pack _).unpack = n
  rw [hback, hone, number_mul_one hcanonical, hnumber]

theorem ofScientific_zero {n : Nat} (hn : 0 < n) :
    UnpackedFloat.ofScientific Format.binary64 n 0 =
      roundWithAccuracy Format.binary64 .positive (n <<< 53) (0 - (53 : Nat)) .exact := by
  have hhigh : ¬ (0 : Int) > 2 ^ Format.binary64.exponentBits := by decide
  have hlow : ¬ (0 : Int) < -(2 ^ Format.binary64.exponentBits + (n.log2 : Int)) := by
    have hbits : (2 : Int) ^ Format.binary64.exponentBits = 2048 := rfl
    omega
  rw [UnpackedFloat.ofScientific, dif_neg hn.ne', if_neg hhigh, if_neg hlow, if_pos le_rfl,
    UnpackedFloat.mul]
  simp only [Int.toNat_zero, Nat.pow_zero, mul_one]
  rfl

/-- A longer natural is rounded. -/
theorem approximates_ofNat {n : Nat} (h : n < 2 ^ 150) : Approximates (Float.ofNat n) n := by
  by_cases hshort : n < 2 ^ 53
  · obtain ⟨hfinite, hvalue⟩ := value_ofNat hshort
    refine ⟨hfinite, ?_⟩
    rw [hvalue, sub_self, abs_zero]
    positivity
  · have hpos : 0 < n := by omega
    have hword : Float.ofNat n = .ofModel (Float.Model.pack
        (UnpackedFloat.ofScientific Format.binary64 n 0)) := dif_neg (fun hn => hshort hn.1)
    have hlong : 0 < n <<< 53 := by
      rw [Nat.shiftLeft_eq]
      positivity
    have htarget : (0 : Int) - (53 : Nat) ≤ target (n <<< 53) (0 - (53 : Nat)) := by
      have hlog := (Nat.le_log2 hpos.ne').mpr (Nat.not_lt.mp hshort)
      rw [target_shiftLeft hpos, target]
      omega
    have hrounds := rounds_roundWithAccuracy .positive hlong htarget
    have hvalue := apply_shiftLeft .positive n 0 53
    rw [zpow_zero, mul_one] at hvalue
    rw [hvalue] at hrounds
    rw [hword, ofScientific_zero hpos]
    apply approximates_of_rounds hrounds
    change |((n : Int) : ℚ)| < _
    rw [Int.cast_natCast, Nat.abs_cast]
    exact_mod_cast h

theorem isCanonical_neg {u : UnpackedFloat} (h : IsCanonical u) : IsCanonical u.neg := by
  cases u <;> exact h

theorem number_opposite (u : UnpackedFloat) : number u.neg = -number u := by
  cases u with
  | infinity s => exact neg_zero.symm
  | notANumber => exact neg_zero.symm
  | zero s => exact neg_zero.symm
  | finite s m e hm => exact number_neg s e hm

theorem value_neg {x : Float} (h : x.isFinite = true) (hsmall : |value x| < 2 ^ 200) :
    x.neg.isFinite = true ∧ value x.neg = -value x := by
  have hcanonical := isCanonical_neg (isCanonical_unpack h)
  have hback : (Float.Model.pack x.toModel.unpack.neg).unpack = x.toModel.unpack.neg := by
    apply unpack_pack hcanonical
    rwa [number_opposite, abs_neg]
  refine ⟨isFinite_ofModel hcanonical hback, ?_⟩
  change number (Float.Model.pack x.toModel.unpack.neg).unpack = _
  rw [hback, number_opposite]
  rfl

/-- An integer of 53 bits is a double. -/
theorem value_ofInt {n : Int} (h : n.natAbs < 2 ^ 53) :
    (Float.ofInt n).isFinite = true ∧ value (Float.ofInt n) = n := by
  cases n with
  | ofNat n => exact value_ofNat h
  | negSucc n =>
      obtain ⟨hfinite, hvalue⟩ := value_ofNat (n := n.succ) h
      have hsmall : |value (Float.ofNat n.succ)| < 2 ^ 200 := by
        rw [hvalue, Nat.abs_cast]
        exact_mod_cast lt_trans h (by norm_num)
      obtain ⟨hfinite', hvalue'⟩ := value_neg hfinite hsmall
      refine ⟨hfinite', hvalue'.trans ?_⟩
      rw [hvalue, Int.cast_negSucc]

/-- The larger exponent makes the larger double, since its mantissa is full. -/
theorem lt_of_exponent_lt {m m' : Nat} {e e' : Int} {hm : 0 < m} {hm' : 0 < m'}
    (hu : IsCanonical (.finite .positive m e hm)) (hv : IsCanonical (.finite .positive m' e' hm'))
    (he : e < e') : (m : ℚ) * 2 ^ e < m' * 2 ^ e' := by
  obtain ⟨hlt, hleast, -⟩ := hu
  have hlong : 2 ^ 52 ≤ m' := hv.2.2.resolve_right (by omega)
  calc
    (m : ℚ) * 2 ^ e < 2 ^ 53 * 2 ^ e := by
      apply mul_lt_mul_of_pos_right _ (zpow_pos (by norm_num) e)
      exact_mod_cast hlt
    _ = 2 ^ 52 * 2 ^ (e + 1) := by
      rw [zpow_add_one₀ (by norm_num)]
      ring
    _ ≤ m' * 2 ^ e' := by
      apply mul_le_mul _ _ (by positivity) (by positivity)
      · exact_mod_cast hlong
      · exact zpow_le_zpow_right₀ (by norm_num) he

/-- Doubles of one sign are compared by their exponents first. -/
theorem compare_eq_lt_iff {m m' : Nat} {e e' : Int} {hm : 0 < m} {hm' : 0 < m'}
    (hu : IsCanonical (.finite .positive m e hm)) (hv : IsCanonical (.finite .positive m' e' hm')) :
    (compare e e').then (compare m m') = .lt ↔ (m : ℚ) * 2 ^ e < m' * 2 ^ e' := by
  rcases lt_trichotomy e e' with hlt | rfl | hgt
  · rw [Int.compare_eq_lt.mpr hlt]
    exact iff_of_true rfl (lt_of_exponent_lt hu hv hlt)
  · rw [compare_eq_iff_eq.mpr rfl, mul_lt_mul_iff_left₀ (zpow_pos (by norm_num) e), Nat.cast_lt]
    exact Nat.compare_eq_lt
  · rw [Int.compare_eq_gt.mpr hgt]
    exact iff_of_false nofun (not_lt.mpr (lt_of_exponent_lt hv hu hgt).le)

theorem number_positive_pos (m : Nat) (e : Int) (hm : 0 < m) :
    0 < number (.finite .positive m e hm) := by
  change (0 : ℚ) < m * 2 ^ e
  positivity

theorem number_negative_neg (m : Nat) (e : Int) (hm : 0 < m) :
    number (.finite .negative m e hm) < 0 := by
  have hneg : number (.finite .negative m e hm) = _ := number_neg .positive e hm
  rw [hneg, neg_lt_zero]
  exact number_positive_pos m e hm

/-- Unpacked doubles are compared as their numbers are. -/
theorem unpacked_lt_iff {u v : UnpackedFloat} (hu : IsCanonical u) (hv : IsCanonical v) :
    u.lt v = true ↔ number u < number v := by
  match u, v, hu, hv with
  | .zero _, .zero _, _, _ => exact iff_of_false nofun (lt_irrefl 0)
  | .zero _, .finite .positive m e hm, _, _ => exact iff_of_true rfl (number_positive_pos m e hm)
  | .zero _, .finite .negative m e hm, _, _ =>
      exact iff_of_false nofun (not_lt.mpr (number_negative_neg m e hm).le)
  | .finite .positive m e hm, .zero _, _, _ =>
      exact iff_of_false nofun (not_lt.mpr (number_positive_pos m e hm).le)
  | .finite .negative m e hm, .zero _, _, _ => exact iff_of_true rfl (number_negative_neg m e hm)
  | .finite .negative m e hm, .finite .positive m' e' hm', _, _ =>
      exact iff_of_true rfl
        (lt_trans (number_negative_neg m e hm) (number_positive_pos m' e' hm'))
  | .finite .positive m e hm, .finite .negative m' e' hm', _, _ =>
      exact iff_of_false nofun
        (not_lt.mpr (lt_trans (number_negative_neg m' e' hm') (number_positive_pos m e hm)).le)
  | .finite .positive m e hm, .finite .positive m' e' hm', hu, hv =>
      have hiff := @compare_eq_lt_iff m m' e e' hm hm' hu hv
      exact (beq_iff_eq.trans Option.some_inj).trans hiff
  | .finite .negative m e hm, .finite .negative m' e' hm', hu, hv =>
      -- The order of magnitudes is turned around.
      have hiff := @compare_eq_lt_iff m' m e' e hm' hm hv hu
      have hleft : number (.finite .negative m e hm) = -(m * 2 ^ e) := number_neg .positive e hm
      have hright : number (.finite .negative m' e' hm') = -(m' * 2 ^ e') :=
        number_neg .positive e' hm'
      have hswap : ((compare e e').then (compare m m')).swap =
          (compare e' e).then (compare m' m) := by
        rw [Ordering.swap_then, ← Std.OrientedCmp.eq_swap, ← Std.OrientedCmp.eq_swap]
      rw [hleft, hright, neg_lt_neg_iff, ← hiff, ← hswap]
      exact beq_iff_eq.trans Option.some_inj

/-- Finite doubles are compared as their numbers are. -/
theorem lt_iff {x y : Float} (hx : x.isFinite = true) (hy : y.isFinite = true) :
    x < y ↔ value x < value y :=
  decide_eq_true_iff.trans (unpacked_lt_iff (isCanonical_unpack hx) (isCanonical_unpack hy))

theorem number_abs (u : UnpackedFloat) : number u.abs = |number u| := by
  cases u with
  | infinity s => exact abs_zero.symm
  | notANumber => exact abs_zero.symm
  | zero s => exact abs_zero.symm
  | finite s m e hm =>
      rw [number, abs_apply, Int.cast_natCast, abs_of_nonneg (by positivity)]
      rfl

theorem isCanonical_abs {u : UnpackedFloat} (h : IsCanonical u) : IsCanonical u.abs := by
  cases u <;> exact h

theorem value_abs {x : Float} (h : x.isFinite = true) (hsmall : |value x| < 2 ^ 200) :
    x.abs.isFinite = true ∧ value x.abs = |value x| := by
  have hcanonical := isCanonical_abs (isCanonical_unpack h)
  have hback : (Float.Model.pack x.toModel.unpack.abs).unpack = x.toModel.unpack.abs := by
    apply unpack_pack hcanonical
    rwa [number_abs, abs_abs]
  refine ⟨isFinite_ofModel hcanonical hback, ?_⟩
  change number (Float.Model.pack x.toModel.unpack.abs).unpack = _
  rw [hback, number_abs]
  rfl

theorem isNaN_of_isFinite {x : Float} (h : x.isFinite = true) : x.isNaN = false := by
  change x.toModel.unpack.isNaN = false
  rcases finite_cases h with ⟨s, hu⟩ | ⟨s, m, e, hm, hu⟩
  · rw [hu]
    rfl
  · rw [hu]
    rfl

/-- The magnitude of a finite double is above an integer as its number is. -/
theorem ofInt_lt_abs_iff {n : Int} (hn : n.natAbs < 2 ^ 53) {x : Float} (h : x.isFinite = true)
    (hsmall : |value x| < 2 ^ 200) : Float.ofInt n < x.abs ↔ n < |value x| := by
  obtain ⟨hfinite, hvalue⟩ := value_ofInt hn
  obtain ⟨hfinite', hvalue'⟩ := value_abs h hsmall
  rw [lt_iff hfinite hfinite', hvalue, hvalue']

theorem zpow_of_neg {e : Int} (he : e < 0) : (2 : ℚ) ^ e = ((twoPow e.natAbs : Nat) : ℚ)⁻¹ := by
  change (2 : ℚ) ^ e = ((2 ^ e.natAbs : Nat) : ℚ)⁻¹
  rw [Nat.cast_pow, Nat.cast_ofNat, ← zpow_natCast, ← zpow_neg]
  congr 1
  omega

theorem zpow_of_nonneg {e : Int} (he : ¬ e < 0) : (2 : ℚ) ^ e = (twoPow e.natAbs : Nat) := by
  change (2 : ℚ) ^ e = ((2 ^ e.natAbs : Nat) : ℚ)
  rw [Nat.cast_pow, Nat.cast_ofNat, ← zpow_natCast]
  congr 1
  omega

theorem wholePart_eq (m : Nat) (e : Int) : (wholePart m e : Int) = ⌊(m : ℚ) * 2 ^ e⌋ := by
  unfold wholePart
  split
  · next he =>
      rw [zpow_of_neg he, ← div_eq_mul_inv, Rat.floor_natCast_div_natCast, Int.natCast_ediv]
  · next he => rw [zpow_of_nonneg he, ← Nat.cast_mul, Int.floor_natCast]

theorem ceil_natCast_div (m : Nat) {d : Nat} (hd : 0 < d) :
    ⌈(m : ℚ) / d⌉ = ((m + (d - 1)) / d : Nat) := by
  have hlow : (m + (d - 1)) / d * d ≤ m + (d - 1) := Nat.div_mul_le_self _ d
  have hlow' : (m + (d - 1)) / d * d < m + d := by omega
  have hhigh : m ≤ (m + (d - 1)) / d * d := by
    have hlt := Nat.lt_div_mul_add (a := m + (d - 1)) hd
    omega
  have hpos : (0 : ℚ) < d := Nat.cast_pos.mpr hd
  rw [Int.ceil_eq_iff, Int.cast_natCast, lt_div_iff₀ hpos, div_le_iff₀ hpos]
  constructor
  · rw [sub_mul, one_mul, sub_lt_iff_lt_add]
    exact_mod_cast hlow'
  · exact_mod_cast hhigh

/-- The ceiling of a double is that of its number. -/
theorem ceiling_eq (x : Float) : ceiling x = ⌈value x⌉ := by
  unfold ceiling value
  cases hu : x.toModel.unpack with
  | infinity s => exact Int.ceil_zero.symm
  | notANumber => exact Int.ceil_zero.symm
  | zero s => exact Int.ceil_zero.symm
  | finite s m e hm =>
      cases s with
      | negative =>
          have hneg : number (.finite .negative m e hm) = -(m * 2 ^ e) := number_neg .positive e hm
          rw [hneg, Int.ceil_neg, ← wholePart_eq]
      | positive =>
          change (if e < 0 then _ else _) = ⌈(m : ℚ) * 2 ^ e⌉
          split
          · next he =>
              rw [zpow_of_neg he, ← div_eq_mul_inv]
              exact (ceil_natCast_div m (Nat.two_pow_pos _)).symm
          · next he =>
              rw [zpow_of_nonneg he, ← Nat.cast_mul, Int.ceil_natCast, wholePart, if_neg he]

end DeskCalc.Double
