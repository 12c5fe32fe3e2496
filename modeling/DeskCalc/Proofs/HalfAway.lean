import DeskCalc.Proofs.DomainErrors
import DeskCalc.Proofs.NearestRounding

/-!
# Rounding half away from zero

What is shown of a number is the nearest one with the places asked for, and of two that are
as near the one away from zero. This is a function of the number alone, and the digits that
rescaling keeps are given by it.
-/

namespace DeskCalc

/-- The integer nearest to a number, and of two that are as near the one away from zero. -/
def halfAway (q : ℚ) : Int := if 0 ≤ q then ⌊q + 1 / 2⌋ else ⌈q - 1 / 2⌉

@[simp] theorem halfAway_intCast (n : Int) : halfAway n = n := by
  have hfloor : ⌊(1 / 2 : ℚ)⌋ = 0 := by norm_num
  have hceil : ⌈(-(1 / 2) : ℚ)⌉ = 0 := by
    rw [Int.ceil_neg, hfloor, neg_zero]
  unfold halfAway
  split
  · rw [Int.floor_intCast_add, hfloor, add_zero]
  · rw [sub_eq_add_neg, Int.ceil_intCast_add, hceil, add_zero]

theorem halfAway_neg (q : ℚ) : halfAway (-q) = -halfAway q := by
  have hshift : -q - 1 / 2 = -(q + 1 / 2) := by ring
  have hshift' : -q + 1 / 2 = -(q - 1 / 2) := by ring
  unfold halfAway
  rcases lt_trichotomy q 0 with hq | rfl | hq
  · rw [if_pos (by linarith), if_neg (by linarith), hshift', Int.floor_neg]
  · norm_num
  · rw [if_neg (by linarith), if_pos hq.le, hshift, Int.ceil_neg]

theorem abs_halfAway_sub_le (q : ℚ) : |(halfAway q : ℚ) - q| ≤ 1 / 2 := by
  unfold halfAway
  rw [abs_le]
  split
  · have hlow := Int.floor_le (q + 1 / 2)
    have hhigh := Int.lt_floor_add_one (q + 1 / 2)
    constructor <;> linarith
  · have hlow := Int.le_ceil (q - 1 / 2)
    have hhigh := Int.ceil_lt_add_one (q - 1 / 2)
    constructor <;> linarith

namespace Rounding

/-- Rounding half up is cutting off behind half a unit more. -/
theorem halfUp_quotient (n : Nat) {d : Nat} (hd : 0 < d) :
    halfUp.quotient n d = (2 * n + d) / (2 * d) := by
  have hsplit := Nat.div_add_mod n d
  have hrest := Nat.mod_lt n hd
  have hnonneg := Nat.zero_le (n % d)
  symm
  unfold quotient
  split
  · next hraises =>
      have hhalf : d ≤ 2 * (n % d) := by simpa [raises] using hraises
      apply Nat.div_eq_of_lt_le
      · linarith
      · linarith
  · next hraises =>
      have hhalf : 2 * (n % d) < d := by simpa [raises] using hraises
      apply Nat.div_eq_of_lt_le
      · linarith
      · linarith

theorem halfUp_quotient_eq_halfAway (n : Nat) {d : Nat} (hd : 0 < d) :
    (halfUp.quotient n d : Int) = halfAway ((n : ℚ) / d) := by
  have hd' : (d : ℚ) ≠ 0 := by exact_mod_cast hd.ne'
  have hhalf : (n : ℚ) / d + 1 / 2 = ((2 * n + d : Nat) : Int) / ((2 * d : Nat) : ℚ) := by
    push_cast
    field_simp
  rw [halfAway, if_pos (by positivity), hhalf, Rat.floor_intCast_div_natCast,
    halfUp_quotient n hd]
  rfl

/-- The quotient of a signed dividend is rounded by its magnitude, away from zero. -/
theorem halfUp_signedQuotient (n : Int) {d : Nat} (hd : 0 < d) :
    halfUp.signedQuotient n d = halfAway ((n : ℚ) / d) := by
  rcases le_or_gt 0 n with hn | hn
  · lift n to Nat using hn
    rw [signedQuotient_natCast, halfUp_quotient_eq_halfAway n hd, Int.cast_natCast]
  · obtain ⟨m, rfl⟩ : ∃ m : Nat, n = -m := ⟨n.natAbs, by omega⟩
    rw [signedQuotient, if_pos hn, Int.natAbs_neg, Int.natAbs_natCast,
      halfUp_quotient_eq_halfAway m hd, Int.cast_neg, Int.cast_natCast, neg_div, halfAway_neg]

end Rounding

/-- A number rounded half away from zero to a number of places. -/
def roundedAway (places : Nat) (q : ℚ) : ℚ := halfAway (q * 10 ^ places) / 10 ^ places

theorem roundedAway_mul_pow (places : Nat) (q : ℚ) :
    roundedAway places q * 10 ^ places = halfAway (q * 10 ^ places) := by
  rw [roundedAway]
  field_simp

/-- Half a unit of the last place is the most that rounding moves a number by. -/
theorem abs_roundedAway_sub_le (places : Nat) (q : ℚ) :
    |roundedAway places q - q| ≤ 10 ^ (-(places : Int)) / 2 := by
  have hunit : (0 : ℚ) < 10 ^ places := by positivity
  have hround := abs_halfAway_sub_le (q * 10 ^ places)
  have hscaled : roundedAway places q - q =
      (halfAway (q * 10 ^ places) - q * 10 ^ places) / 10 ^ places := by
    rw [roundedAway]
    field_simp
  rw [hscaled, abs_div, abs_of_pos hunit, zpow_neg, zpow_natCast, div_le_iff₀ hunit]
  calc
    |(halfAway (q * 10 ^ places) : ℚ) - q * 10 ^ places| ≤ 1 / 2 := hround
    _ = (10 ^ places)⁻¹ / 2 * 10 ^ places := by field_simp

namespace LongDecimal

theorem value_mul_pow (c : Int) (places : Nat) : value ⟨c, places⟩ * 10 ^ places = c := by
  rw [value, zpow_neg, zpow_natCast]
  field_simp

/-- The digits that are left at a number of places are those of the rounded number. -/
theorem coefficient_rescale_halfUp (x : LongDecimal) (places : Nat) :
    (x.rescale .halfUp places).coefficient = halfAway (x.value * 10 ^ places) := by
  rcases le_or_gt x.scale places with hs | hs
  · rw [rescale_of_le .halfUp x hs, ← value_shift_of_le x hs, value_mul_pow, halfAway_intCast]
  · have hpow : (10 : ℚ) ^ (-x.scale) * 10 ^ places =
        (tenPow (x.scale - places).toNat : ℚ)⁻¹ := by
      rw [cast_tenPow, ← zpow_natCast, ← zpow_natCast, ← zpow_neg, ← zpow_add₀ (by norm_num)]
      congr 1
      omega
    rw [rescale_of_lt .halfUp x hs, Rounding.halfUp_signedQuotient _ (tenPow_pos _), value,
      mul_assoc, hpow, div_eq_mul_inv]

/-- What is left of a number at a number of places is the number rounded to them. -/
theorem value_rescale_halfUp (x : LongDecimal) (places : Nat) :
    (x.rescale .halfUp places).value = roundedAway places x.value := by
  rw [value, rescale_scale, coefficient_rescale_halfUp, roundedAway, zpow_neg, zpow_natCast,
    div_eq_mul_inv]

/-- A number that has a form with the places is its own rounding. -/
theorem roundedAway_value_of_le {x : LongDecimal} {places : Nat} (h : x.scale ≤ places) :
    roundedAway places x.value = x.value := by
  rw [← value_rescale_halfUp, value_rescale .halfUp x h]

end LongDecimal

end DeskCalc
