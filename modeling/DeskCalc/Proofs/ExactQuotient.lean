import DeskCalc.Proofs.QuotientAccuracy
import Mathlib.Algebra.Group.Int.Even

/-!
# Quotients without a remainder

A quotient that ends within the precision is an even number of units at the working scale, since
the guard digits behind it are zeros. An inverse that is rounded once brings half a unit into it
at most, and a half is rounded to even, so neither of the later roundings leaves the quotient.
The inverse in use is rounded twice, and this matters only for dividends that begin with two
nines.
-/

namespace DeskCalc

/-- An integer that is nearest to a number, the even one if two are. -/
structure RoundsToEven (q : ℚ) (c : Int) : Prop where
  near : |c - q| ≤ 1 / 2
  even_of_half : |c - q| = 1 / 2 → Even c

/-- A number rounded to `n` significant digits, a half going to even. -/
def IsRounded (q : ℚ) (n : Nat) (r : ℚ) : Prop :=
  ∃ k c : Int, 10 ^ (k - 1) ≤ |q| ∧ |q| < 10 ^ k ∧ r = c * 10 ^ (k - n) ∧
    RoundsToEven (q / 10 ^ (k - n)) c

/-- Distances are compared in units of the last place. -/
theorem abs_div_sub_le_iff {q y w unit : ℚ} (hunit : 0 < unit) :
    |q / unit - y| ≤ w ↔ |q - y * unit| ≤ w * unit := by
  have hscaled : |q - y * unit| = |q / unit - y| * unit := by
    rw [← abs_of_pos hunit, ← abs_mul, abs_of_pos hunit, sub_mul, div_mul_cancel₀ _ hunit.ne']
  rw [hscaled, mul_le_mul_iff_left₀ hunit]

namespace RoundsToEven

variable {q : ℚ} {c t : Int}

theorem of_int (c : Int) : RoundsToEven c c := by
  constructor
  · norm_num
  · norm_num

theorem neg (h : RoundsToEven q c) : RoundsToEven (-q) (-c) := by
  have hdistance : |(-c : Int) - -q| = |c - q| := by
    rw [Int.cast_neg, ← neg_sub', abs_neg]
  constructor
  · rw [hdistance]
    exact h.near
  · intro hhalf
    rw [hdistance] at hhalf
    exact (h.even_of_half hhalf).neg

/-- All numbers up to a half from an even number are rounded to it. -/
theorem eq_of_near (h : RoundsToEven q c) (ht : Even t) (hnear : |q - t| ≤ 1 / 2) : c = t := by
  have hstep : |(c - t : ℚ)| ≤ |c - q| + |q - t| := abs_sub_le _ _ _
  have hround := h.near
  have hle : |c - t| ≤ 1 := by
    have hcast : |(c - t : ℚ)| ≤ 1 := by linarith only [hstep, hround, hnear]
    exact_mod_cast hcast
  by_contra hne
  have hone : |c - t| = 1 := le_antisymm hle (Int.one_le_abs (sub_ne_zero.mpr hne))
  -- Of two neighbours this near, both are a half away, so the one that was chosen is even.
  have hhalf : |c - q| = 1 / 2 := by
    have hcast : |(c - t : ℚ)| = 1 := by exact_mod_cast hone
    linarith only [hstep, hround, hnear, hcast]
  have heven : Even |c - t| := even_abs.mpr ((h.even_of_half hhalf).sub ht)
  rw [hone] at heven
  exact absurd heven (by decide)

/-- Rounding does not leave an interval between integers. -/
theorem stays_near (h : RoundsToEven q c) {radius : Int} (hnear : |q - t| ≤ radius) :
    |(c - t : ℚ)| ≤ radius := by
  have hstep : |(c - t : ℚ)| ≤ |c - q| + |q - t| := abs_sub_le _ _ _
  have hround := h.near
  have hlt : |c - t| < radius + 1 := by
    have hcast : |(c - t : ℚ)| < radius + 1 := by linarith only [hstep, hround, hnear]
    exact_mod_cast hcast
  exact_mod_cast Int.lt_add_one_iff.mp hlt

theorem eq_of_int (h : RoundsToEven t c) : c = t := by
  have hnear : |(t - t : ℚ)| ≤ (0 : Int) := by rw [sub_self, abs_zero, Int.cast_zero]
  have hkept := h.stays_near hnear
  rw [Int.cast_zero, abs_nonpos_iff, sub_eq_zero] at hkept
  exact_mod_cast hkept

end RoundsToEven

namespace Rounding

theorem even_quotient_of_half {n d : Nat} (hd : 0 < d)
    (h : 2 * (halfEven.quotient n d * d) = 2 * n + d ∨
      2 * n = 2 * (halfEven.quotient n d * d) + d) : Even (halfEven.quotient n d) := by
  have hsplit := Nat.div_add_mod n d
  have hrest := Nat.mod_lt n hd
  have hup : (n / d + 1) * d = d * (n / d) + d := by ring
  have hsame : n / d * d = d * (n / d) := Nat.mul_comm _ _
  rw [Nat.even_iff]
  unfold quotient at h ⊢
  split at h
  · next hraises =>
      rw [if_pos hraises]
      simp only [raises, Bool.or_eq_true, Bool.and_eq_true, decide_eq_true_eq] at hraises
      omega
  · next hraises =>
      rw [if_neg hraises]
      simp only [raises, Bool.or_eq_true, Bool.and_eq_true, decide_eq_true_eq] at hraises
      omega

theorem roundsToEven_quotient (n : Nat) {d : Nat} (hd : 0 < d) :
    RoundsToEven (n / d) (halfEven.quotient n d) := by
  have hd' : (0 : ℚ) < d := by exact_mod_cast hd
  constructor
  · have hmoved := abs_signedQuotient_mul_sub_le (by decide : halfEven ≠ .down) n hd
    rw [abs_sub_comm, abs_div_sub_le_iff hd', abs_sub_comm, one_div_mul_eq_div]
    rwa [signedQuotient_natCast] at hmoved
  · intro hhalf
    rw [Int.cast_natCast] at hhalf
    rw [Int.even_coe_nat]
    apply even_quotient_of_half hd
    rcases eq_or_eq_neg_of_abs_eq hhalf with hup | hdown
    · left
      field_simp at hup
      have hcast : (2 * (halfEven.quotient n d * d) : ℚ) = 2 * n + d := by linarith only [hup]
      exact_mod_cast hcast
    · right
      field_simp at hdown
      have hcast : (2 * n : ℚ) = 2 * (halfEven.quotient n d * d) + d := by linarith only [hdown]
      exact_mod_cast hcast

theorem roundsToEven_signedQuotient (n : Int) {d : Nat} (hd : 0 < d) :
    RoundsToEven (n / d) (halfEven.signedQuotient n d) := by
  have hsize := roundsToEven_quotient n.natAbs hd
  unfold signedQuotient
  split
  · next hneg =>
      have hn : (n : ℚ) = -n.natAbs := by
        rw [Nat.cast_natAbs, abs_of_neg hneg, Int.cast_neg, neg_neg]
      rw [hn, neg_div]
      exact hsize.neg
  · next hpos =>
      have hn : (n : ℚ) = n.natAbs := by
        rw [Nat.cast_natAbs, abs_of_nonneg (not_lt.mp hpos)]
      rw [hn]
      exact hsize

end Rounding

namespace LongDecimal

/-- Rounding at a scale counts its units. -/
theorem roundsToEven_rescale (x : LongDecimal) (s : Int) :
    RoundsToEven (x.value / 10 ^ (-s)) (x.rescale .halfEven s).coefficient := by
  have hunit : (10 : ℚ) ^ (-s) ≠ 0 := zpow_ne_zero _ (by norm_num)
  rcases le_or_gt x.scale s with hs | hs
  · have hkept : x.value / 10 ^ (-s) = (x.rescale .halfEven s).coefficient := by
      rw [← value_rescale .halfEven x hs, value, rescale_scale, mul_div_cancel_right₀ _ hunit]
    rw [hkept]
    exact RoundsToEven.of_int _
  · have hunits : x.value / 10 ^ (-s) = x.coefficient / tenPow (x.scale - s).toNat := by
      have hsplit : tenPow (x.scale - s).toNat * (10 : ℚ) ^ (-x.scale) = 10 ^ (-s) :=
        tenPow_mul_zpow (by omega)
      rw [value, div_eq_div_iff hunit (by exact_mod_cast (tenPow_pos _).ne'), mul_assoc,
        mul_comm (10 ^ _) (tenPow _ : ℚ), hsplit]
    rw [hunits, rescale_of_lt .halfEven x hs]
    exact Rounding.roundsToEven_signedQuotient _ (tenPow_pos _)

/-- Rounding to significant digits is correct rounding. -/
theorem isRounded_significant {x : LongDecimal} (hx : x.value ≠ 0) (n : Nat) :
    IsRounded x.value n (x.significant .halfEven n).value := by
  have hround := x.roundsToEven_rescale (n - x.magnitude)
  have hvalue : (x.significant .halfEven n).value =
      (x.rescale .halfEven (n - x.magnitude)).coefficient * 10 ^ (x.magnitude - n) := by
    rw [value_significant, value, rescale_scale, neg_sub]
  rw [neg_sub] at hround
  exact ⟨x.magnitude, _, tenPow_magnitude_le (mt value_eq_zero_iff.mpr hx),
    x.abs_value_lt_magnitude, hvalue, hround⟩

end LongDecimal

namespace IsRounded

variable {q r : ℚ} {n : Nat} {k : Int}

/-- A power of ten is kept. -/
theorem eq_of_zpow (h : IsRounded q n r) (hn : 0 < n) (hk : |q| = 10 ^ k) : r = q := by
  obtain ⟨p, c, hlow, hhigh, rfl, hround⟩ := h
  have hunit : (0 : ℚ) < 10 ^ (p - n) := zpow_pos (by norm_num) _
  have hp : p = k + 1 := by
    rw [hk] at hlow hhigh
    have hle := (zpow_le_zpow_iff_right₀ (by norm_num)).mp hlow
    have hlt := (zpow_lt_zpow_iff_right₀ (by norm_num)).mp hhigh
    omega
  have hwhole : (10 : ℚ) ^ k / 10 ^ (p - n) = ((10 ^ (n - 1) : Int) : ℚ) := by
    rw [← zpow_sub₀ (by norm_num), Int.cast_pow, ← zpow_natCast]
    congr 1
    omega
  have hkept : ∃ t : Int, q / 10 ^ (p - n) = t := by
    rcases eq_or_eq_neg_of_abs_eq hk with rfl | rfl
    · exact ⟨_, hwhole⟩
    · exact ⟨-10 ^ (n - 1), by rw [neg_div, hwhole, Int.cast_neg]⟩
  obtain ⟨t, ht⟩ := hkept
  rw [ht] at hround
  rw [hround.eq_of_int, ← ht, div_mul_cancel₀ _ hunit.ne']

/-- A number up to a power of ten is moved by half a unit of the last digit below it. -/
theorem abs_sub_le (h : IsRounded q n r) (hn : 0 < n) (hk : |q| ≤ 10 ^ k) :
    |r - q| ≤ 10 ^ (k - n) / 2 := by
  rcases hk.lt_or_eq with hlt | hpower
  · obtain ⟨p, c, hlow, hhigh, rfl, hround⟩ := h
    have hp : p - 1 < k := (zpow_lt_zpow_iff_right₀ (by norm_num)).mp (hlow.trans_lt hlt)
    have hle : (10 : ℚ) ^ (p - n) ≤ 10 ^ (k - n) := zpow_le_zpow_right₀ (by norm_num) (by omega)
    have hnear := hround.near
    rw [abs_sub_comm, abs_div_sub_le_iff (zpow_pos (by norm_num) _), abs_sub_comm] at hnear
    linarith only [hnear, hle]
  · rw [h.eq_of_zpow hn hpower, sub_self, abs_zero]
    positivity

/-- A power of ten is not passed. -/
theorem abs_le (h : IsRounded q n r) (hn : 0 < n) (hk : |q| ≤ 10 ^ k) : |r| ≤ 10 ^ k := by
  rcases hk.lt_or_eq with hlt | hpower
  · obtain ⟨p, c, hlow, hhigh, rfl, hround⟩ := h
    have hunit : (0 : ℚ) < 10 ^ (p - n) := zpow_pos (by norm_num) _
    have hp : p - 1 < k := (zpow_lt_zpow_iff_right₀ (by norm_num)).mp (hlow.trans_lt hlt)
    have hsplit : (10 : ℚ) ^ p = ((10 ^ n : Int) : ℚ) * 10 ^ (p - n) := by
      push_cast
      rw [← zpow_natCast, ← zpow_add₀ (by norm_num)]
      congr 1
      omega
    have hnear : |q / 10 ^ (p - n) - (0 : Int)| ≤ ((10 ^ n : Int) : ℚ) := by
      rw [abs_div_sub_le_iff hunit, ← hsplit, Int.cast_zero, zero_mul, sub_zero]
      exact hhigh.le
    have hdigits := hround.stays_near hnear
    rw [Int.cast_zero, sub_zero] at hdigits
    calc
      |(c * 10 ^ (p - n) : ℚ)| = |(c : ℚ)| * 10 ^ (p - n) := by rw [abs_mul, abs_of_pos hunit]
      _ ≤ ((10 ^ n : Int) : ℚ) * 10 ^ (p - n) := mul_le_mul_of_nonneg_right hdigits hunit.le
      _ = 10 ^ p := hsplit.symm
      _ ≤ 10 ^ k := zpow_le_zpow_right₀ (by norm_num) (by omega)
  · rw [h.eq_of_zpow hn hpower, hpower]

/-- Around an even number of units no half unit is left. -/
theorem abs_sub_le_of_near (h : IsRounded q n r) (hk : |q| < 10 ^ k) {t : Int} (ht : Even t)
    (hnear : |q - t * 10 ^ (k - n)| ≤ 10 ^ (k - n) / 2) :
    |r - t * 10 ^ (k - n)| ≤ 10 ^ (k - n) / 2 := by
  obtain ⟨p, c, hlow, hhigh, rfl, hround⟩ := h
  have hunit : (0 : ℚ) < 10 ^ (p - n) := zpow_pos (by norm_num) _
  have hp : p ≤ k := by
    have hlt := (zpow_lt_zpow_iff_right₀ (by norm_num)).mp (lt_of_le_of_lt hlow hk)
    omega
  obtain ⟨j, hj⟩ := Int.eq_ofNat_of_zero_le (sub_nonneg.mpr hp)
  have hunits : (10 : ℚ) ^ (k - n) = 10 ^ j * 10 ^ (p - n) := by
    rw [← zpow_natCast, ← zpow_add₀ (by norm_num)]
    congr 1
    omega
  rw [hunits, ← mul_assoc, mul_div_right_comm, ← abs_div_sub_le_iff hunit] at hnear ⊢
  rw [mul_div_cancel_right₀ _ hunit.ne']
  cases j with
  | zero =>
      rw [pow_zero, mul_one] at hnear ⊢
      rw [hround.eq_of_near ht hnear, sub_self, abs_zero]
      norm_num
  | succ j =>
      have hradius : (10 : ℚ) ^ (j + 1) / 2 = ((5 * 10 ^ j : Int) : ℚ) := by
        push_cast
        ring
      have hcenter : (t : ℚ) * 10 ^ (j + 1) = ((t * 10 ^ (j + 1) : Int) : ℚ) := by
        push_cast
        rfl
      rw [hradius, hcenter] at hnear ⊢
      exact hround.stays_near hnear

end IsRounded

namespace LongDecimal

/-- Half a unit around an even number of units is rounded to it. -/
theorem value_rescale_of_near {x : LongDecimal} {s t : Int} (ht : Even t)
    (h : |x.value - t * 10 ^ (-s)| ≤ 10 ^ (-s) / 2) :
    (x.rescale .halfEven s).value = t * 10 ^ (-s) := by
  have hunit : (0 : ℚ) < 10 ^ (-s) := zpow_pos (by norm_num) _
  rw [← one_div_mul_eq_div, ← abs_div_sub_le_iff hunit] at h
  rw [value, (x.roundsToEven_rescale s).eq_of_near ht h, rescale_scale]

/-- Rounding to significant digits stays within half a unit around an even number of units. -/
theorem abs_value_significant_sub_le_of_near {x : LongDecimal} {k t : Int} {n : Nat}
    (hlt : |x.value| < 10 ^ k) (ht : Even t)
    (hnear : |x.value - t * 10 ^ (k - n)| ≤ 10 ^ (k - n) / 2) :
    |(x.significant .halfEven n).value - t * 10 ^ (k - n)| ≤ 10 ^ (k - n) / 2 := by
  by_cases hzero : x.value = 0
  · rwa [value_significant_zero hzero, ← hzero]
  · exact (isRounded_significant hzero n).abs_sub_le_of_near hlt ht hnear

/-- A number that ends within the precision is an even number of units at any scale behind it. -/
theorem even_units (c : Int) {precision : Nat} {s : Int} (hs : precision < s) :
    ∃ t : Int, Even t ∧ (c * 10 ^ (-(precision : Int)) : ℚ) = t * 10 ^ (-s) := by
  obtain ⟨j, hj⟩ := Int.eq_ofNat_of_zero_le (sub_nonneg.mpr hs.le)
  refine ⟨c * 10 ^ j, ?_, ?_⟩
  · have hten : Even ((10 : Int) ^ j) := Int.even_pow.mpr ⟨by decide, by omega⟩
    exact hten.mul_left c
  · rw [Int.cast_mul, Int.cast_pow, mul_assoc, Int.cast_ofNat, ← zpow_natCast,
      ← zpow_add₀ (by norm_num)]
    congr 2
    omega

variable {inverse : LongDecimal → Nat → LongDecimal} {a b q : LongDecimal} {precision : Nat}
  {c : Int}

/-- If the inverse brings half a unit of the last digit into a quotient that ends within the
precision, the later roundings find the quotient. -/
theorem value_divWith_of_near (hquotient : a.value / b.value = c * 10 ^ (-(precision : Int)))
    (hsize : |(inverse b (quotientDigits a b precision)).value| ≤ 10 ^ (1 - b.magnitude))
    (hnear : |a.value| * |(inverse b (quotientDigits a b precision)).value - b.value⁻¹| ≤
      10 ^ a.magnitude * (10 ^ (1 - b.magnitude - quotientDigits a b precision) / 2))
    (h : divWith inverse a b precision = .ok q) : q.value = a.value / b.value := by
  obtain ⟨-, rfl⟩ := divWith_eq_ok h
  set n := quotientDigits a b precision with hn
  set k := a.magnitude - b.magnitude + 1 with hk
  set unrounded := product a (inverse b n) with hproduct
  have hlast : (guardedScale precision : Int) ≤ n - k := by
    rw [hn, quotientDigits, guardedDigits]
    omega
  have hbehind : (precision : Int) < guardedScale precision := by
    rw [guardedScale, guardDigits]
    omega
  have hrounded : |(unrounded.significant .halfEven n).value - a.value / b.value| ≤
      10 ^ (k - n) / 2 := by
    obtain ⟨t, ht, hunits⟩ := even_units c (hbehind.trans_le hlast)
    rw [← abs_mul, mul_sub, ← value_product, ← hproduct, ← div_eq_mul_inv, ← mul_div_assoc,
      ← zpow_quotient] at hnear
    rw [neg_sub] at hunits
    rw [hquotient, hunits] at hnear ⊢
    exact abs_value_significant_sub_le_of_near (abs_value_product_lt a hsize) ht hnear
  have hunit : (10 : ℚ) ^ (k - n) ≤ 10 ^ (-(guardedScale precision : Int)) :=
    zpow_le_zpow_right₀ (by norm_num) (by omega)
  obtain ⟨t, ht, hunits⟩ := even_units c hbehind
  rw [hquotient, hunits] at hrounded ⊢
  exact value_rescale_of_near ht (by linarith only [hrounded, hunit])

/-- A quotient with no digits behind those that are shown is exact, if the inverse that it is
taken with is rounded correctly. -/
theorem divWith_exact (hquotient : a.value / b.value = c * 10 ^ (-(precision : Int)))
    (hinverse : IsRounded b.value⁻¹ (quotientDigits a b precision)
      (inverse b (quotientDigits a b precision)).value)
    (h : divWith inverse a b precision = .ok q) : q.value = a.value / b.value := by
  have hpos := quotientDigits_pos a b precision
  have hsize := abs_inv_value_le (divWith_eq_ok h).1
  apply value_divWith_of_near hquotient (hinverse.abs_le hpos hsize) _ h
  exact mul_le_mul a.abs_value_lt_magnitude.le (hinverse.abs_sub_le hpos hsize) (abs_nonneg _)
    (zpow_nonneg (by norm_num) _)

/-- Six by three, with the inverse in use. -/
theorem divWith_exact_thirds :
    value ⟨6, 0⟩ / value ⟨3, 0⟩ = (2 : Int) * 10 ^ (-((0 : Nat) : Int)) ∧
      quotientDigits ⟨6, 0⟩ ⟨3, 0⟩ 0 = 17 ∧
      IsRounded (value ⟨3, 0⟩)⁻¹ 17 (LongDecimal.inverse ⟨3, 0⟩ 17).value ∧
      div ⟨6, 0⟩ ⟨3, 0⟩ 0 = .ok ⟨20000000000000000, 16⟩ ∧
      value ⟨20000000000000000, 16⟩ = value ⟨6, 0⟩ / value ⟨3, 0⟩ := by
  have hquotient : value ⟨6, 0⟩ / value ⟨3, 0⟩ = (2 : Int) * 10 ^ (-((0 : Nat) : Int)) := by
    norm_num [value]
  have hdigits : quotientDigits ⟨6, 0⟩ ⟨3, 0⟩ 0 = 17 := by decide +kernel
  have hinverse : IsRounded (value ⟨3, 0⟩)⁻¹ 17 (LongDecimal.inverse ⟨3, 0⟩ 17).value := by
    have hcall : LongDecimal.inverse ⟨3, 0⟩ 17 = ⟨33333333333333333, 17⟩ := by decide +kernel
    rw [hcall]
    refine ⟨0, 33333333333333333, ?_, ?_, ?_, ?_, ?_⟩ <;> norm_num [value, abs_of_pos, abs_of_neg]
  have h : div ⟨6, 0⟩ ⟨3, 0⟩ 0 = .ok ⟨20000000000000000, 16⟩ := by decide +kernel
  exact ⟨hquotient, hdigits, hinverse, h, divWith_exact hquotient (hdigits ▸ hinverse) h⟩

/-- The inverse in use is off by a hundredth of half a unit more than one that is rounded
correctly. A dividend that does not begin with two nines leaves room for that. -/
theorem div_exact_of_leading (hquotient : a.value / b.value = c * 10 ^ (-(precision : Int)))
    (hleading : |a.value| ≤ 99 / 100 * 10 ^ a.magnitude) (h : a.div b precision = .ok q) :
    q.value = a.value / b.value := by
  have hpos := quotientDigits_pos a b precision
  have hb : b.coefficient ≠ 0 := mt value_eq_zero_iff.mpr (divWith_eq_ok h).1
  have hdistance := abs_value_inverse_sub_le hb hpos
  apply value_divWith_of_near hquotient (abs_value_inverse_le hb hpos) _ h
  set unit : ℚ := 10 ^ (1 - b.magnitude - quotientDigits a b precision)
  have hpower : (0 : ℚ) < 10 ^ a.magnitude := zpow_pos (by norm_num) _
  have hunit : 0 < unit := zpow_pos (by norm_num) _
  calc
    |a.value| * |(b.inverse (quotientDigits a b precision)).value - b.value⁻¹| ≤
        99 / 100 * 10 ^ a.magnitude * (101 / 200 * unit) :=
      mul_le_mul hleading hdistance (abs_nonneg _) (by positivity)
    _ = 9999 / 10000 * (10 ^ a.magnitude * (unit / 2)) := by ring
    _ ≤ 10 ^ a.magnitude * (unit / 2) := by
      have hproduct : 0 < 10 ^ a.magnitude * (unit / 2) := by positivity
      linarith only [hproduct]

/-- The inverse of 414 lies a little above the middle between two numbers of twenty digits. With
two digits more it is the middle, and goes down to even. The dividend begins with enough nines to
bring this into the quotient. -/
theorem div_of_twice_rounded_inverse :
    value ⟨999810, 0⟩ / value ⟨414, 0⟩ = 2415 ∧
      quotientDigits ⟨999810, 0⟩ ⟨414, 0⟩ 0 = 20 ∧
      ¬ IsRounded (value ⟨414, 0⟩)⁻¹ 20 (LongDecimal.inverse ⟨414, 0⟩ 20).value ∧
      div ⟨999810, 0⟩ ⟨414, 0⟩ 0 = .ok ⟨24149999999999999999, 16⟩ ∧
      value ⟨24149999999999999999, 16⟩ < 2415 := by
  have hcall : LongDecimal.inverse ⟨414, 0⟩ 20 = ⟨24154589371980676328, 22⟩ := by decide +kernel
  have hrounded : ¬ IsRounded (value ⟨414, 0⟩)⁻¹ 20 (LongDecimal.inverse ⟨414, 0⟩ 20).value := by
    intro h
    have hsize : |(value ⟨414, 0⟩)⁻¹| ≤ 10 ^ (-2 : Int) := by norm_num [value, abs_of_pos]
    have hnear := (abs_le.mp (h.abs_sub_le (by decide) hsize)).1
    rw [hcall] at hnear
    norm_num [value] at hnear
  refine ⟨?_, by decide +kernel, hrounded, by decide +kernel, ?_⟩
  · norm_num [value]
  · norm_num [value]

end LongDecimal

end DeskCalc
