import DeskCalc.Proofs.RootSize

/-!
# The size of a rounded power

A long power is rounded to its leading digits without being computed in full: bounds of it are
squared and cut outward until both round alike. Whatever they round to differs from the power by
a small part of it, since the lower bound is not above the power and the upper one not below it.
-/

namespace DeskCalc

/-- Whether `a` differs from `b` by the part `t` of `b` at most. -/
def Near (t a b : ℚ) : Prop := |a - b| ≤ t * b

theorem Near.trans {t u a b c : ℚ} (ht : 0 ≤ t) (h : Near t a b) (h' : Near u b c) :
    Near (t + u + t * u) a c := by
  have hb : b ≤ c + u * c := by
    have hle := le_trans (le_abs_self (b - c)) h'
    linarith only [hle]
  calc
    |a - c| ≤ |a - b| + |b - c| := abs_sub_le a b c
    _ ≤ t * b + u * c := add_le_add h h'
    _ ≤ t * (c + u * c) + u * c := by
      have hmul := mul_le_mul_of_nonneg_left hb ht
      linarith only [hmul]
    _ = (t + u + t * u) * c := by ring

theorem Near.mono {t u a b : ℚ} (h : Near t a b) (htu : t ≤ u) (hb : 0 ≤ b) : Near u a b :=
  le_trans h (mul_le_mul_of_nonneg_right htu hb)

theorem Near.mul_right {t a b c : ℚ} (h : Near t a b) (hc : 0 ≤ c) : Near t (a * c) (b * c) := by
  calc
    |a * c - b * c| = |a - b| * c := by rw [← sub_mul, abs_mul, abs_of_nonneg hc]
    _ ≤ t * b * c := mul_le_mul_of_nonneg_right h hc
    _ = t * (b * c) := mul_assoc t b c

theorem Near.refl {t b : ℚ} (ht : 0 ≤ t) (hb : 0 ≤ b) : Near t b b := by
  rw [Near, sub_self, abs_zero]
  exact mul_nonneg ht hb

/-- A number between two that are rounded alike is near to what they are rounded to. -/
theorem Near.of_bounds {t a b low high : ℚ} (ht : 0 ≤ t) (ht' : t ≤ 1) (hlow : low ≤ b)
    (hhigh : b ≤ high) (h : Near t a low) (h' : Near t a high) : Near t a b := by
  have hup := (abs_le.mp h).2
  have hdown := (abs_le.mp h').1
  have hlow' := mul_le_mul_of_nonneg_left hlow ht
  have hhigh' := mul_le_mul_of_nonneg_left hhigh (sub_nonneg.mpr ht')
  rw [Near, abs_le]
  constructor
  · linarith only [hdown, hhigh']
  · linarith only [hup, hlow, hlow']

theorem Rounding.abs_quotient_mul_sub_le (mode : Rounding) (n : Nat) {d : Nat} (hd : 0 < d) :
    |((mode.quotient n d * d : Nat) : ℚ) - n| ≤ d := by
  have hlow : n ≤ mode.quotient n d * d + d := by
    have hle := Nat.mul_le_mul_right d (mode.le_quotient n d)
    have hlt := Nat.lt_div_mul_add (a := n) hd
    omega
  have hhigh : mode.quotient n d * d ≤ n + d := by
    have hle := Nat.mul_le_mul_right d (mode.quotient_le n d)
    have hfloor := Nat.div_mul_le_self n d
    rw [Nat.add_mul, Nat.one_mul] at hle
    omega
  rw [abs_le]
  constructor
  · have hcast : (n : ℚ) ≤ (mode.quotient n d * d : Nat) + d := by exact_mod_cast hlow
    linarith only [hcast]
  · have hcast : ((mode.quotient n d * d : Nat) : ℚ) ≤ n + d := by exact_mod_cast hhigh
    linarith only [hcast]

/-- The part of a number that `width` digits of it leave out. -/
def partBehind (width : Nat) : ℚ := 10 ^ (1 - (width : Int))

theorem partBehind_nonneg (width : Nat) : 0 ≤ partBehind width := zpow_nonneg (by norm_num) _

theorem partBehind_le_one {width : Nat} (h : 0 < width) : partBehind width ≤ 1 :=
  zpow_le_one_of_nonpos₀ (by norm_num) (by omega)

/-- A natural is near to its leading digits. -/
theorem Rounding.near_quotient (mode : Rounding) {width : Nat} (hw : 0 < width) (n : Nat) :
    Near (partBehind width) (mode.quotient n (tenPow (Digits.count n - width)) *
      tenPow (Digits.count n - width) : Nat) n := by
  by_cases hshort : Digits.count n ≤ width
  · rw [Nat.sub_eq_zero_of_le hshort, tenPow_zero, Rounding.quotient_one, Nat.mul_one]
    exact Near.refl (partBehind_nonneg width) (Nat.cast_nonneg n)
  · have hn : 0 < n := by
      apply Nat.pos_of_ne_zero
      rintro rfl
      exact hshort hw
    have hleading : (10 : ℚ) ^ (Digits.count n - 1) ≤ n := by
      exact_mod_cast Digits.tenPow_le_of_count hn
    have hunit : (tenPow (Digits.count n - width) : ℚ) =
        partBehind width * 10 ^ (Digits.count n - 1) := by
      rw [cast_tenPow, partBehind, ← zpow_natCast, ← zpow_natCast, ← zpow_add₀ (by norm_num)]
      congr 1
      omega
    calc
      |((mode.quotient n (tenPow (Digits.count n - width)) *
          tenPow (Digits.count n - width) : Nat) : ℚ) - n| ≤
          tenPow (Digits.count n - width) := mode.abs_quotient_mul_sub_le n (tenPow_pos _)
      _ = partBehind width * 10 ^ (Digits.count n - 1) := hunit
      _ ≤ partBehind width * n := mul_le_mul_of_nonneg_left hleading (partBehind_nonneg width)

namespace Bracket

/-- A bracket holds a natural between its bounds. -/
structure Encloses (b : Bracket) (v : Nat) : Prop where
  lower : b.lower * tenPow b.shift ≤ v
  upper : v ≤ b.upper * tenPow b.shift

theorem encloses_trim (width : Nat) {b : Bracket} {v : Nat} (h : b.Encloses v) :
    (b.trim width).Encloses v := by
  set k := Digits.count b.upper - width with hk
  have hd : 0 < tenPow k := tenPow_pos k
  have hfloor : b.lower / tenPow k * tenPow k ≤ b.lower := Nat.div_mul_le_self _ _
  have hceiling : b.upper ≤ (b.upper + (tenPow k - 1)) / tenPow k * tenPow k := by
    have hlt := Nat.lt_div_mul_add (a := b.upper + (tenPow k - 1)) hd
    omega
  constructor
  · calc
      b.lower / tenPow k * tenPow (b.shift + k) =
          b.lower / tenPow k * tenPow k * tenPow b.shift := by
        rw [tenPow_add]
        ring
      _ ≤ b.lower * tenPow b.shift := Nat.mul_le_mul_right _ hfloor
      _ ≤ v := h.lower
  · calc
      v ≤ b.upper * tenPow b.shift := h.upper
      _ ≤ (b.upper + (tenPow k - 1)) / tenPow k * tenPow k * tenPow b.shift :=
        Nat.mul_le_mul_right _ hceiling
      _ = (b.upper + (tenPow k - 1)) / tenPow k * tenPow (b.shift + k) := by
        rw [tenPow_add]
        ring

theorem encloses_mul (width : Nat) {a b : Bracket} {v w : Nat} (ha : a.Encloses v)
    (hb : b.Encloses w) : (mul width a b).Encloses (v * w) := by
  apply encloses_trim
  constructor
  · have hmul := Nat.mul_le_mul ha.lower hb.lower
    rw [tenPow_add]
    linarith only [hmul]
  · have hmul := Nat.mul_le_mul ha.upper hb.upper
    rw [tenPow_add]
    linarith only [hmul]

theorem encloses_self (m : Nat) : Encloses ⟨m, m, 0⟩ m :=
  ⟨(Nat.mul_one m).le, (Nat.mul_one m).ge⟩

/-- Squaring the bounds of half the power gives bounds of the power. -/
theorem encloses_pow (width m n : Nat) : (pow width m n).Encloses (m ^ n) := by
  fun_induction pow width m n with
  | case1 => exact encloses_self 1
  | case2 n hn half square heven ih =>
      have hhalf : m ^ n = m ^ (n / 2) * m ^ (n / 2) := by
        rw [← pow_add]
        congr 1
        omega
      rw [hhalf]
      exact encloses_mul width ih ih
  | case3 n hn half square hodd ih =>
      have hhalf : m ^ n = m ^ (n / 2) * m ^ (n / 2) * m := by
        rw [← pow_add, ← pow_succ]
        congr 1
        omega
      rw [hhalf]
      exact encloses_mul width (encloses_mul width ih ih) (encloses_trim width (encloses_self m))

theorem near_roundTo {width : Nat} (hw : 0 < width) (n shift : Nat) :
    Near (partBehind width) ((roundTo width n shift).1 * 10 ^ (roundTo width n shift).2)
      (n * 10 ^ shift) := by
  have hnear := (Rounding.halfEven.near_quotient hw n).mul_right
    (c := 10 ^ shift) (by positivity)
  rw [Nat.cast_mul, cast_tenPow, mul_assoc, ← pow_add, Nat.add_comm _ shift] at hnear
  exact hnear

theorem rounded?_eq_some {width : Nat} {b : Bracket} {r : Nat × Nat} :
    b.rounded? width = some r ↔
      roundTo width b.lower b.shift = r ∧ roundTo width b.upper b.shift = r := by
  unfold rounded?
  dsimp only
  split
  · next hagree => rw [Option.some_inj, ← hagree, and_self]
  · next hagree =>
      constructor
      · intro h
        cases h
      · rintro ⟨hlow, hhigh⟩
        exact absurd (hlow.trans hhigh.symm) hagree

/-- What both bounds are rounded to is near to the number between them. -/
theorem near_rounded? {width : Nat} (hw : 0 < width) {b : Bracket} {v : Nat} (h : b.Encloses v)
    {r : Nat × Nat} (hr : b.rounded? width = some r) :
    Near (partBehind width) (r.1 * 10 ^ r.2) v := by
  obtain ⟨hagree, hagree'⟩ := rounded?_eq_some.mp hr
  have hlow := near_roundTo hw b.lower b.shift
  have hhigh := near_roundTo hw b.upper b.shift
  rw [hagree] at hlow
  rw [hagree'] at hhigh
  have hlower : (b.lower : ℚ) * 10 ^ b.shift ≤ v := by exact_mod_cast h.lower
  have hupper : (v : ℚ) ≤ b.upper * 10 ^ b.shift := by exact_mod_cast h.upper
  exact .of_bounds (partBehind_nonneg width) (partBehind_le_one hw) hlower hupper hlow hhigh

end Bracket

/-- The digits of a power are those of bounds that enclose it, at last of the power itself. -/
theorem roundedPower_encloses (width m n attempts inner : Nat) :
    ∃ b : Bracket, b.Encloses (m ^ n) ∧
      b.rounded? width = some (roundedPower width m n attempts inner) := by
  fun_induction roundedPower width m n attempts inner with
  | case1 inner => exact ⟨_, Bracket.encloses_self (m ^ n), Bracket.rounded?_eq_some.mpr ⟨rfl, rfl⟩⟩
  | case2 attempts inner r hr => exact ⟨_, Bracket.encloses_pow inner m n, hr⟩
  | case3 attempts inner hr ih => exact ih

theorem near_roundedPower {width : Nat} (hw : 0 < width) (m n attempts inner : Nat) :
    Near (partBehind width) ((roundedPower width m n attempts inner).1 *
      10 ^ (roundedPower width m n attempts inner).2) ((m ^ n : Nat) : ℚ) := by
  obtain ⟨b, hb, hr⟩ := roundedPower_encloses width m n attempts inner
  exact Bracket.near_rounded? hw hb hr

namespace LongDecimal

/-- A number is near to its leading digits. -/
theorem near_withDigits (mode : Rounding) (x : LongDecimal) {n : Nat} (hn : 0 < n) :
    Near (partBehind n) |(x.withDigits mode n).value| |x.value| := by
  by_cases hshort : x.digits ≤ n
  · rw [withDigits, value_rescale mode x (by omega)]
    exact Near.refl (partBehind_nonneg n) (abs_nonneg _)
  · have hlost : (x.scale - (x.scale + n - x.digits)).toNat =
        Digits.count x.coefficient.natAbs - n := by
      rw [digits]
      omega
    have hnear := (mode.near_quotient hn x.coefficient.natAbs).mul_right
      (c := 10 ^ (-x.scale)) (by positivity)
    have hscale : (tenPow (Digits.count x.coefficient.natAbs - n) : ℚ) * 10 ^ (-x.scale) =
        10 ^ (-(x.scale + n - x.digits)) := by
      apply tenPow_mul_zpow
      rw [digits] at hshort ⊢
      omega
    rw [Nat.cast_mul, mul_assoc, hscale, Nat.cast_natAbs, Int.cast_abs, ← abs_value_eq] at hnear
    rw [withDigits, abs_value_rescale_of_lt mode x (by omega), hlost]
    exact hnear

theorem digits_withDigits_le (mode : Rounding) (x : LongDecimal) (n : Nat) :
    (x.withDigits mode n).digits ≤ n + 1 := by
  apply Digits.count_le_of_lt _ (Nat.succ_pos n)
  have hcount := Digits.lt_tenPow_count x.coefficient.natAbs
  have hroom : tenPow n < tenPow (n + 1) := by
    have hpos := tenPow_pos n
    rw [tenPow_succ]
    omega
  by_cases hshort : x.digits ≤ n
  · have hzeros : (x.scale + n - x.digits - x.scale).toNat = n - x.digits := by omega
    rw [withDigits, rescale_of_le mode x (by omega), hzeros, Int.natAbs_mul, Int.natAbs_natCast]
    calc
      x.coefficient.natAbs * tenPow (n - x.digits) < tenPow x.digits * tenPow (n - x.digits) :=
        Nat.mul_lt_mul_of_pos_right hcount (tenPow_pos _)
      _ = tenPow n := by rw [← tenPow_add, Nat.add_sub_cancel' hshort]
      _ < tenPow (n + 1) := hroom
  · have hlost : (x.scale - (x.scale + n - x.digits)).toNat = x.digits - n := by omega
    have hsplit : tenPow x.digits = tenPow n * tenPow (x.digits - n) := by
      rw [← tenPow_add, Nat.add_sub_cancel' (by omega)]
    have hquotient : x.coefficient.natAbs / tenPow (x.digits - n) < tenPow n := by
      rw [Nat.div_lt_iff_lt_mul (tenPow_pos _), ← hsplit]
      exact hcount
    have hle := mode.quotient_le x.coefficient.natAbs (tenPow (x.digits - n))
    rw [withDigits, rescale_of_lt mode x (by omega), hlost, Rounding.natAbs_signedQuotient]
    exact lt_of_le_of_lt (le_trans hle hquotient) hroom

theorem near_significant (mode : Rounding) (x : LongDecimal) {n : Nat} (hn : 0 < n) :
    Near (partBehind n) |(x.significant mode n).value| |x.value| := by
  unfold significant
  split
  · exact Near.refl (partBehind_nonneg n) (abs_nonneg _)
  · exact near_withDigits mode x hn

theorem digits_significant_le (mode : Rounding) (x : LongDecimal) (n : Nat) :
    (x.significant mode n).digits ≤ n + 1 := by
  unfold significant
  split
  · next h => exact Nat.le_succ_of_le h
  · exact digits_withDigits_le mode x n

/-- The power of a coefficient is that of the number at another scale. -/
theorem pow_abs_value (x : LongDecimal) (n : Nat) :
    |x.value| ^ n = (x.coefficient.natAbs ^ n : Nat) * 10 ^ (-(x.scale * n)) := by
  rw [abs_value_eq_natAbs, mul_pow, ← zpow_natCast (10 ^ (-x.scale)), ← zpow_mul, Nat.cast_pow,
    neg_mul]

/-- The digits of a power with their sign, at the scale of the power. -/
theorem abs_value_signed (x : LongDecimal) (n c shift : Nat) :
    |value ⟨if x.coefficient < 0 ∧ n % 2 = 1 then -(c : Int) else c, x.scale * n - shift⟩| =
      c * 10 ^ shift * 10 ^ (-(x.scale * n)) := by
  have hcoefficient : (if x.coefficient < 0 ∧ n % 2 = 1 then -(c : Int) else c).natAbs = c := by
    split <;> simp
  rw [abs_value_eq_natAbs, hcoefficient, mul_assoc, ← zpow_natCast, ← zpow_add₀ (by norm_num)]
  congr 2
  ring

/-- A power is near to its rounded digits. -/
theorem near_power (x : LongDecimal) {n width : Nat} (hw : 0 < width) :
    Near (3 * partBehind width) |(x.power n width).value| (|x.value| ^ n) := by
  have ht := partBehind_nonneg width
  have ht' := partBehind_le_one hw
  unfold power
  split
  · next hone =>
      rw [hone, pow_one]
      apply (near_withDigits .halfEven x hw).mono _ (abs_nonneg _)
      linarith only [ht]
  · generalize hrounded : roundedPower width x.coefficient.natAbs n 64
      (width + Digits.count n + 10) = r
    obtain ⟨c, shift⟩ := r
    have hdigits := near_roundedPower hw x.coefficient.natAbs n 64 (width + Digits.count n + 10)
    rw [hrounded] at hdigits
    have hscaled := hdigits.mul_right (c := 10 ^ (-(x.scale * n))) (by positivity)
    have hnear := near_significant .halfEven
      ⟨if x.coefficient < 0 ∧ n % 2 = 1 then -(c : Int) else c, x.scale * n - shift⟩ hw
    rw [← x.pow_abs_value] at hscaled
    rw [x.abs_value_signed] at hnear
    apply (hnear.trans ht hscaled).mono _ (pow_nonneg (abs_nonneg _) n)
    have hsquare := mul_le_of_le_one_left ht ht'
    linarith only [hsquare]

theorem digits_power_le (x : LongDecimal) (n width : Nat) :
    (x.power n width).digits ≤ width + 1 := by
  unfold power
  split
  · exact digits_withDigits_le _ x width
  · exact digits_significant_le _ _ width

end LongDecimal

end DeskCalc
