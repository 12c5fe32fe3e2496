import DeskCalc.Proofs.Shortening
import Mathlib.Data.Nat.Cast.Order.Field

/-!
# Powers of one hundred and ninety-two bits

A long product is rounded far behind the last place of a decimal. On the way to a power the
scale is the sum of those of the factors until digits are dropped, and from then on it is the
largest one or the coefficient is nearly full. So the cut to ninety-six bits at the end, which
counts surplus bits, refuses hardly more than what is too large.
-/

namespace DeskCalc

namespace WideDecimal

/-- The magnitude of the number. -/
def size (x : WideDecimal) : ℚ := LongDecimal.value ⟨x.coefficient, x.scale⟩

theorem size_nonneg (x : WideDecimal) : 0 ≤ x.size := LongDecimal.value_natCast_nonneg _ _

theorem size_mul (a b : WideDecimal) :
    LongDecimal.value ⟨(a.coefficient * b.coefficient : Nat), (a.scale + b.scale : Nat)⟩ =
      a.size * b.size := by
  rw [size, size, Nat.cast_mul, Nat.cast_add, LongDecimal.value_mul_at]

/-- Rounding group by group moves a number by less than a unit of the last group. -/
theorem value_lowerScale_le (fuel n : Nat) {s : Nat} (hs : 57 ≤ s) :
    LongDecimal.value ⟨(lowerScale fuel n s).1, (lowerScale fuel n s).2⟩ ≤
      LongDecimal.value ⟨n, s⟩ + (10 ^ (-57 : Int) - 10 ^ (-(s : Int))) := by
  have hlargest : wide.maxScale = 57 := rfl
  induction fuel generalizing n s with
  | zero =>
      have hle : (10 : ℚ) ^ (-(s : Int)) ≤ 10 ^ (-57 : Int) :=
        zpow_le_zpow_right₀ (by norm_num) (by omega)
      exact le_add_of_nonneg_right (sub_nonneg.mpr hle)
  | succ fuel ih =>
      rw [lowerScale]
      split
      · next hle =>
          obtain rfl : s = 57 := by omega
          simp
      · next hgt =>
          set g := min 9 (s - wide.maxScale) with hg
          have hrest := ih (Rounding.halfEven.quotient n (tenPow g)) (s := s - g) (by omega)
          have hmoved := (abs_le.mp (LongDecimal.abs_value_halfEven_sub_le n g s)).2
          have hunit : (0 : ℚ) < 10 ^ (-((s : Int) - g)) := zpow_pos (by norm_num) _
          have hstep : (10 : ℚ) ^ (-(s : Int)) ≤ 10 ^ (-((s : Int) - g)) / 10 := by
            rw [le_div_iff₀ (by norm_num), ← zpow_add_one₀ (by norm_num)]
            exact zpow_le_zpow_right₀ (by norm_num) (by omega)
          rw [Nat.cast_sub (by omega)] at hrest
          generalize (10 : ℚ) ^ (-((s : Int) - g)) = u at *
          linarith

theorem lowerScale_scale {fuel s : Nat} (n : Nat) (hfuel : s ≤ 57 + fuel) :
    (lowerScale fuel n s).2 = min s 57 := by
  have hlargest : wide.maxScale = 57 := rfl
  induction fuel generalizing n s with
  | zero => simp [lowerScale]; omega
  | succ fuel ih =>
      rw [lowerScale]
      split
      · simp; omega
      · rw [ih _ (by omega)]
        omega

theorem lowerScale_fst_le (fuel n s : Nat) : (lowerScale fuel n s).1 ≤ n := by
  induction fuel generalizing n s with
  | zero => exact le_refl n
  | succ fuel ih =>
      rw [lowerScale]
      split
      · exact le_refl n
      · exact le_trans (ih _ _) (Rounding.halfEven_le n (tenPow_pos _))

theorem lowerScale_of_le {s : Nat} (fuel n : Nat) (hs : s ≤ 57) :
    lowerScale fuel n s = (n, s) := by
  cases fuel with
  | zero => rfl
  | succ fuel => exact if_pos hs

/-- A number is refused for want of digits only if it is at least half as large as what does
not fit. -/
theorem twoPow_le_of_refuses {t : Target} {n s : Nat} (h : Refuses t n s) (hbits : 1 ≤ t.bits) :
    (twoPow t.bits : ℚ) ≤ LongDecimal.value ⟨n, s⟩ * 2 := by
  have htens : (0 : ℚ) < tenPow s := by exact_mod_cast tenPow_pos s
  have hvalue : LongDecimal.value ⟨n, s⟩ = n / tenPow s :=
    LongDecimal.value_eq_div ⟨n, s⟩ (Int.natCast_nonneg s)
  rw [hvalue]
  rcases h with ⟨hfits, hscale⟩ | hwhole
  · have hlarge := twoPow_surplus_le hfits
    have htens' : tenPow s ≤ twoPow (n.log2 + 1 - t.bits) :=
      le_trans (Nat.pow_le_pow_right (by norm_num) hscale) (tenPow_le_twoPow _)
    have hproduct : twoPow t.bits * tenPow s ≤ n * 2 :=
      le_trans (Nat.mul_le_mul_left _ htens') hlarge
    rw [div_mul_eq_mul_div, le_div_iff₀ htens]
    exact_mod_cast hproduct
  · have hfloor : ((n / tenPow s : Nat) : ℚ) ≤ n / tenPow s := Nat.cast_div_le
    have hwhole' : (twoPow t.bits : ℚ) ≤ (n / tenPow s : Nat) + 1 := by exact_mod_cast hwhole
    have htwo : (2 : ℚ) ≤ twoPow t.bits := by
      have hle : twoPow 1 ≤ twoPow t.bits := Nat.pow_le_pow_right (by norm_num) hbits
      exact_mod_cast hle
    linarith

/-- A product is enlarged by far less than a unit of the last place of a decimal, and if it is
refused, it is much larger than a decimal. -/
theorem mul?_of_size (a b : WideDecimal) {B : ℚ} (hB : 1 ≤ B) (h : a.size * b.size ≤ B) :
    Outcome (fun c => c.size ≤ B * (1 + 10 ^ (-28 : Int))) (2 ^ 189 / 10 ^ 28 ≤ B)
      (mul? a b) := by
  have hunit : (0 : ℚ) < 10 ^ (-28 : Int) := zpow_pos (by norm_num) _
  have hlast : (10 : ℚ) ^ (-57 : Int) ≤ B * 10 ^ (-28 : Int) :=
    le_trans (zpow_le_zpow_right₀ (by norm_num) (by norm_num)) (le_mul_of_one_le_left hunit.le hB)
  have hvalue := size_mul a b
  unfold mul?
  dsimp only
  split
  · apply Outcome.some
    rw [size, Nat.cast_zero, LongDecimal.value_eq_zero_iff.mpr rfl]
    positivity
  · split
    · apply Outcome.some
      change LongDecimal.value ⟨_, _⟩ ≤ _
      rcases le_total 57 (a.scale + b.scale) with hs | hs
      · have hlower := value_lowerScale_le (a.scale + b.scale) (a.coefficient * b.coefficient) hs
        have hpos : (0 : ℚ) < 10 ^ (-((a.scale + b.scale : Nat) : Int)) :=
          zpow_pos (by norm_num) _
        rw [hvalue] at hlower
        linarith
      · rw [lowerScale_of_le _ _ hs, hvalue]
        nlinarith
    · next hfits =>
        have hrefused : Refuses wide (a.coefficient * b.coefficient) (a.scale + b.scale) →
            (2 : ℚ) ^ 189 / 10 ^ 28 ≤ B := by
          intro hrefuses
          have hlarge := twoPow_le_of_refuses hrefuses (by decide)
          have hwidth : (twoPow wide.bits : ℚ) = 2 ^ 192 := by norm_num [wide, twoPow]
          rw [hvalue, hwidth] at hlarge
          norm_num at hlarge ⊢
          linarith
        have hshort := shorten?_outcome (t := wide) (s := a.scale + b.scale) (by decide)
          (Or.inl (Bool.eq_false_iff.mpr hfits))
        apply (hshort.mono (fun _ => id) hrefused).map
        rintro r ⟨-, -, -, u, hsize, hu⟩
        change LongDecimal.value ⟨r.1, r.2⟩ ≤ _
        rw [hvalue] at hsize hu
        have hmoved : u ≤ B * 10 ^ (-28 : Int) := by
          rcases hu with hu | hu
          · rw [hu]
            exact hlast
          · have hfull : (twoPow (wide.bits - 5) : ℚ) = 2 ^ 187 := by norm_num [wide, twoPow]
            rw [hfull] at hu
            norm_num at hu ⊢
            linarith
        linarith

/-- What the numbers on the way to a power have in common, where `i` counts the factors and `t`
is the scale of the base: the scale is the sum of those of the factors, or else what is left
is full. -/
structure Filled (t i : Nat) (x : WideDecimal) : Prop where
  fits : wide.fits x.coefficient = true
  scale : x.scale ≤ 57
  full : x.coefficient = 0 ∨ x.scale = i * t ∨ x.scale = 57 ∨ twoPow 187 ≤ x.coefficient

theorem Filled.full_mul {t i j : Nat} {a b : WideDecimal} (ha : a.Filled t i) (hb : b.Filled t j)
    (hac : a.coefficient ≠ 0) (hbc : b.coefficient ≠ 0) (hs : a.scale + b.scale ≤ 57) :
    a.scale + b.scale = (i + j) * t ∨ a.scale + b.scale = 57 ∨
      twoPow 187 ≤ a.coefficient * b.coefficient := by
  rcases ha.full.resolve_left hac with hsum | hlargest | hfull
  · rcases hb.full.resolve_left hbc with hsum' | hlargest' | hfull'
    · left
      rw [hsum, hsum', Nat.add_mul]
    · right
      left
      omega
    · right
      right
      exact le_trans hfull' (Nat.le_mul_of_pos_left _ (Nat.pos_of_ne_zero hac))
  · right
    left
    omega
  · right
    right
    exact le_trans hfull (Nat.le_mul_of_pos_right _ (Nat.pos_of_ne_zero hbc))

theorem Filled.mul? {t i j : Nat} {a b : WideDecimal} (ha : a.Filled t i) (hb : b.Filled t j) :
    Outcome (Filled t (i + j)) True (mul? a b) := by
  unfold WideDecimal.mul?
  dsimp only
  split
  · exact .some ⟨rfl, Nat.zero_le _, Or.inl rfl⟩
  · next hzero =>
      obtain ⟨hac, hbc⟩ := Nat.mul_ne_zero_iff.mp hzero
      split
      · next hfits =>
          apply Outcome.some
          rcases Nat.le_total (a.scale + b.scale) 57 with hs | hs
          · rw [lowerScale_of_le _ _ hs]
            refine ⟨hfits, hs, Or.inr ?_⟩
            exact ha.full_mul hb hac hbc hs
          · have hscale : (lowerScale (a.scale + b.scale) (a.coefficient * b.coefficient)
                (a.scale + b.scale)).2 = 57 := by
              rw [lowerScale_scale _ (Nat.le_add_left _ 57), min_eq_right hs]
            refine ⟨?_, hscale.le, Or.inr (Or.inr (Or.inl hscale))⟩
            rw [Target.fits_iff] at hfits ⊢
            exact lt_of_le_of_lt (lowerScale_fst_le _ _ _) hfits
      · next hfits =>
          have hshort := shorten?_outcome (t := wide) (s := a.scale + b.scale) (by decide)
            (Or.inl (Bool.eq_false_iff.mpr hfits))
          apply (hshort.mono (fun _ => id) fun _ => trivial).map
          intro r hr
          exact ⟨hr.fits, hr.scale, Or.inr (Or.inr hr.full)⟩

theorem Filled.size_of_refuses {x : WideDecimal} {t n : Nat} (hx : x.Filled t n)
    (ht : n * t = 0 ∨ 57 < n * t) (h : Refuses narrow x.coefficient x.scale) :
    2 ^ 189 / 10 ^ 28 ≤ x.size := by
  have hvalue : x.size = x.coefficient / tenPow x.scale :=
    LongDecimal.value_eq_div ⟨x.coefficient, x.scale⟩ (Int.natCast_nonneg _)
  have htens : (0 : ℚ) < tenPow x.scale := by exact_mod_cast tenPow_pos x.scale
  have hfits : x.coefficient < 2 ^ 192 := Target.fits_iff.mp hx.fits
  rw [hvalue]
  rcases h with ⟨hlarge, hscale⟩ | hwhole
  · have hlarge' : 2 ^ 96 ≤ x.coefficient := Target.fits_eq_false.mp hlarge
    have hne : x.coefficient ≠ 0 := by omega
    have hlog : x.coefficient.log2 < 192 := (Nat.log2_lt hne).mpr hfits
    have hself : 2 ^ x.coefficient.log2 ≤ x.coefficient := Nat.log2_self_le hne
    have hcount : x.scale ≤ (x.coefficient.log2 + 1 - 96) * 77 / 256 := hscale
    rw [le_div_iff₀ htens]
    rcases hx.full.resolve_left hne with hsum | hlargest | hfull
    · have hzero : x.scale = 0 := by omega
      rw [hzero, tenPow_zero, Nat.cast_one, mul_one]
      calc
        (2 : ℚ) ^ 189 / 10 ^ 28 ≤ 2 ^ 96 := by norm_num
        _ ≤ (x.coefficient : ℚ) := by exact_mod_cast hlarge'
    · omega
    · rcases Nat.lt_or_ge x.scale 28 with hlt | hge
      · have htens' : (tenPow x.scale : ℚ) ≤ 10 ^ 27 := by
          rw [cast_tenPow]
          exact pow_le_pow_right₀ (by norm_num) (by omega)
        calc
          (2 : ℚ) ^ 189 / 10 ^ 28 * tenPow x.scale ≤ 2 ^ 189 / 10 ^ 28 * 10 ^ 27 :=
            mul_le_mul_of_nonneg_left htens' (by norm_num)
          _ ≤ 2 ^ 187 := by norm_num
          _ ≤ (x.coefficient : ℚ) := by exact_mod_cast hfull
      · have hexact : x.scale = 28 := by omega
        have hlog' : 189 ≤ x.coefficient.log2 := by omega
        have hcast : (2 : ℚ) ^ 189 ≤ x.coefficient := by
          exact_mod_cast le_trans (Nat.pow_le_pow_right (by norm_num) hlog') hself
        rw [hexact, cast_tenPow, div_mul_cancel₀ _ (by norm_num)]
        exact hcast
  · have hfloor : ((x.coefficient / tenPow x.scale : Nat) : ℚ) ≤ x.coefficient / tenPow x.scale :=
      Nat.cast_div_le
    have hwhole' : (2 : ℚ) ^ 96 ≤ (x.coefficient / tenPow x.scale : Nat) + 1 := by
      exact_mod_cast hwhole
    norm_num at hwhole' ⊢
    linarith

/-- The cut to ninety-six bits refuses hardly more than what is too large. -/
theorem toDecimal?_of_filled {x : WideDecimal} {t n : Nat} (hx : x.Filled t n)
    (ht : n * t = 0 ∨ 57 < n * t) :
    Outcome (fun _ => True) (2 ^ 189 / 10 ^ 28 ≤ x.size) x.toDecimal? := by
  have hparts (r : Nat × Nat) (hfits : narrow.fits r.1 = true) (hscale : r.2 ≤ 28) :
      Outcome (fun _ => True) (2 ^ 189 / 10 ^ 28 ≤ x.size)
        ((Decimal96.ofParts? x.negative r.1 r.2).map Decimal96.unsignZero) := by
    rw [Decimal96.ofParts?, dif_pos ⟨Target.fits_iff.mp hfits, hscale⟩]
    exact .some trivial
  unfold toDecimal?
  dsimp only
  split
  · next hnarrow =>
      rw [Bool.and_eq_true, decide_eq_true_eq] at hnarrow
      exact hparts (x.coefficient, x.scale) hnarrow.1 hnarrow.2
  · next hwide =>
      have hlong : narrow.fits x.coefficient = false ∨ narrow.maxScale < x.scale := by
        rw [Bool.and_eq_true, decide_eq_true_eq, not_and_or, Bool.not_eq_true, not_le] at hwide
        exact hwide
      have hshort := shorten?_outcome (t := narrow) (by decide) hlong
      apply (hshort.mono (fun _ => id) (hx.size_of_refuses ht)).bind
      intro r hr
      exact hparts r hr.fits hr.scale

end WideDecimal

namespace Decimal96

/-- A long power is refused only if the power of the base, enlarged by a unit of the largest
scale for each factor, is hardly below what is too large. -/
theorem longPower?_of_size {x : Decimal96} {M : ℚ} (hM : 1 ≤ M) (hx : |x.value| ≤ M) {n : Nat}
    (hn : 57 < n) :
    Outcome (fun _ => True) (2 ^ 189 / 10 ^ 28 ≤ (M * (1 + 10 ^ (-28 : Int))) ^ n)
      (x.longPower? n) := by
  have hunit : (0 : ℚ) ≤ 10 ^ (-28 : Int) := zpow_nonneg (by norm_num) _
  have hpos : 0 < n := by omega
  have hbase : (WideDecimal.ofDecimal x).size ≤ M := by
    rw [abs_value] at hx
    exact hx
  have hone : WideDecimal.size ⟨false, 1, 0⟩ ≤ 1 := by
    norm_num [WideDecimal.size, LongDecimal.value]
  have hmul (a b : WideDecimal) (B : ℚ) (hB : 1 ≤ B) (h : a.size * b.size ≤ B) :=
    WideDecimal.mul?_of_size a b hB h
  have hsize := powerByBits_size WideDecimal.size_nonneg hM hunit hmul hone hbase hpos
  have hsteps : PowerSteps WideDecimal.mul? (WideDecimal.Filled x.scale)
      (WideDecimal.Filled x.scale) (fun _ => True) :=
    ⟨fun ha hb => ha.mul? hb, fun hb => hb.mul? hb⟩
  have hstart : WideDecimal.Filled x.scale 0 ⟨false, 1, 0⟩ := by
    refine ⟨by decide, Nat.zero_le _, Or.inr (Or.inl ?_)⟩
    rw [Nat.zero_mul]
  have hfirst : WideDecimal.Filled x.scale 1 (.ofDecimal x) := by
    refine ⟨?_, le_trans x.scale_le (by norm_num), Or.inr (Or.inl (Nat.one_mul _).symm)⟩
    rw [WideDecimal.Target.fits_iff]
    exact lt_of_lt_of_le x.coefficient_lt (Nat.pow_le_pow_right (by norm_num) (by decide))
  have hfilled := hsteps.powerByBits hpos hstart hfirst
  rw [Nat.zero_add, Nat.one_mul] at hfilled
  have hscale : n * x.scale = 0 ∨ 57 < n * x.scale := by
    rcases Nat.eq_zero_or_pos x.scale with hzero | hscale
    · left
      rw [hzero, Nat.mul_zero]
    · right
      exact lt_of_lt_of_le hn (Nat.le_mul_of_pos_right n hscale)
  unfold longPower?
  apply (hsize.and hfilled).bind
  rintro c ⟨hc, hfull⟩
  apply (WideDecimal.toDecimal?_of_filled hfull hscale).mono
  · exact fun _ => id
  · exact fun hlarge => le_trans hlarge hc

end Decimal96

end DeskCalc
