import DeskCalc.Proofs.Magnitude
import DeskCalc.Proofs.RoundedProduct

/-!
# Shortening a long coefficient

Digits are dropped by an estimate of the surplus bits. The estimate is too large by one digit
at most, so the coefficient that is left is nearly full, or else the scale asked for more
digits to go. A number is refused for want of digits only if its whole part nearly does not
fit.
-/

namespace DeskCalc

/-- Bits are counted for no more digits than they hold because `10 ^ 77` is below `2 ^ 256`. -/
theorem tenPow_le_twoPow (b : Nat) : tenPow (b * 77 / 256) ≤ twoPow b := by
  change 10 ^ (b * 77 / 256) ≤ 2 ^ b
  rw [← Nat.pow_le_pow_iff_left (n := 256) (by norm_num), ← pow_mul, ← pow_mul]
  calc
    10 ^ (b * 77 / 256 * 256) ≤ 10 ^ (77 * b) :=
      Nat.pow_le_pow_right (by norm_num) (by omega)
    _ = (10 ^ 77) ^ b := pow_mul _ _ _
    _ ≤ (2 ^ 256) ^ b := Nat.pow_le_pow_left (by norm_num) _
    _ = 2 ^ (b * 256) := by rw [← pow_mul, Nat.mul_comm]

namespace LongDecimal

theorem value_div_le (n e : Nat) (s : Int) :
    value ⟨(n / tenPow e : Nat), s - e⟩ ≤ value ⟨n, s⟩ := by
  have hunit : (0 : ℚ) ≤ 10 ^ (-s) := zpow_nonneg (by norm_num) _
  have hle : ((n / tenPow e * tenPow e : Nat) : ℚ) ≤ n := by
    exact_mod_cast Nat.div_mul_le_self n (tenPow e)
  rw [← value_shift _ (s - e) e, sub_add_cancel, value, value, ← Nat.cast_mul]
  exact mul_le_mul_of_nonneg_right hle hunit

end LongDecimal

namespace WideDecimal

theorem Target.fits_iff {t : Target} {n : Nat} : t.fits n = true ↔ n < twoPow t.bits := by
  rw [Target.fits, decide_eq_true_eq]

theorem Target.fits_eq_false {t : Target} {n : Nat} : t.fits n = false ↔ twoPow t.bits ≤ n := by
  rw [Target.fits, decide_eq_false_iff_not, not_lt]

/-- The number `n / 10 ^ s` shortened by `e` digits, `k` of which were to go in any case. -/
structure Drops (t : Target) (n s k e : Nat) (r : Nat × Nat × Nat) : Prop where
  le : e ≤ s
  coefficient : r.1 = n / tenPow e
  scale : r.2.1 = s - e
  least : k ≤ e
  fits : k ≠ 0 → t.fits r.1 = true
  /-- Further digits go only as long as the coefficient does not fit. -/
  tight : e = k ∨ t.fits (n / tenPow (e - 1)) = false

/-- What is dropped behind a group is dropped of the number. -/
theorem Drops.of_group {t : Target} {n s k g left e : Nat} {r : Nat × Nat × Nat}
    (h : Drops t (n / tenPow g) (s - g) left e r) (hg : g ≤ s) (hk : k ≤ g + left)
    (hfits : left = 0 → t.fits (n / tenPow g) = true)
    (htight : e = left → g + e = k ∨ t.fits (n / tenPow (g + e - 1)) = false) :
    Drops t n s k (g + e) r := by
  have hdrop (j : Nat) : n / tenPow g / tenPow j = n / tenPow (g + j) := by
    rw [Nat.div_div_eq_div_mul, tenPow_add]
  have hle := h.le
  have hleast := h.least
  constructor
  · omega
  · rw [h.coefficient, hdrop]
  · rw [h.scale]
    omega
  · omega
  · intro _
    by_cases hleft : left = 0
    · rw [Target.fits_iff]
      apply lt_of_le_of_lt _ (Target.fits_iff.mp (hfits hleft))
      rw [h.coefficient]
      exact Nat.div_le_self _ _
    · exact h.fits hleft
  · by_cases he : e = left
    · exact htight he
    · have hlarge := h.tight.resolve_left he
      have hcount : g + (e - 1) = g + e - 1 := by omega
      rw [hdrop, hcount] at hlarge
      exact Or.inr hlarge

/-- Dropping in groups ends for want of digits only if the whole part does not fit. -/
theorem dropGroups_outcome (t : Target) {fuel n s k : Nat} (last : Nat) (hk : k ≤ s)
    (hfuel : s < fuel) :
    Outcome (fun r => ∃ e, Drops t n s k e r) (t.fits (n / tenPow s) = false)
      (dropGroups t fuel n s k last) := by
  induction fuel generalizing n s k last with
  | zero => omega
  | succ fuel ih =>
      rw [dropGroups]
      split
      · next hzero =>
          apply Outcome.some
          exact ⟨0, Nat.zero_le s, (Nat.div_one n).symm, rfl, hzero.le, fun h => absurd hzero h,
            Or.inl hzero.symm⟩
      · next hzero =>
          set g := min k 9 with hg
          have hgs : g ≤ s := by omega
          have hwhole : n / tenPow g / tenPow (s - g) = n / tenPow s := by
            rw [Nat.div_div_eq_div_mul, ← tenPow_add, Nat.add_sub_cancel' hgs]
          dsimp only
          split
          · next hgo =>
              have hrest := ih (n := n / tenPow g) (s := s - g) (k := k - g)
                (n % tenPow g) (by omega) (by omega)
              rw [hwhole] at hrest
              apply hrest.mono _ id
              rintro r ⟨e, he⟩
              refine ⟨g + e, he.of_group hgs (by omega) ?_ ?_⟩
              · intro hleft
                simpa [hleft] using hgo
              · intro heq
                exact Or.inl (by omega)
          · next hstop =>
              have hlarge : t.fits (n / tenPow g) = false ∧ k - g = 0 := by
                simpa using hstop
              split
              · next hend =>
                  apply Outcome.none
                  have hall : g = s := by omega
                  rw [← hall]
                  exact hlarge.1
              · next hend =>
                  have hrest := ih (n := n / tenPow g) (s := s - g) (k := 1)
                    (n % tenPow g) (by omega) (by omega)
                  rw [hwhole] at hrest
                  apply hrest.mono _ id
                  rintro r ⟨e, he⟩
                  refine ⟨g + e, he.of_group hgs (by omega) nofun ?_⟩
                  rintro rfl
                  exact Or.inr hlarge.1

theorem surplus_scale_le (t : Target) (n s : Nat) : s - t.maxScale ≤ surplus t n s :=
  le_max_right _ _

theorem surplus_ne_zero {t : Target} {n s : Nat} (h : t.fits n = false ∨ t.maxScale < s) :
    surplus t n s ≠ 0 := by
  rcases h with hfits | hscale
  · simp [surplus, hfits]
  · have hle := surplus_scale_le t n s
    omega

/-- More digits are to go than there are only if the surplus bits ask for them. -/
theorem of_lt_surplus {t : Target} {n s : Nat} (h : s < surplus t n s) :
    t.fits n = false ∧ s ≤ (n.log2 + 1 - t.bits) * 77 / 256 := by
  unfold surplus at h
  cases hfits : t.fits n with
  | true =>
      simp [hfits] at h
      omega
  | false =>
      simp [hfits] at h
      exact ⟨rfl, by omega⟩

/-- A coefficient that does not fit is as large as its bits say. -/
theorem twoPow_surplus_le {t : Target} {n : Nat} (h : t.fits n = false) :
    twoPow t.bits * twoPow (n.log2 + 1 - t.bits) ≤ n * 2 := by
  have hlarge : 2 ^ t.bits ≤ n := Target.fits_eq_false.mp h
  have hn : n ≠ 0 := by
    rintro rfl
    exact absurd hlarge (Nat.not_le_of_lt (Nat.two_pow_pos _))
  have hlog : t.bits ≤ n.log2 := (Nat.le_log2 hn).mpr hlarge
  have hself : 2 ^ n.log2 ≤ n := Nat.log2_self_le hn
  calc
    twoPow t.bits * twoPow (n.log2 + 1 - t.bits) = 2 ^ (t.bits + (n.log2 + 1 - t.bits)) :=
      (Nat.pow_add 2 _ _).symm
    _ = 2 ^ n.log2 * 2 := by
      rw [← Nat.pow_succ]
      congr 1
      omega
    _ ≤ n * 2 := Nat.mul_le_mul_right 2 hself

/-- A coefficient of `bits` bits has not many more than are kept. -/
theorem twoPow_eq_of_five_le {t : Target} (hbits : 5 ≤ t.bits) :
    twoPow t.bits = twoPow (t.bits - 5) * 32 := by
  change 2 ^ t.bits = 2 ^ (t.bits - 5) * 2 ^ 5
  rw [← Nat.pow_add, Nat.sub_add_cancel hbits]

/-- Behind a shortening the scale is the largest one or the coefficient is nearly full. -/
theorem Drops.full {t : Target} {n s e : Nat} {r : Nat × Nat × Nat}
    (h : Drops t n s (surplus t n s) e r) (hbits : 5 ≤ t.bits)
    (hlong : t.fits n = false ∨ t.maxScale < s) :
    r.2.1 = t.maxScale ∨ twoPow (t.bits - 5) ≤ r.1 := by
  have hwidth := twoPow_eq_of_five_le hbits
  rw [h.scale, h.coefficient]
  by_cases hexact : e = surplus t n s
  · cases hfits : t.fits n with
    | true =>
        left
        have hscale : t.maxScale < s := hlong.resolve_left (by simp [hfits])
        simp [surplus, hfits] at hexact
        omega
    | false =>
        -- The digits to go are counted by the bits or by the scale.
        rcases Nat.lt_or_ge ((n.log2 + 1 - t.bits) * 77 / 256 + 1) (s - t.maxScale) with hlt | hge
        · left
          simp [surplus, hfits] at hexact
          omega
        · right
          have hcount : e = (n.log2 + 1 - t.bits) * 77 / 256 + 1 := by
            simp [surplus, hfits] at hexact
            omega
          have htens := tenPow_le_twoPow (n.log2 + 1 - t.bits)
          have hlarge := twoPow_surplus_le hfits
          rw [Nat.le_div_iff_mul_le (tenPow_pos e), hcount, tenPow_succ]
          rw [hwidth] at hlarge
          nlinarith
  · right
    have hlarge := Target.fits_eq_false.mp (h.tight.resolve_left hexact)
    have htight : twoPow (t.bits - 5) * 10 ≤ n / tenPow (e - 1) := by omega
    rcases Nat.eq_zero_or_pos e with rfl | hpos
    · exact le_trans (Nat.le_mul_of_pos_right _ (by norm_num)) htight
    · have hstep : n / tenPow e = n / tenPow (e - 1) / 10 := by
        rw [Nat.div_div_eq_div_mul, ← tenPow_succ, Nat.sub_add_cancel hpos]
      rw [hstep]
      exact (Nat.le_div_iff_mul_le (by norm_num)).mpr htight

/-- What a shortened number has in common with the number. -/
structure Shortens (t : Target) (n s : Nat) (r : Nat × Nat) : Prop where
  fits : t.fits r.1 = true
  scale : r.2 ≤ t.maxScale
  full : r.2 = t.maxScale ∨ twoPow (t.bits - 5) ≤ r.1
  /-- It is larger by a unit at most, which is one of the largest scale or behind a
  coefficient that is nearly full. -/
  size : ∃ u : ℚ, LongDecimal.value ⟨r.1, r.2⟩ ≤ LongDecimal.value ⟨n, s⟩ + u ∧
    (u = 10 ^ (-(t.maxScale : Int)) ∨ twoPow (t.bits - 5) * u ≤ LongDecimal.value ⟨n, s⟩)

/-- Why a number cannot be shortened to a target: the surplus bits ask for more digits than are
behind the point, or the whole part does not fit. -/
def Refuses (t : Target) (n s : Nat) : Prop :=
  (t.fits n = false ∧ s ≤ (n.log2 + 1 - t.bits) * 77 / 256) ∨
    twoPow t.bits ≤ n / tenPow s + 1

/-- Rounding what is left raises it by one at most, and one digit more goes if that carries. -/
theorem Drops.shortens {t : Target} {n s e raised : Nat} {r : Nat × Nat × Nat}
    (h : Drops t n s (surplus t n s) e r) (hbits : 5 ≤ t.bits)
    (hlong : t.fits n = false ∨ t.maxScale < s) (hle : r.1 ≤ raised) (hge : raised ≤ r.1 + 1) :
    Outcome (Shortens t n s) (Refuses t n s)
      (if t.fits raised then some (raised, r.2.1)
        else if r.2.1 = 0 then none else some (raised / 10, r.2.1 - 1)) := by
  have hsplit : (s : Int) - e = r.2.1 := by
    have hes := h.le
    rw [h.scale]
    omega
  have hscale : r.2.1 ≤ t.maxScale := by
    have hsurplus := surplus_scale_le t n s
    have hleast := h.least
    rw [h.scale]
    omega
  have hfull := h.full hbits hlong
  have hfloor : LongDecimal.value ⟨r.1, r.2.1⟩ ≤ LongDecimal.value ⟨n, s⟩ := by
    rw [h.coefficient, ← hsplit]
    exact LongDecimal.value_div_le n e s
  have hunit : (0 : ℚ) < 10 ^ (-(r.2.1 : Int)) := zpow_pos (by norm_num) _
  have hraised : LongDecimal.value ⟨raised, r.2.1⟩ ≤
      LongDecimal.value ⟨n, s⟩ + 10 ^ (-(r.2.1 : Int)) := by
    have hstep : (raised : ℚ) ≤ r.1 + 1 := by exact_mod_cast hge
    have hmul := mul_le_mul_of_nonneg_right hstep hunit.le
    rw [LongDecimal.value] at hfloor ⊢
    push_cast at hfloor ⊢
    linarith
  have hsmall : (10 : ℚ) ^ (-(r.2.1 : Int)) = 10 ^ (-(t.maxScale : Int)) ∨
      twoPow (t.bits - 5) * (10 : ℚ) ^ (-(r.2.1 : Int)) ≤ LongDecimal.value ⟨n, s⟩ := by
    rcases hfull with heq | hlarge
    · left
      rw [heq]
    · right
      have hcast : (twoPow (t.bits - 5) : ℚ) ≤ r.1 := by exact_mod_cast hlarge
      apply le_trans _ hfloor
      rw [LongDecimal.value, Int.cast_natCast]
      exact mul_le_mul_of_nonneg_right hcast hunit.le
  split
  · next hfits =>
      apply Outcome.some
      exact ⟨hfits, hscale, hfull.imp_right fun hlarge => le_trans hlarge hle, _, hraised, hsmall⟩
  · next hcarry =>
      have hlarge := Target.fits_eq_false.mp (Bool.eq_false_iff.mpr hcarry)
      split
      · next hzero =>
          apply Outcome.none
          right
          have hall : e = s := by
            have hes := h.le
            have hscale := h.scale
            omega
          have hcoefficient := h.coefficient
          rw [hall] at hcoefficient
          omega
      · next hpos =>
          have hwidth := twoPow_eq_of_five_le hbits
          have hfits := Target.fits_iff.mp (h.fits (surplus_ne_zero hlong))
          have hlower : LongDecimal.value ⟨(raised / 10 : Nat), (r.2.1 - 1 : Nat)⟩ ≤
              LongDecimal.value ⟨raised, r.2.1⟩ := by
            rw [Nat.cast_sub (Nat.one_le_iff_ne_zero.mpr hpos)]
            exact LongDecimal.value_div_le raised 1 r.2.1
          apply Outcome.some
          refine ⟨?_, by omega, Or.inr ?_, _, le_trans hlower hraised, hsmall⟩
          · rw [Target.fits_iff]
            omega
          · rw [Nat.le_div_iff_mul_le (by norm_num)]
            omega

theorem shorten?_outcome {t : Target} {n s : Nat} (hbits : 5 ≤ t.bits)
    (hlong : t.fits n = false ∨ t.maxScale < s) :
    Outcome (Shortens t n s) (Refuses t n s) (shorten? t n s) := by
  unfold shorten?
  dsimp only
  split
  · next hlt => exact .none (Or.inl (of_lt_surplus hlt))
  · next hle =>
      have hdrops := dropGroups_outcome t 0 (n := n) (Nat.not_lt.mp hle) (Nat.lt_succ_self s)
      have hwhole : t.fits (n / tenPow s) = false → Refuses t n s := fun hlarge =>
        Or.inr (Nat.le_succ_of_le (Target.fits_eq_false.mp hlarge))
      apply (hdrops.mono (fun _ => id) hwhole).bind
      rintro r ⟨e, hr⟩
      apply hr.shortens hbits hlong
      · split <;> omega
      · split <;> omega

end WideDecimal

end DeskCalc
