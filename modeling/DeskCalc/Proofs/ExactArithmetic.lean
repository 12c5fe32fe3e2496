import DeskCalc.Proofs.Magnitude

/-!
# Sums and products without rounding

A result of 96 bits is exact if the exact result fits at the larger scale of a sum or
at the scale of a product. A long result is always exact, and it is given if its scale
lies within the exponent limit and its size is far below it.
-/

namespace DeskCalc

namespace Decimal96

/-- Whether a coefficient and a scale are those of a decimal. -/
def Fits (n : Int) (s : Nat) : Prop := n.natAbs < twoPow 96 ∧ s ≤ maxScale

instance (n : Int) (s : Nat) : Decidable (Fits n s) := inferInstanceAs (Decidable (_ ∧ _))

theorem natAbs_signed (x : Decimal96) : x.signed.natAbs = x.coefficient := by
  rw [signed]
  split <;> simp

theorem value_eq (x : Decimal96) : x.value = x.signed * (10 : ℚ) ^ (-(x.scale : Int)) := rfl

theorem toLong_neg (x : Decimal96) : x.neg.toLong = x.toLong.neg := by
  unfold toLong signed neg LongDecimal.neg
  cases x.negative <;> simp

theorem value_neg (x : Decimal96) : x.neg.value = -x.value := by
  rw [value, toLong_neg, LongDecimal.value_neg, value]

theorem value_of_isZero {x : Decimal96} (h : x.isZero = true) : x.value = 0 := by
  have hc : x.coefficient = 0 := by simpa [isZero] using h
  rw [value, LongDecimal.value_eq_zero_iff]
  simp [toLong, signed, hc]

@[simp] theorem value_zero : zero.value = 0 := value_of_isZero rfl

theorem value_unsignZero (x : Decimal96) : x.unsignZero.value = x.value := by
  by_cases h : x.isZero = true
  · rw [value_of_isZero h]
    exact value_of_isZero h
  · simp [unsignZero, h]

theorem value_aligned (x : Decimal96) {s : Nat} (h : x.scale ≤ s) :
    LongDecimal.value ⟨x.aligned s, s⟩ = x.value := by
  rw [aligned]
  rw [← Int.toNat_sub]
  exact LongDecimal.value_shift_of_le x.toLong (Int.ofNat_le.mpr h)

/-- What fits is kept as it is, since no digit has to go. -/
theorem fit?_of_lt (negative : Bool) {n s : Nat} (hn : n < twoPow 96) (hs : s ≤ 28) :
    fit? negative n s = some ⟨negative, n, s, hn, hs⟩ := by
  have hwhole : Rounding.halfEven.quotient n (tenPow 0) = n := Rounding.halfEven.quotient_one n
  rw [fit?, List.range_succ_eq_map, List.findSome?_cons, hwhole, Nat.sub_zero, ofParts?,
    dif_pos ⟨hn, hs⟩]

theorem ofSum?_of_fits {n : Int} {s : Nat} (h : Fits n s) :
    ∃ x, ofSum? n s = some x ∧ x.value = LongDecimal.value ⟨n, s⟩ := by
  obtain ⟨hn, hs⟩ := h
  refine ⟨_, by rw [ofSum?, fit?_of_lt _ hn hs, Option.map_some], ?_⟩
  have hsigned : (if decide (n < 0) = true then -(n.natAbs : Int) else n.natAbs) = n := by
    split <;> grind
  rw [value_unsignZero, value, toLong, signed, hsigned]

theorem add?_of_fits {a b : Decimal96}
    (h : Fits (a.aligned (max a.scale b.scale) + b.aligned (max a.scale b.scale))
      (max a.scale b.scale)) :
    ∃ x, add? a b = some x ∧ x.value = a.value + b.value := by
  rw [add?]
  split
  · next ha => exact ⟨b, rfl, by rw [value_of_isZero ha, zero_add]⟩
  · split
    · next hb => exact ⟨a, rfl, by rw [value_of_isZero hb, add_zero]⟩
    · obtain ⟨x, hx, hvalue⟩ := ofSum?_of_fits h
      refine ⟨x, hx, ?_⟩
      rw [hvalue, LongDecimal.value_add_at, value_aligned a (le_max_left _ _),
        value_aligned b (le_max_right _ _)]

theorem sub?_of_fits {a b : Decimal96}
    (h : Fits (a.aligned (max a.scale b.scale) - b.aligned (max a.scale b.scale))
      (max a.scale b.scale)) :
    ∃ x, sub? a b = some x ∧ x.value = a.value - b.value := by
  rw [sub?]
  split
  · next ha =>
      refine ⟨_, rfl, ?_⟩
      rw [value_of_isZero ha, zero_sub]
      split
      · next hb => rw [value_of_isZero hb, neg_zero]
      · exact value_neg b
  · split
    · next hb => exact ⟨a, rfl, by rw [value_of_isZero hb, sub_zero]⟩
    · obtain ⟨x, hx, hvalue⟩ := ofSum?_of_fits h
      refine ⟨x, hx, ?_⟩
      rw [hvalue, LongDecimal.value_sub_at, value_aligned a (le_max_left _ _),
        value_aligned b (le_max_right _ _)]

/-- A product has a minus sign if one factor has. -/
theorem signed_mul (a b : Decimal96) :
    (if (a.negative != b.negative) = true then -((a.coefficient * b.coefficient : Nat) : Int)
      else (a.coefficient * b.coefficient : Nat)) = a.signed * b.signed := by
  unfold signed
  cases a.negative <;> cases b.negative <;> simp

theorem mul?_of_fits {a b : Decimal96} (h : Fits (a.signed * b.signed) (a.scale + b.scale)) :
    ∃ x, mul? a b = some x ∧ x.value = a.value * b.value := by
  obtain ⟨hn, hs⟩ := h
  have hn' : a.coefficient * b.coefficient < twoPow 96 := by
    rwa [Int.natAbs_mul, natAbs_signed, natAbs_signed] at hn
  have hshort : ¬ 47 < a.scale + b.scale := by
    rw [maxScale] at hs
    omega
  rw [mul?]
  by_cases hzero : a.isZero = true ∨ b.isZero = true
  · refine ⟨zero, by simp [hzero], ?_⟩
    rcases hzero with ha | hb
    · rw [value_zero, value_of_isZero ha, zero_mul]
    · rw [value_zero, value_of_isZero hb, mul_zero]
  · have hvalue : value ⟨a.negative != b.negative, _, _, hn', hs⟩ = a.value * b.value := by
      rw [value, toLong, signed, signed_mul, Nat.cast_add, LongDecimal.value_mul_at]
      rfl
    obtain ⟨ha, hb⟩ := not_or.mp hzero
    simp only [ha, hb, hshort, fit?_of_lt _ hn' hs, decide_false, Bool.and_false, Bool.or_false,
      Bool.false_eq_true, if_false]
    split
    · exact ⟨_, rfl, (value_unsignZero _).trans hvalue⟩
    · exact ⟨_, rfl, hvalue⟩

theorem abs_value (x : Decimal96) :
    |x.value| = x.coefficient * (10 : ℚ) ^ (-(x.scale : Int)) := by
  have hpow : (0 : ℚ) < 10 ^ (-(x.scale : Int)) := zpow_pos (by norm_num) _
  have hsigned : |(x.signed : ℚ)| = x.coefficient := by
    rw [← Int.cast_abs, Int.abs_eq_natAbs, natAbs_signed, Int.cast_natCast]
  rw [value_eq, abs_mul, abs_of_pos hpow, hsigned]

/-- Twenty-nine digits in front of the point are enough. -/
theorem abs_value_lt (x : Decimal96) : |x.value| < 10 ^ (29 : Int) := by
  have hsmall : (10 : ℚ) ^ (-(x.scale : Int)) ≤ 1 :=
    zpow_le_one_of_nonpos₀ (by norm_num) (by omega)
  have hlt : x.coefficient < 10 ^ 29 := lt_of_lt_of_le x.coefficient_lt (by decide)
  rw [abs_value]
  calc
    x.coefficient * (10 : ℚ) ^ (-(x.scale : Int)) ≤ x.coefficient :=
      mul_le_of_le_one_right (Nat.cast_nonneg _) hsmall
    _ < 10 ^ (29 : Int) := by exact_mod_cast hlt

theorem abs_value_lt_limit (x : Decimal96) : |x.value| < 10 ^ LongDecimal.exponentLimit :=
  lt_of_lt_of_le x.abs_value_lt (zpow_le_zpow_right₀ (by norm_num) (by decide))

/-- A number other than zero shows in the last place at the latest. -/
theorem le_abs_value {x : Decimal96} (h : x.value ≠ 0) : (10 : ℚ) ^ (-28 : Int) ≤ |x.value| := by
  have hc : 1 ≤ x.coefficient := by
    rw [Nat.one_le_iff_ne_zero, ← natAbs_signed, Int.natAbs_ne_zero]
    intro hzero
    exact h (by rw [value_eq, hzero, Int.cast_zero, zero_mul])
  have hscale : (10 : ℚ) ^ (-28 : Int) ≤ 10 ^ (-(x.scale : Int)) := by
    have hle := x.scale_le
    exact zpow_le_zpow_right₀ (by norm_num) (by omega)
  rw [abs_value]
  calc
    (10 : ℚ) ^ (-28 : Int) ≤ 10 ^ (-(x.scale : Int)) := hscale
    _ ≤ x.coefficient * (10 : ℚ) ^ (-(x.scale : Int)) := by
      apply le_mul_of_one_le_left (le_trans (by positivity) hscale)
      exact_mod_cast hc

end Decimal96

namespace LongDecimal

theorem orOverflow_of_scale {x : LongDecimal} (h : |x.value| < 10 ^ exponentLimit)
    (hlow : -exponentLimit < x.scale) (hhigh : x.scale ≤ exponentLimit) :
    x.orOverflow = .ok x ∧ x.isBounded = true := by
  have hbounded := isBounded_of_scale h hlow hhigh
  exact ⟨if_pos hbounded, hbounded⟩

theorem padToward_scale (x : LongDecimal) (s : Int) :
    x.scale ≤ (x.padToward s).scale ∧ (x.padToward s).scale ≤ max x.scale s := by
  simp only [padToward]
  omega

theorem sum_scale (a b : LongDecimal) :
    min a.scale b.scale ≤ (sum a b).scale ∧ (sum a b).scale ≤ max a.scale b.scale := by
  rw [sum]
  split
  · have hpad := a.padToward_scale b.scale
    omega
  · split
    · have hpad := b.padToward_scale a.scale
      omega
    · simp only [alignedSum]
      omega

theorem add_of_isBounded {a b : LongDecimal} (ha : a.isBounded = true) (hb : b.isBounded = true)
    (h : |a.value + b.value| < 10 ^ exponentLimit) :
    ∃ z, a.add b = .ok z ∧ z.value = a.value + b.value ∧ z.isBounded = true := by
  obtain ⟨halow, hahigh⟩ := scale_of_isBounded ha
  obtain ⟨hblow, hbhigh⟩ := scale_of_isBounded hb
  obtain ⟨hlow, hhigh⟩ := sum_scale a b
  rw [← value_sum] at h
  obtain ⟨hz, hbounded⟩ := orOverflow_of_scale h (by omega) (by omega)
  exact ⟨sum a b, hz, value_sum a b, hbounded⟩

theorem sub_of_isBounded {a b : LongDecimal} (ha : a.isBounded = true) (hb : b.isBounded = true)
    (h : |a.value - b.value| < 10 ^ exponentLimit) :
    ∃ z, a.sub b = .ok z ∧ z.value = a.value - b.value ∧ z.isBounded = true := by
  obtain ⟨halow, hahigh⟩ := scale_of_isBounded ha
  obtain ⟨hblow, hbhigh⟩ := scale_of_isBounded hb
  have hvalue : (alignedSum a b.neg).value = a.value - b.value := by
    rw [value_alignedSum, value_neg, sub_eq_add_neg]
  have hscale : (alignedSum a b.neg).scale = max a.scale b.scale := rfl
  rw [← hvalue] at h
  obtain ⟨hz, hbounded⟩ := orOverflow_of_scale h (by omega) (by omega)
  exact ⟨alignedSum a b.neg, hz, hvalue, hbounded⟩

/-- The shortest form of a bounded number is bounded unless the number is large. -/
theorem isBounded_shortest {x : LongDecimal} (hx : x.isBounded = true)
    (h : |x.value| < 10 ^ exponentLimit) : x.shortest.isBounded = true := by
  obtain ⟨-, hhigh⟩ := scale_of_isBounded hx
  have hvalue := value_shortest x
  by_cases hc : x.coefficient = 0
  · rw [shortest, if_pos hc]
    rfl
  · have hshort : x.shortest.coefficient ≠ 0 := by
      rw [ne_eq, ← value_eq_zero_iff, hvalue, value_eq_zero_iff]
      exact hc
    have hscale : x.shortest.scale ≤ x.scale := by
      rw [shortest, if_neg hc]
      exact Int.sub_le_self _ (Int.natCast_nonneg _)
    rw [← hvalue] at h
    exact isBounded_of_scale h (neg_limit_lt_scale h hshort) (le_trans hscale hhigh)

/-- A product whose summed scale lies within the limit is given, also when it is zero. -/
theorem mul_of_isBounded {a b : LongDecimal} (ha : a.isBounded = true) (hb : b.isBounded = true)
    (hlow : -exponentLimit < a.scale + b.scale) (hhigh : a.scale + b.scale ≤ exponentLimit)
    (h : |a.value * b.value| < 10 ^ exponentLimit) :
    ∃ z, a.mul b = .ok z ∧ z.value = a.value * b.value ∧ z.isBounded = true := by
  have hbounded : (product a b).isBounded = true := by
    rw [product]
    split
    · next hone =>
        rw [value_of_isOne hone, one_mul] at h
        exact isBounded_shortest hb h
    · split
      · next hone =>
          rw [value_of_isOne hone, mul_one] at h
          exact isBounded_shortest ha h
      · rw [← value_mul_at] at h
        exact isBounded_of_scale h hlow hhigh
  refine ⟨product a b, ?_, value_product a b, hbounded⟩
  rw [mul, if_pos (withinLimit_iff.mpr ⟨hlow.le, hhigh⟩), orOverflow, if_pos hbounded]

/-- Any other product of bounded numbers is an overflow, whatever its digits are. -/
theorem mul_eq_overflow {a b : LongDecimal} (ha : a.isBounded = true) (hb : b.isBounded = true)
    (h : a.scale + b.scale ≤ -exponentLimit ∨ exponentLimit < a.scale + b.scale) :
    a.mul b = .error .overflow := by
  obtain ⟨halow, -⟩ := scale_of_isBounded ha
  obtain ⟨hblow, -⟩ := scale_of_isBounded hb
  rw [mul]
  by_cases hlimit : withinLimit (a.scale + b.scale) = true
  · rw [if_pos hlimit]
    rw [withinLimit_iff] at hlimit
    -- The scale is the smallest that is admitted, so neither factor is a one.
    have ha' : ¬ a.isOne = true := fun hone => by
      have hscale := (isOne_iff.mp hone).1
      omega
    have hb' : ¬ b.isOne = true := fun hone => by
      have hscale := (isOne_iff.mp hone).1
      omega
    rw [product, if_neg ha', if_neg hb', orOverflow, if_neg]
    intro hbounded
    obtain ⟨hlow, -⟩ := scale_of_isBounded hbounded
    simp only at hlow
    omega
  · rw [if_neg hlimit]

end LongDecimal

end DeskCalc
