import DeskCalc.Proofs.ExactArithmetic
import DeskCalc.Proofs.NearestRounding
import DeskCalc.Proofs.PowerByBits

/-!
# Products of ninety-six bits that are rounded

A number is fitted by dropping as few digits as will do. What is left has a full coefficient
or the largest scale, so a product is enlarged little, and it is refused only if its whole
part does not fit.
-/

namespace DeskCalc

theorem Rounding.halfEven_le (n : Nat) {d : Nat} (hd : 0 < d) : halfEven.quotient n d ≤ n := by
  obtain ⟨hhigh, -⟩ := mul_quotient_bounds (by decide : halfEven ≠ .down) n hd
  by_contra hgt
  have hlarge : (n + 1) * d ≤ halfEven.quotient n d * d := Nat.mul_le_mul_right d (by omega)
  nlinarith

/-- A number at a smaller scale is moved by half a unit of its last place at most. -/
theorem LongDecimal.abs_value_halfEven_sub_le (n k : Nat) (s : Int) :
    |value ⟨Rounding.halfEven.quotient n (tenPow k), s - k⟩ - value ⟨n, s⟩| ≤
      10 ^ (-(s - k)) / 2 := by
  have hrescale : (⟨n, s⟩ : LongDecimal).rescale .halfEven (s - k) =
      ⟨Rounding.halfEven.quotient n (tenPow k), s - k⟩ := by
    rcases Nat.eq_zero_or_pos k with rfl | hk
    · rw [rescale_of_le .halfEven _ (by simp)]
      simp
    · have hdropped : (s - (s - k)).toNat = k := by omega
      rw [rescale_of_lt .halfEven _ (by simpa using hk), hdropped,
        Rounding.signedQuotient_natCast]
  rw [← hrescale]
  exact abs_value_rescale_sub_le (by decide : Rounding.halfEven ≠ .down) ⟨n, s⟩ (s - k)

/-- The first number at which a search succeeds. -/
theorem findSome?_range_eq_some {α : Type} {f : Nat → Option α} {n : Nat} {a : α}
    (h : (List.range n).findSome? f = some a) :
    ∃ k < n, f k = some a ∧ ∀ j < k, f j = none := by
  induction n with
  | zero => cases h
  | succ n ih =>
      rw [List.range_succ, List.findSome?_append] at h
      cases hbefore : (List.range n).findSome? f with
      | some b =>
          rw [hbefore] at h
          obtain ⟨k, hk, hf⟩ := ih (hbefore.trans h)
          exact ⟨k, Nat.lt_succ_of_lt hk, hf⟩
      | none =>
          rw [hbefore] at h
          refine ⟨n, Nat.lt_succ_self n, by simpa using h, ?_⟩
          intro j hj
          exact List.findSome?_eq_none_iff.mp hbefore j (List.mem_range.mpr hj)

namespace Decimal96

theorem ofParts?_eq_none {negative : Bool} {n s : Nat} :
    ofParts? negative n s = none ↔ twoPow 96 ≤ n ∨ 28 < s := by
  unfold ofParts?
  split <;> grind

/-- Digits are dropped only if the number would not fit with one more. -/
theorem fit?_eq_some {negative : Bool} {n s : Nat} {c : Decimal96}
    (h : fit? negative n s = some c) :
    ∃ k ≤ s, c.coefficient = Rounding.halfEven.quotient n (tenPow k) ∧ c.scale = s - k ∧
      ∀ j < k, twoPow 96 ≤ Rounding.halfEven.quotient n (tenPow j) ∨ 28 < s - j := by
  obtain ⟨k, hk, hparts, hbefore⟩ := findSome?_range_eq_some h
  obtain ⟨-, hcoefficient, hscale⟩ := ofParts?_eq_some hparts
  exact ⟨k, Nat.le_of_lt_succ hk, hcoefficient, hscale, fun j hj =>
    ofParts?_eq_none.mp (hbefore j hj)⟩

theorem fit?_eq_none {negative : Bool} {n s : Nat} (h : fit? negative n s = none) :
    twoPow 96 ≤ Rounding.halfEven.quotient n (tenPow s) := by
  have hlast := List.findSome?_eq_none_iff.mp h s (List.mem_range.mpr (Nat.lt_succ_self s))
  rcases ofParts?_eq_none.mp hlast with hlarge | hscale
  · exact hlarge
  · omega

/-- If a number does not fit at one digit more, a unit of the last place is small. -/
theorem unit_le_of_refused {n s j : Nat}
    (h : twoPow 96 ≤ Rounding.halfEven.quotient n (tenPow j) ∨ 28 < s - j) :
    (10 : ℚ) ^ (-((s : Int) - (j + 1 : Nat))) / 2 ≤
      10 ^ (-28 : Int) * max 1 (LongDecimal.value ⟨n, s⟩) := by
  have hten : (10 : ℚ) ≠ 0 := by norm_num
  have hmax : (1 : ℚ) ≤ max 1 (LongDecimal.value ⟨n, s⟩) := le_max_left _ _
  rcases h with hlarge | hscale
  · have hmoved := (abs_le.mp (LongDecimal.abs_value_halfEven_sub_le n j s)).2
    have hmax' : LongDecimal.value ⟨n, s⟩ ≤ max 1 (LongDecimal.value ⟨n, s⟩) := le_max_right _ _
    have hlarge' : (2 ^ 96 : ℚ) ≤ Rounding.halfEven.quotient n (tenPow j) := by
      exact_mod_cast hlarge
    have hunit : (10 : ℚ) ^ (-((s : Int) - (j + 1 : Nat))) = 10 * 10 ^ (-((s : Int) - j)) := by
      rw [mul_comm, ← zpow_add_one₀ hten]
      congr 1
      push_cast
      ring
    have hpos : (0 : ℚ) < 10 ^ (-((s : Int) - j)) := zpow_pos (by norm_num) _
    rw [hunit]
    rw [LongDecimal.value, Int.cast_natCast] at hmoved
    generalize (10 : ℚ) ^ (-((s : Int) - j)) = u at hmoved hpos ⊢
    have hfull : 2 ^ 96 * u ≤ Rounding.halfEven.quotient n (tenPow j) * u :=
      mul_le_mul_of_nonneg_right hlarge' hpos.le
    norm_num at hfull ⊢
    linarith
  · have hle : (10 : ℚ) ^ (-((s : Int) - (j + 1 : Nat))) ≤ 10 ^ (-28 : Int) := by
      apply zpow_le_zpow_right₀ (by norm_num)
      push_cast
      omega
    have hunit : (0 : ℚ) < 10 ^ (-28 : Int) := zpow_pos (by norm_num) _
    calc
      (10 : ℚ) ^ (-((s : Int) - (j + 1 : Nat))) / 2 ≤ 10 ^ (-((s : Int) - (j + 1 : Nat))) :=
        half_le_self (zpow_nonneg (by norm_num) _)
      _ ≤ 10 ^ (-28 : Int) := hle
      _ ≤ 10 ^ (-28 : Int) * max 1 (LongDecimal.value ⟨n, s⟩) :=
        le_mul_of_one_le_right hunit.le hmax

/-- A number is refused only if its whole part is too large, and otherwise it is moved by a
unit of the largest scale at most, or by as large a part of itself. -/
theorem fit?_of_size (negative : Bool) (n s : Nat) :
    Outcome (fun c => |c.value| ≤ LongDecimal.value ⟨n, s⟩ +
        10 ^ (-28 : Int) * max 1 (LongDecimal.value ⟨n, s⟩))
      (2 ^ 96 - 1 / 2 ≤ LongDecimal.value ⟨n, s⟩) (fit? negative n s) := by
  have hvalue := LongDecimal.value_natCast_nonneg n s
  cases hfit : fit? negative n s with
  | none =>
      apply Outcome.none
      have hlarge : (2 ^ 96 : ℚ) ≤ Rounding.halfEven.quotient n (tenPow s) := by
        exact_mod_cast fit?_eq_none hfit
      have hmoved := LongDecimal.abs_value_halfEven_sub_le n s s
      rw [sub_self, LongDecimal.value_integer] at hmoved
      have hle := (abs_le.mp hmoved).2
      rw [neg_zero, zpow_zero] at hle
      push_cast at hle
      linarith
  | some c =>
      apply Outcome.some
      obtain ⟨k, hk, hcoefficient, hscale, hbefore⟩ := fit?_eq_some hfit
      have hc : |c.value| =
          LongDecimal.value ⟨Rounding.halfEven.quotient n (tenPow k), s - k⟩ := by
        rw [abs_value, hcoefficient, hscale, Nat.cast_sub hk]
        rfl
      rw [hc]
      have hroom := mul_nonneg (zpow_nonneg (by norm_num : (0 : ℚ) ≤ 10) (-28))
        (le_trans zero_le_one (le_max_left 1 (LongDecimal.value ⟨n, s⟩)))
      cases k with
      | zero =>
          rw [tenPow_zero, Rounding.quotient_one, Nat.cast_zero, sub_zero]
          linarith
      | succ j =>
          have hmoved := (abs_le.mp (LongDecimal.abs_value_halfEven_sub_le n (j + 1) s)).2
          have hunit := unit_le_of_refused (hbefore j (Nat.lt_succ_self j))
          exact le_trans (sub_le_iff_le_add'.mp hmoved) (add_le_add_right hunit _)

theorem abs_value_mul (a b : Decimal96) :
    LongDecimal.value ⟨(a.coefficient * b.coefficient : Nat), (a.scale + b.scale : Nat)⟩ =
      |a.value| * |b.value| := by
  rw [abs_value, abs_value, Nat.cast_mul, Nat.cast_add, LongDecimal.value_mul_at]
  rfl

/-- A product is enlarged by a unit of the largest scale at most, and if it is refused, its
whole part is too large. -/
theorem mul?_of_size (a b : Decimal96) {B : ℚ} (hB : 1 ≤ B) (h : |a.value| * |b.value| ≤ B) :
    Outcome (fun c => |c.value| ≤ B * (1 + 10 ^ (-28 : Int))) (2 ^ 96 - 1 / 2 ≤ B)
      (mul? a b) := by
  have hunit : (0 : ℚ) < 10 ^ (-28 : Int) := zpow_pos (by norm_num) _
  have hfit : Outcome (fun c => |c.value| ≤ B * (1 + 10 ^ (-28 : Int))) (2 ^ 96 - 1 / 2 ≤ B)
      (fit? (a.negative != b.negative) (a.coefficient * b.coefficient) (a.scale + b.scale)) := by
    have hproduct := fit?_of_size (a.negative != b.negative) (a.coefficient * b.coefficient)
      (a.scale + b.scale)
    rw [abs_value_mul] at hproduct
    apply hproduct.mono
    · intro c hc
      have hroom := mul_le_mul_of_nonneg_left (max_le hB h) hunit.le
      linarith
    · intro hlimit
      exact le_trans hlimit h
  unfold mul?
  dsimp only
  split
  · apply Outcome.some
    rw [value_zero, abs_zero]
    positivity
  · split
    · apply hfit.map
      intro c hc
      rwa [value_unsignZero]
    · exact hfit

/-- A short power is refused only if the power of the base, enlarged by a unit of the largest
scale for each factor, is too large. -/
theorem shortPower?_of_size {x : Decimal96} {M : ℚ} (hM : 1 ≤ M) (hx : |x.value| ≤ M) {n : Nat}
    (hn : 0 < n) :
    Outcome (fun _ => True) (2 ^ 96 - 1 / 2 ≤ (M * (1 + 10 ^ (-28 : Int))) ^ n)
      (x.shortPower? n) := by
  have hunit : (0 : ℚ) ≤ 10 ^ (-28 : Int) := zpow_nonneg (by norm_num) _
  have hone : |one.value| ≤ 1 := by
    rw [abs_value]
    norm_num [one]
  have hpower : Outcome (fun c => |c.value| ≤ (M * (1 + 10 ^ (-28 : Int))) ^ n)
      (2 ^ 96 - 1 / 2 ≤ (M * (1 + 10 ^ (-28 : Int))) ^ n) (powerByBits mul? one x (bitsOf n)) := by
    have hmul (a b : Decimal96) (B : ℚ) (hB : 1 ≤ B) (h : |a.value| * |b.value| ≤ B) :=
      mul?_of_size a b hB h
    exact @powerByBits_size Decimal96 mul? (fun a => |a.value|) M (10 ^ (-28 : Int))
      (2 ^ 96 - 1 / 2) (fun a => abs_nonneg a.value) hM hunit hmul one x hone hx n hn
  unfold shortPower?
  apply hpower.map
  exact fun _ _ => trivial

end Decimal96

end DeskCalc
