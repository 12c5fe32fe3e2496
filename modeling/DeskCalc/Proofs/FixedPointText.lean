import DeskCalc.Numeral.FixedPoint
import DeskCalc.Proofs.DigitValue
import DeskCalc.Proofs.Magnitude

/-!
# The form of a number that is shown

The digits that are written for a number denote it. A number in fixed-point notation has
exactly the places that were asked for, and a minus sign only in front of some digit other
than zero.
-/

namespace DeskCalc

namespace Digits

theorem isDigit_digitChar {d : Nat} (h : d < 10) : (Nat.digitChar d).isDigit = true := by
  revert d
  decide

theorem value_digitChar {d : Nat} (h : d < 10) : value (Nat.digitChar d) = d := by
  revert d
  decide

theorem areDigits_block (k n : Nat) : areDigits (block k n) = true := by
  induction k generalizing n with
  | zero => exact areDigits_cons.mpr ⟨isDigit_digitChar (Nat.mod_lt n (by decide)), rfl⟩
  | succ k ih => exact areDigits_append.mpr ⟨ih _, ih _⟩

theorem toNat_block (k n : Nat) : toNat (block k n) = n % tenPow (twoPow k) := by
  induction k generalizing n with
  | zero =>
      have hten : tenPow (twoPow 0) = 10 := rfl
      rw [block, toNat_cons, value_digitChar (Nat.mod_lt n (by decide)), hten]
      simp
  | succ k ih =>
      have hsplit : tenPow (twoPow (k + 1)) = tenPow (twoPow k) * tenPow (twoPow k) := by
        rw [twoPow_succ, Nat.mul_two, tenPow_add]
      rw [block, toNat_append, ih, ih, length_block, hsplit, Nat.mod_mod, Nat.mod_mul,
        Nat.mul_comm, Nat.add_comm]

theorem areDigits_padded (width n : Nat) : areDigits (padded width n) = true := by
  have hblock := areDigits_block (width.log2 + 1) n
  rw [areDigits, List.all_eq_true] at hblock ⊢
  exact fun c hc => hblock c (List.mem_of_mem_drop hc)

/-- What is left of a digit text denotes the number below the place where it was cut. -/
theorem toNat_drop {digits : List Char} (h : areDigits digits = true) (k : Nat) :
    toNat (digits.drop k) = toNat digits % tenPow (digits.length - k) := by
  have hsplit := List.take_append_drop k digits
  rw [← hsplit, areDigits_append] at h
  have hlt := toNat_lt h.2
  conv_rhs => rw [← hsplit]
  rw [toNat_append, hsplit, ← List.length_drop, Nat.mul_comm, Nat.mul_add_mod,
    Nat.mod_eq_of_lt hlt]

theorem toNat_padded (width n : Nat) : toNat (padded width n) = n % tenPow width := by
  have hlt := lt_twoPow_log2_succ width
  have hlength : twoPow (width.log2 + 1) - (twoPow (width.log2 + 1) - width) = width := by
    omega
  have hdvd : tenPow width ∣ tenPow (twoPow (width.log2 + 1)) := by
    rw [← Nat.sub_add_cancel hlt.le, tenPow_add]
    exact Nat.dvd_mul_left _ _
  have hdrop := toNat_drop (areDigits_block (width.log2 + 1) n)
    (twoPow (width.log2 + 1) - width)
  rw [length_block, hlength, toNat_block, Nat.mod_mod_of_dvd _ hdvd] at hdrop
  exact hdrop

/-- The digits of a number denote it. -/
theorem toNat_ofNat (n : Nat) : toNat (ofNat n) = n := by
  rw [ofNat, toNat_padded, Nat.mod_eq_of_lt (lt_tenPow_count n)]

theorem ofNat_ne_nil (n : Nat) : ofNat n ≠ [] := by
  intro hnil
  have hlength := length_padded (count n) n
  rw [ofNat] at hnil
  rw [hnil, List.length_nil, count_eq_log] at hlength
  omega

theorem toNat_eq_zero {digits : List Char} (h : ∀ c ∈ digits, c = '0') : toNat digits = 0 := by
  rw [List.eq_replicate_of_mem h]
  exact toNat_replicate_zero _

/-- The digits of a number start with a zero only if it is zero. -/
theorem ofNat_of_head? {n : Nat} (h : (ofNat n).head? = some '0') : ofNat n = ['0'] := by
  have hdigits : areDigits (ofNat n) = true := areDigits_padded _ _
  have hlength : (ofNat n).length = count n := length_padded _ _
  have hnumber := toNat_ofNat n
  obtain ⟨rest, hrest⟩ := List.head?_eq_some_iff.mp h
  rw [hrest] at hdigits hlength hnumber
  have hlt := toNat_lt (areDigits_cons.mp hdigits).2
  have hfirst : toNat ('0' :: rest) = toNat rest := by
    rw [toNat_cons]
    simp [value]
  have hzero : n = 0 := by
    by_contra hne
    have hle := tenPow_le_of_count (Nat.pos_of_ne_zero hne)
    rw [← hlength, List.length_cons, Nat.add_sub_cancel] at hle
    omega
  rw [hzero]
  rfl

end Digits

/-- The text of a number with a number of places: a minus sign exactly if the number is below
zero, the whole part without zeros in front of it, and a point with the places if there are
any. -/
inductive ShowsNumber (q : ℚ) : Nat → List Char → Prop
  | intro {whole places : List Char} (hne : whole ≠ [])
      (hwhole : Digits.areDigits whole = true) (hplaces : Digits.areDigits places = true)
      (hfirst : whole.head? = some '0' → whole = ['0'])
      (hq : |q| = LongDecimal.value ⟨Digits.toNat (whole ++ places), places.length⟩) :
      ShowsNumber q places.length
        ((if q < 0 then ['-'] else []) ++ whole ++
          (if places = [] then [] else '.' :: places))

/-- What is written for `n / 10 ^ places` with a sign shows that number. -/
theorem showsNumber_fixedPoint {negative : Bool} {n places : Nat} {q : ℚ}
    (hsize : |q| = LongDecimal.value ⟨n, places⟩)
    (hsign : q < 0 ↔ (negative && n != 0) = true) :
    ShowsNumber q places (fixedPoint negative n places).toList := by
  set whole := Digits.ofNat (n / tenPow places) with hwhole
  set fraction := Digits.padded places (n % tenPow places) with hfraction
  have hlength : fraction.length = places := Digits.length_padded _ _
  have hnumber : Digits.toNat (whole ++ fraction) = n := by
    rw [Digits.toNat_append, hlength, hwhole, Digits.toNat_ofNat, hfraction,
      Digits.toNat_padded, Nat.mod_mod, Nat.mul_comm, Nat.div_add_mod]
  have htext := @ShowsNumber.intro q whole fraction (Digits.ofNat_ne_nil _)
    (Digits.areDigits_padded _ _) (Digits.areDigits_padded _ _) Digits.ofNat_of_head?
    (by rw [hnumber, hlength, hsize])
  have hnil : fraction = [] ↔ places = 0 := by rw [← hlength, List.length_eq_zero_iff]
  simp only [hlength, hnil, hsign] at htext
  rw [fixedPoint, String.toList_ofList]
  exact htext

/-- A text in fixed-point notation with a number of places. The point stands only in front
of places, and a minus sign only in front of some digit that is not zero. -/
inductive IsFixedPoint : Nat → List Char → Prop
  | intro {negative : Bool} {whole places : List Char} (hne : whole ≠ [])
      (hwhole : Digits.areDigits whole = true) (hplaces : Digits.areDigits places = true)
      (hsign : negative = true → ∃ c ∈ whole ++ places, c ≠ '0') :
      IsFixedPoint places.length
        ((if negative then ['-'] else []) ++ whole ++
          (if places = [] then [] else '.' :: places))

/-- A number below zero shows some digit other than zero. -/
theorem ShowsNumber.isFixedPoint {q : ℚ} {places : Nat} {text : List Char}
    (h : ShowsNumber q places text) : IsFixedPoint places text := by
  cases h with
  | @intro whole places hne hwhole hplaces hfirst hq =>
      have hsign : decide (q < 0) = true → ∃ c ∈ whole ++ places, c ≠ '0' := by
        intro hneg
        by_contra hall
        push Not at hall
        rw [Digits.toNat_eq_zero hall, LongDecimal.value_eq_zero_iff.mpr rfl, abs_eq_zero] at hq
        exact absurd (of_decide_eq_true hneg) (by rw [hq]; exact lt_irrefl 0)
      have htext := IsFixedPoint.intro hne hwhole hplaces hsign
      simp only [decide_eq_true_eq] at htext
      exact htext

theorem isFixedPoint_fixedPoint (negative : Bool) (n places : Nat) :
    IsFixedPoint places (fixedPoint negative n places).toList := by
  set v := LongDecimal.value ⟨n, places⟩ with hv
  have hnonneg : 0 ≤ v := LongDecimal.value_natCast_nonneg n places
  have hzero : v = 0 ↔ n = 0 := by rw [hv, LongDecimal.value_eq_zero_iff, Nat.cast_eq_zero]
  cases negative with
  | false =>
      refine (showsNumber_fixedPoint (q := v) (abs_of_nonneg hnonneg) ?_).isFixedPoint
      simpa using hnonneg
  | true =>
      refine (showsNumber_fixedPoint (q := -v) ?_ ?_).isFixedPoint
      · rw [abs_neg, abs_of_nonneg hnonneg]
      · rw [neg_lt_zero, hnonneg.lt_iff_ne', ne_eq, hzero]
        simp

end DeskCalc
