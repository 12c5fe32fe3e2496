import DeskCalc.Calculator
import DeskCalc.Proofs.ExponentForm
import DeskCalc.Proofs.GuardedResult
import DeskCalc.Proofs.Steps

/-!
# Which literals long decimals admit

A literal is read without rounding or not at all. It is admitted if its exponent is complete
and within the exponent limit, and if its digits at the scale that the exponent leaves are
within the limit too. Every other literal is malformed.
-/

namespace DeskCalc

open Digits (areDigits toNat)

/-- A text of digits has those of its number behind the zeros in front, but one at least. -/
theorem Digits.count_toNat {digits : List Char} (h : areDigits digits = true) :
    count (toNat digits) = max 1 (digits.dropWhile (· == '0')).length := by
  rcases dropWhile_zero_cases h with ⟨hnil, hzero⟩ | ⟨c, rest, hrest, hdigits, hnumber, hlow⟩
  · rw [hnil, hzero]
    rfl
  · rw [hnumber, hrest, count_eq_log, Nat.log_eq_of_pow_le_of_lt_pow hlow (toNat_lt hdigits),
      List.length_cons]
    omega

/-- The integer at the end of a literal: zero without a marker, and otherwise that of the
complete exponent behind it. -/
inductive ExponentValue : List Char → Int → Prop
  | none : ExponentValue [] 0
  | complete {exponent : List Char} {e : Int} (h : CompleteExponent exponent e) :
      ExponentValue exponent e

/-- An exponent is complete, or it is missing behind the marker or with it. -/
theorem IsExponent.cases_complete {exponent : List Char} (h : IsExponent exponent) :
    exponent = [] ∨ (∃ marker, exponent = [marker]) ∨ ∃ e, CompleteExponent exponent e := by
  cases h with
  | none => exact Or.inl rfl
  | @bare marker digits hmarker hdigits =>
      rcases eq_or_ne digits [] with rfl | hne
      · exact Or.inr (Or.inl ⟨marker, rfl⟩)
      · exact Or.inr (Or.inr ⟨_, .bare hmarker hne hdigits⟩)
  | signed hmarker hsign hne hdigits =>
      rcases hsign with rfl | rfl
      · exact Or.inr (Or.inr ⟨_, .plus hmarker hne hdigits⟩)
      · exact Or.inr (Or.inr ⟨_, .minus hmarker hne hdigits⟩)

theorem ExponentValue.unique {exponent : List Char} {e e' : Int} (h : ExponentValue exponent e)
    (h' : ExponentValue exponent e') : e = e' := by
  cases h with
  | none =>
      cases h' with
      | none => rfl
      | complete h' => cases h'
  | complete h =>
      cases h' with
      | none => cases h
      | complete h' => exact Option.some.inj (h.toInt?_tail.symm.trans h'.toInt?_tail)

namespace LongDecimal

theorem exponent?_of_complete {exponent : List Char} {e : Int} (h : CompleteExponent exponent e) :
    exponent? exponent.tail? = (some e).filter withinLimit := by
  obtain ⟨text, htail, hint⟩ := Option.bind_eq_some_iff.mp h.toInt?_tail
  rw [htail, exponent?, hint]

/-- The exponent that is read is the one that the literal ends in, if it is within the limit. -/
theorem exponent?_eq_some_iff {exponent : List Char} (h : IsExponent exponent) (e : Int) :
    exponent? exponent.tail? = some e ↔ ExponentValue exponent e ∧ withinLimit e = true := by
  constructor
  · intro he
    rcases h.cases_complete with rfl | ⟨marker, rfl⟩ | ⟨e', hcomplete⟩
    · obtain rfl : 0 = e := Option.some.inj he
      exact ⟨.none, rfl⟩
    · cases he
    · rw [exponent?_of_complete hcomplete] at he
      obtain ⟨hsome, hlimit⟩ := Option.filter_eq_some_iff.mp he
      obtain rfl := Option.some.inj hsome
      exact ⟨.complete hcomplete, hlimit⟩
  · rintro ⟨hvalue, hlimit⟩
    cases hvalue with
    | none => rfl
    | complete hcomplete =>
        rw [exponent?_of_complete hcomplete]
        exact Option.filter_eq_some_iff.mpr ⟨rfl, hlimit⟩

/-- Whether digits with a number of places behind the point may be shifted by `10 ^ e`: the
exponent, the scale that it leaves and the digits in front of the point are within the
limit. -/
structure Admitted (digits : List Char) (places : Nat) (e : Int) : Prop where
  exponent : -exponentLimit ≤ e ∧ e ≤ exponentLimit
  scale : -exponentLimit ≤ places - e ∧ places - e ≤ exponentLimit
  magnitude :
    ((max 1 (digits.dropWhile (· == '0')).length : Nat) : Int) - (places - e) ≤ exponentLimit

/-- The digits of an admitted literal are within the limit at the scale of the literal, and
no others are. A number whose scale is within it cannot be too small. -/
theorem admitted_iff {digits : List Char} (h : areDigits digits = true) (places : Nat) (e : Int) :
    Admitted digits places e ↔
      withinLimit e = true ∧ isBounded ⟨toNat digits, places - e⟩ = true := by
  have hdigits : (⟨toNat digits, places - e⟩ : LongDecimal).digits =
      max 1 (digits.dropWhile (· == '0')).length := Digits.count_toNat h
  have hone : 1 ≤ max 1 (digits.dropWhile (· == '0')).length := le_max_left _ _
  rw [withinLimit_iff, isBounded_iff, LongDecimal.magnitude, hdigits]
  constructor
  · intro hadmitted
    have hscale := hadmitted.scale
    refine ⟨hadmitted.exponent, hscale, ?_, hadmitted.magnitude⟩
    dsimp only
    omega
  · rintro ⟨hexponent, hscale, -, hmagnitude⟩
    exact ⟨hexponent, hscale, hmagnitude⟩

/-- The number of a mantissa, shifted by its exponent. -/
theorem value_mantissa (whole places : List Char) (e : Int) :
    value ⟨toNat (whole ++ places), places.length - e⟩ =
      (toNat whole + toNat places / 10 ^ places.length) * 10 ^ e := by
  have hten : (10 : ℚ) ≠ 0 := by norm_num
  have hexponent : -((places.length : Int) - e) = -(places.length : Int) + e := by ring
  rw [value, hexponent, zpow_add₀ hten, zpow_neg, zpow_natCast, Digits.toNat_append,
    Int.cast_natCast, Nat.cast_add, Nat.cast_mul, cast_tenPow]
  field_simp

/-- How a literal with the given parts is read. -/
structure LiteralReading (whole fraction exponent : List Char) : Prop where
  /-- It is accepted exactly if it ends in an exponent that admits its digits. -/
  accepted : (∃ y, ofLiteral? (whole ++ fraction ++ exponent) = some y) ↔
    ∃ e, ExponentValue exponent e ∧ Admitted (whole ++ fraction.tail) fraction.tail.length e
  /-- What is read is the mantissa times the power of ten, and within the limit. -/
  exact : ∀ e y, ExponentValue exponent e → ofLiteral? (whole ++ fraction ++ exponent) = some y →
    y.value = (toNat whole + toNat fraction.tail / 10 ^ fraction.tail.length) * 10 ^ e ∧
      y.isBounded = true
  /-- As an operand and as a precision alike, it is malformed exactly if it is not accepted. -/
  malformed : ∀ s : LineState LongDecimal,
    (s.step (.literal (whole ++ fraction ++ exponent))).2 = .error .malformedLiteral ↔
      ¬ ∃ e, ExponentValue exponent e ∧
        Admitted (whole ++ fraction.tail) fraction.tail.length e

section Parts

variable {whole fraction exponent : List Char} (hne : whole ≠ [])
  (hwhole : areDigits whole = true) (hfraction : IsFraction fraction)
  (hexponent : IsExponent exponent)

include hne hwhole hfraction hexponent

theorem ofLiteral?_eq_some_iff (y : LongDecimal) :
    ofLiteral? (whole ++ fraction ++ exponent) = some y ↔
      ∃ e, ExponentValue exponent e ∧
        Admitted (whole ++ fraction.tail) fraction.tail.length e ∧
        y = ⟨toNat (whole ++ fraction.tail), fraction.tail.length - e⟩ := by
  have hdigits : areDigits (whole ++ fraction.tail) = true :=
    Digits.areDigits_append.mpr ⟨hwhole, hfraction.areDigits_tail⟩
  have hparts : ofLiteral? (whole ++ fraction ++ exponent) = _ :=
    ofLiteral?_of_parts hne hwhole hfraction hexponent false
  rw [hparts, Option.bind_eq_some_iff]
  constructor
  · rintro ⟨e, he, hy⟩
    obtain ⟨hvalue, hlimit⟩ := (exponent?_eq_some_iff hexponent e).mp he
    obtain ⟨hsome, hbounded⟩ := Option.filter_eq_some_iff.mp hy
    obtain rfl := Option.some.inj hsome
    exact ⟨e, hvalue, (admitted_iff hdigits _ e).mpr ⟨hlimit, hbounded⟩, rfl⟩
  · rintro ⟨e, hvalue, hadmitted, rfl⟩
    obtain ⟨hlimit, hbounded⟩ := (admitted_iff hdigits _ e).mp hadmitted
    exact ⟨e, (exponent?_eq_some_iff hexponent e).mpr ⟨hvalue, hlimit⟩,
      Option.filter_eq_some_iff.mpr ⟨rfl, hbounded⟩⟩

/-- A literal of any parts is read exactly if it is admitted, and is malformed otherwise. -/
theorem literalReading : LiteralReading whole fraction exponent := by
  have hread := ofLiteral?_eq_some_iff hne hwhole hfraction hexponent
  have haccepted : (∃ y, ofLiteral? (whole ++ fraction ++ exponent) = some y) ↔
      ∃ e, ExponentValue exponent e ∧
        Admitted (whole ++ fraction.tail) fraction.tail.length e := by
    constructor
    · rintro ⟨y, hy⟩
      obtain ⟨e, hvalue, hadmitted, -⟩ := (hread y).mp hy
      exact ⟨e, hvalue, hadmitted⟩
    · rintro ⟨e, hvalue, hadmitted⟩
      exact ⟨_, (hread _).mpr ⟨e, hvalue, hadmitted, rfl⟩⟩
  refine ⟨haccepted, fun e y hvalue hy => ?_, fun s => ?_⟩
  · obtain ⟨e', hvalue', -, rfl⟩ := (hread y).mp hy
    obtain rfl := hvalue.unique hvalue'
    exact ⟨value_mantissa whole fraction.tail e, isBounded_of_ofLiteral? hy⟩
  · rw [s.step_literal_eq_malformed_iff, ← haccepted, ← Option.ne_none_iff_exists', not_not]
    rfl

end Parts

/-- At the end of the range a place more lets a zero be shifted by one digit more. -/
theorem literalReading_shifted_zero :
    ("0".toList ≠ [] ∧ areDigits "0".toList = true ∧ IsFraction ".0".toList ∧
        IsExponent "e100000".toList) ∧
      LiteralReading "0".toList ".0".toList "e100000".toList := by
  have hfraction : IsFraction ('.' :: "0".toList) := .point (by decide)
  have hexponent : IsExponent ('e' :: "100000".toList) := .bare rfl (by decide)
  exact ⟨⟨by decide, by decide, hfraction, hexponent⟩,
    literalReading (by decide) (by decide) hfraction hexponent⟩

end LongDecimal

end DeskCalc
