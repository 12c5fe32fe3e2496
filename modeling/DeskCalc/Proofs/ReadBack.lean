import DeskCalc.Calculator
import DeskCalc.Execution
import DeskCalc.Proofs.FixedPointText
import DeskCalc.Proofs.HalfAway
import DeskCalc.Proofs.LiteralValue

/-!
# Reading back what is shown

A decimal is shown as the number that it is rounded to, half away from zero. The text is a
literal of that number behind a sign, so reading it gives a decimal of the rounded number,
which is shown by the same text. Decimals of 96 bits can hold every number that is shown of
them, but the formatter has no room for every one. A long decimal has to stay below the exponent
limit, which a carry may reach.
-/

namespace DeskCalc

open Digits (areDigits toNat)

/-- The whole part and the fraction of what is shown. -/
theorem ShowsNumber.exists_parts {q : ℚ} {places : Nat} {text : List Char}
    (h : ShowsNumber q places text) :
    ∃ whole fraction, whole ≠ [] ∧ areDigits whole = true ∧ IsFraction fraction ∧
      fraction.tail.length = places ∧
      |q| = LongDecimal.value ⟨toNat (whole ++ fraction.tail), fraction.tail.length⟩ ∧
      text = (if decide (q < 0) then ['-'] else []) ++ whole ++ fraction := by
  cases h with
  | @intro whole places hne hwhole hplaces hfirst hq =>
      simp only [decide_eq_true_eq]
      by_cases hnil : places = []
      · rw [if_pos hnil]
        subst hnil
        exact ⟨whole, [], hne, hwhole, .none, rfl, hq, rfl⟩
      · rw [if_neg hnil]
        exact ⟨whole, '.' :: places, hne, hwhole, .point hplaces, rfl, hq, rfl⟩

/-- How the text of `x` is read: as a value `y` of the number that is shown, half a unit of the
last place away from `x` at most, and shown by the same text. -/
structure ReadsBack {α : Type} [Operand α] (number : α → ℚ) (x y : α) (places : Nat) : Prop where
  read : Operand.ofLiteral? (Operand.toFixed x places).toList = some y
  number_eq : number y = roundedAway places (number x)
  near : |number y - number x| ≤ 10 ^ (-(places : Int)) / 2
  text_eq : Operand.toFixed y places = Operand.toFixed x places

theorem ReadsBack.of_number {α : Type} [Operand α] {number : α → ℚ} {x y : α} {places : Nat}
    (hread : Operand.ofLiteral? (Operand.toFixed x places).toList = some y)
    (hnumber : number y = roundedAway places (number x))
    (htext : Operand.toFixed y places = Operand.toFixed x places) :
    ReadsBack number x y places where
  read := hread
  number_eq := hnumber
  near := by
    rw [hnumber]
    exact abs_roundedAway_sub_le places (number x)
  text_eq := htext

namespace LongDecimal

/-- The text of a long decimal shows the number rounded half away from zero. -/
theorem showsNumber_toFixed (x : LongDecimal) (places : Nat) :
    ShowsNumber (roundedAway places x.value) places (x.toFixed places).toList := by
  rw [← value_rescale_halfUp, toFixed]
  apply showsNumber_fixedPoint
  · rw [abs_value_eq_natAbs, rescale_scale]
    rfl
  · rw [value_neg_iff]
    simp only [Bool.and_eq_true, decide_eq_true_eq, bne_iff_ne, ne_eq, Int.natAbs_eq_zero]
    omega

/-- The digits of a number that is the rounding of another one are those of the other one. -/
theorem coefficient_rescale_of_roundedAway {x y : LongDecimal} {places : Nat}
    (h : y.value = roundedAway places x.value) :
    (y.rescale .halfUp places).coefficient = (x.rescale .halfUp places).coefficient := by
  rw [coefficient_rescale_halfUp, h, roundedAway_mul_pow, halfAway_intCast,
    coefficient_rescale_halfUp]

theorem toFixed_of_roundedAway {x y : LongDecimal} {places : Nat}
    (h : y.value = roundedAway places x.value) : y.toFixed places = x.toFixed places := by
  simp only [toFixed, coefficient_rescale_of_roundedAway h]

/-- A number is its magnitude behind its sign. -/
theorem value_of_abs {q : ℚ} {n : Nat} {s : Int} (h : |q| = value ⟨n, s⟩) :
    value ⟨if decide (q < 0) then -(n : Int) else n, s⟩ = q := by
  by_cases hq : q < 0
  · have hneg : value ⟨-(n : Int), s⟩ = -value ⟨n, s⟩ := value_neg ⟨n, s⟩
    rw [decide_eq_true hq, if_pos rfl, hneg, ← h, abs_of_neg hq, neg_neg]
  · rw [decide_eq_false hq, if_neg Bool.false_ne_true, ← h, abs_of_nonneg (not_lt.mp hq)]

/-- The text of a number is read as that number with the places shown, if the limit admits
it. -/
theorem ofLiteral?_of_showsNumber {q : ℚ} {places : Nat} {text : List Char}
    (h : ShowsNumber q places text) :
    ∃ y : LongDecimal, y.value = q ∧ y.scale = places ∧
      ofLiteral? text = (some y).filter isBounded := by
  obtain ⟨whole, fraction, hne, hwhole, hfraction, hlength, hq, rfl⟩ := h.exists_parts
  have hread := ofLiteral?_of_parts hne hwhole hfraction .none (decide (q < 0))
  rw [List.append_nil] at hread
  have hscale : (fraction.tail.length : Int) - 0 = fraction.tail.length := Int.sub_zero _
  refine ⟨_, ?_, ?_, hread⟩
  · rw [hscale]
    exact value_of_abs hq
  · rw [hscale, hlength]

section Places

variable {places : Nat} (hplaces : (places : Int) ≤ exponentLimit)

include hplaces

/-- The text of a value is read if the number that is shown lies below the limit, and is
malformed otherwise. -/
theorem ofLiteral?_toFixed (x : LongDecimal) :
    ∃ y : LongDecimal, y.value = roundedAway places x.value ∧
      (|roundedAway places x.value| < 10 ^ exponentLimit →
        ofLiteral? (x.toFixed places).toList = some y) ∧
      (ofLiteral? (x.toFixed places).toList = none ↔
        10 ^ exponentLimit ≤ |roundedAway places x.value|) := by
  obtain ⟨y, hvalue, hscale, hread⟩ := ofLiteral?_of_showsNumber (x.showsNumber_toFixed places)
  have hlimit : (0 : Int) < exponentLimit := by decide
  have hbounded : y.isBounded = true ↔ |roundedAway places x.value| < 10 ^ exponentLimit := by
    rw [isBounded_iff_size, hvalue, hscale, and_iff_left]
    exact ⟨by omega, hplaces⟩
  refine ⟨y, hvalue, fun hsize => ?_, ?_⟩
  · exact hread.trans (Option.filter_eq_some_iff.mpr ⟨rfl, hbounded.mpr hsize⟩)
  · rw [hread, Option.filter_some, ← not_lt, ← hbounded]
    split
    · next h => exact iff_of_false nofun (not_not.mpr h)
    · next h => exact iff_of_true rfl h

/-- What is shown of a value within the exponent limit is the number rounded half away from
zero. It is read back unless a carry has reached the limit, where the text is malformed. -/
theorem readsBack_of_isBounded {x : LongDecimal} (hx : x.isBounded = true) :
    ShowsNumber (roundedAway places x.value) places (x.toFixed places).toList ∧
      (|roundedAway places x.value| < 10 ^ exponentLimit → ∃ y, ReadsBack value x y places) ∧
      (ofLiteral? (x.toFixed places).toList = none ↔
        |roundedAway places x.value| = 10 ^ exponentLimit) := by
  obtain ⟨y, hvalue, hread, hnone⟩ := ofLiteral?_toFixed hplaces x
  have hlimit : (0 : Int) < exponentLimit := by decide
  have hle : |roundedAway places x.value| ≤ 10 ^ exponentLimit := by
    rw [← value_rescale_halfUp]
    exact abs_value_rescale_le_zpow .halfUp (isBounded_iff_size.mp hx).1.le (by omega)
  refine ⟨x.showsNumber_toFixed places, fun hsize => ⟨y, ?_⟩, ?_⟩
  · exact .of_number (hread hsize) hvalue (toFixed_of_roundedAway hvalue)
  · exact hnone.trans ⟨hle.antisymm, fun h => h.ge⟩

end Places

/-- A carry through all digits, below zero. -/
theorem readsBack_carry :
    (isBounded ⟨-9996, 2⟩ = true ∧ ((1 : Nat) : Int) ≤ exponentLimit) ∧
      ShowsNumber (roundedAway 1 (value ⟨-9996, 2⟩)) 1 "-100.0".toList ∧
      ∃ y, ReadsBack value ⟨-9996, 2⟩ y 1 := by
  have hx : isBounded ⟨-9996, 2⟩ = true := by decide
  have hplaces : ((1 : Nat) : Int) ≤ exponentLimit := by decide
  obtain ⟨hshown, hread, -⟩ := readsBack_of_isBounded hplaces hx
  have hrounded : roundedAway 1 (value ⟨-9996, 2⟩) = value ⟨-1000, 1⟩ := by
    rw [← value_rescale_halfUp]
    exact congrArg value (by decide)
  refine ⟨⟨hx, hplaces⟩, hshown, hread ?_⟩
  rw [hrounded]
  exact (isBounded_iff_size.mp (by decide)).1

/-- The digits that a carry runs through up to the exponent limit. -/
def nines (places : Nat) : LongDecimal :=
  ⟨(tenPow (exponentLimit.toNat + places + 1) - 1 : Nat), (places : Int) + 1⟩

/-- Rounded at their last place but one, they are a power of ten. -/
theorem roundedAway_nines (places : Nat) :
    roundedAway places (nines places).value = 10 ^ exponentLimit := by
  have hlimit : (exponentLimit.toNat : Int) = exponentLimit := rfl
  have hlast : (places : Int) < (nines places).scale := Int.lt_succ places
  have hplace : (nines places).scale - places = (1 : Nat) := add_sub_cancel_left _ _
  have hcarry : Rounding.halfUp.quotient (tenPow (exponentLimit.toNat + places + 1) - 1)
      (tenPow 1) = tenPow (exponentLimit.toNat + places) := by
    have hten : tenPow 1 = 10 := rfl
    have hpos := tenPow_pos (exponentLimit.toNat + places)
    rw [Rounding.halfUp_quotient _ (tenPow_pos 1), tenPow_succ, hten]
    omega
  rw [← value_rescale_halfUp, rescale_of_lt _ _ hlast, hplace, Int.toNat_natCast, nines,
    Rounding.signedQuotient_natCast, hcarry]
  exact tenPow_mul_zpow (by simp only [Nat.cast_add, hlimit]; ring)

/-- With fewer places than the limit there are values whose text is not read back. -/
theorem exists_malformed_toFixed {places : Nat} (h : (places : Int) < exponentLimit) :
    ∃ x : LongDecimal, x.isBounded = true ∧ ofLiteral? (x.toFixed places).toList = none := by
  have hrounded := roundedAway_nines places
  obtain ⟨-, -, -, hnone⟩ := ofLiteral?_toFixed h.le (nines places)
  refine ⟨nines places, ?_, hnone.mpr ?_⟩
  · have hlt := value_lt_zpow (Nat.sub_lt (tenPow_pos (exponentLimit.toNat + places + 1))
      Nat.one_pos) exponentLimit
    have hscale : ((exponentLimit.toNat + places + 1 : Nat) : Int) - exponentLimit =
        places + 1 := by omega
    have hnonneg : 0 ≤ (nines places).value := value_natCast_nonneg _ _
    rw [hscale] at hlt
    apply isBounded_of_scale
    · rw [abs_of_nonneg hnonneg]
      exact hlt
    · change -exponentLimit < (places : Int) + 1
      omega
    · exact h
  · rw [hrounded]
    exact le_abs_self _

end LongDecimal

namespace Decimal96

/-- Where places are dropped, the magnitude does not grow. -/
theorem scaled_le (x : Decimal96) {places : Nat} (h : places < x.scale) :
    x.scaled places ≤ x.coefficient := by
  rw [scaled, if_neg (not_le.mpr h)]
  exact Rounding.quotient_le_of_le_mul _ (tenPow_pos _)
    (Nat.le_mul_of_pos_right _ (tenPow_pos _))

/-- The decimal of the number that is shown of `x`. -/
def rounded (x : Decimal96) (places : Nat) : Decimal96 :=
  if h : x.scale ≤ places then x
  else
    ⟨x.negative, x.scaled places, places,
      lt_of_le_of_lt (x.scaled_le (not_le.mp h)) x.coefficient_lt,
      (not_le.mp h).le.trans x.scale_le⟩

theorem value_rounded (x : Decimal96) (places : Nat) :
    (x.rounded places).value = roundedAway places x.value := by
  unfold rounded
  split
  · next h => exact (LongDecimal.roundedAway_value_of_le (Int.ofNat_le.mpr h)).symm
  · have hrounded := LongDecimal.value_rescale_halfUp x.toLong places
    rw [rescale_toLong] at hrounded
    exact hrounded

/-- The text of a decimal shows the number rounded half away from zero. -/
theorem showsNumber_toFixed (x : Decimal96) (places : Nat) :
    ShowsNumber (roundedAway places x.value) places (x.toFixed places).toList := by
  rw [toFixed_toLong]
  exact x.toLong.showsNumber_toFixed places

section SameRounding

variable {x y : Decimal96} {places : Nat} (h : y.value = roundedAway places x.value)

include h

theorem toFixed_of_roundedAway : y.toFixed places = x.toFixed places := by
  rw [toFixed_toLong, toFixed_toLong]
  exact LongDecimal.toFixed_of_roundedAway h

theorem scaled_of_roundedAway : y.scaled places = x.scaled places := by
  have hsame := congrArg Int.natAbs (LongDecimal.coefficient_rescale_of_roundedAway
    (x := x.toLong) (y := y.toLong) h)
  have hmagnitude (z : Decimal96) :
      (z.toLong.rescale .halfUp places).coefficient.natAbs = z.scaled places := by
    rw [rescale_toLong]
    dsimp only
    split <;> omega
  rwa [hmagnitude, hmagnitude] at hsame

end SameRounding

/-- The formatter has the same room for the number that is shown. -/
theorem fitsFormatter_of_roundedAway {x y : Decimal96} {places : Nat}
    (h : y.value = roundedAway places x.value) :
    y.fitsFormatter places = x.fitsFormatter places := by
  -- No number has more places than the formatter writes.
  have hwritten : y.value = roundedAway (min places maxScale) x.value := by
    rcases le_total places maxScale with hle | hle
    · rw [h, min_eq_left hle]
    · have hscale := x.scale_le
      rw [h, min_eq_right hle]
      exact (LongDecimal.roundedAway_value_of_le (Int.ofNat_le.mpr (hscale.trans hle))).trans
        (LongDecimal.roundedAway_value_of_le (Int.ofNat_le.mpr hscale)).symm
  rw [fitsFormatter, written, scaled_of_roundedAway hwritten, fitsFormatter, written]

/-- A minus sign in front of a text that has none is read as the sign of a number other than
zero. -/
theorem ofPlain?_minus {text : List Char} (h : Spelling.takeSign text = (false, text)) :
    ofPlain? ('-' :: text) = (ofPlain? text).map fun x => x.neg.unsignZero := by
  have hminus : Spelling.takeSign ('-' :: text) = (true, text) := rfl
  simp only [ofPlain?, h, hminus, Option.bind_eq_bind]
  cases Reading.continue? {} text with
  | none => rfl
  | some parts =>
      simp only [Option.bind_some, ofParts?]
      split
      · rfl
      · rfl

/-- The text of a number that 96 bits can hold is read as that number. -/
theorem ofLiteral?_of_showsNumber {x₀ : Decimal96} {places : Nat} {text : List Char}
    (h : ShowsNumber x₀.value places text) :
    ∃ y, ofLiteral? text = some y ∧ y.value = x₀.value := by
  generalize hq₀ : x₀.value = q at h
  obtain ⟨whole, fraction, hne, hwhole, hfraction, -, hq, rfl⟩ := h.exists_parts
  have hplain : PlainForm (whole ++ fraction) |q| :=
    .intro hwhole hfraction (List.append_ne_nil_of_left_ne_nil hne _) hq.symm
  have hmarker : ((if decide (q < 0) then ['-'] else []) ++ whole ++ fraction).any
      Spelling.isMarker = false := by
    rw [List.any_eq_false]
    intro c hc
    rw [isMarker_signed_mantissa hwhole hfraction _ c hc]
    exact Bool.false_ne_true
  rw [ofLiteral?, hmarker, if_neg Bool.false_ne_true, List.append_assoc]
  by_cases hneg : q < 0
  · have habs : x₀.neg.value = |q| := by rw [value_neg, hq₀, abs_of_neg hneg]
    obtain ⟨y, hy, -, hvalue⟩ := ofPlain?_of_value_eq (habs ▸ hplain)
    have hsign : Spelling.takeSign (whole ++ fraction) = (false, whole ++ fraction) := by
      obtain ⟨c, rest, rfl⟩ := List.exists_cons_of_ne_nil hne
      exact Spelling.takeSign_of_isDigit (Digits.areDigits_cons.mp hwhole).1 _
    refine ⟨y.neg.unsignZero, ?_, ?_⟩
    · rw [decide_eq_true hneg, if_pos rfl]
      exact (ofPlain?_minus hsign).trans (congrArg _ hy)
    · rw [value_unsignZero, value_neg, neg_eq_iff_eq_neg, hvalue, value_neg, hq₀]
  · have habs : x₀.value = |q| := by rw [hq₀, abs_of_nonneg (not_lt.mp hneg)]
    obtain ⟨y, hy, -, hvalue⟩ := ofPlain?_of_value_eq (habs ▸ hplain)
    refine ⟨y, ?_, hvalue.trans hq₀⟩
    rw [decide_eq_false hneg, if_neg Bool.false_ne_true]
    exact hy

/-- The formatter has the same room for the number that is shown, and gives the same text. -/
theorem shown?_of_roundedAway {x y : Decimal96} {places : Nat}
    (h : y.value = roundedAway places x.value) :
    Operand.shown? y places = Operand.shown? x places := by
  have hroom : Operand.canShow y places = Operand.canShow x places :=
    congrArg (decide (places ≤ placesBound) && ·) (fitsFormatter_of_roundedAway h)
  have htext : Operand.toFixed y places = Operand.toFixed x places := toFixed_of_roundedAway h
  rw [Operand.shown?, hroom, htext, Operand.shown?]

/-- What the formatter gives for a value is the number rounded half away from zero. It is read
back as that number, which is given by the same text. -/
theorem readsBack_of_canShow {x : Decimal96} {places : Nat}
    (h : Operand.canShow x places = true) :
    Operand.shown? x places = some (Operand.toFixed x places) ∧
      ShowsNumber (roundedAway places x.value) places (Operand.toFixed x places).toList ∧
      ∃ y, ReadsBack value x y places ∧ Operand.shown? y places = Operand.shown? x places := by
  have hshown := x.showsNumber_toFixed places
  obtain ⟨y, hread, hvalue⟩ :=
    ofLiteral?_of_showsNumber ((x.value_rounded places).symm ▸ hshown)
  rw [value_rounded] at hvalue
  refine ⟨by rw [Operand.shown?, if_pos h], hshown, y, ?_, shown?_of_roundedAway hvalue⟩
  exact .of_number hread hvalue (toFixed_of_roundedAway hvalue)

/-- What is left of a negative number is shown and read as zero without a sign. -/
theorem readsBack_of_canShow_unsigned :
    let x : Decimal96 := ⟨true, 4, 2, by decide, by decide⟩
    Operand.canShow x 1 = true ∧ Operand.shown? x 1 = some "0.0" ∧
      ShowsNumber (roundedAway 1 x.value) 1 "0.0".toList ∧
      ∃ y, ReadsBack value x y 1 ∧ Operand.shown? y 1 = Operand.shown? x 1 := by
  intro x
  have hroom : Operand.canShow x 1 = true := by decide +kernel
  have htext : Operand.toFixed x 1 = "0.0" := by decide +kernel
  have hback := readsBack_of_canShow hroom
  rw [htext] at hback
  exact ⟨hroom, hback⟩

/-- Room for the digits is not all that a text needs: with too many zeros behind them the formatter
gives none, and the line that asks for it breaks off. -/
theorem shown?_eq_none_of_fitsFormatter :
    zero.fitsFormatter 70000 = true ∧ Operand.shown? zero 70000 = none ∧
      ∃ m : Machine Decimal96,
        Config.start .full { backend := .decimal, maxPrecision := 70000 } = .ok m ∧
          m.crash? "k70000 0 p".toList = some .formatter := by
  refine ⟨by decide +kernel, by decide +kernel, { precision := 4, maxPrecision := 70000 }, rfl, ?_⟩
  decide +kernel

end Decimal96

end DeskCalc
