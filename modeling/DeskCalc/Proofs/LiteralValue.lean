import DeskCalc.Proofs.PlainForm

/-!
# The number of a literal

A long decimal is read exactly. The reader of 96 bits writes a literal with an
exponent out in positional notation first, and gives the same number if 96 bits can
hold it.
-/

namespace DeskCalc

open Digits (areDigits toNat)

namespace LongDecimal

theorem separatedInt?_of_areDigits {digits : List Char} (hne : digits ≠ [])
    (h : areDigits digits = true) (negative : Bool) :
    separatedInt? ((if negative then ['-'] else []) ++ digits) =
      some (if negative then -(toNat digits : Int) else toNat digits) := by
  have hsign := Spelling.takeSign_of_areDigits hne h negative
  obtain ⟨c, rest, rfl⟩ := List.exists_cons_of_ne_nil hne
  obtain ⟨hc, hrest⟩ := Digits.areDigits_cons.mp h
  have hall : (rest.all fun a => a.isDigit || a == '_') = true := by
    rw [List.all_eq_true]
    intro a ha
    rw [List.all_eq_true.mp hrest a ha, Bool.true_or]
  have hfilter : (c :: rest).filter Char.isDigit = c :: rest :=
    List.filter_eq_self.mpr (List.all_eq_true.mp h)
  simp only [separatedInt?, hsign, hc, hall, Bool.and_self, if_true, hfilter]

theorem filter_places {places : List Char} (h : areDigits places = true) :
    places.filter (· != '_') = places := by
  rw [List.filter_eq_self]
  intro c hc
  have hdigit := List.all_eq_true.mp h c hc
  rw [bne_iff_ne]
  rintro rfl
  exact absurd hdigit (by decide)

section Parts

variable {whole fraction exponent : List Char} (hne : whole ≠ [])
  (hwhole : areDigits whole = true) (hfraction : IsFraction fraction)
  (hexponent : IsExponent exponent)

include hne hwhole hfraction hexponent

/-- What is read of a number that is spelled with a sign or without: the coefficient are its
digits, and its scale is the number of its places less its exponent. -/
theorem ofLiteral?_of_parts (negative : Bool) :
    ofLiteral? ((if negative then ['-'] else []) ++ whole ++ fraction ++ exponent) =
      (exponent? exponent.tail?).bind fun e =>
        (some ⟨if negative then -(toNat (whole ++ fraction.tail) : Int)
            else toNat (whole ++ fraction.tail), fraction.tail.length - e⟩).filter isBounded := by
  have hcut := hexponent.cutAt_isMarker (isMarker_signed_mantissa hwhole hfraction negative)
  have hpoint := hfraction.cutAt_isPoint
    (forall_mem_signed rfl (fun _ => Spelling.isPoint_of_isDigit) hwhole negative)
  have hdigits : areDigits (whole ++ fraction.tail) = true :=
    Digits.areDigits_append.mpr ⟨hwhole, hfraction.areDigits_tail⟩
  have hint :=
    separatedInt?_of_areDigits (List.append_ne_nil_of_left_ne_nil hne _) hdigits negative
  rw [← List.append_assoc] at hint
  simp only [ofLiteral?, hcut, hpoint, hfraction.getD_tail?, hint,
    filter_places hfraction.areDigits_tail, Option.bind_eq_bind, Option.bind_some,
    Option.filter_some]

/-- A literal that is accepted has its digits for a coefficient, and its scale is the number
of its places less its exponent. -/
theorem ofLiteral?_eq_some {y : LongDecimal}
    (h : ofLiteral? (whole ++ fraction ++ exponent) = some y) :
    ∃ e, exponent? exponent.tail? = some e ∧ y.isBounded = true ∧
      y = ⟨toNat (whole ++ fraction.tail), fraction.tail.length - e⟩ := by
  have hparts := ofLiteral?_of_parts hne hwhole hfraction hexponent false
  obtain ⟨e, he, hy⟩ := Option.bind_eq_some_iff.mp (hparts.symm.trans h)
  obtain ⟨hsome, hbounded⟩ := Option.filter_eq_some_iff.mp hy
  exact ⟨e, he, hbounded, (Option.some.inj hsome).symm⟩

end Parts

end LongDecimal

namespace Decimal96

theorem isWord_of_bounds {i : Int} (hlow : -100000 ≤ i) (hhigh : i ≤ 100000) :
    Spelling.isWord i = true := by
  have hword : (100000 : Int) < twoPow 63 := by decide
  rw [Spelling.isWord, Bool.and_eq_true, decide_eq_true_eq, decide_eq_true_eq]
  omega

/-- A number without a sign that some decimal denotes has a coefficient and a scale that fit. -/
theorem representable_of_value_eq {x : Decimal96} {n s : Nat}
    (h : x.value = LongDecimal.value ⟨n, s⟩) : Representable n s := by
  refine ⟨x.coefficient, x.scale, x.coefficient_lt, x.scale_le, ?_⟩
  have habs : |x.value| = LongDecimal.value ⟨x.coefficient, x.scale⟩ := abs_value x
  rw [h, abs_of_nonneg (LongDecimal.value_natCast_nonneg n s)] at habs
  exact LongDecimal.value_natCast_eq_iff.mp habs

theorem whole_lt_of_representable {whole places : List Char}
    (h : Representable (toNat (whole ++ places)) places.length) : toNat whole < twoPow 96 := by
  obtain ⟨m, t, hm, -, hvalue⟩ := h
  have hpos := Nat.mul_pos (tenPow_pos places.length) (tenPow_pos t)
  have hle : toNat whole * (tenPow places.length * tenPow t) ≤
      m * (tenPow places.length * tenPow t) := by
    calc
      toNat whole * (tenPow places.length * tenPow t) ≤
          toNat (whole ++ places) * tenPow t := by
        rw [Digits.toNat_append, ← Nat.mul_assoc]
        exact Nat.mul_le_mul_right _ (Nat.le_add_right _ _)
      _ = m * tenPow places.length := hvalue
      _ ≤ m * (tenPow places.length * tenPow t) :=
        Nat.mul_le_mul_left _ (Nat.le_mul_of_pos_right _ (tenPow_pos t))
  exact lt_of_le_of_lt (Nat.le_of_mul_le_mul_right hle hpos) hm

/-- A literal without an exponent is read exactly if 96 bits can hold its number. -/
theorem ofPlain?_of_value_eq {text : List Char} {x₀ : Decimal96} (h : PlainForm text x₀.value) :
    ∃ x, ofPlain? text = some x ∧ x.negative = false ∧ x.value = x₀.value := by
  generalize hq : x₀.value = q at h
  cases h with
  | @intro whole fraction _ hwhole hfraction hne hvalue =>
      have hrep := representable_of_value_eq (hq.trans hvalue.symm)
      have hfits := whole_lt_of_representable hrep
      rw [Digits.toNat_append] at hrep
      obtain ⟨n, s, hread, hn, hs, heq⟩ := Reading.continue?_places hfraction.areDigits_tail
        (Reading.isBehindPoint_atPoint hfits) (by simpa [Reading.atPoint] using hrep)
      have hparts : ofParts? false n s = some ⟨false, n, s, hn, hs⟩ := dif_pos ⟨hn, hs⟩
      refine ⟨unsignZero ⟨false, n, s, hn, hs⟩, ?_, rfl, ?_⟩
      · rw [ofPlain?_of_parts hwhole hfraction hne, if_pos hfits, hread, Option.bind_some, hparts,
          Option.map_some]
      · rw [value_unsignZero, ← hvalue, Digits.toNat_append]
        apply LongDecimal.value_natCast_eq_iff.mpr
        simpa [Reading.atPoint] using heq

/-- Wherever the point is set, the text is a plain form of the number of its digits at that
point. -/
theorem plainForm_setPoint {digits : List Char} (hne : digits ≠ [])
    (hdigits : areDigits digits = true) (point : Int) :
    PlainForm (setPoint digits point)
      (LongDecimal.value ⟨toNat digits, digits.length - point⟩) := by
  have hzeros := Digits.areDigits_replicate_zero
  rw [setPoint]
  split
  · next hpoint =>
      change PlainForm (['0'] ++ '.' :: (zeros point.natAbs ++ digits)) _
      refine .intro rfl
        (.point (Digits.areDigits_append.mpr ⟨hzeros point.natAbs, hdigits⟩)) (by simp) ?_
      have hnumber : toNat (['0'] ++ (zeros point.natAbs ++ digits)) = toNat digits := by
        rw [Digits.toNat_append, Digits.toNat_append, zeros, Digits.toNat_replicate_zero,
          Nat.zero_mul, Nat.zero_add]
        simp [Digits.toNat, Digits.value]
      have hlength : ((zeros point.natAbs ++ digits).length : Int) = digits.length - point := by
        rw [List.length_append, zeros, List.length_replicate]
        omega
      rw [List.tail_cons, hnumber, hlength]
  · split
    · next hlong =>
        rw [← List.append_nil (digits ++ _)]
        refine .intro (Digits.areDigits_append.mpr ⟨hdigits, hzeros _⟩) .none (by simp [hne]) ?_
        have hscale :
            ((digits.length : Int) - point) + (point.toNat - digits.length : Nat) = 0 := by
          omega
        have hshift := LongDecimal.value_shift (toNat digits) (digits.length - point)
          (point.toNat - digits.length)
        rw [hscale] at hshift
        rw [← hshift, List.tail_nil, List.append_nil, zeros, Digits.toNat_append_zeros,
          Nat.cast_mul]
        rfl
    · next hpos hlong =>
        obtain ⟨htake, hdrop⟩ := Digits.areDigits_append.mp
          ((List.take_append_drop point.toNat digits).symm ▸ hdigits)
        have hlength : ((digits.drop point.toNat).length : Int) = digits.length - point := by
          rw [List.length_drop]
          omega
        refine .intro htake (.point hdrop) ?_ ?_
        · rw [List.tail_cons, List.take_append_drop]
          exact hne
        · rw [List.tail_cons, List.take_append_drop, hlength]

/-- The point of a number that 96 bits can hold stands among its digits or close to them. -/
theorem point_bounds {x₀ : Decimal96} {point : Int} (hlow : 10 ^ (point - 1) ≤ x₀.value)
    (hhigh : x₀.value < 10 ^ point) : -28 < point ∧ point ≤ 29 := by
  have hten : (1 : ℚ) < 10 := by norm_num
  have hpos : 0 < x₀.value := lt_of_lt_of_le (zpow_pos (by norm_num) _) hlow
  have hsmallest := le_abs_value hpos.ne'
  have hlargest := x₀.abs_value_lt
  rw [abs_of_pos hpos] at hsmallest hlargest
  have hleft := (zpow_lt_zpow_iff_right₀ hten).mp (lt_of_le_of_lt hsmallest hhigh)
  have hright := (zpow_lt_zpow_iff_right₀ hten).mp (lt_of_le_of_lt hlow hlargest)
  omega

/-- An exponent within the exponent limit fits a word. -/
theorem toWord?_of_exponent? {text : List Char} {e : Int}
    (h : LongDecimal.exponent? (some text) = some e) : Spelling.toWord? text = some e := by
  obtain ⟨hint, hlimit⟩ := Option.filter_eq_some_iff.mp h
  have hbounds := LongDecimal.withinLimit_iff.mp hlimit
  rw [Spelling.toWord?, Option.filter_eq_some_iff]
  refine ⟨hint, isWord_of_bounds ?_ ?_⟩
  · exact le_trans (by decide) hbounds.1
  · exact le_trans hbounds.2 (by decide)

/-- A point is too far off if it is behind 29 digits or cannot be counted. -/
theorem isFar_iff {point : Int} :
    (!Spelling.isWord point || decide ((maxWholeDigits : Int) < point)) = true ↔
      ¬ (-(twoPow 63 : Int) ≤ point ∧ point ≤ maxWholeDigits) := by
  have hlimit : (maxWholeDigits : Int) < twoPow 63 := by decide
  simp only [Spelling.isWord, Bool.or_eq_true, Bool.not_eq_true', Bool.and_eq_false_iff,
    decide_eq_true_eq, decide_eq_false_iff_not]
  omega

section WriteOut

variable {whole fraction exponent : List Char} {e : Int} (hne : whole ≠ [])
  (hwhole : areDigits whole = true) (hfraction : IsFraction fraction)
  (hexponent : IsExponent exponent) (he : exponent.tail?.bind Spelling.toWord? = some e)

include hne hwhole hfraction hexponent he

/-- How a literal is written out once its parts are known to be well-formed. -/
theorem writeOut?_of_parts {significant : List Char} {point : Int}
    (hsignificant : (whole ++ fraction.tail).dropWhile (· == '0') = significant)
    (hpoint : point = whole.length + e -
      ((whole ++ fraction.tail).length - significant.length : Nat)) :
    writeOut? (whole ++ fraction ++ exponent) =
      if significant.isEmpty then some ['0']
      else if !Spelling.isWord point || decide ((maxWholeDigits : Int) < point) then none
      else if point < -(maxScale : Int) then some ['0']
      else some (setPoint significant point) := by
  have hcut := hexponent.cutAt_isMarker (isMarker_mantissa hwhole hfraction)
  have hdigits : areDigits (whole ++ fraction.tail) = true :=
    Digits.areDigits_append.mpr ⟨hwhole, hfraction.areDigits_tail⟩
  have hform : (whole.isEmpty || !areDigits (whole ++ fraction.tail)) = false := by
    rw [hdigits, List.isEmpty_eq_false_iff.mpr hne]
    rfl
  have hpart := hfraction.cutAt_isPoint fun c hc =>
    Spelling.isPoint_of_isDigit (List.all_eq_true.mp hwhole c hc)
  simp only [writeOut?, hcut, hpart, hfraction.getD_tail?, he,
    Option.bind_eq_bind, Option.bind_some, hform, hsignificant, ← hpoint, Bool.false_eq_true,
    if_false]

/-- A literal of zeros is written as one, whatever its exponent is. Any other has its point
set in its significant digits, if the point can be counted and is not too far behind them. -/
theorem writeOut?_significant :
    (toNat (whole ++ fraction.tail) = 0 ∧
        writeOut? (whole ++ fraction ++ exponent) = some ['0']) ∨
      ∃ digits point, digits.length ≤ (whole ++ fraction.tail).length ∧
        digits ≠ [] ∧ areDigits digits = true ∧
        LongDecimal.value ⟨toNat (whole ++ fraction.tail), fraction.tail.length - e⟩ =
          LongDecimal.value ⟨toNat digits, digits.length - point⟩ ∧
        10 ^ (point - 1) ≤ LongDecimal.value ⟨toNat digits, digits.length - point⟩ ∧
        LongDecimal.value ⟨toNat digits, digits.length - point⟩ < 10 ^ point ∧
        writeOut? (whole ++ fraction ++ exponent) =
          if -(twoPow 63 : Int) ≤ point ∧ point ≤ maxWholeDigits then
            some (if point < -(maxScale : Int) then ['0'] else setPoint digits point)
          else none := by
  have hdigits : areDigits (whole ++ fraction.tail) = true :=
    Digits.areDigits_append.mpr ⟨hwhole, hfraction.areDigits_tail⟩
  rcases Digits.dropWhile_zero_cases hdigits with
    ⟨hnil, hzero⟩ | ⟨c, rest, hsignificant, hrest, hnumber, hleast⟩
  · refine Or.inl ⟨hzero, ?_⟩
    rw [writeOut?_of_parts hne hwhole hfraction hexponent he hnil rfl]
    rfl
  · have hlength : (c :: rest).length ≤ (whole ++ fraction.tail).length := by
      rw [← hsignificant]
      exact List.length_dropWhile_le _ _
    -- The point counts from the first significant digit.
    generalize hpoint : (whole.length : Int) + e -
      ((whole ++ fraction.tail).length - (c :: rest).length : Nat) = point
    have hscale : (fraction.tail.length : Int) - e = (c :: rest).length - point := by
      have hsum : (whole ++ fraction.tail).length = whole.length + fraction.tail.length :=
        List.length_append
      omega
    refine Or.inr ⟨c :: rest, point, hlength, List.cons_ne_nil c rest, hrest, ?_, ?_, ?_, ?_⟩
    · rw [hnumber, hscale]
    · have hshift : ((c :: rest).length : Int) - point = rest.length - (point - 1) := by
        rw [List.length_cons]
        omega
      rw [hshift]
      exact LongDecimal.zpow_le_value hleast (point - 1)
    · exact LongDecimal.value_lt_zpow (Digits.toNat_lt hrest) point
    · rw [writeOut?_of_parts hne hwhole hfraction hexponent he hsignificant hpoint.symm,
        List.isEmpty_cons, if_neg Bool.false_ne_true]
      split
      · next hfar => rw [if_neg (isFar_iff.mp hfar)]
      · next hnear =>
          rw [if_pos (not_not.mp (mt isFar_iff.mpr hnear))]
          split
          · rfl
          · rfl

theorem writeOut?_cases :
    (toNat (whole ++ fraction.tail) = 0 ∧
        writeOut? (whole ++ fraction ++ exponent) = some ['0']) ∨
      ∃ digits point, digits ≠ [] ∧ areDigits digits = true ∧
        LongDecimal.value ⟨toNat (whole ++ fraction.tail), fraction.tail.length - e⟩ =
          LongDecimal.value ⟨toNat digits, digits.length - point⟩ ∧
        10 ^ (point - 1) ≤ LongDecimal.value ⟨toNat digits, digits.length - point⟩ ∧
        LongDecimal.value ⟨toNat digits, digits.length - point⟩ < 10 ^ point ∧
        writeOut? (whole ++ fraction ++ exponent) =
          if -(twoPow 63 : Int) ≤ point ∧ point ≤ maxWholeDigits then
            some (if point < -(maxScale : Int) then ['0'] else setPoint digits point)
          else none := by
  rcases writeOut?_significant hne hwhole hfraction hexponent he with
    hzero | ⟨digits, point, -, hplaced⟩
  · exact Or.inl hzero
  · exact Or.inr ⟨digits, point, hplaced⟩

end WriteOut

/-- A literal with an exponent is read exactly if 96 bits can hold its number. -/
theorem ofPlain?_writeOut? {whole fraction exponent : List Char} {e : Int} (hne : whole ≠ [])
    (hwhole : areDigits whole = true) (hfraction : IsFraction fraction)
    (hexponent : IsExponent exponent) (he : exponent.tail?.bind Spelling.toWord? = some e)
    {x₀ : Decimal96} (h : x₀.value = LongDecimal.value
      ⟨toNat (whole ++ fraction.tail), fraction.tail.length - e⟩) :
    ∃ x, (writeOut? (whole ++ fraction ++ exponent)).bind ofPlain? = some x ∧
      x.negative = false ∧ x.value = x₀.value := by
  rcases writeOut?_cases hne hwhole hfraction hexponent he with
    ⟨hzero, hwrite⟩ | ⟨digits, point, hne', hdigits, hvalue, hlow, hhigh, hwrite⟩
  · refine ⟨zero, ?_, rfl, ?_⟩
    · rw [hwrite]
      rfl
    · rw [h, hzero, value_zero]
      exact (LongDecimal.value_eq_zero_iff.mpr rfl).symm
  · rw [← h.trans hvalue] at hlow hhigh
    obtain ⟨hleft, hright⟩ := point_bounds hlow hhigh
    have hcounted : -(twoPow 63 : Int) ≤ point := le_trans (by decide) hleft.le
    have hplaces : ¬ point < -(maxScale : Int) := not_lt.mpr hleft.le
    rw [hwrite, if_pos ⟨hcounted, hright⟩, if_neg hplaces, Option.bind_some]
    apply ofPlain?_of_value_eq
    rw [h, hvalue]
    exact plainForm_setPoint hne' hdigits point

/-- A literal whose number 96 bits can hold is read exactly, without a sign. -/
theorem ofLiteral?_of_value_eq {text : List Char} (hliteral : IsLiteral text) {y : LongDecimal}
    (hy : LongDecimal.ofLiteral? text = some y) {x₀ : Decimal96} (h : x₀.value = y.value) :
    ∃ x, ofLiteral? text = some x ∧ x.negative = false ∧ x.value = y.value := by
  cases hliteral with
  | @intro whole fraction exponent hne hwhole hfraction hexponent =>
      obtain ⟨e, he, -, rfl⟩ :=
        LongDecimal.ofLiteral?_eq_some hne hwhole hfraction hexponent hy
      have hplain := isMarker_mantissa hwhole hfraction
      rw [← h]
      rcases hexponent.eq_nil_or_cons with rfl | ⟨marker, rest, rfl, hmarker⟩
      · obtain rfl : e = 0 := (Option.some.inj he).symm
        have hnone : (whole ++ fraction ++ []).any Spelling.isMarker = false := by
          rw [List.append_nil, List.any_eq_false]
          intro c hc
          simp [hplain c hc]
        rw [ofLiteral?, hnone, List.append_nil]
        apply ofPlain?_of_value_eq
        exact .intro hwhole hfraction (List.append_ne_nil_of_left_ne_nil hne _)
          (by rw [h, Int.sub_zero])
      · have hsome : (whole ++ fraction ++ marker :: rest).any Spelling.isMarker = true := by
          simp [hmarker]
        rw [ofLiteral?, hsome]
        exact ofPlain?_writeOut? hne hwhole hfraction hexponent (toWord?_of_exponent? he) h

end Decimal96

end DeskCalc
