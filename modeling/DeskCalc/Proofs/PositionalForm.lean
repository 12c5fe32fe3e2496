import DeskCalc.Proofs.PointInWords

/-!
# The positional form of a literal

A literal with an exponent has a positional form if the point of its number can be counted and
is not too far behind the first digit. The form is digits with at most one point, it denotes
the number of the literal exactly, and it is hardly longer than the literal. Only a number
below a tenth of the last place is written as zero.
-/

namespace DeskCalc

open Digits (areDigits toNat)

/-- The number of a mantissa with its exponent. -/
def literalNumber (whole places : List Char) (e : Int) : ℚ :=
  (toNat whole + toNat places / 10 ^ places.length) * 10 ^ e

namespace Decimal96

/-- Below this a number is written as zero. -/
def leastWritten : ℚ := 10 ^ (-(maxScale : Int) - 1)

/-- A positional form of the number `q`, written for `literal`. -/
structure IsPositionalForm (literal : List Char) (q : ℚ) (form : List Char) : Prop where
  number : PlainForm form (if q < leastWritten then 0 else q)
  startsWithDigit : ∃ c rest, form = c :: rest ∧ c.isDigit = true
  small : q < leastWritten → form = ['0']
  length_le : form.length ≤ literal.length + 30

/-- What is known of a literal of these parts and its positional form. -/
structure WrittenOut (whole fraction exponent : List Char) : Prop where
  /-- No step of the computation in words goes wrong. -/
  faultless : ∃ result, writeOutByWords (whole ++ fraction ++ exponent) = .ok result
  /-- In words and without them the same form is written. -/
  inWords : ∀ form, writeOutByWords (whole ++ fraction ++ exponent) = .ok (some form) →
    writeOut? (whole ++ fraction ++ exponent) = some form
  /-- Words refuse nothing more while lengths are far from their end. -/
  short : (whole ++ fraction ++ exponent).length + maxWholeDigits < twoPow 63 →
    writeOutByWords (whole ++ fraction ++ exponent) =
      .ok (writeOut? (whole ++ fraction ++ exponent))
  /-- What is written denotes the mantissa times the power of ten. -/
  form : ∀ form, writeOut? (whole ++ fraction ++ exponent) = some form →
    ∃ e, CompleteExponent exponent e ∧ IsPositionalForm (whole ++ fraction ++ exponent)
      (literalNumber whole fraction.tail e) form
  /-- A form exists for every number whose point can be counted, up to 29 whole digits. -/
  exists_form_iff : (∃ form, writeOut? (whole ++ fraction ++ exponent) = some form) ↔
    ∃ e, CompleteExponent exponent e ∧ Spelling.isWord e = true ∧
      (literalNumber whole fraction.tail e = 0 ∨
        10 ^ (-(twoPow 63 : Int) - 1) ≤ literalNumber whole fraction.tail e ∧
          literalNumber whole fraction.tail e < 10 ^ (maxWholeDigits : Int))

theorem leastWritten_pos : 0 < leastWritten := zpow_pos (by norm_num) _

/-- A number is below a power of ten exactly if its point is not behind that of the power. -/
theorem lt_zpow_iff {q : ℚ} {point : Int} (hlow : 10 ^ (point - 1) ≤ q) (hhigh : q < 10 ^ point)
    (k : Int) : q < 10 ^ k ↔ point ≤ k := by
  have hten : (1 : ℚ) < 10 := by norm_num
  constructor
  · intro hlt
    have hpoint := (zpow_lt_zpow_iff_right₀ hten).mp (lt_of_le_of_lt hlow hlt)
    omega
  · intro hle
    exact lt_of_lt_of_le hhigh (zpow_le_zpow_right₀ hten.le hle)

/-- A point that is not too far off takes a few zeros at most. -/
theorem length_setPoint_le (digits : List Char) {point : Int} (hlow : -(maxScale : Int) ≤ point)
    (hhigh : point ≤ maxWholeDigits) :
    (setPoint digits point).length ≤ digits.length + 30 := by
  rw [maxScale] at hlow
  rw [maxWholeDigits] at hhigh
  rw [setPoint]
  split
  · simp only [zeros, List.length_cons, List.length_append, List.length_replicate]
    omega
  · split
    · simp only [zeros, List.length_append, List.length_replicate]
      omega
    · have hparts := congrArg List.length (List.take_append_drop point.toNat digits)
      rw [List.length_append] at hparts
      rw [List.length_append, List.length_cons]
      omega

theorem setPoint_head {digits : List Char} (hne : digits ≠ []) (h : areDigits digits = true)
    (point : Int) : ∃ c rest, setPoint digits point = c :: rest ∧ c.isDigit = true := by
  obtain ⟨c, rest, rfl⟩ := List.exists_cons_of_ne_nil hne
  have hc := (Digits.areDigits_cons.mp h).1
  rw [setPoint]
  split
  · exact ⟨'0', _, rfl, rfl⟩
  · next hpos =>
      split
      · exact ⟨c, _, rfl, hc⟩
      · obtain ⟨k, hk⟩ : ∃ k, point.toNat = k + 1 := ⟨point.toNat - 1, by omega⟩
        rw [hk, List.take_succ_cons]
        exact ⟨c, _, rfl, hc⟩

/-- Digits with their point set are a positional form of their number, and so is a zero in
their place if the point is too far in front. -/
theorem isPositionalForm_setPoint {digits : List Char} (hne : digits ≠ [])
    (hdigits : areDigits digits = true) {point : Int} {q : ℚ}
    (hq : LongDecimal.value ⟨toNat digits, digits.length - point⟩ = q)
    (hlow : 10 ^ (point - 1) ≤ q) (hhigh : q < 10 ^ point) (hnear : point ≤ maxWholeDigits)
    {literal : List Char} (hlength : digits.length ≤ literal.length) :
    IsPositionalForm literal q
      (if point < -(maxScale : Int) then ['0'] else setPoint digits point) := by
  have hsmall : q < leastWritten ↔ point < -(maxScale : Int) :=
    (lt_zpow_iff hlow hhigh _).trans Int.le_sub_one_iff
  by_cases hfront : point < -(maxScale : Int)
  · rw [if_pos hfront]
    refine ⟨?_, ⟨'0', [], rfl, rfl⟩, fun _ => rfl, Nat.le_add_left_of_le (by decide)⟩
    rw [if_pos (hsmall.mpr hfront)]
    exact plainForm_zero
  · rw [if_neg hfront]
    refine ⟨?_, setPoint_head hne hdigits point, fun h => absurd (hsmall.mp h) hfront, ?_⟩
    · rw [if_neg (mt hsmall.mp hfront), ← hq]
      exact plainForm_setPoint hne hdigits point
    · exact le_trans (length_setPoint_le digits (not_lt.mp hfront) hnear)
        (Nat.add_le_add_right hlength 30)

theorem isPositionalForm_zero (literal : List Char) : IsPositionalForm literal 0 ['0'] := by
  refine ⟨?_, ⟨'0', [], rfl, rfl⟩, fun _ => rfl, Nat.le_add_left_of_le (by decide)⟩
  rw [if_pos leastWritten_pos]
  exact plainForm_zero

/-- An exponent that is read as a word is complete. -/
theorem toWord?_tail_iff {exponent : List Char} (h : IsExponent exponent) (e : Int) :
    exponent.tail?.bind Spelling.toWord? = some e ↔
      CompleteExponent exponent e ∧ Spelling.isWord e = true := by
  constructor
  · intro he
    rcases h.cases_complete with rfl | ⟨marker, rfl⟩ | ⟨e', hcomplete⟩
    · cases he
    · cases he
    · obtain ⟨text, htext, hword⟩ := Option.bind_eq_some_iff.mp he
      obtain ⟨hint, hfits⟩ := Option.filter_eq_some_iff.mp hword
      have hint' := hcomplete.toInt?_tail
      rw [htext, Option.bind_some, hint] at hint'
      obtain rfl := Option.some.inj hint'
      exact ⟨hcomplete, hfits⟩
  · rintro ⟨hcomplete, hfits⟩
    exact hcomplete.toWord?_tail hfits

/-- A literal is only written out with an exponent that fits a word. -/
theorem exists_exponent_of_writeOut? {whole fraction exponent : List Char}
    (hwhole : areDigits whole = true) (hfraction : IsFraction fraction)
    (hexponent : IsExponent exponent) {form : List Char}
    (h : writeOut? (whole ++ fraction ++ exponent) = some form) :
    ∃ e, exponent.tail?.bind Spelling.toWord? = some e := by
  have hcut := hexponent.cutAt_isMarker (isMarker_mantissa hwhole hfraction)
  rw [writeOut?, hcut] at h
  obtain ⟨e, he, -⟩ := Option.bind_eq_some_iff.mp h
  exact ⟨e, he⟩

section Parts

variable {whole fraction exponent : List Char} (hne : whole ≠ [])
  (hwhole : areDigits whole = true) (hfraction : IsFraction fraction)
  (hexponent : IsExponent exponent)

include hne hwhole hfraction hexponent

/-- With an exponent that fits a word, the form of a literal exists exactly if its number is
zero or within the range of points that are counted. -/
theorem writeOut?_of_word {e : Int} (he : exponent.tail?.bind Spelling.toWord? = some e) :
    (∀ form, writeOut? (whole ++ fraction ++ exponent) = some form →
      IsPositionalForm (whole ++ fraction ++ exponent) (literalNumber whole fraction.tail e)
        form) ∧
      ((∃ form, writeOut? (whole ++ fraction ++ exponent) = some form) ↔
        literalNumber whole fraction.tail e = 0 ∨
          10 ^ (-(twoPow 63 : Int) - 1) ≤ literalNumber whole fraction.tail e ∧
            literalNumber whole fraction.tail e < 10 ^ (maxWholeDigits : Int)) := by
  have hnumber : literalNumber whole fraction.tail e = _ :=
    (LongDecimal.value_mantissa whole fraction.tail e).symm
  rw [hnumber]
  rcases writeOut?_significant hne hwhole hfraction hexponent he with
    ⟨hzero, hwrite⟩ | ⟨digits, point, hlength, hne', hdigits, hvalue, hlow, hhigh, hwrite⟩
  · have hq : LongDecimal.value ⟨toNat (whole ++ fraction.tail), fraction.tail.length - e⟩ = 0 :=
      LongDecimal.value_eq_zero_iff.mpr (by rw [hzero]; rfl)
    rw [hwrite, hq]
    refine ⟨fun form hform => ?_, iff_of_true ⟨_, rfl⟩ (Or.inl rfl)⟩
    obtain rfl := Option.some.inj hform
    exact isPositionalForm_zero _
  · rw [hvalue, hwrite]
    generalize hq : LongDecimal.value ⟨toNat digits, digits.length - point⟩ = q at hlow hhigh ⊢
    have hten : (1 : ℚ) < 10 := by norm_num
    have hpos : 0 < q := lt_of_lt_of_le (zpow_pos (by norm_num) _) hlow
    constructor
    · intro form hform
      obtain ⟨hcounted, rfl⟩ : (-(twoPow 63 : Int) ≤ point ∧ point ≤ maxWholeDigits) ∧
          (if point < -(maxScale : Int) then ['0'] else setPoint digits point) = form := by
        split at hform
        · next hcounted => exact ⟨hcounted, Option.some.inj hform⟩
        · cases hform
      apply isPositionalForm_setPoint hne' hdigits hq hlow hhigh hcounted.2
      have htail : fraction.tail.length ≤ fraction.length := by simp
      rw [List.length_append] at hlength
      rw [List.length_append, List.length_append]
      omega
    · have hleast : 10 ^ (-(twoPow 63 : Int) - 1) ≤ q ↔ -(twoPow 63 : Int) ≤ point := by
        rw [← not_lt, lt_zpow_iff hlow hhigh, not_le, Int.sub_one_lt_iff]
      have hmost : q < 10 ^ (maxWholeDigits : Int) ↔ point ≤ maxWholeDigits :=
        lt_zpow_iff hlow hhigh _
      rw [hleast, hmost, or_iff_right hpos.ne']
      split
      · next hcounted => exact iff_of_true ⟨_, rfl⟩ hcounted
      · next hcounted =>
          refine iff_of_false ?_ hcounted
          rintro ⟨form, hform⟩
          cases hform

/-- Every literal with an exponent is written out faithfully or refused. -/
theorem writtenOut : WrittenOut whole fraction exponent := by
  have hwords := writeOutByWords_cases (whole ++ fraction ++ exponent)
  refine ⟨?_, ?_, ?_, ?_, ?_⟩
  · rcases hwords with hsame | ⟨hrefused, -⟩
    · exact ⟨_, hsame⟩
    · exact ⟨_, hrefused⟩
  · intro form hform
    rcases hwords with hsame | ⟨hrefused, -⟩
    · exact Except.ok.inj (hsame.symm.trans hform)
    · cases hrefused.symm.trans hform
  · intro hshort
    rcases hwords with hsame | ⟨-, hlong⟩
    · exact hsame
    · exact absurd hshort (not_lt.mpr hlong)
  · intro form hform
    obtain ⟨e, he⟩ := exists_exponent_of_writeOut? hwhole hfraction hexponent hform
    exact ⟨e, ((toWord?_tail_iff hexponent e).mp he).1,
      (writeOut?_of_word hne hwhole hfraction hexponent he).1 form hform⟩
  · constructor
    · rintro ⟨form, hform⟩
      obtain ⟨e, he⟩ := exists_exponent_of_writeOut? hwhole hfraction hexponent hform
      obtain ⟨hcomplete, hword⟩ := (toWord?_tail_iff hexponent e).mp he
      exact ⟨e, hcomplete, hword,
        (writeOut?_of_word hne hwhole hfraction hexponent he).2.mp ⟨form, hform⟩⟩
    · rintro ⟨e, hcomplete, hword, hrange⟩
      have he := hcomplete.toWord?_tail hword
      exact (writeOut?_of_word hne hwhole hfraction hexponent he).2.mpr hrange

end Parts

/-- The smallest number whose form is not a zero: its point stands 28 zeros in front of it. -/
theorem writtenOut_least :
    ("00".toList ≠ [] ∧ areDigits "00".toList = true ∧ IsFraction ".01".toList ∧
        IsExponent "e-27".toList) ∧
      WrittenOut "00".toList ".01".toList "e-27".toList := by
  have hfraction : IsFraction ('.' :: "01".toList) := .point (by decide)
  have hexponent : IsExponent ('e' :: '-' :: "27".toList) :=
    .signed rfl (Or.inr rfl) (by decide) (by decide)
  exact ⟨⟨by decide, by decide, hfraction, hexponent⟩,
    writtenOut (by decide) (by decide) hfraction hexponent⟩

end Decimal96

end DeskCalc
