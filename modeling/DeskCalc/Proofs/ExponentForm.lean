import DeskCalc.Proofs.LiteralValue

/-!
# Exponent forms and plain forms

A literal with an exponent is written out before it is read, so it should be read like
every literal that spells its number without one. It is, as long as the point of the number
can be counted in a word. Behind that, a number other than zero is refused in the one form
and read as zero in the other.
-/

namespace DeskCalc

open Digits (areDigits toNat)

/-- A complete exponent, of at least one digit behind its marker and its sign, and the
integer that it denotes. -/
inductive CompleteExponent : List Char → Int → Prop
  | bare {marker : Char} {digits : List Char} (hmarker : Spelling.isMarker marker = true)
      (hne : digits ≠ []) (h : areDigits digits = true) :
      CompleteExponent (marker :: digits) (toNat digits)
  | plus {marker : Char} {digits : List Char} (hmarker : Spelling.isMarker marker = true)
      (hne : digits ≠ []) (h : areDigits digits = true) :
      CompleteExponent (marker :: '+' :: digits) (toNat digits)
  | minus {marker : Char} {digits : List Char} (hmarker : Spelling.isMarker marker = true)
      (hne : digits ≠ []) (h : areDigits digits = true) :
      CompleteExponent (marker :: '-' :: digits) (-toNat digits)

/-- A literal whose complete exponent fits a word, and the number that it denotes. -/
inductive ExponentForm : List Char → ℚ → Prop
  | intro {whole fraction exponent : List Char} {e : Int} {q : ℚ} (hne : whole ≠ [])
      (hwhole : areDigits whole = true) (hfraction : IsFraction fraction)
      (hexponent : CompleteExponent exponent e) (hword : Spelling.isWord e = true)
      (hq : LongDecimal.value ⟨toNat (whole ++ fraction.tail), fraction.tail.length - e⟩ = q) :
      ExponentForm (whole ++ fraction ++ exponent) q

theorem Spelling.toInt?_of_takeSign {text digits : List Char} {negative : Bool}
    (hsign : takeSign text = (negative, digits)) (hne : digits ≠ [])
    (h : areDigits digits = true) :
    toInt? text = some (if negative then -(toNat digits : Int) else toNat digits) := by
  rw [toInt?, hsign]
  simp only [List.isEmpty_eq_false_iff.mpr hne, h, Bool.not_true, Bool.or_false,
    Bool.false_eq_true, if_false]

namespace CompleteExponent

variable {exponent : List Char} {e : Int}

theorem isExponent (h : CompleteExponent exponent e) : IsExponent exponent := by
  cases h with
  | bare hmarker hne h => exact .bare hmarker h
  | plus hmarker hne h => exact .signed hmarker (Or.inl rfl) hne h
  | minus hmarker hne h => exact .signed hmarker (Or.inr rfl) hne h

theorem toInt?_tail (h : CompleteExponent exponent e) :
    exponent.tail?.bind Spelling.toInt? = some e := by
  cases h with
  | @bare _ digits hmarker hne h =>
      obtain ⟨c, rest, rfl⟩ := List.exists_cons_of_ne_nil hne
      exact Spelling.toInt?_of_takeSign
        (Spelling.takeSign_of_isDigit (Digits.areDigits_cons.mp h).1 rest) hne h
  | @plus _ digits hmarker hne h =>
      have hsign : Spelling.takeSign ('+' :: digits) = (false, digits) := rfl
      exact Spelling.toInt?_of_takeSign hsign hne h
  | @minus _ digits hmarker hne h =>
      have hsign : Spelling.takeSign ('-' :: digits) = (true, digits) := rfl
      exact Spelling.toInt?_of_takeSign hsign hne h

theorem toWord?_tail (h : CompleteExponent exponent e) (hword : Spelling.isWord e = true) :
    exponent.tail?.bind Spelling.toWord? = some e := by
  obtain ⟨text, htext, hint⟩ := Option.bind_eq_some_iff.mp h.toInt?_tail
  rw [htext, Option.bind_some, Spelling.toWord?, hint, Option.filter_some, if_pos hword]

theorem any_isMarker (h : CompleteExponent exponent e) (mantissa : List Char) :
    (mantissa ++ exponent).any Spelling.isMarker = true := by
  rw [List.any_append]
  cases h with
  | bare hmarker _ _ => simp [hmarker]
  | plus hmarker _ _ => simp [hmarker]
  | minus hmarker _ _ => simp [hmarker]

end CompleteExponent

theorem PlainForm.any_isMarker {text : List Char} {q : ℚ} (h : PlainForm text q) :
    text.any Spelling.isMarker = false := by
  cases h with
  | intro hwhole hfraction _ _ =>
      rw [List.any_eq_false]
      intro c hc
      simp [isMarker_mantissa hwhole hfraction c hc]

theorem plainForm_zero : PlainForm ['0'] 0 := by
  change PlainForm (['0'] ++ []) 0
  exact .intro rfl .none (List.cons_ne_nil _ _) (LongDecimal.value_eq_zero_iff.mpr rfl)

namespace Decimal96

theorem ofLiteral?_of_plainForm {text : List Char} {q : ℚ} (h : PlainForm text q) :
    ofLiteral? text = ofPlain? text := by
  rw [ofLiteral?, h.any_isMarker]
  rfl

/-- A number whose point is set in its digits, or that is too small for it, is read like
every plain form of it. -/
theorem value_ofPlain?_setPoint {digits plain : List Char} {point : Int} {q : ℚ}
    (hset : PlainForm (setPoint digits point) q) (hplain : PlainForm plain q)
    (hhigh : q < 10 ^ point) :
    (ofPlain? (if point < -(maxScale : Int) then ['0'] else setPoint digits point)).map value =
      (ofPlain? plain).map value := by
  split
  · next hsmall =>
      have hle : (10 : ℚ) ^ point ≤ 10 ^ (-29 : Int) := by
        apply zpow_le_zpow_right₀ (by norm_num)
        rw [maxScale] at hsmall
        omega
      rw [value_ofPlain?_of_small hplain (lt_of_lt_of_le hhigh hle)]
      exact value_ofPlain?_of_small plainForm_zero (zpow_pos (by norm_num) _)
  · exact value_ofPlain?_congr hset hplain

/-- A literal with an exponent is read like those that spell its number without one, unless
that is a number so small that the place of its first digit does not fit a word. -/
theorem value_ofLiteral?_eq_iff {text plain : List Char} {q : ℚ} (htext : ExponentForm text q)
    (hplain : PlainForm plain q) :
    (ofLiteral? text).map value = (ofLiteral? plain).map value ↔
      q = 0 ∨ (10 : ℚ) ^ (-(twoPow 63 : Int) - 1) ≤ q := by
  have hten : (1 : ℚ) ≤ 10 := by norm_num
  rw [ofLiteral?_of_plainForm hplain]
  cases htext with
  | @intro whole fraction exponent e _ hne hwhole hfraction hexponent hword hq =>
      rw [ofLiteral?, if_pos (hexponent.any_isMarker _)]
      rcases writeOut?_cases hne hwhole hfraction hexponent.isExponent
        (hexponent.toWord?_tail hword) with
        ⟨hzero, hwrite⟩ | ⟨digits, point, hne', hdigits, hvalue, hlow, hhigh, hwrite⟩
      · have hqzero : q = 0 := by
          rw [← hq, hzero]
          exact LongDecimal.value_eq_zero_iff.mpr rfl
        apply iff_of_true _ (Or.inl hqzero)
        rw [hqzero] at hplain
        rw [hwrite]
        exact value_ofPlain?_congr plainForm_zero hplain
      · have hset := plainForm_setPoint hne' hdigits point
        rw [← hvalue, hq] at hset hlow hhigh
        have hpos : 0 < q := lt_of_lt_of_le (zpow_pos (by norm_num) _) hlow
        by_cases hcounted : -(twoPow 63 : Int) ≤ point
        · apply iff_of_true _ (Or.inr (le_trans (zpow_le_zpow_right₀ hten (by omega)) hlow))
          by_cases hnear : point ≤ maxWholeDigits
          · rw [hwrite, if_pos ⟨hcounted, hnear⟩, Option.bind_some]
            exact value_ofPlain?_setPoint hset hplain hhigh
          · have hlarge : (10 : ℚ) ^ (29 : Int) ≤ 10 ^ (point - 1) := by
              apply zpow_le_zpow_right₀ hten
              rw [maxWholeDigits] at hnear
              omega
            rw [hwrite, if_neg fun h => hnear h.2,
              value_ofPlain?_of_large hplain (le_trans hlarge hlow)]
            rfl
        · -- Where the point cannot be counted, only the plain form is read.
          have hle : (10 : ℚ) ^ point ≤ 10 ^ (-(twoPow 63 : Int) - 1) :=
            zpow_le_zpow_right₀ hten (by omega)
          have htiny : (10 : ℚ) ^ point ≤ 10 ^ (-29 : Int) := by
            have hwide : (29 : Int) ≤ twoPow 63 := by decide
            exact zpow_le_zpow_right₀ hten (by omega)
          apply iff_of_false
          · rw [hwrite, if_neg fun h => hcounted h.1,
              value_ofPlain?_of_small hplain (lt_of_lt_of_le hhigh htiny)]
            intro hsome
            cases hsome
          · rintro (hzero | hcount)
            · exact hpos.ne' hzero
            · exact absurd (lt_of_lt_of_le hhigh hle) (not_lt.mpr hcount)

/-- Five quarters, with zeros around its digits and a shifted point, and without them. -/
theorem value_ofLiteral?_eq_iff_quarters :
    (ExponentForm "012.50e-1".toList (5 / 4) ∧ PlainForm "1.25".toList (5 / 4)) ∧
      ((ofLiteral? "012.50e-1".toList).map value = (ofLiteral? "1.25".toList).map value ↔
        (5 / 4 : ℚ) = 0 ∨ (10 : ℚ) ^ (-(twoPow 63 : Int) - 1) ≤ 5 / 4) := by
  have htext : ExponentForm "012.50e-1".toList (5 / 4) := by
    have hvalue : LongDecimal.value ⟨1250, 3⟩ = 5 / 4 := by
      rw [LongDecimal.value]
      norm_num
    change ExponentForm ("012".toList ++ '.' :: "50".toList ++ 'e' :: '-' :: "1".toList) (5 / 4)
    exact .intro (by decide) (by decide) (.point (by decide)) (.minus rfl (by decide) (by decide))
      (by decide) hvalue
  have hplain : PlainForm "1.25".toList (5 / 4) := by
    have hvalue : LongDecimal.value ⟨125, 2⟩ = 5 / 4 := by
      rw [LongDecimal.value]
      norm_num
    change PlainForm ("1".toList ++ '.' :: "25".toList) (5 / 4)
    exact .intro (by decide) (.point (by decide)) (by decide) hvalue
  exact ⟨⟨htext, hplain⟩, value_ofLiteral?_eq_iff htext hplain⟩

theorem plainForm_tiny (n : Nat) :
    PlainForm ('0' :: '.' :: (List.replicate n '0' ++ ['1'])) (10 ^ (-(n : Int) - 1)) := by
  have hdigits : areDigits (List.replicate n '0' ++ ['1']) = true :=
    Digits.areDigits_append.mpr ⟨Digits.areDigits_replicate_zero n, rfl⟩
  have hnumber : toNat (['0'] ++ (List.replicate n '0' ++ ['1'])) = 1 := by
    rw [Digits.toNat_append, Digits.toNat_append, Digits.toNat_replicate_zero]
    simp [Digits.toNat, Digits.value]
  change PlainForm (['0'] ++ '.' :: (List.replicate n '0' ++ ['1'])) _
  refine .intro rfl (.point hdigits) (List.cons_ne_nil _ _) ?_
  rw [List.tail_cons, hnumber, List.length_append, List.length_replicate, LongDecimal.value,
    List.length_singleton, Nat.cast_one, Int.cast_one, one_mul, Nat.cast_succ, neg_add']

/-- A hundredth shifted by the least word is refused with an exponent, and read as zero
without one. -/
theorem ofLiteral?_beyond_word :
    (ExponentForm "0.01e-9223372036854775808".toList (10 ^ (-((twoPow 63 + 1 : Nat) : Int) - 1)) ∧
        PlainForm ('0' :: '.' :: (List.replicate (twoPow 63 + 1) '0' ++ ['1']))
          (10 ^ (-((twoPow 63 + 1 : Nat) : Int) - 1))) ∧
      ofLiteral? "0.01e-9223372036854775808".toList = none ∧
      (ofLiteral? ('0' :: '.' :: (List.replicate (twoPow 63 + 1) '0' ++ ['1']))).map value =
        some 0 := by
  have hplain := plainForm_tiny (twoPow 63 + 1)
  have hexponent : CompleteExponent "e-9223372036854775808".toList (-(twoPow 63 : Int)) := by
    have hnumber : toNat "9223372036854775808".toList = twoPow 63 := by decide +kernel
    rw [← hnumber]
    exact .minus rfl (by decide) (by decide)
  have hvalue : LongDecimal.value ⟨(1 : Int), (2 : Int) - -(twoPow 63 : Int)⟩ =
      10 ^ (-((twoPow 63 + 1 : Nat) : Int) - 1) := by
    have hplace : -((2 : Int) - -(twoPow 63 : Int)) = -((twoPow 63 + 1 : Nat) : Int) - 1 := by
      omega
    rw [LongDecimal.value, Int.cast_one, one_mul, hplace]
  have htiny : (10 : ℚ) ^ (-((twoPow 63 + 1 : Nat) : Int) - 1) < 10 ^ (-29 : Int) := by
    have hwide : 29 < twoPow 63 := by decide
    exact zpow_lt_zpow_right₀ (by norm_num) (by omega)
  refine ⟨⟨?_, hplain⟩, by decide +kernel, ?_⟩
  · change ExponentForm ("0".toList ++ '.' :: "01".toList ++ "e-9223372036854775808".toList) _
    exact .intro (by decide) (by decide) (.point (by decide)) hexponent (by decide) hvalue
  · rw [ofLiteral?_of_plainForm hplain]
    exact value_ofPlain?_of_small hplain htiny

end Decimal96

end DeskCalc
