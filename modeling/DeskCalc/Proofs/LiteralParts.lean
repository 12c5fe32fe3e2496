import DeskCalc.Proofs.LiteralGrammar
import Mathlib.Data.List.TakeWhile

/-!
# The parts of a literal

A literal is cut at its marker and at its point, which stand where the grammar puts
them and nowhere else. Its mantissa has no sign.
-/

namespace DeskCalc

open Digits (areDigits)

namespace Spelling

theorem takeSign_of_isDigit {c : Char} (h : c.isDigit = true) (rest : List Char) :
    takeSign (c :: rest) = (false, c :: rest) := by
  unfold takeSign
  split
  · next heq =>
      obtain ⟨rfl, -⟩ := List.cons.inj heq
      exact absurd h (by decide)
  · next heq =>
      obtain ⟨rfl, -⟩ := List.cons.inj heq
      exact absurd h (by decide)
  · rfl

/-- A minus sign in front of digits is taken off them. -/
theorem takeSign_of_areDigits {digits : List Char} (hne : digits ≠ [])
    (h : areDigits digits = true) (negative : Bool) :
    takeSign ((if negative then ['-'] else []) ++ digits) = (negative, digits) := by
  cases negative with
  | true => rfl
  | false =>
      obtain ⟨c, rest, rfl⟩ := List.exists_cons_of_ne_nil hne
      exact takeSign_of_isDigit (List.all_eq_true.mp h c List.mem_cons_self) rest

theorem isMarker_of_isDigit {c : Char} (h : c.isDigit = true) : isMarker c = false := by
  rw [isMarker, Bool.or_eq_false_iff, beq_eq_false_iff_ne, beq_eq_false_iff_ne]
  constructor
  · rintro rfl
    exact absurd h (by decide)
  · rintro rfl
    exact absurd h (by decide)

theorem isPoint_of_isDigit {c : Char} (h : c.isDigit = true) : isPoint c = false := by
  rw [isPoint, beq_eq_false_iff_ne]
  rintro rfl
  exact absurd h (by decide)

theorem cutAt_append {p : Char → Bool} {front : List Char} (hfront : ∀ c ∈ front, p c = false)
    {c : Char} (hc : p c = true) (rest : List Char) :
    cutAt p (front ++ c :: rest) = (front, some rest) := by
  have hpass : ∀ a ∈ front, (!p a) = true := fun a ha => by rw [hfront a ha]; rfl
  have hstop : ¬ (!p c) = true := by simp [hc]
  rw [cutAt, List.dropWhile_append_of_pos hpass, List.takeWhile_append_of_pos hpass,
    List.dropWhile_cons_of_neg (p := fun a => !p a) hstop,
    List.takeWhile_cons_of_neg (p := fun a => !p a) hstop, List.append_nil]

theorem cutAt_of_forall {p : Char → Bool} {text : List Char} (h : ∀ c ∈ text, p c = false) :
    cutAt p text = (text, none) := by
  have hpass : ∀ a ∈ text, (!p a) = true := fun a ha => by rw [h a ha]; rfl
  rw [cutAt, List.dropWhile_eq_nil_iff.mpr hpass]

end Spelling

/-- What holds neither of a minus sign nor of digits holds nowhere in digits with a sign. -/
theorem forall_mem_signed {p : Char → Bool} (hminus : p '-' = false)
    (hdigit : ∀ c : Char, c.isDigit = true → p c = false) {digits : List Char}
    (h : areDigits digits = true) (negative : Bool) :
    ∀ c ∈ (if negative then ['-'] else []) ++ digits, p c = false := by
  intro c hc
  rcases List.mem_append.mp hc with hc | hc
  · cases negative with
    | false => cases hc
    | true => rwa [List.mem_singleton.mp hc]
  · exact hdigit c (List.all_eq_true.mp h c hc)

/-- The point separates what stands in front of it from the places of a literal. -/
theorem IsFraction.cutAt_isPoint {front fraction : List Char}
    (hfront : ∀ c ∈ front, Spelling.isPoint c = false) (h : IsFraction fraction) :
    Spelling.cutAt Spelling.isPoint (front ++ fraction) = (front, fraction.tail?) := by
  cases h with
  | none =>
      rw [List.append_nil]
      exact Spelling.cutAt_of_forall hfront
  | point _ => exact Spelling.cutAt_append hfront rfl _

theorem IsFraction.isMarker_eq_false {fraction : List Char} (h : IsFraction fraction) :
    ∀ c ∈ fraction, Spelling.isMarker c = false := by
  intro c hc
  cases h with
  | none => cases hc
  | point hd =>
      rcases List.mem_cons.mp hc with rfl | hc
      · rfl
      · exact Spelling.isMarker_of_isDigit (List.all_eq_true.mp hd c hc)

theorem IsFraction.areDigits_tail {fraction : List Char} (h : IsFraction fraction) :
    areDigits fraction.tail = true := by
  cases h with
  | none => rfl
  | point hd => exact hd

theorem IsFraction.getD_tail? {fraction : List Char} (h : IsFraction fraction) :
    fraction.tail?.getD [] = fraction.tail := by
  cases h <;> rfl

theorem isMarker_signed_mantissa {whole fraction : List Char} (hwhole : areDigits whole = true)
    (hfraction : IsFraction fraction) (negative : Bool) :
    ∀ c ∈ (if negative then ['-'] else []) ++ whole ++ fraction, Spelling.isMarker c = false := by
  intro c hc
  rcases List.mem_append.mp hc with hc | hc
  · exact forall_mem_signed rfl (fun _ => Spelling.isMarker_of_isDigit) hwhole negative c hc
  · exact hfraction.isMarker_eq_false c hc

theorem isMarker_mantissa {whole fraction : List Char} (hwhole : areDigits whole = true)
    (hfraction : IsFraction fraction) : ∀ c ∈ whole ++ fraction, Spelling.isMarker c = false :=
  isMarker_signed_mantissa hwhole hfraction false

theorem IsExponent.eq_nil_or_cons {exponent : List Char} (h : IsExponent exponent) :
    exponent = [] ∨
      ∃ marker rest, exponent = marker :: rest ∧ Spelling.isMarker marker = true := by
  cases h with
  | none => exact Or.inl rfl
  | bare hmarker _ => exact Or.inr ⟨_, _, rfl, hmarker⟩
  | signed hmarker _ _ _ => exact Or.inr ⟨_, _, rfl, hmarker⟩

/-- The marker separates the mantissa of a literal from its exponent. -/
theorem IsExponent.cutAt_isMarker {mantissa exponent : List Char}
    (hmantissa : ∀ c ∈ mantissa, Spelling.isMarker c = false) (h : IsExponent exponent) :
    Spelling.cutAt Spelling.isMarker (mantissa ++ exponent) = (mantissa, exponent.tail?) := by
  cases h with
  | none =>
      rw [List.append_nil]
      exact Spelling.cutAt_of_forall hmantissa
  | bare hmarker _ => exact Spelling.cutAt_append hmantissa hmarker _
  | signed hmarker _ _ _ => exact Spelling.cutAt_append hmantissa hmarker _

end DeskCalc
