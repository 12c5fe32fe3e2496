import DeskCalc.Decimal96
import DeskCalc.Machine
import DeskCalc.Proofs.LiteralGrammar

/-!
# Lines put together

No literal reaches over a blank: a blank continues neither digits nor a fraction nor an
exponent, and a sign in front of a blank is no part of a literal. A line with a blank in it
therefore has the tokens of its two parts. If nothing waits for a literal at the end of the
first part, the line does what the two parts do as lines one after another.
-/

namespace DeskCalc

namespace Lexeme

variable {c : Char}

/-- A blank occurs in no literal. -/
theorem isLiteralChar_of_isBlank (h : isBlank c = true) : isLiteralChar c = false := by
  rcases Bool.or_eq_true_iff.mp h with hspace | hnewline
  · rw [eq_of_beq hspace]
    rfl
  · rw [eq_of_beq hnewline]
    rfl

theorem takeDigits_append_blank (h : isBlank c = true) (text rest : List Char) :
    takeDigits (text ++ c :: rest) = ((takeDigits text).1, (takeDigits text).2 ++ c :: rest) := by
  have hdigit := isDigit_of_isBlank h
  induction text with
  | nil => simp [takeDigits, hdigit]
  | cons d text ih =>
      simp only [takeDigits, Prod.mk.injEq, List.cons_append] at ih ⊢
      cases hd : d.isDigit with
      | true => simp [hd, ih]
      | false => simp [hd]

theorem takeFraction_append_blank (h : isBlank c = true) (text rest : List Char) :
    takeFraction (text ++ c :: rest) =
      ((takeFraction text).1, (takeFraction text).2 ++ c :: rest) := by
  have hpoint : c ≠ '.' := by
    rintro rfl
    exact absurd h (by decide)
  cases text with
  | nil => simp [takeFraction, hpoint]
  | cons d text =>
      by_cases hd : d = '.'
      · subst hd
        simp only [List.cons_append, takeFraction, takeDigits_append_blank h]
      · simp [takeFraction, hd]

/-- A sign needs a digit behind it, and a blank is none. -/
theorem takeSign_append_blank (h : isBlank c = true) (text rest : List Char) :
    takeSign (text ++ c :: rest) = ((takeSign text).1, (takeSign text).2 ++ c :: rest) := by
  have hsign : (c == '+' || c == '-') = false := by
    have hchar := isLiteralChar_of_isBlank h
    simp only [isLiteralChar, Bool.or_eq_false_iff] at hchar ⊢
    exact ⟨hchar.1.2, hchar.2⟩
  cases text with
  | nil =>
      cases rest with
      | nil => rfl
      | cons d rest => simp [takeSign, hsign]
  | cons s text =>
      cases text with
      | nil => simp [takeSign, isDigit_of_isBlank h]
      | cons d text =>
          simp only [List.cons_append, takeSign]
          split <;> rfl

theorem takeExponent_append_blank (h : isBlank c = true) (text rest : List Char) :
    takeExponent (text ++ c :: rest) =
      ((takeExponent text).1, (takeExponent text).2 ++ c :: rest) := by
  have hmarker : Spelling.isMarker c = false := by
    have hchar := isLiteralChar_of_isBlank h
    simp only [isLiteralChar, Bool.or_eq_false_iff] at hchar
    exact hchar.1.1.2
  cases text with
  | nil => simp [takeExponent, hmarker]
  | cons d text =>
      cases hd : Spelling.isMarker d with
      | true =>
          simp only [List.cons_append, takeExponent, hd, if_true, takeSign_append_blank h,
            takeDigits_append_blank h]
      | false => simp [takeExponent, hd]

/-- A literal ends before a blank as it does at the end of a line. -/
theorem takeLiteral_append_blank (h : isBlank c = true) (text rest : List Char) :
    takeLiteral (text ++ c :: rest) =
      ((takeLiteral text).1, (takeLiteral text).2 ++ c :: rest) := by
  simp only [takeLiteral, takeDigits_append_blank h, takeFraction_append_blank h,
    takeExponent_append_blank h]

/-- A blank parts a text into two that are scanned apart. -/
theorem scan_append_blank (h : isBlank c = true) (text rest : List Char) :
    scan (text ++ c :: rest) = scan text ++ blank c :: scan rest := by
  fun_induction scan text with
  | case1 => exact scan_blank h rest
  | case2 d text hd ih =>
      have hliteral := takeLiteral_append_blank h (d :: text) rest
      rw [List.cons_append] at hliteral
      rw [List.cons_append, scan, dif_pos hd, hliteral, ih, List.cons_append]
  | case3 d text hd hblank ih =>
      rw [List.cons_append, scan_blank hblank, ih, List.cons_append]
  | case4 d text hd hblank ih =>
      rw [List.cons_append, scan, dif_neg hd, if_neg hblank, ih, List.cons_append]

end Lexeme

/-- A line with a blank in it has the tokens of what stands before and of what stands behind. -/
theorem Token.ofLine_append_blank {c : Char} (h : Lexeme.isBlank c = true)
    (front rest : List Char) : ofLine (front ++ c :: rest) = ofLine front ++ ofLine rest := by
  rw [ofLine, Lexeme.scan_append_blank h, List.filterMap_append]
  rfl

/-- Where nothing waits, the state within a line is that at the start of one. -/
theorem LineState.eq_of_pending {α : Type} {s : LineState α} (h : s.pending = {}) :
    s = { machine := s.machine } := by
  obtain ⟨m, pending⟩ := s
  cases h
  rfl

namespace Machine

variable {α : Type} [Operand α]

/-- Lines compose. A blank parts the tokens of a line whatever stands around it, and if what
stands before it leaves neither a negation nor a precision waiting, the line has the events
of both parts as lines in turn, and leaves the calculator as they do. -/
theorem evaluate_append_blank (m : Machine α) (front rest : List Char) {c : Char}
    (hblank : Lexeme.isBlank c = true) :
    Token.ofLine (front ++ c :: rest) = Token.ofLine front ++ Token.ofLine rest ∧
      ((LineState.run { machine := m } (Token.ofLine front)).1.pending = {} →
        m.evaluate (front ++ c :: rest) =
          (((m.evaluate front).1.evaluate rest).1,
            (m.evaluate front).2 ++ ((m.evaluate front).1.evaluate rest).2)) := by
  have htokens := Token.ofLine_append_blank hblank front rest
  refine ⟨htokens, fun hpending => ?_⟩
  have hstart := LineState.eq_of_pending hpending
  have hrun := LineState.run_append { machine := m } (Token.ofLine front) (Token.ofLine rest)
  rw [hstart] at hrun
  simp only [evaluate, htokens, hrun]

/-- The sign behind the blank is not the sign of the exponent in front of it, and the
negation has been used up there. -/
theorem evaluate_append_blank_sign :
    let m : Machine Decimal96 := { stack := ⟨[.two]⟩, precision := 4, maxPrecision := 1000 }
    let front := "k2 1 _3 4e".toList
    let rest := "+5 p".toList
    (Lexeme.isBlank ' ' = true ∧
        (LineState.run { machine := m } (Token.ofLine front)).1.pending = {}) ∧
      Token.ofLine (front ++ ' ' :: rest) = Token.ofLine front ++ Token.ofLine rest ∧
      m.evaluate (front ++ ' ' :: rest) =
        (((m.evaluate front).1.evaluate rest).1,
          (m.evaluate front).2 ++ ((m.evaluate front).1.evaluate rest).2) := by
  intro m front rest
  have hpending : (LineState.run { machine := m } (Token.ofLine front)).1.pending = {} := by
    decide +kernel
  obtain ⟨htokens, hlines⟩ := evaluate_append_blank m front rest (c := ' ') rfl
  exact ⟨⟨rfl, hpending⟩, htokens, hlines hpending⟩

end Machine

end DeskCalc
