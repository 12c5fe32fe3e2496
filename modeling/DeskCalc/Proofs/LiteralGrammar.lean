import DeskCalc.Token

/-!
# The form of literals

A literal starts with a digit, has at most one point and at most one marker behind
it, and a sign only between its marker and a digit. The scanner cuts out nothing
else as a literal, and every other character is a lexeme of its own.
-/

namespace DeskCalc

open Digits (areDigits)

/-- What may stand behind the whole part of a literal. -/
inductive IsFraction : List Char → Prop
  | none : IsFraction []
  | point {digits : List Char} (h : areDigits digits = true) : IsFraction ('.' :: digits)

/-- What may stand at the end of a literal. A sign is a part of it only before a digit. -/
inductive IsExponent : List Char → Prop
  | none : IsExponent []
  | bare {marker : Char} {digits : List Char} (hmarker : Spelling.isMarker marker = true)
      (h : areDigits digits = true) : IsExponent (marker :: digits)
  | signed {marker sign : Char} {digits : List Char}
      (hmarker : Spelling.isMarker marker = true) (hsign : sign = '+' ∨ sign = '-')
      (hne : digits ≠ []) (h : areDigits digits = true) :
      IsExponent (marker :: sign :: digits)

inductive IsLiteral : List Char → Prop
  | intro {whole fraction exponent : List Char} (hne : whole ≠ [])
      (hwhole : areDigits whole = true) (hfraction : IsFraction fraction)
      (hexponent : IsExponent exponent) : IsLiteral (whole ++ fraction ++ exponent)

/-- The characters that occur in literals. -/
def isLiteralChar (c : Char) : Bool :=
  c.isDigit || c == '.' || Spelling.isMarker c || c == '+' || c == '-'

theorem isLiteralChar_of_areDigits {text : List Char} (h : areDigits text = true) :
    text.all isLiteralChar = true := by
  rw [List.all_eq_true]
  intro c hc
  have hdigit := List.all_eq_true.mp h c hc
  simp [isLiteralChar, hdigit]

theorem IsFraction.all_isLiteralChar {text : List Char} (h : IsFraction text) :
    text.all isLiteralChar = true := by
  cases h with
  | none => rfl
  | point hd =>
      rw [List.all_cons, isLiteralChar_of_areDigits hd]
      rfl

theorem IsExponent.all_isLiteralChar {text : List Char} (h : IsExponent text) :
    text.all isLiteralChar = true := by
  have hmark {c : Char} (hc : Spelling.isMarker c = true) : isLiteralChar c = true := by
    simp [isLiteralChar, hc]
  cases h with
  | none => rfl
  | bare hmarker hd => simp [hmark hmarker, isLiteralChar_of_areDigits hd]
  | signed hmarker hsign _ hd =>
      rw [List.all_cons, List.all_cons, hmark hmarker, isLiteralChar_of_areDigits hd]
      rcases hsign with rfl | rfl <;> rfl

theorem IsLiteral.all_isLiteralChar {text : List Char} (h : IsLiteral text) :
    text.all isLiteralChar = true := by
  cases h with
  | intro _ hwhole hfraction hexponent =>
      rw [List.all_append, List.all_append, isLiteralChar_of_areDigits hwhole,
        hfraction.all_isLiteralChar, hexponent.all_isLiteralChar]
      rfl

namespace Lexeme

theorem areDigits_takeDigits (text : List Char) : areDigits (takeDigits text).1 = true :=
  List.all_takeWhile

theorem isFraction_takeFraction (text : List Char) : IsFraction (takeFraction text).1 := by
  unfold takeFraction
  split
  · exact .point (areDigits_takeDigits _)
  · exact .none

/-- A sign is taken only if digits are left behind it. -/
theorem takeSign_cases (text : List Char) :
    takeSign text = ([], text) ∨
      ∃ s d rest, text = s :: d :: rest ∧ (s = '+' ∨ s = '-') ∧ d.isDigit = true ∧
        takeSign text = ([s], d :: rest) := by
  unfold takeSign
  split
  · next s d rest =>
      split
      · next h =>
          simp only [Bool.and_eq_true, Bool.or_eq_true, beq_iff_eq] at h
          exact Or.inr ⟨s, d, rest, rfl, h.1, h.2, rfl⟩
      · exact Or.inl rfl
  · exact Or.inl rfl

theorem isExponent_takeExponent (text : List Char) : IsExponent (takeExponent text).1 := by
  cases text with
  | nil => exact .none
  | cons c rest =>
      by_cases hc : Spelling.isMarker c = true
      · simp only [takeExponent, if_pos hc]
        rcases takeSign_cases rest with h | ⟨s, d, more, -, hs, hd, h⟩
        · rw [h]
          exact .bare hc (areDigits_takeDigits rest)
        · rw [h]
          refine .signed hc hs ?_ (areDigits_takeDigits (d :: more))
          simp [takeDigits, hd]
      · simp only [takeExponent, if_neg hc]
        exact .none

theorem isLiteral_takeLiteral {c : Char} (h : c.isDigit = true) (rest : List Char) :
    IsLiteral (takeLiteral (c :: rest)).1 := by
  refine .intro ?_ (areDigits_takeDigits (c :: rest)) (isFraction_takeFraction _)
    (isExponent_takeExponent _)
  simp [h]

theorem isDigit_of_isBlank {c : Char} (h : isBlank c = true) : c.isDigit = false := by
  rcases Bool.or_eq_true_iff.mp h with hspace | hnewline
  · rw [eq_of_beq hspace]
    rfl
  · rw [eq_of_beq hnewline]
    rfl

theorem scan_blank {c : Char} (h : isBlank c = true) (rest : List Char) :
    scan (c :: rest) = blank c :: scan rest := by
  have hdigit : ¬ c.isDigit = true := by simp [isDigit_of_isBlank h]
  rw [scan, dif_neg hdigit, if_pos h]

/-- What may be cut out of a line as one lexeme. -/
inductive WellFormed : Lexeme → Prop
  | blank {c : Char} (h : isBlank c = true) : WellFormed (blank c)
  | literal {text : List Char} (h : IsLiteral text) : WellFormed (literal text)
  | symbol {c : Char} (hdigit : c.isDigit = false) (hblank : isBlank c = false) :
      WellFormed (symbol c)

theorem wellFormed_of_mem_scan {line : List Char} {l : Lexeme} (h : l ∈ scan line) :
    l.WellFormed := by
  fun_induction scan line with
  | case1 => cases h
  | case2 c rest hd ih =>
      rcases List.mem_cons.mp h with rfl | hmem
      · exact .literal (isLiteral_takeLiteral hd rest)
      · exact ih hmem
  | case3 c rest hd hb ih =>
      rcases List.mem_cons.mp h with rfl | hmem
      · exact .blank hb
      · exact ih hmem
  | case4 c rest hd hb ih =>
      rcases List.mem_cons.mp h with rfl | hmem
      · exact .symbol (Bool.eq_false_iff.mpr hd) (Bool.eq_false_iff.mpr hb)
      · exact ih hmem

/-- A character that occurs in no literal and is no blank is a lexeme wherever it stands. -/
theorem symbol_mem_scan_iff {line : List Char} {c : Char} (hliteral : isLiteralChar c = false)
    (hblank : isBlank c = false) : symbol c ∈ scan line ↔ c ∈ line := by
  constructor
  · intro h
    rw [← flatMap_source_scan line]
    exact List.mem_flatMap.mpr ⟨symbol c, h, List.mem_singleton_self c⟩
  · intro h
    rw [← flatMap_source_scan line] at h
    obtain ⟨l, hl, hc⟩ := List.mem_flatMap.mp h
    cases wellFormed_of_mem_scan hl with
    | blank hb =>
        cases List.mem_singleton.mp hc
        exact absurd hb (by simp [hblank])
    | literal ht =>
        have := List.all_eq_true.mp ht.all_isLiteralChar c hc
        exact absurd this (by simp [hliteral])
    | symbol _ _ =>
        cases List.mem_singleton.mp hc
        exact hl

end Lexeme

namespace Token

theorem literal_mem_ofLine {line text : List Char} (h : literal text ∈ ofLine line) :
    IsLiteral text := by
  obtain ⟨l, hl, heq⟩ := List.mem_filterMap.mp h
  cases Lexeme.wellFormed_of_mem_scan hl with
  | blank _ => cases heq
  | literal ht =>
      cases heq
      exact ht
  | symbol _ _ =>
      simp only [ofLexeme?, ofSymbol, Option.some.injEq] at heq
      split at heq <;> cases heq

theorem ofSymbol_eq_quit {c : Char} (h : ofSymbol c = command .quit) : c = 'q' := by
  have hcommand : Command.ofChar? c = some .quit := by
    unfold ofSymbol at h
    split at h
    · next cmd hcmd =>
        cases h
        exact hcmd
    · cases h
  unfold Command.ofChar? at hcommand
  split at hcommand <;> cases hcommand
  rfl

/-- The tokens of a line tell to quit if the letter for it occurs anywhere in the line. -/
theorem quit_mem_ofLine_iff {line : List Char} :
    command .quit ∈ ofLine line ↔ 'q' ∈ line := by
  rw [← Lexeme.symbol_mem_scan_iff (c := 'q') rfl rfl]
  constructor
  · intro h
    obtain ⟨l, hl, heq⟩ := List.mem_filterMap.mp h
    cases l with
    | blank c => cases heq
    | literal text => cases heq
    | symbol c => exact ofSymbol_eq_quit (Option.some.inj heq) ▸ hl
  · intro h
    exact List.mem_filterMap.mpr ⟨.symbol 'q', h, rfl⟩

end Token

end DeskCalc
