import DeskCalc.Numeral.Spelling

/-!
# Lexemes

A line is cut into literals, blanks and single symbols. Nothing is dropped, so
the lexemes of a line spell the line. A literal is as long as it can be:

  digit+ [ `.` digit* ] [ (`e` | `E`) [ (`+` | `-`) digit ] digit* ]
-/

namespace DeskCalc

/-- A piece of a line. -/
inductive Lexeme where
  | blank (c : Char)
  | literal (text : List Char)
  | symbol (c : Char)
  deriving DecidableEq, Repr

namespace Lexeme

/-- The characters that a lexeme was cut from. -/
def source : Lexeme → List Char
  | blank c => [c]
  | literal text => text
  | symbol c => [c]

/-- Only a space and a newline separate tokens without being one. -/
def isBlank (c : Char) : Bool := c == ' ' || c == '\n'

/-- The leading digits and what follows them. -/
def takeDigits (text : List Char) : List Char × List Char :=
  (text.takeWhile Char.isDigit, text.dropWhile Char.isDigit)

/-- A point with the digits after it, if a point comes first. -/
def takeFraction : List Char → List Char × List Char
  | '.' :: rest => ('.' :: (takeDigits rest).1, (takeDigits rest).2)
  | text => ([], text)

/-- A sign, if one comes first and a digit follows it. -/
def takeSign : List Char → List Char × List Char
  | s :: d :: rest =>
    if (s == '+' || s == '-') && d.isDigit then ([s], d :: rest) else ([], s :: d :: rest)
  | text => ([], text)

/-- A marker with the sign and the digits after it, if a marker comes first. -/
def takeExponent : List Char → List Char × List Char
  | [] => ([], [])
  | c :: rest =>
    if Spelling.isMarker c then
      let (sign, unsigned) := takeSign rest
      let (digits, after) := takeDigits unsigned
      (c :: (sign ++ digits), after)
    else ([], c :: rest)

/-- The longest literal at the start of a text that starts with a digit. -/
def takeLiteral (text : List Char) : List Char × List Char :=
  let (whole, afterWhole) := takeDigits text
  let (fraction, afterFraction) := takeFraction afterWhole
  let (exponent, after) := takeExponent afterFraction
  (whole ++ fraction ++ exponent, after)

theorem takeDigits_append (text : List Char) :
    (takeDigits text).1 ++ (takeDigits text).2 = text :=
  List.takeWhile_append_dropWhile

theorem takeFraction_append (text : List Char) :
    (takeFraction text).1 ++ (takeFraction text).2 = text := by
  unfold takeFraction
  split
  · simp [takeDigits_append]
  · simp

theorem takeSign_append (text : List Char) :
    (takeSign text).1 ++ (takeSign text).2 = text := by
  unfold takeSign
  split
  · split <;> simp
  · simp

theorem takeExponent_append (text : List Char) :
    (takeExponent text).1 ++ (takeExponent text).2 = text := by
  cases text with
  | nil => rfl
  | cons c rest =>
      by_cases h : Spelling.isMarker c = true
      · simp [takeExponent, h, takeDigits_append, takeSign_append]
      · simp [takeExponent, h]

/-- A literal and what follows it make up the text. -/
theorem takeLiteral_append (text : List Char) :
    (takeLiteral text).1 ++ (takeLiteral text).2 = text := by
  simp [takeLiteral, takeExponent_append, takeFraction_append, takeDigits_append]

theorem takeLiteral_cons {c : Char} (h : c.isDigit = true) (rest : List Char) :
    ∃ more, (takeLiteral (c :: rest)).1 = c :: more := by
  simp [takeLiteral, takeDigits, h]

theorem length_takeLiteral_lt {c : Char} (h : c.isDigit = true) (rest : List Char) :
    (takeLiteral (c :: rest)).2.length < (c :: rest).length := by
  obtain ⟨more, hmore⟩ := takeLiteral_cons h rest
  have := congrArg List.length (takeLiteral_append (c :: rest))
  simp only [hmore, List.length_append, List.length_cons] at this ⊢
  omega

/-- The lexemes of a text, from left to right. -/
def scan : List Char → List Lexeme
  | [] => []
  | c :: rest =>
    if _h : c.isDigit = true then
      literal (takeLiteral (c :: rest)).1 :: scan (takeLiteral (c :: rest)).2
    else if isBlank c then blank c :: scan rest
    else symbol c :: scan rest
termination_by text => text.length
decreasing_by
  · exact length_takeLiteral_lt _h rest
  · exact Nat.lt_succ_self rest.length
  · exact Nat.lt_succ_self rest.length

/-- The lexemes of a text spell it. -/
theorem flatMap_source_scan (text : List Char) : (scan text).flatMap source = text := by
  fun_induction scan text with
  | case1 => rfl
  | case2 c rest h ih =>
      rw [List.flatMap_cons, ih]
      exact takeLiteral_append (c :: rest)
  | case3 c rest h hb ih =>
      rw [List.flatMap_cons, ih]
      rfl
  | case4 c rest h hb ih =>
      rw [List.flatMap_cons, ih]
      rfl

end Lexeme

end DeskCalc
