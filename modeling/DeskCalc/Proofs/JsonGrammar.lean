import DeskCalc.Json
import DeskCalc.Numeral.Digits

/-!
# The grammar of JSON

Which texts spell a value. Blanks may stand around every value and every key, strings may
be written with escapes, and nothing may follow the value of a text. Two units of an escape
that make up a pair denote one character; half of a pair denotes none, so a string may be
well-formed and have no text.
-/

namespace DeskCalc.Json

open Digits (areDigits)

def AreBlanks (text : List Char) : Prop := ∀ c ∈ text, isBlank c = true

/-- What may stand behind a backslash, and the character that it denotes. -/
inductive Escapes : Char → Char → Prop
  | quote : Escapes '"' '"'
  | backslash : Escapes '\\' '\\'
  | slash : Escapes '/' '/'
  | backspace : Escapes 'b' '\x08'
  | formFeed : Escapes 'f' '\x0c'
  | newline : Escapes 'n' '\n'
  | carriageReturn : Escapes 'r' '\r'
  | tab : Escapes 't' '\t'

/-- A digit to the base 16, as a small letter or a capital. -/
def IsHexDigit (c : Char) (n : Nat) : Prop :=
  n < 16 ∧ (c = n.digitChar ∨ c = n.digitChar.toUpper)

/-- The four digits of a unit. -/
inductive UnitDigits : List Char → Nat → Prop
  | intro {a b c d : Char} {i j k l : Nat} (ha : IsHexDigit a i) (hb : IsHexDigit b j)
      (hc : IsHexDigit c k) (hd : IsHexDigit d l) :
      UnitDigits [a, b, c, d] (((i * 16 + j) * 16 + k) * 16 + l)

/-- What stands between the quotes of a string, and its parts. -/
inductive IsBody : List Char → List StringPart → Prop
  | nil : IsBody [] []
  | char {c : Char} {body : List Char} {parts : List StringPart} (hquote : c ≠ '"')
      (hbackslash : c ≠ '\\') (hcontrol : 0x20 ≤ c.toNat) (h : IsBody body parts) :
      IsBody (c :: body) (.char c :: parts)
  | escape {e c : Char} {body : List Char} {parts : List StringPart} (he : Escapes e c)
      (h : IsBody body parts) : IsBody ('\\' :: e :: body) (.char c :: parts)
  | unit {digits : List Char} {n : Nat} {body : List Char} {parts : List StringPart}
      (hn : UnitDigits digits n) (h : IsBody body parts) :
      IsBody ('\\' :: 'u' :: (digits ++ body)) (.unit n :: parts)

/-- The text that the parts of a string denote: a unit is a character, or one half of a pair
of surrogates. -/
inductive Denotes : List StringPart → List Char → Prop
  | nil : Denotes [] []
  | char {c : Char} {parts : List StringPart} {text : List Char} (h : Denotes parts text) :
      Denotes (.char c :: parts) (c :: text)
  | unit {c : Char} {parts : List StringPart} {text : List Char} (h : Denotes parts text) :
      Denotes (.unit c.toNat :: parts) (c :: text)
  | pair {high low : Nat} {c : Char} {parts : List StringPart} {text : List Char}
      (hhigh : high < 0x400) (hlow : low < 0x400)
      (hc : c.toNat = 0x10000 + high * 0x400 + low) (h : Denotes parts text) :
      Denotes (.unit (0xd800 + high) :: .unit (0xdc00 + low) :: parts) (c :: text)

/-- A string between its quotes, and its text if it has one. -/
inductive Quoted : List Char → Option String → Prop
  | intro {body : List Char} {parts : List StringPart} {text : Option String}
      (hbody : IsBody body parts)
      (htext : ∀ t : String, text = some t ↔ Denotes parts t.toList) : Quoted body text

/-- The whole part of a number has no zero in front. -/
inductive IsWhole : List Char → Prop
  | zero : IsWhole ['0']
  | positive {c : Char} {digits : List Char} (hc : c ≠ '0')
      (h : areDigits (c :: digits) = true) : IsWhole (c :: digits)

inductive IsPlaces : List Char → Prop
  | none : IsPlaces []
  | some {digits : List Char} (hne : digits ≠ []) (h : areDigits digits = true) :
      IsPlaces ('.' :: digits)

inductive IsPower : List Char → Prop
  | none : IsPower []
  | some {marker : Char} {sign digits : List Char} (hmarker : marker = 'e' ∨ marker = 'E')
      (hsign : sign = [] ∨ sign = ['+'] ∨ sign = ['-']) (hne : digits ≠ [])
      (h : areDigits digits = true) : IsPower (marker :: (sign ++ digits))

inductive IsNumber : List Char → Prop
  | intro {sign whole places power : List Char} (hsign : sign = [] ∨ sign = ['-'])
      (hwhole : IsWhole whole) (hplaces : IsPlaces places) (hpower : IsPower power) :
      IsNumber (sign ++ whole ++ places ++ power)

mutual

/-- A text that spells a value from its first character to its last. -/
inductive Spells : Json → List Char → Prop
  | null : Spells .null "null".toList
  | boolTrue : Spells (.bool true) "true".toList
  | boolFalse : Spells (.bool false) "false".toList
  | number {text : List Char} (h : IsNumber text) : Spells (.number text) text
  | string {body : List Char} {text : Option String} (h : Quoted body text) :
      Spells (.string text) ('"' :: (body ++ ['"']))
  | noItems {blanks : List Char} (h : AreBlanks blanks) :
      Spells (.array []) ('[' :: (blanks ++ [']']))
  | array {items : List Json} {text : List Char} (h : SpellsItems items text) :
      Spells (.array items) ('[' :: (text ++ [']']))
  | noMembers {blanks : List Char} (h : AreBlanks blanks) :
      Spells (.object []) ('\x7b' :: (blanks ++ ['\x7d']))
  | object {members : List (Option String × Json)} {text : List Char}
      (h : SpellsMembers members text) : Spells (.object members) ('\x7b' :: (text ++ ['\x7d']))

/-- A text that spells a value with blanks around it. -/
inductive IsText : Json → List Char → Prop
  | intro {v : Json} {front text back : List Char} (hfront : AreBlanks front)
      (h : Spells v text) (hback : AreBlanks back) : IsText v (front ++ text ++ back)

/-- The items of an array that has some. -/
inductive SpellsItems : List Json → List Char → Prop
  | one {v : Json} {text : List Char} (h : IsText v text) : SpellsItems [v] text
  | cons {v : Json} {text : List Char} {items : List Json} {more : List Char}
      (h : IsText v text) (hmore : SpellsItems items more) :
      SpellsItems (v :: items) (text ++ ',' :: more)

/-- A key and its value. -/
inductive SpellsMember : Option String × Json → List Char → Prop
  | intro {front body back : List Char} {key : Option String} {v : Json} {text : List Char}
      (hfront : AreBlanks front) (hkey : Quoted body key) (hback : AreBlanks back)
      (h : IsText v text) :
      SpellsMember (key, v) (front ++ '"' :: (body ++ '"' :: (back ++ ':' :: text)))

/-- The members of an object that has some. -/
inductive SpellsMembers : List (Option String × Json) → List Char → Prop
  | one {member : Option String × Json} {text : List Char} (h : SpellsMember member text) :
      SpellsMembers [member] text
  | cons {member : Option String × Json} {text : List Char}
      {members : List (Option String × Json)} {more : List Char}
      (h : SpellsMember member text) (hmore : SpellsMembers members more) :
      SpellsMembers (member :: members) (text ++ ',' :: more)

end

/-- A character that may stand for itself in a string. -/
def isPlain (c : Char) : Bool := c != '"' && c != '\\' && decide (0x20 ≤ c.toNat)

theorem isBody_of_plain {text : List Char} (h : text.all isPlain = true) :
    IsBody text (text.map .char) := by
  induction text with
  | nil => exact .nil
  | cons c text ih =>
      rw [List.all_cons, Bool.and_eq_true] at h
      obtain ⟨hc, htext⟩ := h
      simp only [isPlain, Bool.and_eq_true, bne_iff_ne, decide_eq_true_eq] at hc
      exact .char hc.1.1 hc.1.2 hc.2 (ih htext)

theorem denotes_map_char_iff {text denoted : List Char} :
    Denotes (text.map .char) denoted ↔ denoted = text := by
  induction text generalizing denoted with
  | nil =>
      constructor
      · intro h
        cases h
        rfl
      · rintro rfl
        exact .nil
  | cons c text ih =>
      rw [List.map_cons]
      constructor
      · intro h
        cases h with
        | char h => rw [ih.mp h]
      · rintro rfl
        exact .char (ih.mpr rfl)

/-- A text without quotes, backslashes and control characters is written as it is. -/
theorem quoted_of_plain {text : String} (h : text.toList.all isPlain = true) :
    Quoted text.toList (some text) := by
  refine .intro (isBody_of_plain h) fun t => ?_
  rw [denotes_map_char_iff, Option.some.injEq, String.toList_inj, eq_comm]

theorem IsText.of_spells {v : Json} {text : List Char} (h : Spells v text) : IsText v text := by
  have hnone : AreBlanks [] := fun c hc => by cases hc
  have htext := IsText.intro hnone h hnone
  rwa [List.nil_append, List.append_nil] at htext

theorem SpellsMember.of_plain {key : String} (hkey : key.toList.all isPlain = true) {v : Json}
    {text : List Char} (h : Spells v text) :
    SpellsMember (some key, v) ('"' :: (key.toList ++ '"' :: ':' :: text)) := by
  have hnone : AreBlanks [] := fun c hc => by cases hc
  exact .intro hnone (quoted_of_plain hkey) hnone (.of_spells h)

end DeskCalc.Json
