/-!
# JSON texts

A strict reader of JSON. Numbers are kept as they are written. A string with an
escape for half of a surrogate pair is well-formed but denotes no text.
-/

namespace DeskCalc

/-- A JSON value. -/
inductive Json where
  | null
  | bool (b : Bool)
  | number (text : List Char)
  | string (text : Option String)
  | array (items : List Json)
  | object (members : List (Option String × Json))

namespace Json

def isBlank (c : Char) : Bool := c == ' ' || c == '\t' || c == '\n' || c == '\r'

def skipBlanks (text : List Char) : List Char := text.dropWhile isBlank

/-- A character of a string, or one UTF-16 unit that was written as an escape. -/
inductive StringPart where
  | char (c : Char)
  | unit (n : Nat)
  deriving DecidableEq, Repr

/-- The character that stands behind a backslash for another one. -/
def escape? : Char → Option Char
  | '"' => some '"'
  | '\\' => some '\\'
  | '/' => some '/'
  | 'b' => some '\x08'
  | 'f' => some '\x0c'
  | 'n' => some '\n'
  | 'r' => some '\r'
  | 't' => some '\t'
  | _ => none

def hexDigit? (c : Char) : Option Nat :=
  if c.isDigit then some (c.toNat - '0'.toNat)
  else if 'a' ≤ c ∧ c ≤ 'f' then some (c.toNat - 'a'.toNat + 10)
  else if 'A' ≤ c ∧ c ≤ 'F' then some (c.toNat - 'A'.toNat + 10)
  else none

def hexUnit? (a b c d : Char) : Option Nat := do
  let a ← hexDigit? a
  let b ← hexDigit? b
  let c ← hexDigit? c
  let d ← hexDigit? d
  some (((a * 16 + b) * 16 + c) * 16 + d)

/-- The parts of a string whose opening quote was read, and the text behind its end. -/
def readString? : List Char → Option (List StringPart × List Char)
  | [] => none
  | '"' :: rest => some ([], rest)
  | '\\' :: 'u' :: a :: b :: c :: d :: rest => do
    let n ← hexUnit? a b c d
    let (parts, after) ← readString? rest
    some (.unit n :: parts, after)
  | '\\' :: e :: rest => do
    let c ← escape? e
    let (parts, after) ← readString? rest
    some (.char c :: parts, after)
  | c :: rest =>
    if c.toNat < 0x20 then none
    else do
      let (parts, after) ← readString? rest
      some (.char c :: parts, after)

def isHighSurrogate (n : Nat) : Bool := decide (0xd800 ≤ n) && decide (n < 0xdc00)

def isLowSurrogate (n : Nat) : Bool := decide (0xdc00 ≤ n) && decide (n < 0xe000)

/-- The text of string parts, where two units next to each other may make up one
character. -/
def text? : List StringPart → Option (List Char)
  | [] => some []
  | .char c :: rest => (text? rest).map (c :: ·)
  | .unit n :: .unit m :: rest =>
    if isHighSurrogate n then
      if isLowSurrogate m then
        (text? rest).map (Char.ofNat (0x10000 + (n - 0xd800) * 0x400 + (m - 0xdc00)) :: ·)
      else none
    else if isLowSurrogate n then none
    else (text? (.unit m :: rest)).map (Char.ofNat n :: ·)
  | .unit n :: rest =>
    if isHighSurrogate n || isLowSurrogate n then none
    else (text? rest).map (Char.ofNat n :: ·)

/-- A string whose opening quote was read. -/
def readText? (text : List Char) : Option (Option String × List Char) :=
  (readString? text).map fun (parts, after) => ((text? parts).map String.ofList, after)

/-- The digits at the start of a text, of which there must be one. -/
def readDigits? (text : List Char) : Option (List Char × List Char) :=
  match text.takeWhile Char.isDigit with
  | [] => none
  | digits => some (digits, text.dropWhile Char.isDigit)

/-- The whole part of a number: a zero, or digits that do not start with one. -/
def readWhole? : List Char → Option (List Char × List Char)
  | '0' :: rest => some (['0'], rest)
  | text => readDigits? text

/-- A point and the digits behind it, if a point comes first. -/
def readFraction? : List Char → Option (List Char × List Char)
  | '.' :: rest => (readDigits? rest).map fun (digits, after) => ('.' :: digits, after)
  | text => some ([], text)

def readSign : List Char → List Char × List Char
  | '+' :: rest => (['+'], rest)
  | '-' :: rest => (['-'], rest)
  | text => ([], text)

/-- A marker, a sign or none, and digits, if a marker comes first. -/
def readExponent? : List Char → Option (List Char × List Char)
  | [] => some ([], [])
  | c :: rest =>
    if c == 'e' || c == 'E' then
      let (sign, unsigned) := readSign rest
      (readDigits? unsigned).map fun (digits, after) => (c :: (sign ++ digits), after)
    else some ([], c :: rest)

/-- A number as it is written. -/
def readNumber? (text : List Char) : Option (List Char × List Char) := do
  let (sign, unsigned) := match text with
    | '-' :: rest => (['-'], rest)
    | text => ([], text)
  let (whole, afterWhole) ← readWhole? unsigned
  let (fraction, afterFraction) ← readFraction? afterWhole
  let (exponent, after) ← readExponent? afterFraction
  some (sign ++ whole ++ fraction ++ exponent, after)

/-- A value that is neither string, array nor object. -/
def readScalar? : List Char → Option (Json × List Char)
  | 'n' :: 'u' :: 'l' :: 'l' :: rest => some (null, rest)
  | 't' :: 'r' :: 'u' :: 'e' :: rest => some (bool true, rest)
  | 'f' :: 'a' :: 'l' :: 's' :: 'e' :: rest => some (bool false, rest)
  | text => (readNumber? text).map fun (n, after) => (number n, after)

mutual

/-- A value after blanks, and the text behind it. The fuel bounds the depth of the
reading. -/
def readValue? : (fuel : Nat) → List Char → Option (Json × List Char)
  | 0, _ => none
  | fuel + 1, text =>
    match skipBlanks text with
    | '"' :: rest => (readText? rest).map fun (s, after) => (string s, after)
    | '[' :: rest =>
      match skipBlanks rest with
      | ']' :: after => some (array [], after)
      | inner => (readItems? fuel inner).map fun (items, after) => (array items, after)
    | '\x7b' :: rest =>
      match skipBlanks rest with
      | '\x7d' :: after => some (object [], after)
      | inner => (readMembers? fuel inner).map fun (ms, after) => (object ms, after)
    | scalar => readScalar? scalar

/-- The items of an array up to its bracket, of which there is at least one. -/
def readItems? : (fuel : Nat) → List Char → Option (List Json × List Char)
  | 0, _ => none
  | fuel + 1, text => do
    let (item, behind) ← readValue? fuel text
    match skipBlanks behind with
    | ']' :: after => some ([item], after)
    | ',' :: more =>
      let (items, after) ← readItems? fuel more
      some (item :: items, after)
    | _ => none

/-- The members of an object up to its brace, of which there is at least one. -/
def readMembers? : (fuel : Nat) → List Char →
    Option (List (Option String × Json) × List Char)
  | 0, _ => none
  | fuel + 1, text =>
    match skipBlanks text with
    | '"' :: quoted => do
      let (key, behindKey) ← readText? quoted
      match skipBlanks behindKey with
      | ':' :: rest =>
        let (value, behind) ← readValue? fuel rest
        match skipBlanks behind with
        | '\x7d' :: after => some ([(key, value)], after)
        | ',' :: more =>
          let (members, after) ← readMembers? fuel more
          some ((key, value) :: members, after)
        | _ => none
      | _ => none
    | _ => none

end

/-- The value of a text that holds one value and blanks around it. -/
def parse? (text : List Char) : Option Json := do
  let (value, after) ← readValue? (2 * text.length + 2) text
  if (skipBlanks after).isEmpty then some value else none

end Json

end DeskCalc
