import DeskCalc.Numeral.Digits
import DeskCalc.Numeral.Powers

/-!
# Parts of a number's notation

A number is written as a mantissa, with a point or without, and possibly an
exponent behind a marker. These are the cuts and the integer reader that the
number formats share.
-/

namespace DeskCalc.Spelling

/-- The text before the first character that satisfies `p`, and the text after it if
there is such a character. -/
def cutAt (p : Char → Bool) (text : List Char) : List Char × Option (List Char) :=
  match text.dropWhile (fun c => !p c) with
  | [] => (text, none)
  | _ :: rest => (text.takeWhile (fun c => !p c), some rest)

def isMarker (c : Char) : Bool := c == 'e' || c == 'E'

def isPoint (c : Char) : Bool := c == '.'

/-- Whether a sign stands first and says minus, and the text without that sign. -/
def takeSign : List Char → Bool × List Char
  | '-' :: rest => (true, rest)
  | '+' :: rest => (false, rest)
  | text => (false, text)

/-- The integer denoted by an optional sign and at least one digit. -/
def toInt? (text : List Char) : Option Int :=
  let (negative, digits) := takeSign text
  if digits.isEmpty || !Digits.areDigits digits then none
  else
    let n : Int := Digits.toNat digits
    some (if negative then -n else n)

/-- Whether an integer fits a signed word of 64 bits. -/
def isWord (i : Int) : Bool := decide (-(twoPow 63 : Int) ≤ i) && decide (i < twoPow 63)

/-- The integer denoted by `text`, if it fits a signed word of 64 bits. -/
def toWord? (text : List Char) : Option Int :=
  (toInt? text).filter isWord

end DeskCalc.Spelling
