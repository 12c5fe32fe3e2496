import DeskCalc.Decimal96.Basic
import DeskCalc.Numeral.Spelling

/-!
# Literals of ninety-six bits

Digits are taken while the coefficient fits and the scale is below its limit; the
first digit of the fraction that cannot be taken rounds what was taken, and what
follows it is only checked. A literal with an exponent is first written out in
positional notation, so both forms of a number are rounded alike.
-/

namespace DeskCalc.Decimal96

/-- Coefficients up to this one are followed in a single machine word. -/
def shortLimit : Nat := (twoPow 64 - 1) / 10 - 255

/-- What was taken of a literal so far. -/
structure Reading where
  coefficient : Nat := 0
  /-- Digits taken behind the point. -/
  scale : Nat := 0
  pointSeen : Bool := false
  digitSeen : Bool := false
  deriving DecidableEq, Repr

namespace Reading

/-- Whether no further digit of the fraction can be taken. -/
def isFull (r : Reading) : Bool := r.pointSeen && decide (maxScale ≤ r.scale)

/-- Whether the last digit was taken beyond a single machine word. -/
def isLong (r : Reading) : Bool := decide (shortLimit ≤ r.coefficient / 10)

def takePoint (r : Reading) : Reading := { r with pointSeen := true }

/-- The reading with one more digit, unless its coefficient would pass 96 bits. -/
def takeDigit? (r : Reading) (d : Nat) : Option Reading :=
  let n := 10 * r.coefficient + d
  if n < twoPow 96 then
    some { r with
      coefficient := n
      scale := if r.pointSeen then r.scale + 1 else r.scale
      digitSeen := true }
  else none

def isRest (c : Char) : Bool := c.isDigit || c == '_'

/-- The coefficient and scale when digit `d` decides and `rest` is dropped. A coefficient
that is rounded out of 96 bits loses its last digit. -/
def round? (r : Reading) (d : Nat) (rest : List Char) : Option (Nat × Nat) :=
  if !rest.all isRest then none
  else if d < 5 then some (r.coefficient, r.scale)
  else if r.coefficient + 1 < twoPow 96 then some (r.coefficient + 1, r.scale)
  else if r.scale = 0 then none
  else some ((r.coefficient + 5) / 10, r.scale - 1)

/-- Read on. An underscore stands between digits without a meaning; only behind the last
place of a short coefficient it counts as a zero. -/
def continue? (r : Reading) : List Char → Option (Nat × Nat)
  | [] => if r.digitSeen then some (r.coefficient, r.scale) else none
  | c :: rest =>
    if c.isDigit then
      if r.isFull then r.round? (Digits.value c) rest
      else
        match r.takeDigit? (Digits.value c) with
        | some next => next.continue? rest
        | none => if r.pointSeen then r.round? (Digits.value c) rest else none
    else if c == '_' && r.digitSeen then
      if r.isFull && !r.isLong then r.round? 0 rest else r.continue? rest
    else if c == '.' && !r.pointSeen then r.takePoint.continue? rest
    else none

end Reading

/-- The decimal that a literal without an exponent denotes. -/
def ofPlain? (text : List Char) : Option Decimal96 := do
  let (negative, magnitude) := Spelling.takeSign text
  let (n, s) ← Reading.continue? {} magnitude
  (ofParts? negative n s).map unsignZero

/-- Digits in front of the point beyond which no number fits. -/
def maxWholeDigits : Nat := 29

def zeros (n : Nat) : List Char := List.replicate n '0'

/-- The digits with a point behind the first `point` of them, or as many zeros as it takes
to set the point. -/
def setPoint (digits : List Char) (point : Int) : List Char :=
  if point ≤ 0 then '0' :: '.' :: (zeros point.natAbs ++ digits)
  else if digits.length ≤ point then digits ++ zeros (point.toNat - digits.length)
  else digits.take point.toNat ++ '.' :: digits.drop point.toNat

/-- A literal with an exponent in positional notation. A number too small for the last
place becomes zero, and one too large for 96 bits has no such form. -/
def writeOut? (text : List Char) : Option (List Char) := do
  let (mantissa, exponent) := Spelling.cutAt Spelling.isMarker text
  let e ← exponent.bind Spelling.toWord?
  let (whole, fraction) := Spelling.cutAt Spelling.isPoint mantissa
  let digits := whole ++ fraction.getD []
  if whole.isEmpty || !Digits.areDigits digits then none
  let significant := digits.dropWhile (· == '0')
  if significant.isEmpty then some ['0']
  else
    let point : Int := whole.length + e - (digits.length - significant.length : Nat)
    if !Spelling.isWord point || decide ((maxWholeDigits : Int) < point) then none
    else if point < -(maxScale : Int) then some ['0']
    else some (setPoint significant point)

/-- The decimal that a literal denotes. -/
def ofLiteral? (text : List Char) : Option Decimal96 :=
  if text.any Spelling.isMarker then (writeOut? text).bind ofPlain?
  else ofPlain? text

end DeskCalc.Decimal96
