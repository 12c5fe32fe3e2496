import DeskCalc.Numeral.FixedPoint
import DeskCalc.Numeral.Rounding
import DeskCalc.Numeral.Spelling
import DeskCalc.Operand

/-!
# Binary floating-point operands

Numbers of double precision. Arithmetic runs at full width whatever the
precision, so the precision is for display alone. Text is taken from the exact
binary value, rounded half to even.
-/

namespace DeskCalc.Double

def infinity : Float := 1 / 0

def notANumber : Float := 0 / 0

/-- The double nearest to `n * 10 ^ e`. -/
def ofScientific (n : Nat) (e : Int) : Float :=
  Float.ofScientific n (decide (e < 0)) e.natAbs

/-- The double denoted by digits with at most one point among or beside them and, behind
a marker, an integer exponent. -/
def ofDecimal? (text : List Char) : Option Float := do
  let (mantissa, exponent) := Spelling.cutAt Spelling.isMarker text
  let (whole, fraction) := Spelling.cutAt Spelling.isPoint mantissa
  let places := fraction.getD []
  let digits := whole ++ places
  if digits.isEmpty || !Digits.areDigits digits then none
  let e ← match exponent with
    | none => some 0
    | some text => Spelling.toInt? text
  some (ofScientific (Digits.toNat digits) (e - places.length))

/-- The double denoted by a word in letters of either case. -/
def ofWord? (text : List Char) : Option Float :=
  match String.ofList (text.map Char.toLower) with
  | "inf" => some infinity
  | "infinity" => some infinity
  | "nan" => some notANumber
  | _ => none

/-- The double that a literal denotes: a decimal or a word, with or without a sign. -/
def ofLiteral? (text : List Char) : Option Float :=
  let (negative, magnitude) := Spelling.takeSign text
  ((ofDecimal? magnitude).or (ofWord? magnitude)).map fun x => if negative then -x else x

/-- The magnitude `m * 2 ^ e` in units of `10 ^ -places`, a half going to even. -/
def scaled (m : Nat) (e : Int) (places : Nat) : Nat :=
  if e < 0 then Rounding.halfEven.quotient (m * tenPow places) (twoPow e.natAbs)
  else m * twoPow e.natAbs * tenPow places

/-- The whole part of `m * 2 ^ e`. -/
def wholePart (m : Nat) (e : Int) : Nat :=
  if e < 0 then m / twoPow e.natAbs else m * twoPow e.natAbs

/-- The least integer that is not below a finite double; any other double counts as zero. -/
def ceiling (x : Float) : Int :=
  match x.toModel.unpack with
  | .finite .negative m e _ => -(wholePart m e : Int)
  | .finite .positive m e _ =>
    if e < 0 then ((m + (twoPow e.natAbs - 1)) / twoPow e.natAbs : Nat) else wholePart m e
  | _ => 0

def toFixed (x : Float) (places : Nat) : String :=
  match x.toModel.unpack with
  | .notANumber => "NaN"
  | .infinity .positive => "inf"
  | .infinity .negative => "-inf"
  | .zero _ => fixedPoint false 0 places
  | .finite sign m e _ => fixedPoint (sign matches .negative) (scaled m e places) places

def div (a b : Float) : Except ArithmeticError Float :=
  if b == 0 then .error .divisionByZero else .ok (a / b)

/-- The square root; a negative zero is its own root. -/
def sqrt (a : Float) : Except ArithmeticError Float :=
  if a < 0 then .error .negativeRadicand else .ok a.sqrt

def toPrecision? (x : Float) : Option Nat :=
  match x.toModel.unpack with
  | .zero _ => some 0
  | .finite .positive m e _ =>
    if wholePart m e < precisionBound then some (wholePart m e) else none
  | _ => none

instance : Operand Float where
  zero := 0
  ofLiteral? := ofLiteral?
  toFixed := toFixed
  canShow _ places := decide (places ≤ placesBound)
  unary
    | .sqrt, _, a => sqrt a
  canRoot _ := true
  binary
    | .add, _, a, b => .ok (a + b)
    | .sub, _, a, b => .ok (a - b)
    | .mul, _, a, b => .ok (a * b)
    | .div, _, a, b => div a b
    | .pow, _, a, b => .ok (a.pow b)
  neg := (- ·)
  toPrecision? := toPrecision?

end DeskCalc.Double
