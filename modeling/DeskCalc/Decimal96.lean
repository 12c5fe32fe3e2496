import DeskCalc.Decimal96.Literal
import DeskCalc.Decimal96.Power
import DeskCalc.Numeral.FixedPoint
import DeskCalc.Operand

/-!
# Decimals of ninety-six bits as operands

Values are shown rounded half away from zero. Arithmetic does not look at the
precision.
-/

namespace DeskCalc.Decimal96

/-- The magnitude in units of `10 ^ -places`. -/
def scaled (x : Decimal96) (places : Nat) : Nat :=
  if x.scale ≤ places then x.coefficient * tenPow (places - x.scale)
  else Rounding.halfUp.quotient x.coefficient (tenPow (x.scale - places))

def toFixed (x : Decimal96) (places : Nat) : String :=
  fixedPoint x.negative (x.scaled places) places

/-- How many characters the formatter has room for. -/
def formatterCapacity : Nat := 32

/-- What the formatter writes: no sign, and no places behind the largest scale. Both are put
beside it later. -/
def written (x : Decimal96) (places : Nat) : String :=
  fixedPoint false (x.scaled (min places maxScale)) (min places maxScale)

/-- Whether the formatter has room for a value. -/
def fitsFormatter (x : Decimal96) (places : Nat) : Bool :=
  decide ((x.written places).length ≤ formatterCapacity)

/-- Places behind the largest scale need no room there, but their number is bounded too. -/
def canShow (x : Decimal96) (places : Nat) : Bool :=
  decide (places ≤ placesBound) && x.fitsFormatter places

/-- A number with a minus sign has no precision, not even a negative zero. -/
def toPrecision? (x : Decimal96) : Option Nat :=
  let n := x.truncate
  if n.negative then none
  else if n.coefficient < precisionBound then some n.coefficient else none

instance : Operand Decimal96 where
  zero := zero
  ofLiteral? := ofLiteral?
  toFixed := toFixed
  canShow := canShow
  unary
    | .sqrt, _, a => a.sqrt
  canRoot := canRoot
  binary
    | .add, _, a, b => a.add b
    | .sub, _, a, b => a.sub b
    | .mul, _, a, b => a.mul b
    | .div, _, a, b => a.div b
    | .pow, _, a, b => a.pow b
  neg := neg
  toPrecision? := toPrecision?

end DeskCalc.Decimal96
