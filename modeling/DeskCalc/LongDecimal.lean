import DeskCalc.LongDecimal.Literal
import DeskCalc.LongDecimal.Power
import DeskCalc.Numeral.FixedPoint
import DeskCalc.Operand

/-!
# Long decimals as operands

Values are shown rounded half away from zero. The exponent of a power is
truncated to an integer.
-/

namespace DeskCalc.LongDecimal

def toFixed (x : LongDecimal) (places : Nat) : String :=
  let shown := x.rescale .halfUp places
  fixedPoint (decide (shown.coefficient < 0)) shown.coefficient.natAbs places

def toPrecision? (x : LongDecimal) : Option Nat :=
  let n := x.truncate
  if 0 ≤ n ∧ n < precisionBound then some n.toNat else none

instance : Operand LongDecimal where
  zero := zero
  ofLiteral? := ofLiteral?
  toFixed := toFixed
  canShow _ _ := true
  unary
    | .sqrt, precision, a => a.sqrt precision
  canRoot _ := true
  binary
    | .add, _, a, b => a.add b
    | .sub, _, a, b => a.sub b
    | .mul, _, a, b => a.mul b
    | .div, precision, a, b => a.div b precision
    | .pow, precision, a, b => a.pow b precision
  neg := neg
  toPrecision? := toPrecision?

end DeskCalc.LongDecimal
