import DeskCalc.Decimal96.Basic
import DeskCalc.Fault

/-!
# Sums, products, quotients and roots of ninety-six bits

Each result is the exact one if that fits, and otherwise the nearest decimal
with as many digits as fit. What is too large for scale zero is an overflow.
-/

namespace DeskCalc.Decimal96

/-- The sum of two integers at scale `s`, as a decimal. -/
def ofSum? (n : Int) (s : Nat) : Option Decimal96 :=
  (fit? (decide (n < 0)) n.natAbs s).map unsignZero

/-- A zero operand gives the other one as it is. -/
def add? (a b : Decimal96) : Option Decimal96 :=
  if a.isZero then some b
  else if b.isZero then some a
  else
    let s := max a.scale b.scale
    ofSum? (a.aligned s + b.aligned s) s

/-- A zero operand gives the other one, negated on the right unless it is zero too. -/
def sub? (a b : Decimal96) : Option Decimal96 :=
  if a.isZero then some (if b.isZero then b else b.neg)
  else if b.isZero then some a
  else
    let s := max a.scale b.scale
    ofSum? (a.aligned s - b.aligned s) s

/-- Whether the coefficient is one of 32 bits. -/
def isShort (x : Decimal96) : Bool := decide (x.coefficient < twoPow 32)

/-- A product of two short coefficients at a scale above 47 is zero, and such a product
that is rounded to zero has no sign. -/
def mul? (a b : Decimal96) : Option Decimal96 :=
  let short := a.isShort && b.isShort
  let s := a.scale + b.scale
  if a.isZero || b.isZero || (short && decide (47 < s)) then some zero
  else
    let product := fit? (a.negative != b.negative) (a.coefficient * b.coefficient) s
    if short then product.map unsignZero else product

/-- The quotient at the largest scale at which it fits, without the zeros at its end that
stand behind the scale of an exact division. -/
def div? (a b : Decimal96) : Option Decimal96 :=
  if a.isZero then some zero
  else
    let quotient := (List.range (maxScale + 1)).findSome? fun k =>
      let s := maxScale - k
      let q := Rounding.halfEven.quotient (a.coefficient * tenPow (s + b.scale))
        (b.coefficient * tenPow a.scale)
      ofParts? (a.negative != b.negative) q s
    quotient.map fun q => (q.dropZeros (a.scale - b.scale)).unsignZero

def orOverflow : Option Decimal96 → Except ArithmeticError Decimal96
  | some x => .ok x
  | none => .error .overflow

def add (a b : Decimal96) : Except ArithmeticError Decimal96 := orOverflow (add? a b)

def sub (a b : Decimal96) : Except ArithmeticError Decimal96 := orOverflow (sub? a b)

def mul (a b : Decimal96) : Except ArithmeticError Decimal96 := orOverflow (mul? a b)

def div (a b : Decimal96) : Except ArithmeticError Decimal96 :=
  if b.isZero then .error .divisionByZero else orOverflow (div? a b)

/-- One step toward the root of `x`: the mean of `r` and `x / r`. -/
def improveRoot? (x r : Decimal96) : Option Decimal96 := do
  let quotient ← (div x r).toOption
  let sum ← (add r quotient).toOption
  (div sum two).toOption

/-- Steps toward the root of `x` until one leaves the number as it is; none if so many steps
do not come to an end. -/
def approachRoot? (x : Decimal96) : (steps : Nat) → Decimal96 → Option Decimal96
  | 0, _ => none
  | steps + 1, r =>
    match improveRoot? x r with
    | none => none
    | some next => if sameNumber next r then some next else approachRoot? x steps next

/-- The largest number of steps toward a root. -/
def rootSteps : Nat := 999

/-- The square root from half the number, or from the number when its half is zero. -/
def root? (x : Decimal96) : Option Decimal96 :=
  let half := ((div? x two).filter fun h => !h.isZero).getD x
  approachRoot? x rootSteps half

/-- Whether no root is computed, or the steps toward it come to an end. -/
def canRoot (x : Decimal96) : Bool := x.negative || x.isZero || x.root?.isSome

/-- Every number with a minus sign is refused, a negative zero too. The zero in place of a
root that is not found is never seen. -/
def sqrt (x : Decimal96) : Except ArithmeticError Decimal96 :=
  if x.negative then .error .negativeRadicand
  else if x.isZero then .ok zero
  else .ok (x.root?.getD zero)

end DeskCalc.Decimal96
