import DeskCalc.LongDecimal.Basic
import DeskCalc.Numeral.SquareRoot

/-!
# Sums, products, quotients and roots of long decimals

Sums and products are exact. Quotients and roots are taken with enough
significant digits for the precision in force and sixteen guard digits behind it.
-/

namespace DeskCalc.LongDecimal

/-- Digits kept behind those that are shown. -/
def guardDigits : Nat := 16

/-- The scale of quotients and roots. -/
def guardedScale (precision : Nat) : Nat := precision + guardDigits

/-- The significant digits for a result of the given magnitude. -/
def guardedDigits (magnitude : Int) (precision : Nat) : Nat :=
  magnitude.toNat + guardedScale precision

/-- Further zeros behind the point, on the way to the scale of a zero operand: fifteen
at most. -/
def padToward (x : LongDecimal) (scale : Int) : LongDecimal :=
  let more := (min (max (scale - x.scale) 0) 15).toNat
  ⟨x.coefficient * tenPow more, x.scale + more⟩

/-- The sum at the larger scale of both. -/
def alignedSum (a b : LongDecimal) : LongDecimal :=
  let scale := max a.scale b.scale
  ⟨(a.rescale .down scale).coefficient + (b.rescale .down scale).coefficient, scale⟩

/-- The exact sum. Beside a zero the other operand keeps its scale or nearly so. -/
def sum (a b : LongDecimal) : LongDecimal :=
  if b.coefficient = 0 then a.padToward b.scale
  else if a.coefficient = 0 then b.padToward a.scale
  else alignedSum a b

/-- The exact product. Beside a one the other factor is left, in its shortest form. -/
def product (a b : LongDecimal) : LongDecimal :=
  if a.isOne then b.shortest
  else if b.isOne then a.shortest
  else ⟨a.coefficient * b.coefficient, a.scale + b.scale⟩

def add (a b : LongDecimal) : Except ArithmeticError LongDecimal := (sum a b).orOverflow

def sub (a b : LongDecimal) : Except ArithmeticError LongDecimal :=
  (alignedSum a b.neg).orOverflow

/-- The product, if its scale lies within the exponent limit also when it is zero. -/
def mul (a b : LongDecimal) : Except ArithmeticError LongDecimal :=
  if withinLimit (a.scale + b.scale) then (product a b).orOverflow else .error .overflow

/-- The inverse to `n` significant digits. It is taken to two digits more at first, a half
going up, and what this gives is rounded to even. -/
def inverse (x : LongDecimal) (n : Nat) : LongDecimal :=
  let shift := n + x.digits + 1
  let c := Rounding.halfUp.quotient (tenPow shift) x.coefficient.natAbs
  significant .halfEven ⟨x.coefficient.sign * c, shift - x.scale⟩ n

section Quotient

-- The inverse to a number of significant digits that quotients are taken with.
variable (inverse : LongDecimal → Nat → LongDecimal)

/-- The quotient by way of the inverse: the inverse and its product with the dividend
are each rounded to the working digits, and the result to the working scale. -/
def divWith (a b : LongDecimal) (precision : Nat) : Except ArithmeticError LongDecimal :=
  if b.coefficient = 0 then .error .divisionByZero
  else
    let magnitude := a.magnitude - b.magnitude + 1
    if exponentLimit + 1 < magnitude then .error .overflow
    else
      let n := guardedDigits magnitude precision
      let quotient := (product a (inverse b n)).significant .halfEven n
      (quotient.rescale .halfEven (guardedScale precision)).orOverflow

end Quotient

/-- The quotient with the inverse that is rounded twice. -/
def div (a b : LongDecimal) (precision : Nat) : Except ArithmeticError LongDecimal :=
  divWith inverse a b precision

/-- The root of a positive number from the floor root of its coefficient, which is
lengthened to give five digits more than asked for and an even scale. -/
def root (x : LongDecimal) (n : Nat) : LongDecimal :=
  let lacking := 2 * (n + 5) - x.digits
  let shift := if (x.scale + lacking) % 2 = 0 then lacking else lacking + 1
  let r := floorRoot (x.coefficient.natAbs * tenPow shift)
  significant .halfEven ⟨r, (x.scale + shift) / 2⟩ n

section Root

-- The root to a number of significant digits that roots are taken with.
variable (root : LongDecimal → Nat → LongDecimal)

/-- The root of a number that is not negative, at the working scale. Zero and one are kept. -/
def sqrtWith (x : LongDecimal) (precision : Nat) : Except ArithmeticError LongDecimal :=
  if x.coefficient < 0 then .error .negativeRadicand
  else
    let n := guardedDigits (Int.tdiv x.magnitude 2 + 1) precision
    let r := if x.coefficient = 0 || x.isOne then x else root x n
    .ok (r.rescale .halfEven (guardedScale precision))

end Root

/-- The root that is rounded from the floor root. -/
def sqrt (x : LongDecimal) (precision : Nat) : Except ArithmeticError LongDecimal :=
  sqrtWith root x precision

end DeskCalc.LongDecimal
