import DeskCalc.Double
import DeskCalc.LongDecimal.Arithmetic

/-!
# Powers of long decimals

A power with a natural exponent is rounded to a number of significant digits
that is fixed beforehand from an estimate of its size. Since the exact power may
be far too long, it is enclosed between two short bounds; when both round to the
same digits, so does the power.
-/

namespace DeskCalc

/-- Bounds `lower * 10 ^ shift` and `upper * 10 ^ shift` of a natural. -/
structure Bracket where
  lower : Nat
  upper : Nat
  shift : Nat
  deriving DecidableEq, Repr

namespace Bracket

/-- The bounds cut to `width` digits, outward. -/
def trim (width : Nat) (b : Bracket) : Bracket :=
  let k := Digits.count b.upper - width
  let d := tenPow k
  ⟨b.lower / d, (b.upper + (d - 1)) / d, b.shift + k⟩

def mul (width : Nat) (a b : Bracket) : Bracket :=
  trim width ⟨a.lower * b.lower, a.upper * b.upper, a.shift + b.shift⟩

/-- Bounds of `m ^ n` by squaring, of `width` digits each. -/
def pow (width m n : Nat) : Bracket :=
  if n = 0 then ⟨1, 1, 0⟩
  else
    let half := pow width m (n / 2)
    let square := mul width half half
    if n % 2 = 0 then square else mul width square (trim width ⟨m, m, 0⟩)
termination_by n

/-- `n * 10 ^ shift` rounded half to even to `width` digits: the digits and their shift. -/
def roundTo (width n shift : Nat) : Nat × Nat :=
  let k := Digits.count n - width
  (Rounding.halfEven.quotient n (tenPow k), shift + k)

/-- The rounded digits that both bounds agree on. -/
def rounded? (width : Nat) (b : Bracket) : Option (Nat × Nat) :=
  let low := roundTo width b.lower b.shift
  if low = roundTo width b.upper b.shift then some low else none

end Bracket

/-- `m ^ n` rounded half to even to `width` digits, and their shift. The bounds get twice
as long until they agree; the exact power decides if they never do. -/
def roundedPower (width m n : Nat) : (attempts inner : Nat) → Nat × Nat
  | 0, _ => Bracket.roundTo width (Nat.pow m n) 0
  | attempts + 1, inner =>
    match (Bracket.pow inner m n).rounded? width with
    | some r => r
    | none => roundedPower width m n attempts (2 * inner)

namespace LongDecimal

/-- `x ^ n` rounded to `width` significant digits, a half going to even. A power with fewer
digits is left as it is, except that the first power is brought to `width` digits. -/
def power (x : LongDecimal) (n width : Nat) : LongDecimal :=
  if n = 1 then x.withDigits .halfEven width
  else
    let (c, shift) :=
      roundedPower width x.coefficient.natAbs n 64 (width + Digits.count n + 10)
    let negative := x.coefficient < 0 ∧ n % 2 = 1
    significant .halfEven ⟨if negative then -c else c, x.scale * n - shift⟩ width

/-- Seventeen digits of the number. What is behind them is rounded half up if the number is
positive and cut off if it is negative. -/
def leading (x : LongDecimal) : LongDecimal :=
  x.withDigits (if x.coefficient < 0 then .down else .halfUp) 17

section Estimate

-- The decimal logarithm of doubles that estimates are made with.
variable (log : Float → Float)

/-- The decimal logarithm of the magnitude of a number other than zero, in double
precision. -/
def log10 (x : LongDecimal) : Float :=
  let y := x.leading
  log (Float.ofNat y.coefficient.natAbs) - Float.ofInt y.scale

/-- An estimate of the decimal logarithm of the magnitude of `x ^ n`. -/
def powerSize (x : LongDecimal) (n : Int) : Float := x.log10 log * Float.ofInt n

/-- The power with the exponent truncated to an integer. Its size is estimated first, and
the digits before the point are kept whole. -/
def powWith (x exponent : LongDecimal) (precision : Nat) :
    Except ArithmeticError LongDecimal :=
  let n := exponent.truncate
  if n < 0 then .error .negativeExponent
  else if twoPow 63 ≤ n then .error .overflow
  else if n = 0 then .ok (ofInt 1)
  else if x.coefficient = 0 then .ok zero
  else
    let estimate := x.powerSize log n
    if estimate.isNaN || Float.ofInt exponentLimit < estimate.abs then .error .overflow
    else
      let width := guardedDigits (Double.ceiling estimate + 1) precision
      (x.power n.toNat width).orOverflow

end Estimate

/-- The power, its size estimated with the logarithm of the platform. -/
def pow (x exponent : LongDecimal) (precision : Nat) : Except ArithmeticError LongDecimal :=
  powWith Float.log10 x exponent precision

end LongDecimal

end DeskCalc
