import DeskCalc.Fault
import DeskCalc.Numeral.Digits
import DeskCalc.Numeral.Powers
import DeskCalc.Numeral.Rounding

/-!
# Decimals of any length

A decimal is an integer coefficient over a power of ten. It is kept as it was
computed: equal numbers may have different scales. Values that a session keeps
have their scale and their magnitude within a fixed exponent limit.
-/

namespace DeskCalc

/-- The number `coefficient / 10 ^ scale`. -/
structure LongDecimal where
  coefficient : Int
  scale : Int
  deriving DecidableEq, Repr

namespace LongDecimal

def zero : LongDecimal := ⟨0, 0⟩

def ofInt (n : Int) : LongDecimal := ⟨n, 0⟩

/-- The number of digits of the coefficient; zero has one. -/
def digits (x : LongDecimal) : Nat := Digits.count x.coefficient.natAbs

/-- The number of digits before the point, and at most zero for a number below a tenth. -/
def magnitude (x : LongDecimal) : Int := x.digits - x.scale

/-- The largest decimal exponent in either direction. -/
def exponentLimit : Int := 100000

def withinLimit (e : Int) : Bool := decide (-exponentLimit ≤ e) && decide (e ≤ exponentLimit)

/-- Whether scale and magnitude lie within the exponent limit. -/
def isBounded (x : LongDecimal) : Bool := withinLimit x.scale && withinLimit x.magnitude

/-- A number within the exponent limit; any other is an overflow. -/
def orOverflow (x : LongDecimal) : Except ArithmeticError LongDecimal :=
  if x.isBounded then .ok x else .error .overflow

/-- The number at another scale, rounded if digits are lost. -/
def rescale (mode : Rounding) (x : LongDecimal) (scale : Int) : LongDecimal :=
  if x.coefficient = 0 then ⟨0, scale⟩
  else if x.scale ≤ scale then
    ⟨x.coefficient * tenPow (scale - x.scale).toNat, scale⟩
  else ⟨mode.signedQuotient x.coefficient (tenPow (x.scale - scale).toNat), scale⟩

/-- The number at the scale that gives it `n` digits; a carry leaves one digit more, which
is a zero. -/
def withDigits (mode : Rounding) (x : LongDecimal) (n : Nat) : LongDecimal :=
  x.rescale mode (x.scale + n - x.digits)

/-- The number rounded to `n` digits if it has more. -/
def significant (mode : Rounding) (x : LongDecimal) (n : Nat) : LongDecimal :=
  if x.digits ≤ n then x else x.withDigits mode n

/-- The number without the zeros at the end of its coefficient. -/
def shortest (x : LongDecimal) : LongDecimal :=
  if x.coefficient = 0 then zero
  else
    let (c, zeros) := Digits.stripZeros (x.digits.log2 + 1) x.coefficient.natAbs
    ⟨x.coefficient.sign * c, x.scale - zeros⟩

/-- Whether the number is one, at any scale. -/
def isOne (x : LongDecimal) : Bool :=
  decide (0 ≤ x.scale) && decide (x.coefficient = tenPow x.scale.toNat)

/-- The integer between zero and the number that is nearest to it. -/
def truncate (x : LongDecimal) : Int := (x.rescale .down 0).coefficient

def neg (x : LongDecimal) : LongDecimal := { x with coefficient := -x.coefficient }

theorem isBounded_of_orOverflow {x y : LongDecimal} (h : x.orOverflow = .ok y) :
    y = x ∧ y.isBounded = true := by
  unfold orOverflow at h
  split at h
  · next hx => cases h; exact ⟨rfl, hx⟩
  · cases h

@[simp] theorem rescale_scale (mode : Rounding) (x : LongDecimal) (scale : Int) :
    (x.rescale mode scale).scale = scale := by
  unfold rescale
  split
  · rfl
  · split <;> rfl

end LongDecimal

end DeskCalc
