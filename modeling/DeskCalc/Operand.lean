import DeskCalc.Fault
import DeskCalc.Numeral.Powers
import DeskCalc.Operator

/-!
# Operands

What the calculator asks of a number type. Arithmetic is given the number of
fractional digits in force; a type of fixed width may ignore it.
-/

namespace DeskCalc

/-- A number type that a session can compute with. -/
class Operand (α : Type) where
  /-- The value that stands for a result that could not be computed. -/
  zero : α
  /-- The value of a literal, unless it is malformed. -/
  ofLiteral? : List Char → Option α
  /-- The fixed-point text with the given number of fractional digits. -/
  toFixed : α → Nat → String
  /-- Whether the formatter has room for this text. Without it the program breaks off. -/
  canShow : α → Nat → Bool
  unary : UnaryOperator → Nat → α → Except ArithmeticError α
  /-- Whether the steps toward a square root come to an end. Without one the program breaks
  off, and what `unary` has in place of a root is never seen. -/
  canRoot : α → Bool
  /-- `binary op precision a b` is `a op b`. -/
  binary : BinaryOperator → Nat → α → α → Except ArithmeticError α
  neg : α → α
  /-- The whole part, if the value can be a number of fractional digits. -/
  toPrecision? : α → Option Nat

/-- What the formatter gives. -/
def Operand.shown? {α : Type} [Operand α] (a : α) (places : Nat) : Option String :=
  if canShow a places then some (toFixed a places) else none

/-- Precisions lie below this bound. -/
def precisionBound : Nat := twoPow 32

/-- The largest number of places for numbers of fixed width. -/
def placesBound : Nat := 65535

end DeskCalc
