/-!
# Operators

The arithmetic operators of the calculator and the characters that stand for them.
-/

namespace DeskCalc

/-- Operators that take two operands. -/
inductive BinaryOperator where
  | add
  | sub
  | mul
  | div
  | pow
  deriving DecidableEq, Repr

namespace BinaryOperator

def symbol : BinaryOperator → Char
  | add => '+'
  | sub => '-'
  | mul => '*'
  | div => '/'
  | pow => '^'

end BinaryOperator

/-- Operators that take one operand. -/
inductive UnaryOperator where
  | sqrt
  deriving DecidableEq, Repr

namespace UnaryOperator

def symbol : UnaryOperator → Char
  | sqrt => 'v'

end UnaryOperator

end DeskCalc
