/-!
# Faults

What can go wrong with a token of a line, by cause, and the wording of each cause.
A fault never ends a session.
-/

namespace DeskCalc

/-- Refusals of the operand stack. -/
inductive StackError where
  /-- An operand was needed and there is none. -/
  | empty
  /-- The position asked for lies below the lowest of `size` operands. -/
  | outOfRange (depth size : Nat)
  /-- There was nothing to clear. -/
  | alreadyCleared
  /-- There is no room for another operand. A stack in memory of any size never says so. -/
  | full
  deriving DecidableEq, Repr

/-- Results that a number type cannot give. -/
inductive ArithmeticError where
  | divisionByZero
  | negativeRadicand
  | overflow
  | negativeExponent
  deriving DecidableEq, Repr

/-- The causes of a diagnostic. -/
inductive Fault where
  | stack (cause : StackError)
  | arithmetic (cause : ArithmeticError)
  | malformedLiteral
  | invalidCommand (symbol : Char)
  | invalidPrecision
  deriving DecidableEq, Repr

def StackError.message : StackError → String
  | empty => "stack is empty"
  | outOfRange depth size => s!"stack depth {depth} out of range (size {size})"
  | alreadyCleared => "stack already cleared"
  | full => "stack allocation error when pushing"

def ArithmeticError.message : ArithmeticError → String
  | divisionByZero => "divide by zero"
  | negativeRadicand => "negative square root"
  | overflow => "arithmetic overflow"
  | negativeExponent => "negative exponent not supported"

namespace Fault

def message : Fault → String
  | stack cause => cause.message
  | arithmetic cause => cause.message
  | malformedLiteral => "malformed number"
  | invalidCommand _ => "invalid command"
  | invalidPrecision => "invalid precision"

/-- The line that reports a fault. -/
def diagnostic (fault : Fault) : String := "cdc: " ++ fault.message

end Fault

end DeskCalc
