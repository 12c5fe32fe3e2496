import DeskCalc.Operator

/-!
# Commands

The commands of the calculator, each written as one character.
-/

namespace DeskCalc

inductive Command where
  | binary (op : BinaryOperator)
  | unary (op : UnaryOperator)
  /-- Print the top of the stack and keep it. -/
  | printTop
  /-- Print every operand from top to bottom. -/
  | dump
  /-- Print the number of operands. -/
  | printSize
  /-- Push the top once more. -/
  | duplicate
  /-- Drop every operand. -/
  | clear
  /-- Read no further line. -/
  | quit
  /-- The next literal sets the precision. -/
  | setPrecision
  /-- The next operand literal is negated. -/
  | negate
  deriving DecidableEq, Repr

/-- The command that a character stands for. -/
def Command.ofChar? : Char → Option Command
  | '+' => some (.binary .add)
  | '-' => some (.binary .sub)
  | '*' => some (.binary .mul)
  | '/' => some (.binary .div)
  | '^' => some (.binary .pow)
  | 'v' => some (.unary .sqrt)
  | '=' => some .printTop
  | 'p' => some .printTop
  | 'b' => some .dump
  | 's' => some .printSize
  | 'd' => some .duplicate
  | 'c' => some .clear
  | 'q' => some .quit
  | 'k' => some .setPrecision
  | '_' => some .negate
  | _ => none

@[simp] theorem Command.ofChar?_binary_symbol (op : BinaryOperator) :
    ofChar? op.symbol = some (.binary op) := by
  cases op <;> rfl

@[simp] theorem Command.ofChar?_unary_symbol (op : UnaryOperator) :
    ofChar? op.symbol = some (.unary op) := by
  cases op; rfl

end DeskCalc
