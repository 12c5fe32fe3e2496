import DeskCalc.Operand
import DeskCalc.Stack

/-!
# Arithmetic on the stack

An operator takes its operands from the stack before it computes. What it took
is gone, whether the result can be given or not.
-/

namespace DeskCalc

/-- What is left in place of a result that could not be computed. -/
inductive FailurePolicy where
  | pushZero
  | discard
  deriving DecidableEq, Repr

namespace FailurePolicy

def name : FailurePolicy → String
  | pushZero => "push-zero"
  | discard => "discard"

def ofName? : String → Option FailurePolicy
  | "push-zero" => some pushZero
  | "discard" => some discard
  | _ => none

@[simp] theorem ofName?_name (p : FailurePolicy) : ofName? p.name = some p := by
  cases p <;> rfl

end FailurePolicy

namespace Stack

variable {α : Type} [Operand α]

/-- The stack after a result, and whether the result was a failure. -/
def receive (policy : FailurePolicy) (s : Stack α) :
    Except ArithmeticError α → Stack α × Except Fault Unit
  | .ok a => (s.push a, .ok ())
  | .error cause =>
    match policy with
    | .pushZero => (s.push Operand.zero, .error (.arithmetic cause))
    | .discard => (s, .error (.arithmetic cause))

def computeUnary (policy : FailurePolicy) (op : UnaryOperator) (precision : Nat)
    (s : Stack α) : Stack α × Except Fault Unit :=
  match s.pop with
  | .error cause => (s, .error (.stack cause))
  | .ok (a, rest) => rest.receive policy (Operand.unary op precision a)

/-- The right operand lies on top of the left one. If the left one is missing, the right
one is lost. -/
def computeBinary (policy : FailurePolicy) (op : BinaryOperator) (precision : Nat)
    (s : Stack α) : Stack α × Except Fault Unit :=
  match s.pop with
  | .error cause => (s, .error (.stack cause))
  | .ok (b, rest) =>
    match rest.pop with
    | .error cause => (rest, .error (.stack cause))
    | .ok (a, below) => below.receive policy (Operand.binary op precision a b)

end Stack

end DeskCalc
