import DeskCalc.Machine

/-!
# Prints and roots

The values that a line shows, each with the number of places in force, and those that it
takes the square root of. These are the calls that a number type may break off.
-/

namespace DeskCalc

/-- A value that is shown with a number of places. -/
structure Print (α : Type) where
  value : α
  places : Nat
  deriving DecidableEq, Repr

variable {α : Type}

/-- What a command shows. -/
def Machine.printed (m : Machine α) : Command → List (Print α)
  | .printTop => (m.stack.toList.take 1).map fun value => { value, places := m.precision }
  | .dump => m.stack.toList.map fun value => { value, places := m.precision }
  | _ => []

namespace LineState

/-- What a token shows. -/
def printed (s : LineState α) : Token → List (Print α)
  | .command c => s.machine.printed c
  | .literal _ => []
  | .invalid _ => []

/-- What a token takes the root of. -/
def rooted (s : LineState α) : Token → List α
  | .command (.unary .sqrt) => s.machine.stack.toList.take 1
  | _ => []

end LineState

variable [Operand α]

namespace Print

def text (p : Print α) : String := Operand.toFixed p.value p.places

/-- Whether the formatter has room for a print. -/
def canShow (p : Print α) : Bool := Operand.canShow p.value p.places

end Print

namespace Machine

/-- What a line shows. -/
def prints (m : Machine α) (line : List Char) : List (Print α) :=
  m.collect LineState.printed line

/-- What several lines show. -/
def printsAll (m : Machine α) (lines : List (List Char)) : List (Print α) :=
  m.collectAll LineState.printed lines

/-- What several lines take the root of. -/
def rootsAll (m : Machine α) (lines : List (List Char)) : List α :=
  m.collectAll LineState.rooted lines

end Machine

end DeskCalc
