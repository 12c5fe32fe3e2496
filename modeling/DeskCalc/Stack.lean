import DeskCalc.Fault

/-!
# The operand stack

A stack is the list of its operands from top to bottom. Operations that cannot
be carried out give a cause and leave the stack as it is.
-/

namespace DeskCalc

/-- Operands, the top first. -/
structure Stack (α : Type) where
  toList : List α := []

namespace Stack

variable {α : Type}

def empty : Stack α := {}

def size (s : Stack α) : Nat := s.toList.length

def isEmpty (s : Stack α) : Bool := s.toList.isEmpty

def push (s : Stack α) (a : α) : Stack α := ⟨a :: s.toList⟩

def pop (s : Stack α) : Except StackError (α × Stack α) :=
  match s.toList with
  | [] => .error .empty
  | a :: rest => .ok (a, ⟨rest⟩)

/-- The operand at `depth` below the top. -/
def peek (s : Stack α) (depth : Nat) : Except StackError α :=
  match s.toList[depth]? with
  | some a => .ok a
  | none => .error (if s.isEmpty then .empty else .outOfRange depth s.size)

/-- Push the top once more. -/
def duplicate (s : Stack α) : Except StackError (Stack α) :=
  match s.toList with
  | [] => .error .empty
  | a :: rest => .ok ⟨a :: a :: rest⟩

/-- The empty stack and the number of operands dropped, of which there must be one. -/
def clear (s : Stack α) : Except StackError (Nat × Stack α) :=
  if s.isEmpty then .error .alreadyCleared else .ok (s.size, empty)

@[simp] theorem toList_empty : (empty : Stack α).toList = [] := rfl

@[simp] theorem toList_push (s : Stack α) (a : α) : (s.push a).toList = a :: s.toList := rfl

@[simp] theorem size_empty : (empty : Stack α).size = 0 := rfl

@[simp] theorem size_push (s : Stack α) (a : α) : (s.push a).size = s.size + 1 := rfl

@[simp] theorem pop_push (s : Stack α) (a : α) : (s.push a).pop = .ok (a, s) := rfl

@[simp] theorem peek_push_zero (s : Stack α) (a : α) : (s.push a).peek 0 = .ok a := rfl

end Stack

end DeskCalc
