import DeskCalc.Arithmetic
import DeskCalc.Event
import DeskCalc.Token

/-!
# The calculator

A calculator carries out the tokens of a line one after another. A token that
fails is reported, and the next one is carried out. The commands `k` and `_`
wait for a literal of the same line; what still waits at its end is dropped.
-/

namespace DeskCalc

/-- The state that lasts from line to line. -/
structure Machine (α : Type) where
  stack : Stack α := {}
  /-- The number of fractional digits in force. -/
  precision : Nat
  /-- The largest precision that a literal may set. -/
  maxPrecision : Nat
  policy : FailurePolicy := .pushZero
  running : Bool := true

/-- What waits for a literal. -/
structure Pending where
  negate : Bool := false
  precision : Bool := false
  deriving DecidableEq, Repr

/-- The state within a line. -/
structure LineState (α : Type) where
  machine : Machine α
  pending : Pending := {}

namespace Machine

variable {α : Type} [Operand α]

/-- A command that waits for no literal. -/
def perform (m : Machine α) : Command → Machine α × Except Fault (List Event)
  | .binary op =>
    let (stack, result) := m.stack.computeBinary m.policy op m.precision
    ({ m with stack }, result.map fun _ => [])
  | .unary op =>
    let (stack, result) := m.stack.computeUnary m.policy op m.precision
    ({ m with stack }, result.map fun _ => [])
  | .printTop =>
    match m.stack.peek 0 with
    | .error cause => (m, .error (.stack cause))
    | .ok a => (m, .ok [.value (Operand.toFixed a m.precision)])
  | .dump => (m, .ok (m.stack.toList.map fun a => .value (Operand.toFixed a m.precision)))
  | .printSize => (m, .ok [.size m.stack.size])
  | .duplicate =>
    match m.stack.duplicate with
    | .error cause => (m, .error (.stack cause))
    | .ok stack => ({ m with stack }, .ok [])
  | .clear =>
    match m.stack.clear with
    | .error cause => (m, .error (.stack cause))
    | .ok (released, stack) => ({ m with stack }, .ok [.cleared released])
  | .quit => ({ m with running := false }, .ok [.quit])
  | .setPrecision => (m, .ok [])
  | .negate => (m, .ok [])

/-- A literal that sets the precision. -/
def setPrecision (m : Machine α) (text : List Char) :
    Machine α × Except Fault (List Event) :=
  match Operand.ofLiteral? (α := α) text with
  | none => (m, .error .malformedLiteral)
  | some a =>
    match (Operand.toPrecision? a).filter (· ≤ m.maxPrecision) with
    | none => (m, .error .invalidPrecision)
    | some precision => ({ m with precision }, .ok [.precision precision])

/-- A literal that is an operand. -/
def pushLiteral (m : Machine α) (negate : Bool) (text : List Char) :
    Machine α × Except Fault (List Event) :=
  match Operand.ofLiteral? text with
  | none => (m, .error .malformedLiteral)
  | some a =>
    ({ m with stack := m.stack.push (if negate then Operand.neg a else a) }, .ok [])

end Machine

namespace LineState

variable {α : Type} [Operand α]

/-- A literal takes what waits for it, also if it is malformed. The precision is
served first, and then a negation goes on waiting. -/
def consume (s : LineState α) (text : List Char) : LineState α × Except Fault (List Event) :=
  if s.pending.precision then
    let (machine, result) := s.machine.setPrecision text
    ({ machine, pending := { s.pending with precision := false } }, result)
  else
    let (machine, result) := s.machine.pushLiteral s.pending.negate text
    ({ machine, pending := { s.pending with negate := false } }, result)

/-- Carry out one token: its events, or why it failed. -/
def step (s : LineState α) : Token → LineState α × Except Fault (List Event)
  | .command .setPrecision =>
    ({ s with pending := { s.pending with precision := true } }, .ok [])
  | .command .negate =>
    ({ s with pending := { s.pending with negate := true } }, .ok [])
  | .command c =>
    let (machine, result) := s.machine.perform c
    ({ s with machine }, result)
  | .literal text => s.consume text
  | .invalid c => (s, .error (.invalidCommand c))

/-- The events of a token; a failed token has its fault for an event. -/
def emitted : Except Fault (List Event) → List Event
  | .ok events => events
  | .error cause => [.fault cause]

/-- Carry out tokens from left to right. -/
def run (s : LineState α) : List Token → LineState α × List Event
  | [] => (s, [])
  | t :: ts =>
    let (next, result) := s.step t
    let (last, events) := next.run ts
    (last, emitted result ++ events)

/-- What is found in tokens from left to right, each looked at in the state that it meets. -/
def collect {β : Type} (f : LineState α → Token → List β) (s : LineState α) :
    List Token → List β
  | [] => []
  | t :: ts => f s t ++ collect f (s.step t).1 ts

@[simp] theorem run_nil (s : LineState α) : s.run [] = (s, []) := rfl

theorem run_cons (s : LineState α) (t : Token) (ts : List Token) :
    s.run (t :: ts) =
      (((s.step t).1.run ts).1, emitted (s.step t).2 ++ ((s.step t).1.run ts).2) := rfl

theorem run_append (s : LineState α) (ts us : List Token) :
    s.run (ts ++ us) =
      (((s.run ts).1.run us).1, (s.run ts).2 ++ ((s.run ts).1.run us).2) := by
  induction ts generalizing s with
  | nil => simp
  | cons t ts ih => simp [run_cons, ih]

end LineState

namespace Machine

variable {α : Type} [Operand α]

/-- The state after a line and the events of the line, if nothing breaks the line off. -/
def evaluate (m : Machine α) (line : List Char) : Machine α × List Event :=
  let (last, events) := LineState.run { machine := m } (Token.ofLine line)
  (last.machine, events)

/-- What is found in the tokens of a line, each looked at in the state that it meets. -/
def collect {β : Type} (f : LineState α → Token → List β) (m : Machine α) (line : List Char) :
    List β :=
  LineState.collect f { machine := m } (Token.ofLine line)

/-- The state after several lines and their events. -/
def evaluateAll (m : Machine α) : List (List Char) → Machine α × List Event
  | [] => (m, [])
  | line :: rest =>
    let (next, events) := m.evaluate line
    let (last, more) := next.evaluateAll rest
    (last, events ++ more)

/-- What is found in the tokens of several lines, each looked at in the state that it meets. -/
def collectAll {β : Type} (f : LineState α → Token → List β) (m : Machine α) :
    List (List Char) → List β
  | [] => []
  | line :: rest => m.collect f line ++ collectAll f (m.evaluate line).1 rest

omit [Operand α] in
/-- Drop the operands at the end of a session. An empty stack is not reported. -/
def close (m : Machine α) : Machine α × List Event :=
  match m.stack.clear with
  | .error _ => (m, [])
  | .ok (released, stack) => ({ m with stack }, [.cleared released])

/-- The operands from top to bottom at the precision in force. -/
def snapshot (m : Machine α) : List String :=
  m.stack.toList.map fun a => Operand.toFixed a m.precision

end Machine

end DeskCalc
