import DeskCalc.Execution
import DeskCalc.Handler

/-!
# Sessions

A session reads lines of bytes until they end or the calculator stops, and then
drops the operands. A line that is not UTF-8 or that breaks off ends the session at once.
Events are handed on line by line, so a line that breaks off leaves none.
-/

namespace DeskCalc

/-- Why input could not be read on. -/
inductive InputError where
  | notUtf8
  deriving DecidableEq, Repr

def InputError.message : InputError → String
  | notUtf8 => "stream did not contain valid UTF-8"

namespace Line

def newline : UInt8 := 10

def carriageReturn : UInt8 := 13

/-- Reversed bytes without the carriage return at their end. -/
def dropReturn : List UInt8 → List UInt8
  | b :: rest => if b = carriageReturn then rest else b :: rest
  | [] => []

/-- The lines of `bytes` when `pending` holds, in reverse, what was read of the first. -/
def splitFrom (pending : List UInt8) : List UInt8 → List (List UInt8)
  | [] => if pending.isEmpty then [] else [pending.reverse]
  | b :: rest =>
    if b = newline then (dropReturn pending).reverse :: splitFrom [] rest
    else splitFrom (b :: pending) rest

/-- The lines of a stream. A newline ends a line and takes one carriage return before it
along; the last line may lack its newline. -/
def split (bytes : List UInt8) : List (List UInt8) := splitFrom [] bytes

/-- The characters of a line, if it is UTF-8. -/
def decode? (bytes : List UInt8) : Option (List Char) :=
  (ByteArray.utf8Decode? bytes.toByteArray).map Array.toList

end Line

namespace Session

/-- How far a session came: the lines carried out, and the operands dropped at its end. -/
structure Summary where
  lines : Nat
  released : Nat
  deriving DecidableEq, Repr

/-- How a session comes to its end. -/
inductive Ending where
  | done (summary : Summary)
  | unreadable (cause : InputError)
  | crashed (cause : Crash)
  deriving DecidableEq, Repr

/-- What a session leaves behind: the calculator, its handler and how it ended. -/
structure Handled (α σ : Type) where
  machine : Machine α
  state : σ
  ending : Ending

variable {α σ : Type}

/-- Drop the operands after `count` lines. -/
def finishWith (h : Handler σ) (state : σ) (m : Machine α) (count : Nat) : Handled α σ :=
  let (machine, events) := m.close
  { machine
    state := events.foldl h.takeOne state
    ending := .done { lines := count, released := m.stack.size } }

variable [Operand α]

/-- Carry out lines, after `count` others, until they end, one cannot be read or breaks off
or the calculator stops. -/
def runLinesWith (h : Handler σ) (state : σ) (m : Machine α) (count : Nat) :
    List (List UInt8) → Handled α σ
  | [] => finishWith h state m count
  | line :: rest =>
    match Line.decode? line with
    | none => { machine := m, state, ending := .unreadable .notUtf8 }
    | some text =>
      match m.execute text with
      | .error cause => { machine := m, state, ending := .crashed cause }
      | .ok (next, events) =>
        let handed := h.takeAll state events
        if next.running then runLinesWith h handed next (count + 1) rest
        else finishWith h handed next (count + 1)

/-- Carry out a stream of bytes. -/
def runWith (h : Handler σ) (state : σ) (m : Machine α) (input : List UInt8) : Handled α σ :=
  runLinesWith h state m 0 (Line.split input)

/-- Carry out a stream of bytes and record the events. -/
def run (m : Machine α) (input : List UInt8) : Handled α (List Event) :=
  runWith .recording [] m input

end Session

end DeskCalc
