import DeskCalc.Print

/-!
# Lines that break off

A line breaks off at the first value that the formatter has no room for, and at the first
root whose steps do not come to an end. Nothing of such a line is handed on.
-/

namespace DeskCalc

/-- Why a line breaks off. -/
inductive Crash where
  /-- The formatter has no room for a value. -/
  | formatter
  /-- The steps toward a root do not come to an end. -/
  | root
  deriving DecidableEq, Repr

variable {α : Type} [Operand α]

/-- Why a token breaks its line off, if it does. -/
def LineState.crash? (s : LineState α) (t : Token) : Option Crash :=
  if !(s.printed t).all Print.canShow then some .formatter
  else if !(s.rooted t).all Operand.canRoot then some .root
  else none

namespace Machine

/-- Why a line breaks off, if it does. -/
def crash? (m : Machine α) (line : List Char) : Option Crash :=
  (m.collect (fun s t => (s.crash? t).toList) line).head?

/-- What `evaluate` gives, unless the line breaks off. -/
def execute (m : Machine α) (line : List Char) : Except Crash (Machine α × List Event) :=
  match m.crash? line with
  | some cause => .error cause
  | none => .ok (m.evaluate line)

/-- Several lines one after another, up to the first that breaks off. -/
def executeAll (m : Machine α) : List (List Char) → Except Crash (Machine α × List Event)
  | [] => .ok (m, [])
  | line :: rest => do
    let (next, events) ← m.execute line
    let (last, more) ← next.executeAll rest
    return (last, events ++ more)

end Machine

end DeskCalc
