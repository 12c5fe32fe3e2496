import DeskCalc.Event

/-!
# Output sinks

A sink takes bytes up to its capacity and refuses the rest. Lines are written to
it with a newline each, either one by one or as a batch that ends at the first
line that was not taken whole. The newline is a write of its own.
-/

namespace DeskCalc

structure Sink where
  /-- How many bytes the sink takes in all; a sink without a bound takes every byte. -/
  capacity : Option Nat := none
  /-- The bytes taken so far. -/
  written : List UInt8 := []

namespace Sink

/-- The bytes of a line and its newline. -/
def lineBytes (line : String) : List UInt8 := (line ++ "\n").toUTF8.toList

/-- The part of `bytes` that there is room for. -/
def accepted (s : Sink) (bytes : List UInt8) : List UInt8 :=
  match s.capacity with
  | none => bytes
  | some n => bytes.take (n - s.written.length)

/-- Write bytes, and tell whether all were taken. -/
def write (s : Sink) (bytes : List UInt8) : Sink × Bool :=
  let taken := s.accepted bytes
  ({ s with written := s.written ++ taken }, taken.length == bytes.length)

/-- Write a line and, once it was taken whole, its newline. -/
def writeLine (s : Sink) (line : String) : Sink × Bool :=
  let (next, whole) := s.write line.toUTF8.toList
  if whole then next.write "\n".toUTF8.toList else (next, false)

/-- Write the line of an event, if it shows. -/
def writeEvent (s : Sink) (event : Event) : Sink :=
  match event.line? with
  | none => s
  | some line => (s.writeLine line).1

/-- Write lines until one is not taken whole. -/
def writeLines (s : Sink) : List String → Sink
  | [] => s
  | line :: rest =>
    let (next, whole) := s.writeLine line
    if whole then next.writeLines rest else next

/-- Write the lines of events as one batch. -/
def writeBatch (s : Sink) (events : List Event) : Sink :=
  s.writeLines (Event.lines events)

/-- Write the lines of events one by one. -/
def writeEach (s : Sink) (events : List Event) : Sink :=
  events.foldl writeEvent s

end Sink

end DeskCalc
