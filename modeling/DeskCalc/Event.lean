import DeskCalc.Fault

/-!
# Events

What a session reports, in order. Printed values, sizes and diagnostics are
lines of output; the other events tell of a change of state and show nothing.
-/

namespace DeskCalc

inductive Event where
  | value (text : String)
  | size (n : Nat)
  | fault (cause : Fault)
  | precision (digits : Nat)
  | cleared (released : Nat)
  | quit
  deriving DecidableEq, Repr

namespace Event

/-- The line of output of an event that shows. -/
def line? : Event → Option String
  | value text => some text
  | size n => some (toString n)
  | fault cause => some cause.diagnostic
  | precision _ => none
  | cleared _ => none
  | quit => none

/-- The lines of output of events in order. -/
def lines (events : List Event) : List String := events.filterMap line?

@[simp] theorem lines_append (a b : List Event) : lines (a ++ b) = lines a ++ lines b :=
  List.filterMap_append

end Event

end DeskCalc
