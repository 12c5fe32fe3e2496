import DeskCalc.Calculator

/-!
# A demonstration

The same two lines are carried out with each of the preset configurations. The
second line fails twice, and the calculator goes on.
-/

namespace DeskCalc.Demo

def firstLine : String := "0.1 0.2 + p 2 v p 1 3 / p"

def secondLine : String := "5 0 / x p"

def presets : List Config := [.standard, .exact, .long]

/-- Texts in double quotes between brackets; the texts here need no escapes. -/
def listing (texts : List String) : String :=
  "[" ++ String.intercalate ", " (texts.map fun t => "\"" ++ t ++ "\"") ++ "]"

/-- The report on one configuration, and how many of its lines the calculator printed. -/
def reportOn (build : Build) (c : Config) : List String × Nat :=
  match c.start build with
  | .error cause => (["skipping: " ++ cause.message], 0)
  | .ok m =>
    let (afterFirst, events) := m.evaluate firstLine.toList
    let (afterSecond, more) := afterFirst.evaluate secondLine.toList
    let printed := Event.lines (events ++ more)
    let report :=
      ["Backend: " ++ c.backend.name] ++ printed.map ("  " ++ ·) ++
        ["  stack: " ++ listing afterSecond.snapshot,
          s!"  released at shutdown: {afterSecond.stack.size}", ""]
    (report, printed.length)

/-- The lines of the demonstration. -/
def report (build : Build) : List String :=
  let parts := presets.map (reportOn build)
  let total := parts.foldl (fun n part => n + part.2) 0
  ["=== cdc Example ===", ""] ++ parts.flatMap Prod.fst ++ [s!"Total output lines: {total}"]

end DeskCalc.Demo
