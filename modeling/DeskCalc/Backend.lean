/-!
# Number backends

The number types that a session may be asked to compute with, by name, and the
builds of the program, which differ in the backends that they hold.
-/

namespace DeskCalc

inductive Backend where
  /-- Binary floating point of double precision. -/
  | float
  /-- Decimals of 96 bits. -/
  | decimal
  /-- Decimals of any length. -/
  | bigDecimal
  deriving DecidableEq, Repr

/-- Which optional parts the program was built with. -/
inductive Build where
  | full
  /-- Neither decimals of any length nor configuration files. -/
  | minimal
  deriving DecidableEq, Repr

namespace Backend

def name : Backend → String
  | float => "float"
  | decimal => "decimal"
  | bigDecimal => "big-decimal"

def ofName? : String → Option Backend
  | "float" => some float
  | "decimal" => some decimal
  | "big-decimal" => some bigDecimal
  | _ => none

@[simp] theorem ofName?_name (b : Backend) : ofName? b.name = some b := by
  cases b <;> rfl

def isAvailable (build : Build) (b : Backend) : Bool :=
  match b, build with
  | bigDecimal, .minimal => false
  | _, _ => true

end Backend

end DeskCalc
