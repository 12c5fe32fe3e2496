import DeskCalc.Config
import DeskCalc.Decimal96
import DeskCalc.Double
import DeskCalc.LongDecimal
import DeskCalc.Machine

/-!
# Calculators by configuration

Every backend is a number type, so a configuration names the type of the
calculator that it starts.
-/

namespace DeskCalc

/-- The number type of a backend. -/
def Backend.Value : Backend → Type
  | float => Float
  | decimal => Decimal96
  | bigDecimal => LongDecimal

instance (b : Backend) : Operand b.Value :=
  match b with
  | .float => inferInstanceAs (Operand Float)
  | .decimal => inferInstanceAs (Operand Decimal96)
  | .bigDecimal => inferInstanceAs (Operand LongDecimal)

namespace Config

/-- The calculator of a configuration, whether it passes the check or not. -/
def machine (c : Config) : Machine c.backend.Value where
  precision := c.precision
  maxPrecision := c.maxPrecision
  policy := c.policy

/-- The calculator of a configuration that passes the check. -/
def start (build : Build) (c : Config) : Except ConfigError (Machine c.backend.Value) :=
  (c.check build).map fun _ => c.machine

theorem start_eq_ok {build : Build} {c : Config} {m : Machine c.backend.Value} :
    c.start build = .ok m ↔ c.check build = .ok () ∧ c.machine = m := by
  unfold start
  cases c.check build with
  | error e => exact ⟨nofun, nofun⟩
  | ok _ => exact ⟨fun h => ⟨rfl, Except.ok.inj h⟩, fun h => congrArg Except.ok h.2⟩

theorem stack_of_start {build : Build} {c : Config} {m : Machine c.backend.Value}
    (h : c.start build = .ok m) : m.stack = .empty := by
  obtain ⟨-, rfl⟩ := start_eq_ok.mp h
  rfl

theorem running_of_start {build : Build} {c : Config} {m : Machine c.backend.Value}
    (h : c.start build = .ok m) : m.running = true := by
  obtain ⟨-, rfl⟩ := start_eq_ok.mp h
  rfl

/-- A calculator starts with a precision that a literal may set. -/
theorem precision_le_of_start {build : Build} {c : Config} {m : Machine c.backend.Value}
    (h : c.start build = .ok m) : m.precision ≤ m.maxPrecision := by
  obtain ⟨hcheck, rfl⟩ := start_eq_ok.mp h
  exact precision_le_of_check hcheck

end Config

end DeskCalc
