import DeskCalc.Arithmetic
import DeskCalc.Backend

/-!
# Configurations

What a session is started with. Any four values make a configuration; a session
is only started with one that passes its check.
-/

namespace DeskCalc

structure Config where
  backend : Backend := .float
  /-- The number of fractional digits at the start. -/
  precision : Nat := 4
  /-- The largest precision that a literal may set. -/
  maxPrecision : Nat := 1000
  policy : FailurePolicy := .pushZero
  deriving DecidableEq, Repr

/-- Why a configuration is refused. -/
inductive ConfigError where
  | maximumIsZero
  | precisionAboveMaximum (precision maximum : Nat)
  | backendMissing (backend : Backend)
  deriving DecidableEq, Repr

def ConfigError.message : ConfigError → String
  | maximumIsZero => "Maximum precision must be positive"
  | precisionAboveMaximum precision maximum =>
    s!"Precision {precision} exceeds maximum precision {maximum}"
  | backendMissing backend =>
    s!"Numeric backend '{backend.name}' is not compiled into this build"

namespace Config

/-- Binary floating point with four places, as a desk calculator starts without options. -/
def standard : Config := {}

/-- Exact decimals of 96 bits. -/
def exact : Config := { backend := .decimal }

/-- Decimals of any length with twenty places. -/
def long : Config := { backend := .bigDecimal, precision := 20 }

/-- The first objection to a configuration, if there is one. -/
def check (build : Build) (c : Config) : Except ConfigError Unit :=
  if c.maxPrecision = 0 then .error .maximumIsZero
  else if c.maxPrecision < c.precision then
    .error (.precisionAboveMaximum c.precision c.maxPrecision)
  else if !c.backend.isAvailable build then .error (.backendMissing c.backend)
  else .ok ()

theorem precision_le_of_check {build : Build} {c : Config} (h : c.check build = .ok ()) :
    c.precision ≤ c.maxPrecision := by
  unfold check at h
  split at h
  · cases h
  · split at h
    · cases h
    · next hle => exact Nat.not_lt.mp hle

end Config

end DeskCalc
