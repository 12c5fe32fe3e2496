import DeskCalc.Calculator
import DeskCalc.Config.Reading
import DeskCalc.Session

/-!
# The command line

Options choose the configuration, and the standard input is a session. What the
program prints is settled here; reading files and writing streams are left to
its outermost layer.
-/

namespace DeskCalc.CommandLine

/-- The options that were given. -/
structure Options where
  backend : Option Backend := none
  precision : Option Nat := none
  maxPrecision : Option Nat := none
  discardOnError : Bool := false
  configPath : Option String := none
  deriving DecidableEq, Repr

/-- The options by name. -/
inductive OptionName where
  | backend
  | precision
  | maxPrecision
  | discardOnError
  | config
  deriving DecidableEq, Repr

namespace OptionName

/-- The option with a name behind two hyphens. -/
def ofLong? : String → Option OptionName
  | "backend" => some backend
  | "precision" => some precision
  | "max-precision" => some maxPrecision
  | "discard-on-error" => some discardOnError
  | "config" => some config
  | _ => none

/-- The option with a letter behind one hyphen. -/
def ofShort? : Char → Option OptionName
  | 'b' => some backend
  | 'p' => some precision
  | _ => none

end OptionName

/-- A number of digits. It is read as an integer with a sign, and checked then. -/
def precision? (text : List Char) : Option Nat :=
  ((Spelling.toWord? text).filter fun (n : Int) => 0 ≤ n ∧ n < precisionBound).map Int.toNat

namespace Options

/-- Give an option its value. No option may be given twice. -/
def put? (o : Options) (name : OptionName) (value : List Char) : Option Options :=
  match name with
  | .backend =>
    if o.backend.isSome then none
    else (Backend.ofName? (String.ofList value)).map fun b => { o with backend := some b }
  | .precision =>
    if o.precision.isSome then none
    else (precision? value).map fun n => { o with precision := some n }
  | .maxPrecision =>
    if o.maxPrecision.isSome then none
    else (precision? value).map fun n => { o with maxPrecision := some n }
  | .config =>
    if o.configPath.isSome || value.isEmpty then none
    else some { o with configPath := some (String.ofList value) }
  | .discardOnError => none

/-- Set the one option that has no value. -/
def discard? (o : Options) : Option Options :=
  if o.discardOnError then none else some { o with discardOnError := true }

/-- Whether a word can be the value of the option in front of it: other words that start
with a hyphen are options. -/
def canBeValue : List Char → Bool
  | ['-'] => true
  | '-' :: _ => false
  | _ => true

/-- An option as it stands in a word: its name and the value in the same word. -/
def split? : List Char → Option (OptionName × Option (List Char))
  | '-' :: '-' :: long =>
    let (name, value) := Spelling.cutAt (· == '=') long
    (OptionName.ofLong? (String.ofList name)).map fun n => (n, value)
  | '-' :: short :: value =>
    (OptionName.ofShort? short).map fun n =>
      match value with
      | [] => (n, none)
      | '=' :: rest => (n, some rest)
      | rest => (n, some rest)
  | _ => none

/-- The options that words give, after those in `o`. A word `--` ends the options, and
nothing may follow it. -/
def addWords? (o : Options) : List (List Char) → Option Options
  | [] => some o
  | ['-', '-'] :: rest => if rest.isEmpty then some o else none
  | word :: rest =>
    match split? word with
    | none => none
    | some (.discardOnError, none) => o.discard?.bind fun next => next.addWords? rest
    | some (name, some value) => (o.put? name value).bind fun next => next.addWords? rest
    | some (name, none) =>
      match rest with
      | [] => none
      | value :: others =>
        if canBeValue value then
          (o.put? name value).bind fun next => next.addWords? others
        else none

/-- The options of a command line; none if it cannot be understood. -/
def parse? (words : List String) : Option Options :=
  addWords? {} (words.map String.toList)

/-- A configuration with the given options in place of its own values. -/
def apply (o : Options) (c : Config) : Config where
  backend := o.backend.getD c.backend
  precision := o.precision.getD c.precision
  maxPrecision := o.maxPrecision.getD c.maxPrecision
  policy := if o.discardOnError then .discard else c.policy

end Options

/-- Why a run ends without success. -/
inductive Failure where
  /-- The command line cannot be understood. -/
  | usage
  | filesUnsupported
  | fileUnreadable (path reason : String)
  | fileMalformed
  | config (cause : ConfigError)
  | input (cause : InputError)
  | crash (cause : Crash)
  deriving DecidableEq, Repr

namespace Failure

def message : Failure → String
  | usage => "cannot understand the command line"
  | filesUnsupported => "configuration files require the `serde` feature"
  | fileUnreadable path reason => s!"cannot read {path}: {reason}"
  | fileMalformed => "Invalid configuration"
  | config cause => cause.message
  | input cause => cause.message
  | crash .formatter => "no room for a number"
  | crash .root => "no root of a number"

/-- The line that reports a failure. -/
def report (f : Failure) : String := "cdc: " ++ f.message

def exitCode : Failure → Nat
  | usage => 2
  | crash _ => 101
  | _ => 1

end Failure

/-- The bytes that a run writes and how it ends. -/
structure Outcome where
  output : List UInt8 := []
  failure : Option Failure := none
  deriving DecidableEq, Repr

def Outcome.exitCode (o : Outcome) : Nat :=
  match o.failure with
  | none => 0
  | some f => f.exitCode

/-- The configuration file that the options name, or the standard configuration. -/
def baseConfig (build : Build) (read : String → Except String String) (o : Options) :
    Except Failure Config :=
  match o.configPath, build with
  | none, _ => .ok .standard
  | some _, .minimal => .error .filesUnsupported
  | some path, .full =>
    match read path with
    | .error reason => .error (.fileUnreadable path reason)
    | .ok text =>
      match Config.parse? text with
      | none => .error .fileMalformed
      | some c => .ok c

/-- The configuration to start with, if the command line, the file and the configuration
itself pass. -/
def configure (build : Build) (read : String → Except String String)
    (words : List String) : Except Failure Config :=
  match Options.parse? words with
  | none => .error .usage
  | some o =>
    match baseConfig build read o with
    | .error f => .error f
    | .ok base =>
      match (o.apply base).check build with
      | .error cause => .error (.config cause)
      | .ok () => .ok (o.apply base)

/-- A session with a configuration: what it writes, and why it failed if it did. -/
def session (c : Config) (input : List UInt8) : Outcome :=
  let handled := Session.runWith Handler.writing {} c.machine input
  { output := handled.state.written
    failure := match handled.ending with
      | .done _ => none
      | .unreadable cause => some (.input cause)
      | .crashed cause => some (.crash cause) }

/-- The run of the program on a command line and an input. -/
def run (build : Build) (read : String → Except String String) (words : List String)
    (input : List UInt8) : Outcome :=
  match configure build read words with
  | .error f => { failure := some f }
  | .ok c => session c input

end DeskCalc.CommandLine
