import DeskCalc.Config
import DeskCalc.Json
import DeskCalc.Numeral.Digits
import DeskCalc.Operand

/-!
# Configurations as JSON

A configuration is written as an object that names its fields, in any order, or
as an array of its fields in order. What is not given has its default, and
members under other names are skipped. A field must not be given twice.
-/

namespace DeskCalc

/-- A name as a string, or as the one key of an object that holds null. -/
def Json.toName? : Json → Option String
  | .string text => text
  | .object [(key, .null)] => key
  | _ => none

/-- A number of digits: digits without sign, point or marker, below the precision bound. -/
def Json.toPrecision? : Json → Option Nat
  | .number text =>
    if Digits.areDigits text && decide (Digits.toNat text < precisionBound) then
      some (Digits.toNat text)
    else none
  | _ => none

namespace Config

/-- The fields that are given. -/
structure Fields where
  backend : Option Backend := none
  precision : Option Nat := none
  maxPrecision : Option Nat := none
  policy : Option FailurePolicy := none
  deriving DecidableEq, Repr

namespace Fields

def putBackend? (f : Fields) (v : Json) : Option Fields :=
  if f.backend.isSome then none
  else (v.toName?.bind Backend.ofName?).map fun b => { f with backend := some b }

def putPrecision? (f : Fields) (v : Json) : Option Fields :=
  if f.precision.isSome then none
  else v.toPrecision?.map fun n => { f with precision := some n }

def putMaxPrecision? (f : Fields) (v : Json) : Option Fields :=
  if f.maxPrecision.isSome then none
  else v.toPrecision?.map fun n => { f with maxPrecision := some n }

def putPolicy? (f : Fields) (v : Json) : Option Fields :=
  if f.policy.isSome then none
  else (v.toName?.bind FailurePolicy.ofName?).map fun p => { f with policy := some p }

/-- The fields with one more member of an object. -/
def putMember? (f : Fields) : Option String × Json → Option Fields
  | (some "backend", v) => f.putBackend? v
  | (some "precision", v) => f.putPrecision? v
  | (some "max_precision", v) => f.putMaxPrecision? v
  | (some "domain_error_policy", v) => f.putPolicy? v
  | (some _, _) => some f
  | (none, _) => none

def ofMembers? (members : List (Option String × Json)) : Option Fields :=
  members.foldlM putMember? {}

def ofItems? (items : List Json) : Option Fields :=
  let puts := [putBackend?, putPrecision?, putMaxPrecision?, putPolicy?]
  if puts.length < items.length then none
  else (puts.zip items).foldlM (fun f (put, v) => put f v) {}

def toConfig (f : Fields) : Config where
  backend := f.backend.getD standard.backend
  precision := f.precision.getD standard.precision
  maxPrecision := f.maxPrecision.getD standard.maxPrecision
  policy := f.policy.getD standard.policy

end Fields

/-- The configuration that a JSON value gives. -/
def ofJson? : Json → Option Config
  | .object members => (Fields.ofMembers? members).map Fields.toConfig
  | .array items => (Fields.ofItems? items).map Fields.toConfig
  | _ => none

/-- The configuration that a JSON text gives. -/
def parse? (text : String) : Option Config := (Json.parse? text.toList).bind ofJson?

end Config

end DeskCalc
