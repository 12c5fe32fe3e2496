import DeskCalc.LongDecimal.Basic
import DeskCalc.Numeral.Spelling

/-!
# Literals of long decimals

A literal is read exactly. It is malformed if its exponent or the number it
denotes passes the exponent limit.
-/

namespace DeskCalc.LongDecimal

/-- The integer denoted by a sign or none and digits, where underscores may separate the
digits. -/
def separatedInt? (text : List Char) : Option Int :=
  let (negative, digits) := Spelling.takeSign text
  match digits with
  | [] => none
  | first :: rest =>
    if first.isDigit && rest.all fun c => c.isDigit || c == '_' then
      let n : Int := Digits.toNat (digits.filter Char.isDigit)
      some (if negative then -n else n)
    else none

/-- The exponent behind a marker, within the exponent limit; none counts as zero. -/
def exponent? : Option (List Char) → Option Int
  | none => some 0
  | some text => (Spelling.toInt? text).filter withinLimit

/-- The decimal that a literal denotes. The sign may stand behind a leading point. -/
def ofLiteral? (text : List Char) : Option LongDecimal := do
  let (mantissa, exponent) := Spelling.cutAt Spelling.isMarker text
  let e ← exponent? exponent
  let (whole, fraction) := Spelling.cutAt Spelling.isPoint mantissa
  let places := fraction.getD []
  let coefficient ← separatedInt? (whole ++ places)
  let scale : Int := (places.filter (· != '_')).length
  let x : LongDecimal := ⟨coefficient, scale - e⟩
  if x.isBounded then some x else none

end DeskCalc.LongDecimal
