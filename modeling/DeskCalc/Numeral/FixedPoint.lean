import DeskCalc.Numeral.Digits
import DeskCalc.Numeral.Powers

/-!
# Fixed-point text

A number is shown as an optional minus sign, its whole part without leading
zeros and, unless it has no places, a point followed by its places.
-/

namespace DeskCalc

/-- The text of `n / 10 ^ places` with the given sign; zero is shown without a sign. -/
def fixedPoint (negative : Bool) (n places : Nat) : String :=
  let sign := if negative && n != 0 then ['-'] else []
  let whole := Digits.ofNat (n / tenPow places)
  let fraction :=
    if places = 0 then [] else '.' :: Digits.padded places (n % tenPow places)
  String.ofList (sign ++ whole ++ fraction)

end DeskCalc
