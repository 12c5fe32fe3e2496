import DeskCalc.Numeral.Powers

/-!
# Integer square roots

Newton steps from a power of two above the root fall until they reach the root.
-/

namespace DeskCalc

/-- Newton steps for the root of `n`, downward from `guess`. -/
def descendRoot (n guess : Nat) : Nat :=
  let next := (guess + n / guess) / 2
  if _h : next < guess then descendRoot n next else guess
termination_by guess

/-- The largest natural whose square is at most `n`. -/
def floorRoot (n : Nat) : Nat :=
  if n ≤ 1 then n else descendRoot n (twoPow (n.log2 / 2 + 1))

end DeskCalc
