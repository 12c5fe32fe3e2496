/-!
# Rounding a quotient of naturals

A quotient that is not whole is taken to one of its two whole neighbours. The
three modes are symmetric in sign, so a signed quotient is rounded by its
magnitude.
-/

namespace DeskCalc

/-- Which whole neighbour stands for a quotient. -/
inductive Rounding where
  /-- The neighbour nearer to zero. -/
  | down
  /-- The nearest neighbour, and the one away from zero when both are as near. -/
  | halfUp
  /-- The nearest neighbour, and the even one when both are as near. -/
  | halfEven
  deriving DecidableEq, Repr

namespace Rounding

/-- Whether the quotient `q` with remainder `r` over `d` is raised to `q + 1`. -/
def raises (mode : Rounding) (q r d : Nat) : Bool :=
  match mode with
  | down => false
  | halfUp => decide (d ≤ 2 * r)
  | halfEven => decide (d < 2 * r) || (decide (d = 2 * r) && decide (q % 2 = 1))

/-- The quotient `n / d` as a natural; the divisor is positive wherever this is used. -/
def quotient (mode : Rounding) (n d : Nat) : Nat :=
  if mode.raises (n / d) (n % d) d then n / d + 1 else n / d

/-- The quotient `n / d` of a signed dividend. -/
def signedQuotient (mode : Rounding) (n : Int) (d : Nat) : Int :=
  if n < 0 then -(mode.quotient n.natAbs d : Int) else mode.quotient n.natAbs d

@[simp] theorem down_quotient (n d : Nat) : down.quotient n d = n / d := rfl

theorem quotient_le (mode : Rounding) (n d : Nat) :
    mode.quotient n d ≤ n / d + 1 := by
  unfold quotient
  split <;> omega

theorem le_quotient (mode : Rounding) (n d : Nat) :
    n / d ≤ mode.quotient n d := by
  unfold quotient
  split <;> omega

/-- A whole quotient is kept by every mode. -/
@[simp] theorem quotient_mul_right (mode : Rounding) (q : Nat) {d : Nat} (h : 0 < d) :
    mode.quotient (q * d) d = q := by
  have hr : q * d % d = 0 := Nat.mul_mod_left q d
  have hq : q * d / d = q := Nat.mul_div_cancel q h
  cases mode <;> simp [quotient, raises, hr, hq] <;> omega

@[simp] theorem quotient_one (mode : Rounding) (n : Nat) : mode.quotient n 1 = n := by
  have hwhole := mode.quotient_mul_right n Nat.one_pos
  rwa [Nat.mul_one] at hwhole

end Rounding

end DeskCalc
