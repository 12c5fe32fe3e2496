/-!
# Powers of ten and of two

Scales count powers of ten and word sizes powers of two, always with natural
exponents.
-/

namespace DeskCalc

/-- Ten to the power `n`. -/
def tenPow (n : Nat) : Nat := Nat.pow 10 n

/-- Two to the power `n`. -/
def twoPow (n : Nat) : Nat := Nat.pow 2 n

@[simp] theorem tenPow_zero : tenPow 0 = 1 := rfl

theorem tenPow_succ (n : Nat) : tenPow (n + 1) = tenPow n * 10 := rfl

theorem tenPow_add (m n : Nat) : tenPow (m + n) = tenPow m * tenPow n := Nat.pow_add 10 m n

theorem tenPow_pos (n : Nat) : 0 < tenPow n := Nat.pow_pos (by decide)

theorem twoPow_succ (n : Nat) : twoPow (n + 1) = twoPow n * 2 := rfl

theorem lt_twoPow_log2_succ (n : Nat) : n < twoPow (n.log2 + 1) := Nat.lt_log2_self

end DeskCalc
