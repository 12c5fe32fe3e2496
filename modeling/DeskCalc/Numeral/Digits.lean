import DeskCalc.Numeral.Powers

/-!
# Decimal digits of naturals

Digit texts are lists of characters, most significant digit first. A natural is
written by halving its width, so that long numbers take few divisions; reading
goes from left to right.
-/

namespace DeskCalc.Digits

/-- The number that a digit character stands for. -/
def value (c : Char) : Nat := c.toNat - '0'.toNat

/-- The number that a text of digits denotes; the empty text denotes zero. -/
def toNat (digits : List Char) : Nat :=
  digits.foldl (fun n c => 10 * n + value c) 0

@[simp] theorem toNat_nil : toNat [] = 0 := rfl

theorem toNat_concat (digits : List Char) (c : Char) :
    toNat (digits ++ [c]) = 10 * toNat digits + value c := by
  simp [toNat]

/-- Whether a text consists of digits alone. -/
def areDigits (text : List Char) : Bool := text.all Char.isDigit

/-- The number of digits of `n`, of which zero has one. The binary length gives a
lower bound of it, and only the digits above that bound are counted. -/
def count (n : Nat) : Nat :=
  let known := n.log2 * 59 / 196
  known + (Nat.toDigits 10 (n / tenPow known)).length

/-- The last `2 ^ k` digits of `n`, leading zeros included. -/
def block : (k n : Nat) → List Char
  | 0, n => [Nat.digitChar (n % 10)]
  | k + 1, n => block k (n / tenPow (twoPow k)) ++ block k (n % tenPow (twoPow k))

@[simp] theorem length_block (k n : Nat) : (block k n).length = twoPow k := by
  induction k generalizing n with
  | zero => rfl
  | succ k ih =>
      rw [block, List.length_append, ih, ih, twoPow_succ]
      omega

/-- The last `width` digits of `n`, leading zeros included. -/
def padded (width n : Nat) : List Char :=
  let k := width.log2 + 1
  (block k n).drop (twoPow k - width)

theorem length_padded (width n : Nat) : (padded width n).length = width := by
  have hlt := lt_twoPow_log2_succ width
  rw [padded, List.length_drop, length_block]
  omega

/-- The digits of `n` without leading zeros, and `0` for zero. -/
def ofNat (n : Nat) : List Char := padded (count n) n

/-- The number `n` without the zeros at its end, and how many there were, at most `limit`. -/
def dropZeros : (limit n : Nat) → Nat × Nat
  | 0, n => (n, 0)
  | limit + 1, n =>
    if n % 10 = 0 then
      let (m, k) := dropZeros limit (n / 10)
      (m, k + 1)
    else (n, 0)

theorem dropZeros_succ_of_dvd {n : Nat} (h : n % 10 = 0) (limit : Nat) :
    dropZeros (limit + 1) n =
      ((dropZeros limit (n / 10)).1, (dropZeros limit (n / 10)).2 + 1) := by
  rw [dropZeros, if_pos h]

theorem dropZeros_succ_of_not_dvd {n : Nat} (h : ¬ n % 10 = 0) (limit : Nat) :
    dropZeros (limit + 1) n = (n, 0) := by
  rw [dropZeros, if_neg h]

/-- Putting the zeros back gives the number again. -/
theorem dropZeros_mul (limit n : Nat) :
    (dropZeros limit n).1 * tenPow (dropZeros limit n).2 = n := by
  induction limit generalizing n with
  | zero => exact Nat.mul_one n
  | succ limit ih =>
      by_cases h : n % 10 = 0
      · rw [dropZeros_succ_of_dvd h, tenPow_succ, ← Nat.mul_assoc, ih]
        exact Nat.div_mul_cancel (Nat.dvd_of_mod_eq_zero h)
      · rw [dropZeros_succ_of_not_dvd h]
        exact Nat.mul_one n

theorem dropZeros_fst_le (limit n : Nat) : (dropZeros limit n).1 ≤ n := by
  have hpos := tenPow_pos (dropZeros limit n).2
  have hle := Nat.le_mul_of_pos_right (dropZeros limit n).1 hpos
  rw [dropZeros_mul] at hle
  exact hle

/-- The number `n` without the zeros at its end, of which it has fewer than `2 ^ k`, and
how many there were. They are dropped in blocks, the largest first. -/
def stripZeros : (k n : Nat) → Nat × Nat
  | 0, n => (n, 0)
  | k + 1, n =>
    if n % tenPow (twoPow k) = 0 then
      let (m, zeros) := stripZeros k (n / tenPow (twoPow k))
      (m, zeros + twoPow k)
    else stripZeros k n

/-- Putting the zeros back gives the number again. -/
theorem stripZeros_mul (k n : Nat) :
    (stripZeros k n).1 * tenPow (stripZeros k n).2 = n := by
  induction k generalizing n with
  | zero => exact Nat.mul_one n
  | succ k ih =>
      by_cases h : n % tenPow (twoPow k) = 0
      · have hstep : stripZeros (k + 1) n =
            ((stripZeros k (n / tenPow (twoPow k))).1,
              (stripZeros k (n / tenPow (twoPow k))).2 + twoPow k) := by
          rw [stripZeros, if_pos h]
        rw [hstep, tenPow_add, ← Nat.mul_assoc, ih]
        exact Nat.div_mul_cancel (Nat.dvd_of_mod_eq_zero h)
      · rw [stripZeros, if_neg h]
        exact ih n

end DeskCalc.Digits
