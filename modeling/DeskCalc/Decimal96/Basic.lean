import DeskCalc.Numeral.Digits
import DeskCalc.Numeral.Powers
import DeskCalc.Numeral.Rounding

/-!
# Decimals of ninety-six bits

A decimal is a sign, a coefficient of at most 96 bits and a scale of at most 28.
Zero has two signs. A number with too many digits is fitted by dropping as few
of them as will do, rounded half to even.
-/

namespace DeskCalc

/-- The number `± coefficient / 10 ^ scale`. -/
structure Decimal96 where
  negative : Bool
  coefficient : Nat
  scale : Nat
  coefficient_lt : coefficient < twoPow 96
  scale_le : scale ≤ 28
  deriving DecidableEq, Repr

namespace Decimal96

/-- The largest scale. -/
def maxScale : Nat := 28

/-- The decimal with the given parts, if they fit. -/
def ofParts? (negative : Bool) (n s : Nat) : Option Decimal96 :=
  if h : n < twoPow 96 ∧ s ≤ 28 then some ⟨negative, n, s, h.1, h.2⟩ else none

def zero : Decimal96 := ⟨false, 0, 0, by decide, by decide⟩

def one : Decimal96 := ⟨false, 1, 0, by decide, by decide⟩

def two : Decimal96 := ⟨false, 2, 0, by decide, by decide⟩

def isZero (x : Decimal96) : Bool := x.coefficient == 0

/-- A zero of either sign becomes the positive one of the same scale. -/
def unsignZero (x : Decimal96) : Decimal96 := { x with negative := x.negative && !x.isZero }

/-- The coefficient with its sign. -/
def signed (x : Decimal96) : Int := if x.negative then -x.coefficient else x.coefficient

/-- The coefficient at a scale that is not smaller. -/
def aligned (x : Decimal96) (scale : Nat) : Int := x.signed * tenPow (scale - x.scale)

/-- The number `± n / 10 ^ s` without the fewest last digits that leave a decimal. -/
def fit? (negative : Bool) (n s : Nat) : Option Decimal96 :=
  (List.range (s + 1)).findSome? fun k =>
    ofParts? negative (Rounding.halfEven.quotient n (tenPow k)) (s - k)

/-- Whether two decimals denote the same number. -/
def sameNumber (a b : Decimal96) : Bool :=
  let scale := max a.scale b.scale
  a.aligned scale == b.aligned scale

def neg (x : Decimal96) : Decimal96 := { x with negative := !x.negative }

/-- The number without its fraction. The sign is kept, also when zero is left. -/
def truncate (x : Decimal96) : Decimal96 :=
  ⟨x.negative, x.coefficient / tenPow x.scale, 0,
    Nat.lt_of_le_of_lt (Nat.div_le_self _ _) x.coefficient_lt, by decide⟩

/-- The number without the zeros at the end of its coefficient down to scale `floor`. -/
def dropZeros (floor : Nat) (x : Decimal96) : Decimal96 :=
  let r := Digits.dropZeros (x.scale - floor) x.coefficient
  ⟨x.negative, r.1, x.scale - r.2,
    Nat.lt_of_le_of_lt (Digits.dropZeros_fst_le _ _) x.coefficient_lt,
    Nat.le_trans (Nat.sub_le _ _) x.scale_le⟩

theorem ofParts?_eq_some {negative : Bool} {n s : Nat} {x : Decimal96}
    (h : ofParts? negative n s = some x) :
    x.negative = negative ∧ x.coefficient = n ∧ x.scale = s := by
  unfold ofParts? at h
  split at h
  · cases h; exact ⟨rfl, rfl, rfl⟩
  · cases h

@[simp] theorem neg_neg (x : Decimal96) : x.neg.neg = x := by
  simp [neg]

end Decimal96

end DeskCalc
