import DeskCalc.Decimal96.Arithmetic

/-!
# Powers of ninety-six bits

Powers are taken by squaring, from the lowest bit of the exponent to its highest.
Exponents below 1024 multiply decimals; longer runs keep coefficients of 192 bits
and are cut to 96 bits at their end.
-/

namespace DeskCalc

/-- The product of the powers `x`, `x ^ 2`, `x ^ 4`, … that the bits select, lowest bit
first. Squaring ends with the last bit. -/
def powerByBits {α : Type} (mul? : α → α → Option α) (product power : α) :
    List Bool → Option α
  | [] => some product
  | bit :: rest => do
    let product ← if bit then mul? product power else some product
    if rest.isEmpty then some product
    else
      let square ← mul? power power
      powerByBits mul? product square rest

/-- The bits of a positive natural, lowest first. -/
def bitsOf (n : Nat) : List Bool := (List.range (n.log2 + 1)).map n.testBit

/-- The number `± coefficient / 10 ^ scale` with a coefficient of up to 192 bits. -/
structure WideDecimal where
  negative : Bool
  coefficient : Nat
  scale : Nat
  deriving DecidableEq, Repr

namespace WideDecimal

/-- What a shortening must reach. -/
structure Target where
  /-- Bits of the coefficient. -/
  bits : Nat
  maxScale : Nat

def wide : Target := ⟨192, 57⟩

def narrow : Target := ⟨96, 28⟩

def Target.fits (t : Target) (n : Nat) : Bool := decide (n < twoPow t.bits)

/-- How many digits to drop at first: an estimate from the surplus bits, or more if the
scale asks for it. -/
def surplus (t : Target) (n s : Nat) : Nat :=
  let byBits := if t.fits n then 0 else ((n.log2 + 1 - t.bits) * 77) / 256 + 1
  max byBits (s - t.maxScale)

/-- Drop `k` digits in groups of at most nine, and further ones while the coefficient does
not fit. Gives the coefficient, its scale and the last group that was dropped. -/
def dropGroups (t : Target) : (fuel n s k last : Nat) → Option (Nat × Nat × Nat)
  | 0, _, _, _, _ => none
  | fuel + 1, n, s, k, last =>
    if k = 0 then some (n, s, last)
    else
      let group := min k 9
      let q := n / tenPow group
      let left := k - group
      if t.fits q || left != 0 then
        dropGroups t fuel q (s - group) left (n % tenPow group)
      else if s - group = 0 then none
      else dropGroups t fuel q (s - group) 1 (n % tenPow group)

/-- Shorten a number to a target. The last group of dropped digits alone decides on the
rounding: it raises the coefficient if it is above one, or is one over an odd
coefficient. -/
def shorten? (t : Target) (n s : Nat) : Option (Nat × Nat) := do
  let k := surplus t n s
  if s < k then none
  let (q, scale, last) ← dropGroups t (s + 1) n s k 0
  let raised := if last != 0 && (q % 2 == 1 || last != 1) then q + 1 else q
  if t.fits raised then some (raised, scale)
  else if scale = 0 then none
  else some (raised / 10, scale - 1)

/-- Drop digits until the scale is at most 57, nine at a time, each group rounded half to
even. -/
def lowerScale : (fuel n s : Nat) → Nat × Nat
  | 0, n, s => (n, s)
  | fuel + 1, n, s =>
    if s ≤ wide.maxScale then (n, s)
    else
      let group := min 9 (s - wide.maxScale)
      lowerScale fuel (Rounding.halfEven.quotient n (tenPow group)) (s - group)

def mul? (a b : WideDecimal) : Option WideDecimal :=
  let n := a.coefficient * b.coefficient
  let s := a.scale + b.scale
  let negative := a.negative != b.negative
  if n = 0 then some ⟨false, 0, 0⟩
  else if wide.fits n then
    let (m, t) := lowerScale s n s
    some ⟨negative, m, t⟩
  else (shorten? wide n s).map fun (m, t) => ⟨negative, m, t⟩

def ofDecimal (x : Decimal96) : WideDecimal := ⟨x.negative, x.coefficient, x.scale⟩

/-- The number cut to 96 bits. -/
def toDecimal? (x : WideDecimal) : Option Decimal96 := do
  let (n, s) ←
    if narrow.fits x.coefficient && decide (x.scale ≤ narrow.maxScale) then
      some (x.coefficient, x.scale)
    else shorten? narrow x.coefficient x.scale
  (Decimal96.ofParts? x.negative n s).map Decimal96.unsignZero

end WideDecimal

namespace Decimal96

/-- The power by products of decimals, without zeros at its end. -/
def shortPower? (x : Decimal96) (n : Nat) : Option Decimal96 :=
  (powerByBits mul? one x (bitsOf n)).map fun p => (p.dropZeros 0).unsignZero

/-- The power by products of 192 bits. -/
def longPower? (x : Decimal96) (n : Nat) : Option Decimal96 :=
  (powerByBits WideDecimal.mul? ⟨false, 1, 0⟩ (.ofDecimal x) (bitsOf n)).bind
    WideDecimal.toDecimal?

/-- The power with a natural exponent. -/
def power? (x : Decimal96) (n : Nat) : Option Decimal96 :=
  if n = 0 then some one
  else if x.isZero then some zero
  else if x.sameNumber one then some one
  else if n = 1 then some x
  else if n = 2 then mul? x x
  else if n < 1024 then x.shortPower? n
  else x.longPower? n

/-- The power with the exponent truncated to an integer. An exponent that is left with a
minus sign on zero counts as too large. -/
def pow (x exponent : Decimal96) : Except ArithmeticError Decimal96 :=
  let whole := exponent.truncate
  if whole.negative then
    .error (if whole.isZero then .overflow else .negativeExponent)
  else if twoPow 64 ≤ whole.coefficient then .error .overflow
  else orOverflow (x.power? whole.coefficient)

end Decimal96

end DeskCalc
