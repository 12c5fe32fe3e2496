import DeskCalc.Proofs.Completion
import DeskCalc.Proofs.GuardedResult
import DeskCalc.Proofs.LiteralValue
import DeskCalc.Proofs.Lockstep
import DeskCalc.Proofs.Shown

/-!
# Agreement of the decimal number types

A calculator with decimals of 96 bits and one with long decimals carry out the same
lines. While every exact result fits 96 bits, no product leaves the exponent limit and the
formatter has room for every print, they keep equal numbers at every depth and report the
same events.
-/

namespace DeskCalc

/-- A binary operator with the operands that it takes from the stack. -/
structure Computation (α : Type) where
  op : BinaryOperator
  left : α
  right : α

namespace Computation

/-- The exact result for decimals of 96 bits, as a coefficient and a scale: a sum or a
difference at the larger scale, and a product at the summed scale. -/
def exactResult? (c : Computation Decimal96) : Option (Int × Nat) :=
  let s := max c.left.scale c.right.scale
  match c.op with
  | .add => some (c.left.aligned s + c.right.aligned s, s)
  | .sub => some (c.left.aligned s - c.right.aligned s, s)
  | .mul => some (c.left.signed * c.right.signed, c.left.scale + c.right.scale)
  | .div => none
  | .pow => none

/-- Whether the exact result is a decimal of 96 bits as it stands. -/
def Fits (c : Computation Decimal96) : Prop := ∀ r ∈ c.exactResult?, Decimal96.Fits r.1 r.2

/-- Whether a product of long decimals has a scale that leaves room for a digit. -/
def WithinLimit (c : Computation LongDecimal) : Prop :=
  c.op = .mul → -LongDecimal.exponentLimit < c.left.scale + c.right.scale ∧
    c.left.scale + c.right.scale ≤ LongDecimal.exponentLimit

instance : DecidablePred Fits := fun c =>
  inferInstanceAs (Decidable (∀ r ∈ c.exactResult?, Decimal96.Fits r.1 r.2))

instance : DecidablePred WithinLimit := fun _ => inferInstanceAs (Decidable (_ → _))

end Computation

section Computations

variable {α : Type} [Operand α]

/-- What a token computes, if it is a binary operator and finds two operands. -/
def LineState.computation? (s : LineState α) : Token → Option (Computation α)
  | .command (.binary op) =>
    match s.machine.stack.toList with
    | b :: a :: _ => some ⟨op, a, b⟩
    | _ => none
  | _ => none

/-- What tokens compute, in order. -/
def LineState.computations (s : LineState α) (ts : List Token) : List (Computation α) :=
  s.collect (fun s t => (s.computation? t).toList) ts

/-- What lines compute, in order. -/
def Machine.computations (m : Machine α) (lines : List (List Char)) : List (Computation α) :=
  m.collectAll (fun s t => (s.computation? t).toList) lines

/-- A calculator that has not been used. -/
def Machine.fresh (α : Type) (precision maxPrecision : Nat) (policy : FailurePolicy) :
    Machine α := { precision, maxPrecision, policy }

end Computations

/-- Whether a token asks for nothing that one of the number types rounds: it is none of the
operators that round, and a literal denotes a number that 96 bits can hold. -/
def Token.IsExact : Token → Prop
  | .command (.binary op) => op ≠ .div ∧ op ≠ .pow
  | .command (.unary op) => op ≠ .sqrt
  | .literal text => ∃ y, LongDecimal.ofLiteral? text = some y ∧
      ∃ x : Decimal96, x.value = y.value
  | _ => True

theorem Token.isExact_binary {op : BinaryOperator} (h : op ≠ .div ∧ op ≠ .pow) :
    (command (.binary op)).IsExact := h

theorem Token.isExact_literal {text : List Char} {y : LongDecimal} {x : Decimal96}
    (hy : LongDecimal.ofLiteral? text = some y) (h : x.value = y.value) :
    (literal text).IsExact := ⟨y, hy, x, h⟩

namespace Comparison

/-- Decimals of 96 bits are compared with bounded long ones by their number. -/
def number : Comparison Decimal96 LongDecimal where
  value x y := x.value = y.value ∧ y.isBounded = true
  settings := Eq
  view := some

theorem number_seen (events : List Event) : number.seen events = events :=
  List.filterMap_some

theorem number_lawful : number.Lawful := by
  constructor
  · rintro x y s s' ⟨hvalue, -⟩ rfl
    exact congrArg (some ∘ Event.value) (Decimal96.toFixed_of_value_eq hvalue s.1)
  · rintro x y ⟨hvalue, hbounded⟩
    refine ⟨?_, LongDecimal.isBounded_neg.trans hbounded⟩
    change x.neg.value = y.neg.value
    rw [Decimal96.value_neg, LongDecimal.value_neg, hvalue]

/-- Results settle if the one of 96 bits is exact and the long one is too, given that it has
a number that 96 bits can hold. -/
theorem settled_of_exact {policy : FailurePolicy} {r : Option Decimal96}
    {r' : Except ArithmeticError LongDecimal} {q : ℚ}
    (hr : ∃ x, r = some x ∧ x.value = q)
    (hr' : |q| < 10 ^ LongDecimal.exponentLimit →
      ∃ y, r' = .ok y ∧ y.value = q ∧ y.isBounded = true) :
    number.Settled policy (Decimal96.orOverflow r) r' := by
  obtain ⟨x, rfl, hx⟩ := hr
  have hsize := x.abs_value_lt_limit
  rw [hx] at hsize
  obtain ⟨y, rfl, hy, hbounded⟩ := hr' hsize
  exact ⟨hx.trans hy.symm, hbounded⟩

/-- Operators that do not round keep the numbers equal while the exact result fits. -/
theorem settled_number {op : BinaryOperator} (hop : op ≠ .div ∧ op ≠ .pow)
    {x₁ x₂ : Decimal96} {y₁ y₂ : LongDecimal} (h₁ : number.value x₁ y₁)
    (h₂ : number.value x₂ y₂) (hfits : Computation.Fits ⟨op, x₁, x₂⟩)
    (hlimit : Computation.WithinLimit ⟨op, y₁, y₂⟩) (policy : FailurePolicy) (p p' : Nat) :
    number.Settled policy (Operand.binary op p x₁ x₂) (Operand.binary op p' y₁ y₂) := by
  obtain ⟨hvalue₁, hbounded₁⟩ := h₁
  obtain ⟨hvalue₂, hbounded₂⟩ := h₂
  cases op with
  | add =>
      have hadd := Decimal96.add?_of_fits (hfits _ rfl)
      rw [hvalue₁, hvalue₂] at hadd
      exact settled_of_exact hadd (LongDecimal.add_of_isBounded hbounded₁ hbounded₂)
  | sub =>
      have hsub := Decimal96.sub?_of_fits (hfits _ rfl)
      rw [hvalue₁, hvalue₂] at hsub
      exact settled_of_exact hsub (LongDecimal.sub_of_isBounded hbounded₁ hbounded₂)
  | mul =>
      obtain ⟨hlow, hhigh⟩ := hlimit rfl
      have hmul := Decimal96.mul?_of_fits (hfits _ rfl)
      rw [hvalue₁, hvalue₂] at hmul
      exact settled_of_exact hmul
        (LongDecimal.mul_of_isBounded hbounded₁ hbounded₂ hlow hhigh)
  | div => exact absurd rfl hop.1
  | pow => exact absurd rfl hop.2

/-- A literal that is exact for both number types is read as the same number, and as the
same precision where one is asked for. -/
theorem meets_literal {m : Machine Decimal96} {m' : Machine LongDecimal}
    (h : number.Alike m m') {text : List Char} (hliteral : IsLiteral text)
    (hexact : (Token.literal text).IsExact) : number.Meets m m' (.literal text) := by
  obtain ⟨y, hy, x₀, hx₀⟩ := hexact
  obtain ⟨x, hx, hsign, hvalue⟩ := Decimal96.ofLiteral?_of_value_eq hliteral hy hx₀
  have hbounded := LongDecimal.isBounded_of_ofLiteral? hy
  change Option.Rel _ (Decimal96.ofLiteral? text) (LongDecimal.ofLiteral? text) ∧ _
  constructor
  · rw [hx, hy]
    exact .some ⟨hvalue, hbounded⟩
  · apply agree_setPrecision h rfl
    change Option.Rel _ (Decimal96.ofLiteral? text) (LongDecimal.ofLiteral? text)
    rw [hx, hy]
    exact .some (Decimal96.toPrecision?_of_value_eq hvalue hsign)

/-- Tokens of a line that both number types carry out without rounding. -/
structure ExactTokens (s : LineState Decimal96) (s' : LineState LongDecimal)
    (ts : List Token) : Prop where
  exact : ∀ t ∈ ts, t.IsExact
  literal : ∀ text, Token.literal text ∈ ts → IsLiteral text
  fits : ∀ c ∈ s.computations ts, c.Fits
  limit : ∀ c ∈ s'.computations ts, c.WithinLimit

theorem ExactTokens.meets {s : LineState Decimal96} {s' : LineState LongDecimal} {t : Token}
    {ts : List Token} (h : number.Alike s.machine s'.machine)
    (hts : ExactTokens s s' (t :: ts)) : number.Meets s.machine s'.machine t := by
  have hexact := hts.exact t List.mem_cons_self
  cases t with
  | command c =>
      cases c with
      | binary op =>
          intro x₁ x₂ below y₁ y₂ below' hx hy
          have hstack := h.stack
          rw [hx, hy] at hstack
          cases hstack with
          | cons h₂ htail =>
              cases htail with
              | cons h₁ _ =>
                  have hfits : Computation.Fits ⟨op, x₁, x₂⟩ := by
                    apply hts.fits
                    simp [LineState.computations, LineState.collect, LineState.computation?, hx]
                  have hlimit : Computation.WithinLimit ⟨op, y₁, y₂⟩ := by
                    apply hts.limit
                    simp [LineState.computations, LineState.collect, LineState.computation?, hy]
                  exact settled_number hexact h₁ h₂ hfits hlimit _ _ _
      | unary op =>
          cases op with
          | sqrt => exact absurd rfl hexact
      | _ => trivial
  | literal text => exact meets_literal h (hts.literal text List.mem_cons_self) hexact
  | invalid c => trivial

theorem ExactTokens.rest {s : LineState Decimal96} {s' : LineState LongDecimal} {t : Token}
    {ts : List Token} (hts : ExactTokens s s' (t :: ts)) :
    ExactTokens (s.step t).1 (s'.step t).1 ts where
  exact u hu := hts.exact u (List.mem_cons_of_mem _ hu)
  literal text htext := hts.literal text (List.mem_cons_of_mem _ htext)
  fits c hc := hts.fits c (List.mem_append_right _ hc)
  limit c hc := hts.limit c (List.mem_append_right _ hc)

end Comparison

namespace Machine

open Comparison

/-- Lines that both number types carry out without rounding: no token asks for more, every
exact result fits 96 bits, the scale of every long product leaves room for a digit, and the
formatter has room for every print. -/
structure ExactLines (m : Machine Decimal96) (m' : Machine LongDecimal)
    (lines : List (List Char)) : Prop where
  exact : ∀ line ∈ lines, ∀ t ∈ Token.ofLine line, t.IsExact
  fits : ∀ c ∈ m.computations lines, c.Fits
  limit : ∀ c ∈ m'.computations lines, c.WithinLimit
  shown : ∀ p ∈ m.printsAll lines, p.canShow = true

namespace ExactLines

variable {m : Machine Decimal96} {m' : Machine LongDecimal} {line : List Char}
  {lines : List (List Char)}

theorem tokens (h : ExactLines m m' (line :: lines)) :
    ExactTokens { machine := m } { machine := m' } (Token.ofLine line) where
  exact := h.exact line List.mem_cons_self
  literal _ htext := Token.literal_mem_ofLine htext
  fits c hc := h.fits c (List.mem_append_left _ hc)
  limit c hc := h.limit c (List.mem_append_left _ hc)

theorem rest (h : ExactLines m m' (line :: lines)) :
    ExactLines (m.evaluate line).1 (m'.evaluate line).1 lines where
  exact more hmore := h.exact more (List.mem_cons_of_mem _ hmore)
  fits c hc := h.fits c (List.mem_append_right _ hc)
  limit c hc := h.limit c (List.mem_append_right _ hc)
  shown p hp := h.shown p (List.mem_append_right _ hp)

theorem take (h : ExactLines m m' lines) (n : Nat) : ExactLines m m' (lines.take n) where
  exact line hline := h.exact line (List.mem_of_mem_take hline)
  fits c hc := h.fits c (m.collectAll_take_subset _ lines n hc)
  limit c hc := h.limit c (m'.collectAll_take_subset _ lines n hc)
  shown p hp := h.shown p (m.collectAll_take_subset _ lines n hp)

/-- Nothing breaks such lines off, as they take no roots. -/
theorem completes (h : ExactLines m m' lines) : m.Completes lines := by
  refine ⟨h.shown, fun a ha => ?_⟩
  rw [rootsAll_eq_nil fun line hline hsqrt => h.exact line hline _ hsqrt rfl] at ha
  cases ha

end ExactLines

/-- Calculators of both decimal types that start alike carry out each of the lines to its end
and agree after it: they hold equal numbers at every depth, have the same precision and the same
running flag, and have reported the same events with the same texts. -/
theorem sameNumbers_executeAll (precision maxPrecision : Nat) (policy : FailurePolicy)
    (lines : List (List Char))
    (h : ExactLines (fresh Decimal96 precision maxPrecision policy)
      (fresh LongDecimal precision maxPrecision policy) lines) (n : Nat) :
    ∃ d b, (fresh Decimal96 precision maxPrecision policy).executeAll (lines.take n) = .ok d ∧
      (fresh LongDecimal precision maxPrecision policy).executeAll (lines.take n) = .ok b ∧
      List.Forall₂ (fun x y => x.value = y.value) d.1.stack.toList b.1.stack.toList ∧
      d.1.precision = b.1.precision ∧ d.1.running = b.1.running ∧ d.2 = b.2 := by
  obtain ⟨halike, hevents⟩ := agree_evaluateAll number_lawful
    (P := ExactTokens) (Q := ExactLines)
    (fun _ _ _ _ hstates hts => ⟨hts.meets hstates, hts.rest⟩)
    (fun _ _ _ _ hlines => ⟨hlines.tokens, hlines.rest⟩)
    (fresh Decimal96 precision maxPrecision policy)
    (fresh LongDecimal precision maxPrecision policy) (lines.take n) (h.take n)
    ⟨.nil, rfl, rfl, rfl⟩
  rw [number_seen, number_seen] at hevents
  obtain ⟨hprecision, -⟩ := Prod.mk.inj halike.settings
  exact ⟨_, _, executeAll_of_completes (h.take n).completes,
    executeAll_of_completes (completes_long _ _), halike.stack.imp fun _ _ hxy => hxy.1,
    hprecision, halike.running, hevents⟩

/-- The product has scale one on one side and scale zero on the other. -/
theorem sameNumbers_executeAll_product :
    let d := fresh Decimal96 4 1000 .pushZero
    let b := fresh LongDecimal 4 1000 .pushZero
    let lines := ["1.5 5e1 * p".toList, "_2 k1 + p".toList]
    ExactLines d b lines ∧
      ∃ r r', d.executeAll (lines.take 2) = .ok r ∧ b.executeAll (lines.take 2) = .ok r' ∧
        List.Forall₂ (fun x y => x.value = y.value) r.1.stack.toList r'.1.stack.toList ∧
        r.1.precision = r'.1.precision ∧ r.1.running = r'.1.running ∧ r.2 = r'.2 := by
  intro d b lines
  have hfirst : Token.ofLine "1.5 5e1 * p".toList =
      [.literal ['1', '.', '5'], .literal ['5', 'e', '1'], .command (.binary .mul),
        .command .printTop] := by decide +kernel
  have hsecond : Token.ofLine "_2 k1 + p".toList =
      [.command .negate, .literal ['2'], .command .setPrecision, .literal ['1'],
        .command (.binary .add), .command .printTop] := by decide +kernel
  have hsame : (⟨false, 50, 0, by decide, by decide⟩ : Decimal96).value =
      LongDecimal.value ⟨5, -1⟩ := by
    norm_num [Decimal96.value, Decimal96.toLong, Decimal96.signed, LongDecimal.value]
  have h : ExactLines d b lines := by
    constructor
    · simp only [lines, List.forall_mem_cons, hfirst, hsecond, List.not_mem_nil,
        IsEmpty.forall_iff, implies_true, and_true]
      refine ⟨⟨?_, ?_, Token.isExact_binary (by decide), trivial⟩,
        trivial, ?_, trivial, ?_, Token.isExact_binary (by decide), trivial⟩
      · exact Token.isExact_literal (y := ⟨15, 1⟩)
          (x := ⟨false, 15, 1, by decide, by decide⟩) (by decide +kernel) rfl
      · exact Token.isExact_literal (by decide +kernel) hsame
      · exact Token.isExact_literal (x := .two) (by decide +kernel) rfl
      · exact Token.isExact_literal (x := .one) (by decide +kernel) rfl
    · decide +kernel
    · decide +kernel
    · decide +kernel
  exact ⟨h, sameNumbers_executeAll 4 1000 .pushZero lines h 2⟩

/-- The limit on the scale of products cannot be left out: a product of zeros is a zero with
96 bits, and an overflow beyond the exponent limit. -/
theorem executeAll_ne_of_zero_product :
    let d := fresh Decimal96 4 1000 .pushZero
    let b := fresh LongDecimal 4 1000 .pushZero
    let lines := ["0e60000 0e60000 * p".toList]
    (∀ line ∈ lines, ∀ t ∈ Token.ofLine line, t.IsExact) ∧
      (∀ c ∈ d.computations lines, c.Fits) ∧
      (∀ c ∈ b.computations lines,
        (c.left.coefficient * c.right.coefficient).natAbs < twoPow 96 ∧
          c.left.scale + c.right.scale ≤ 28) ∧
      (∀ p ∈ d.printsAll lines, p.canShow = true) ∧
      ∃ r r', d.executeAll lines = .ok r ∧ b.executeAll lines = .ok r' ∧
        r.2 = [.value "0.0000"] ∧ r.2 ≠ r'.2 := by
  intro d b lines
  have htokens : Token.ofLine "0e60000 0e60000 * p".toList =
      [.literal "0e60000".toList, .literal "0e60000".toList, .command (.binary .mul),
        .command .printTop] := by decide +kernel
  have hzero : Decimal96.zero.value = LongDecimal.value ⟨0, -60000⟩ := by
    rw [Decimal96.value_zero, LongDecimal.value_eq_zero_iff.mpr rfl]
  have hliteral : (Token.literal "0e60000".toList).IsExact :=
    Token.isExact_literal (by decide +kernel) hzero
  have hcompletes : d.Completes lines := ⟨by decide +kernel, by decide +kernel⟩
  refine ⟨?_, by decide +kernel, by decide +kernel, hcompletes.shown, _, _,
    executeAll_of_completes hcompletes, executeAll_of_completes (b.completes_long lines),
    by decide +kernel, by decide +kernel⟩
  simp only [lines, List.forall_mem_cons, htokens, List.not_mem_nil, IsEmpty.forall_iff,
    implies_true, and_true]
  exact ⟨hliteral, hliteral, Token.isExact_binary (by decide), trivial⟩

end Machine

end DeskCalc
