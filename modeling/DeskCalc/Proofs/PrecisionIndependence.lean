import DeskCalc.Calculator
import DeskCalc.Proofs.Completion
import DeskCalc.Proofs.Lockstep

/-!
# Where the precision is for display alone

Numbers of fixed width are computed at their full width. A calculator for them can then
be given any precision: what is shown gets other digits, and a literal is refused or taken
as a precision, but no value, no other failure and no stop depends on it. Only the formatter
may have room at one precision and not at another one.
-/

namespace DeskCalc

/-- What an event tells beside the precision: a printed value loses its text, and a change
of the precision is left out as well as the refusal of one. -/
def Event.withoutPrecision? : Event → Option Event
  | .value _ => some (.value "")
  | .precision _ => none
  | .fault .invalidPrecision => none
  | e => some e

/-- A number type whose operators give the same result at all precisions. -/
structure Operand.IgnoresPrecision (α : Type) [Operand α] : Prop where
  unary : ∀ op precision precision' (a : α),
    Operand.unary op precision a = Operand.unary op precision' a
  binary : ∀ op precision precision' (a b : α),
    Operand.binary op precision a b = Operand.binary op precision' a b

/-- All backends but that of unlimited length ignore the precision. -/
theorem Backend.ignoresPrecision {b : Backend} (hb : b ≠ .bigDecimal) :
    Operand.IgnoresPrecision b.Value := by
  cases b with
  | float =>
      refine ⟨fun op _ _ _ => ?_, fun op _ _ _ _ => ?_⟩
      · cases op; rfl
      · cases op <;> rfl
  | decimal =>
      refine ⟨fun op _ _ _ => ?_, fun op _ _ _ _ => ?_⟩
      · cases op; rfl
      · cases op <;> rfl
  | bigDecimal => exact absurd rfl hb

/-- Decimals of any length do not: a third is cut off at the precision. -/
example : LongDecimal.div (.ofInt 1) (.ofInt 3) 2 ≠ LongDecimal.div (.ofInt 1) (.ofInt 3) 4 := by
  decide

variable {α : Type}

/-- Calculators of one number type are compared without their precisions. -/
def Comparison.display (α : Type) : Comparison α α where
  value := Eq
  settings _ _ := True
  view := Event.withoutPrecision?

namespace Comparison

variable [Operand α]

theorem display_lawful : (display α).Lawful :=
  ⟨fun _ _ => rfl, congrArg Operand.neg⟩

/-- Equal results leave equal operands under either policy. -/
theorem settled_display (policy : FailurePolicy) (result : Except ArithmeticError α) :
    (display α).Settled policy result result := by
  cases result with
  | ok a => exact rfl
  | error e => exact ⟨fun _ => rfl, rfl⟩

omit [Operand α] in
theorem Alike.withPrecision {m m' : Machine α} (h : (display α).Alike m m') (p p' : Nat) :
    (display α).Alike { m with precision := p } { m' with precision := p' } :=
  ⟨h.stack, trivial, h.policy, h.running⟩

/-- A literal for the precision is at most refused where no number can be read from it, and
what else becomes of it is not compared. -/
theorem setPrecision_display (m : Machine α) (text : List Char) :
    ∃ precision, (m.setPrecision text).1 = { m with precision } ∧
      (display α).seen (LineState.emitted (m.setPrecision text).2) =
        if (Operand.ofLiteral? (α := α) text).isSome then [] else [.fault .malformedLiteral] := by
  rcases m.setPrecision_cases text with
    ⟨hread, h⟩ | ⟨a, hread, ⟨-, h⟩ | ⟨precision, -, -, h⟩⟩
  · exact ⟨m.precision, by rw [h], by rw [h, hread]; rfl⟩
  · exact ⟨m.precision, by rw [h], by rw [h, hread]; rfl⟩
  · exact ⟨precision, by rw [h], by rw [h, hread]; rfl⟩

theorem agree_setPrecision_display {m m' : Machine α} (h : (display α).Alike m m')
    (text : List Char) : (display α).Agree (m.setPrecision text) (m'.setPrecision text) := by
  obtain ⟨precision, hstate, hseen⟩ := setPrecision_display m text
  obtain ⟨precision', hstate', hseen'⟩ := setPrecision_display m' text
  constructor
  · rw [hstate, hstate']
    exact h.withPrecision precision precision'
  · exact hseen.trans hseen'.symm

/-- Calculators that ignore the precision meet what every token asks of them. -/
theorem meets_display (hα : Operand.IgnoresPrecision α) {m m' : Machine α}
    (h : (display α).Alike m m') (t : Token) : (display α).Meets m m' t := by
  have hstack : m.stack.toList = m'.stack.toList := List.forall₂_eq_eq_eq ▸ h.stack
  cases t with
  | command c =>
      cases c with
      | binary op =>
          intro a₁ a₂ below b₁ b₂ below' hm hm'
          obtain ⟨rfl, hrest⟩ := List.cons.inj ((hm.symm.trans hstack).trans hm')
          obtain ⟨rfl, -⟩ := List.cons.inj hrest
          rw [hα.binary op m.precision m'.precision]
          exact settled_display _ _
      | unary op =>
          intro a below b below' hm hm'
          obtain ⟨rfl, -⟩ := List.cons.inj ((hm.symm.trans hstack).trans hm')
          rw [hα.unary op m.precision m'.precision]
          exact settled_display _ _
      | _ => trivial
  | literal text =>
      constructor
      · cases Operand.ofLiteral? (α := α) text with
        | none => exact .none
        | some a => exact .some rfl
      · exact agree_setPrecision_display h text
  | invalid c => trivial

end Comparison

namespace Machine

/-- Two calculators that differ in their precisions alone. -/
structure SameBesidesPrecision (m m' : Machine α) : Prop where
  stack : m.stack = m'.stack
  policy : m.policy = m'.policy
  running : m.running = m'.running

theorem sameBesidesPrecision_iff_alike {m m' : Machine α} :
    SameBesidesPrecision m m' ↔ (Comparison.display α).Alike m m' := by
  have hstack : m.stack = m'.stack ↔
      List.Forall₂ (Comparison.display α).value m.stack.toList m'.stack.toList := by
    change _ ↔ List.Forall₂ Eq m.stack.toList m'.stack.toList
    rw [List.forall₂_eq_eq_eq]
    exact ⟨congrArg Stack.toList, congrArg Stack.mk⟩
  exact ⟨fun h => ⟨hstack.mp h.stack, trivial, h.policy, h.running⟩,
    fun h => ⟨hstack.mpr h.stack, h.policy, h.running⟩⟩

/-- In binary floating point and in decimals of fixed width no token tells calculators apart that
differ in their precisions alone. -/
theorem sameBesidesPrecision_evaluateAll {b : Backend} (hb : b ≠ .bigDecimal)
    {m m' : Machine b.Value} (h : SameBesidesPrecision m m') (lines : List (List Char)) :
    SameBesidesPrecision (m.evaluateAll lines).1 (m'.evaluateAll lines).1 ∧
      (m.evaluateAll lines).2.filterMap Event.withoutPrecision? =
        (m'.evaluateAll lines).2.filterMap Event.withoutPrecision? := by
  have hignores := Backend.ignoresPrecision hb
  -- Every token meets what it owes, so nothing needs to be known of the lines.
  obtain ⟨hlast, hseen⟩ := Comparison.agree_evaluateAll Comparison.display_lawful
    (P := fun _ _ _ => True) (Q := fun _ _ _ => True)
    (fun _ _ t _ halike _ => ⟨Comparison.meets_display hignores halike t, trivial⟩)
    (fun _ _ _ _ _ => ⟨trivial, trivial⟩)
    m m' lines trivial (sameBesidesPrecision_iff_alike.mp h)
  exact ⟨sameBesidesPrecision_iff_alike.mpr hlast, hseen⟩

/-- In binary floating point and in decimals of fixed width, two calculators that differ in
their precisions and largest precisions alone carry out lines that nothing breaks off on either
side, and still do after each of them: their stacks hold the same values, and both go on or both
have stopped. Their events differ in printed texts, in changes of the precision and in refusals
of one alone. -/
theorem sameBesidesPrecision_executeAll {b : Backend} (hb : b ≠ .bigDecimal)
    {m m' : Machine b.Value} (h : SameBesidesPrecision m m') {lines : List (List Char)}
    (hm : m.Completes lines) (hm' : m'.Completes lines) (n : Nat) :
    ∃ r r', m.executeAll (lines.take n) = .ok r ∧ m'.executeAll (lines.take n) = .ok r' ∧
      SameBesidesPrecision r.1 r'.1 ∧
      r.2.filterMap Event.withoutPrecision? = r'.2.filterMap Event.withoutPrecision? :=
  ⟨_, _, executeAll_of_completes (hm.take n), executeAll_of_completes (hm'.take n),
    sameBesidesPrecision_evaluateAll hb h (lines.take n)⟩

/-- The second literal is a precision for one calculator and refused by the other. -/
theorem sameBesidesPrecision_executeAll_refused :
    let m : Machine Backend.decimal.Value := { precision := 4, maxPrecision := 1000 }
    let m' : Machine Backend.decimal.Value := { precision := 28, maxPrecision := 30 }
    let lines := ["1 3 / p".toList, "k40 2 v * q".toList]
    (Backend.decimal ≠ .bigDecimal ∧ SameBesidesPrecision m m' ∧ m.Completes lines ∧
        m'.Completes lines) ∧
      ∃ r r', m.executeAll (lines.take 2) = .ok r ∧ m'.executeAll (lines.take 2) = .ok r' ∧
        SameBesidesPrecision r.1 r'.1 ∧
        r.2.filterMap Event.withoutPrecision? = r'.2.filterMap Event.withoutPrecision? := by
  intro m m' lines
  have hb : Backend.decimal ≠ .bigDecimal := by decide
  have h : SameBesidesPrecision m m' := ⟨rfl, rfl, rfl⟩
  have hm : m.Completes lines := ⟨by decide +kernel, by decide +kernel⟩
  have hm' : m'.Completes lines := ⟨by decide +kernel, by decide +kernel⟩
  exact ⟨⟨hb, h, hm, hm'⟩, sameBesidesPrecision_executeAll hb h hm hm' 2⟩

/-- A number of four digits is printed with four places, and with 28 places it is one character
too long for the formatter. -/
theorem executeAll_depends_on_precision :
    let m : Machine Backend.decimal.Value :=
      { stack := ⟨[⟨false, 1000, 0, by decide, by decide⟩]⟩, precision := 28, maxPrecision := 1000 }
    let m' : Machine Backend.decimal.Value := { m with precision := 4 }
    (Backend.decimal ≠ .bigDecimal ∧ SameBesidesPrecision m m') ∧
      m.executeAll ["p".toList] = .error .formatter ∧
      ∃ r', m'.executeAll ["p".toList] = .ok r' ∧ r'.2 = [.value "1000.0000"] := by
  intro m m'
  have hb : Backend.decimal ≠ .bigDecimal := by decide
  have hcrash : m.crash? "p".toList = some .formatter := by decide +kernel
  have hm' : m'.Completes ["p".toList] := ⟨by decide +kernel, by decide +kernel⟩
  refine ⟨⟨hb, ⟨rfl, rfl, rfl⟩⟩, executeAll_of_crash? hcrash [], _,
    executeAll_of_completes hm', ?_⟩
  decide +kernel

end Machine

end DeskCalc
