import DeskCalc.Decimal96
import DeskCalc.Proofs.Completion
import DeskCalc.Proofs.Lockstep

/-!
# The depth of the stack does not depend on values

Where a zero stands for every missing result, an operator leaves one operand whether
it fails or not. Two calculators with stacks of the same size then keep them at the
same size whatever their values are, and only values and failed results tell them
apart. Whether a line is broken off does depend on values, so both have to carry their
lines out to the end.
-/

namespace DeskCalc

/-- What an event tells beside values: a printed value loses its text, and a result that
could not be computed is left out. -/
def Event.withoutValues? : Event → Option Event
  | .value _ => some (.value "")
  | .fault (.arithmetic _) => none
  | e => some e

variable {α : Type}

/-- Calculators of one number type are compared without their values. -/
def Comparison.depth (α : Type) : Comparison α α where
  value _ _ := True
  settings := Eq
  view := Event.withoutValues?

namespace Comparison

theorem forall₂_depth {a b : List α} (h : a.length = b.length) :
    List.Forall₂ (depth α).value a b := by
  rw [List.forall₂_iff_zip]
  exact ⟨h, fun _ => trivial⟩

variable [Operand α]

theorem depth_lawful : (depth α).Lawful := ⟨fun _ _ => rfl, fun _ => trivial⟩

/-- A zero stands for every missing result, so all results leave one operand. -/
theorem settled_pushZero (result result' : Except ArithmeticError α) :
    (depth α).Settled .pushZero result result' := by
  cases result with
  | ok a =>
      cases result' with
      | ok b => exact trivial
      | error e => exact ⟨rfl, trivial, rfl⟩
  | error e =>
      cases result' with
      | ok b => exact ⟨rfl, trivial, rfl⟩
      | error e' => exact ⟨fun _ => trivial, rfl⟩

theorem meets_pushZero {m m' : Machine α} (h : (depth α).Alike m m')
    (hpolicy : m.policy = .pushZero) (t : Token) : (depth α).Meets m m' t := by
  cases t with
  | command c =>
      cases c with
      | binary op =>
          intro _ _ _ _ _ _ _ _
          rw [hpolicy]
          exact settled_pushZero _ _
      | unary op =>
          intro _ _ _ _ _ _
          rw [hpolicy]
          exact settled_pushZero _ _
      | _ => trivial
  | literal text =>
      constructor
      · cases Operand.ofLiteral? (α := α) text with
        | none => exact .none
        | some a => exact .some trivial
      · apply agree_setPrecision h rfl
        cases Operand.ofLiteral? (α := α) text with
        | none => exact .none
        | some a => exact .some rfl
  | invalid c => trivial

end Comparison

namespace Machine

/-- Two calculators that differ in the values on their stacks alone. -/
structure SameDepth (m m' : Machine α) : Prop where
  size : m.stack.size = m'.stack.size
  precision : m.precision = m'.precision
  maxPrecision : m.maxPrecision = m'.maxPrecision
  policy : m.policy = m'.policy
  running : m.running = m'.running

theorem sameDepth_iff_alike {m m' : Machine α} :
    SameDepth m m' ↔ (Comparison.depth α).Alike m m' := by
  constructor
  · intro h
    refine ⟨Comparison.forall₂_depth h.size, ?_, h.policy, h.running⟩
    exact Prod.ext h.precision h.maxPrecision
  · intro h
    obtain ⟨hprecision, hmax⟩ := Prod.mk.inj h.settings
    exact ⟨h.stack.length_eq, hprecision, hmax, h.policy, h.running⟩

variable [Operand α]

/-- Under the policy that pushes a zero, no token changes the size of one stack and not that of
the other, and events differ in printed texts and failed results alone. -/
theorem sameDepth_evaluateAll {m m' : Machine α} (h : SameDepth m m')
    (hpolicy : m.policy = .pushZero) (lines : List (List Char)) :
    SameDepth (m.evaluateAll lines).1 (m'.evaluateAll lines).1 ∧
      (m.evaluateAll lines).2.filterMap Event.withoutValues? =
        (m'.evaluateAll lines).2.filterMap Event.withoutValues? := by
  -- What an operator owes follows from the policy, and no token changes that.
  obtain ⟨hlast, hseen⟩ := Comparison.agree_evaluateAll Comparison.depth_lawful
    (P := fun s _ _ => s.machine.policy = .pushZero) (Q := fun n _ _ => n.policy = .pushZero)
    (fun s _ t _ halike hs =>
      ⟨Comparison.meets_pushZero halike hs t, (s.policy_step t).trans hs⟩)
    (fun n _ line _ hn => ⟨hn, (n.policy_evaluate line).trans hn⟩)
    m m' lines hpolicy (sameDepth_iff_alike.mp h)
  exact ⟨sameDepth_iff_alike.mpr hlast, hseen⟩

/-- Under the policy that pushes a zero, calculators whose stacks have the same size, with
any values on them, carry out lines that nothing breaks off on either side, and have stacks of
the same size after each of them, the same precision and the same running flag. Their events
differ in printed texts and failed results alone. -/
theorem sameDepth_executeAll {m m' : Machine α} (h : SameDepth m m')
    (hpolicy : m.policy = .pushZero) {lines : List (List Char)} (hm : m.Completes lines)
    (hm' : m'.Completes lines) (n : Nat) :
    ∃ r r', m.executeAll (lines.take n) = .ok r ∧ m'.executeAll (lines.take n) = .ok r' ∧
      SameDepth r.1 r'.1 ∧
      r.2.filterMap Event.withoutValues? = r'.2.filterMap Event.withoutValues? :=
  ⟨_, _, executeAll_of_completes (hm.take n), executeAll_of_completes (hm'.take n),
    sameDepth_evaluateAll h hpolicy (lines.take n)⟩

/-- One division fails and the other does not, and both leave one operand. -/
theorem sameDepth_executeAll_division :
    let m : Machine Decimal96 :=
      { stack := ⟨[.zero, .one]⟩, precision := 4, maxPrecision := 1000 }
    let m' : Machine Decimal96 := { m with stack := ⟨[.two, .one]⟩ }
    let lines := ["/ p".toList, "_1 v + k2 p".toList]
    (SameDepth m m' ∧ m.policy = .pushZero ∧ m.Completes lines ∧ m'.Completes lines) ∧
      ∃ r r', m.executeAll (lines.take 2) = .ok r ∧ m'.executeAll (lines.take 2) = .ok r' ∧
        SameDepth r.1 r'.1 ∧
        r.2.filterMap Event.withoutValues? = r'.2.filterMap Event.withoutValues? := by
  intro m m' lines
  have h : SameDepth m m' := ⟨rfl, rfl, rfl, rfl, rfl⟩
  have hm : m.Completes lines := ⟨by decide +kernel, by decide +kernel⟩
  have hm' : m'.Completes lines := ⟨by decide +kernel, by decide +kernel⟩
  exact ⟨⟨h, rfl, hm, hm'⟩, sameDepth_executeAll h rfl hm hm' 2⟩

/-- Four digits and 28 places are one character too many for the formatter, and one digit is
not, so a print breaks the line off on one side alone. -/
theorem executeAll_depends_on_values :
    let m : Machine Decimal96 :=
      { stack := ⟨[⟨false, 1000, 0, by decide, by decide⟩]⟩, precision := 28, maxPrecision := 1000 }
    let m' : Machine Decimal96 := { m with stack := ⟨[.one]⟩ }
    (SameDepth m m' ∧ m.policy = .pushZero) ∧
      m.executeAll ["p".toList] = .error .formatter ∧
      ∃ r', m'.executeAll ["p".toList] = .ok r' ∧
        r'.2 = [.value "1.0000000000000000000000000000"] := by
  intro m m'
  have hcrash : m.crash? "p".toList = some .formatter := by decide +kernel
  have hm' : m'.Completes ["p".toList] := ⟨by decide +kernel, by decide +kernel⟩
  refine ⟨⟨⟨rfl, rfl, rfl, rfl, rfl⟩, rfl⟩, executeAll_of_crash? hcrash [], _,
    executeAll_of_completes hm', ?_⟩
  decide +kernel

end Machine

end DeskCalc
