import DeskCalc.Decimal96
import DeskCalc.Proofs.Steps

/-!
# Operands that a line does not reach

Most tokens look at no more of the stack than the operands that they take. While none
of them finds the stack empty, operands further down change nothing: the line reports
the same and leaves them where they are.
-/

namespace DeskCalc

/-- Whether a token tells of the whole stack or drops it. -/
def Token.concernsAll : Token → Bool
  | .command .dump => true
  | .command .printSize => true
  | .command .clear => true
  | _ => false

variable {α : Type}

namespace Stack

/-- The stack with other operands below its own. -/
def above (s below : Stack α) : Stack α := ⟨s.toList ++ below.toList⟩

end Stack

/-- The calculator with other operands below its own. -/
def Machine.above (m : Machine α) (below : Stack α) : Machine α :=
  { m with stack := m.stack.above below }

/-- The state of a line with other operands below its own. -/
def LineState.above (s : LineState α) (below : Stack α) : LineState α :=
  { s with machine := s.machine.above below }

variable [Operand α]

namespace Stack

theorem receive_above (policy : FailurePolicy) (s below : Stack α)
    (result : Except ArithmeticError α) :
    (s.above below).receive policy result =
      ((s.receive policy result).1.above below, (s.receive policy result).2) := by
  cases result with
  | ok a => rfl
  | error cause => cases policy <;> rfl

theorem computeUnary_above {policy : FailurePolicy} {op : UnaryOperator} {precision : Nat}
    {s : Stack α} (h : (s.computeUnary policy op precision).2 ≠ .error (.stack .empty))
    (below : Stack α) :
    (s.above below).computeUnary policy op precision =
      ((s.computeUnary policy op precision).1.above below,
        (s.computeUnary policy op precision).2) := by
  obtain ⟨operands⟩ := s
  cases operands with
  | nil => exact absurd rfl h
  | cons a rest => exact receive_above policy ⟨rest⟩ below _

theorem computeBinary_above {policy : FailurePolicy} {op : BinaryOperator} {precision : Nat}
    {s : Stack α} (h : (s.computeBinary policy op precision).2 ≠ .error (.stack .empty))
    (below : Stack α) :
    (s.above below).computeBinary policy op precision =
      ((s.computeBinary policy op precision).1.above below,
        (s.computeBinary policy op precision).2) := by
  obtain ⟨operands⟩ := s
  rcases operands with _ | ⟨b, _ | ⟨a, rest⟩⟩
  · exact absurd rfl h
  · exact absurd rfl h
  · exact receive_above policy ⟨rest⟩ below _

end Stack

namespace Machine

/-- An operator that does not report an empty stack found all that it needs. -/
theorem ne_of_empty_not_mem {result : Except Fault Unit}
    (h : Event.fault (.stack .empty) ∉ LineState.emitted (result.map fun _ => [])) :
    result ≠ .error (.stack .empty) := by
  rintro rfl
  exact h (List.mem_singleton_self _)

theorem perform_above {m : Machine α} {c : Command}
    (hc : (Token.command c).concernsAll = false)
    (h : Event.fault (.stack .empty) ∉ LineState.emitted (m.perform c).2) (below : Stack α) :
    (m.above below).perform c = ((m.perform c).1.above below, (m.perform c).2) := by
  obtain ⟨⟨operands⟩, precision, maximum, policy, running⟩ := m
  cases c with
  | binary op =>
      have hstack := Stack.computeBinary_above (ne_of_empty_not_mem h) below
      simp only [perform, above] at hstack ⊢
      rw [hstack]
  | unary op =>
      have hstack := Stack.computeUnary_above (ne_of_empty_not_mem h) below
      simp only [perform, above] at hstack ⊢
      rw [hstack]
  | printTop =>
      cases operands with
      | nil => exact absurd (List.mem_singleton_self _) h
      | cons a rest => rfl
  | duplicate =>
      cases operands with
      | nil => exact absurd (List.mem_singleton_self _) h
      | cons a rest => rfl
  | dump => cases hc
  | printSize => cases hc
  | clear => cases hc
  | quit => rfl
  | setPrecision => rfl
  | negate => rfl

theorem setPrecision_above (m : Machine α) (below : Stack α) (text : List Char) :
    (m.above below).setPrecision text =
      ((m.setPrecision text).1.above below, (m.setPrecision text).2) := by
  unfold setPrecision
  cases Operand.ofLiteral? (α := α) text with
  | none => rfl
  | some a =>
      have hmax : (m.above below).maxPrecision = m.maxPrecision := rfl
      simp only [hmax]
      cases (Operand.toPrecision? a).filter (· ≤ m.maxPrecision) <;> rfl

theorem pushLiteral_above (m : Machine α) (below : Stack α) (negate : Bool) (text : List Char) :
    (m.above below).pushLiteral negate text =
      ((m.pushLiteral negate text).1.above below, (m.pushLiteral negate text).2) := by
  unfold pushLiteral
  cases Operand.ofLiteral? (α := α) text <;> rfl

end Machine

namespace LineState

/-- A token does the same above other operands, and does not touch them. -/
theorem step_above {s : LineState α} {t : Token} (ht : t.concernsAll = false)
    (h : Event.fault (.stack .empty) ∉ emitted (s.step t).2) (below : Stack α) :
    (s.above below).step t = ((s.step t).1.above below, (s.step t).2) := by
  cases t with
  | command c =>
      rw [step_command] at h
      rw [step_command, step_command]
      have hperform := Machine.perform_above ht h below
      simp only [above] at hperform ⊢
      rw [hperform]
  | literal text =>
      cases hp : s.pending.precision with
      | true =>
          have hp' : (s.above below).pending.precision = true := hp
          rw [step_literal_of_precision hp, step_literal_of_precision hp']
          simp only [above, Machine.setPrecision_above]
      | false =>
          have hp' : (s.above below).pending.precision = false := hp
          rw [step_literal_of_operand hp, step_literal_of_operand hp']
          simp only [above, Machine.pushLiteral_above]
  | invalid c => rfl

theorem run_above {s : LineState α} {ts : List Token} (hts : ∀ t ∈ ts, t.concernsAll = false)
    (h : Event.fault (.stack .empty) ∉ (s.run ts).2) (below : Stack α) :
    (s.above below).run ts = ((s.run ts).1.above below, (s.run ts).2) := by
  induction ts generalizing s with
  | nil => rfl
  | cons t ts ih =>
      rw [run_cons, List.mem_append, not_or] at h
      obtain ⟨hfirst, hrest⟩ := h
      have hstep := step_above (hts t List.mem_cons_self) hfirst below
      have hrun := ih (fun u hu => hts u (List.mem_cons_of_mem t hu)) hrest
      rw [run_cons, run_cons, hstep, hrun]

end LineState

namespace Machine

/-- Frame rule. A line whose tokens do not concern the whole stack, and that does not report
an empty stack, has the same events above any other operands. It leaves them as they were
below its own, and the same precision and running flag. -/
theorem evaluate_above {m : Machine α} {line : List Char}
    (htokens : ∀ t ∈ Token.ofLine line, t.concernsAll = false)
    (hfull : Event.fault (.stack .empty) ∉ (m.evaluate line).2) (below : Stack α) :
    (m.above below).evaluate line = ((m.evaluate line).1.above below, (m.evaluate line).2) := by
  have hrun := LineState.run_above (s := { machine := m }) htokens hfull below
  change ((((LineState.mk m {}).above below).run (Token.ofLine line)).1.machine,
    (((LineState.mk m {}).above below).run (Token.ofLine line)).2) = _
  rw [hrun]
  rfl

/-- A division by zero takes its operands from the upper part of the stack alone, and the
zero in place of its result lies there too. -/
theorem evaluate_above_division :
    let m : Machine Decimal96 := { stack := ⟨[.one]⟩, precision := 4, maxPrecision := 1000 }
    let below : Stack Decimal96 := ⟨[.two, .zero]⟩
    let line := "d + 0 / _2 k2 x v p".toList
    ((∀ t ∈ Token.ofLine line, t.concernsAll = false) ∧
        Event.fault (.stack .empty) ∉ (m.evaluate line).2) ∧
      (m.above below).evaluate line =
        ((m.evaluate line).1.above below, (m.evaluate line).2) := by
  intro m below line
  have htokens : ∀ t ∈ Token.ofLine line, t.concernsAll = false := by decide +kernel
  have hfull : Event.fault (.stack .empty) ∉ (m.evaluate line).2 := by decide +kernel
  exact ⟨⟨htokens, hfull⟩, evaluate_above htokens hfull below⟩

end Machine

end DeskCalc
