import DeskCalc.Decimal96
import DeskCalc.Proofs.Steps

/-!
# Failed tokens

A token that fails is reported once, and the next token is carried out from what
it leaves behind. Only an operator takes operands along: all there are when one is
missing, and otherwise its own, in whose place the policy may leave a zero.
-/

namespace DeskCalc

/-- The number of operands that a token takes from the stack. -/
def Token.arity : Token → Nat
  | .command (.binary _) => 2
  | .command (.unary _) => 1
  | _ => 0

variable {α : Type} [Operand α]

/-- The operands that a policy puts in place of a missing result. -/
def FailurePolicy.replacement : FailurePolicy → List α
  | .pushZero => [Operand.zero]
  | .discard => []

namespace Stack

/-- What an operator that failed with `cause` leaves of a stack. -/
structure Spent (policy : FailurePolicy) (arity : Nat) (s left : Stack α)
    (cause : Fault) : Prop where
  emptied : s.size < arity → left.toList = [] ∧ cause = .stack .empty
  replaced : arity ≤ s.size →
    left.toList = policy.replacement ++ s.toList.drop arity ∧
      ∃ e, cause = .arithmetic e

theorem receive_error {policy : FailurePolicy} {s : Stack α}
    {result : Except ArithmeticError α} {cause : Fault}
    (h : (s.receive policy result).2 = .error cause) :
    (s.receive policy result).1.toList = policy.replacement ++ s.toList ∧
      ∃ e, cause = .arithmetic e := by
  cases result with
  | ok a => cases h
  | error e =>
      cases policy with
      | pushZero =>
          cases h
          exact ⟨rfl, e, rfl⟩
      | discard =>
          cases h
          exact ⟨rfl, e, rfl⟩

theorem spent_of_short {policy : FailurePolicy} {arity : Nat} {s : Stack α}
    (h : s.size < arity) : Spent policy arity s ⟨[]⟩ (.stack .empty) :=
  ⟨fun _ => ⟨rfl, rfl⟩, fun hle => absurd h (Nat.not_lt_of_le hle)⟩

theorem spent_of_receive {policy : FailurePolicy} {arity : Nat} {s : Stack α}
    {result : Except ArithmeticError α} {cause : Fault} (hsize : arity ≤ s.size)
    (h : (receive policy ⟨s.toList.drop arity⟩ result).2 = .error cause) :
    Spent policy arity s (receive policy ⟨s.toList.drop arity⟩ result).1 cause :=
  ⟨fun hlt => absurd hlt (Nat.not_lt_of_le hsize), fun _ => receive_error h⟩

theorem spent_computeUnary {policy : FailurePolicy} {op : UnaryOperator} {precision : Nat}
    {s : Stack α} {cause : Fault}
    (h : (s.computeUnary policy op precision).2 = .error cause) :
    Spent policy 1 s (s.computeUnary policy op precision).1 cause := by
  obtain ⟨operands⟩ := s
  cases operands with
  | nil =>
      cases h
      exact spent_of_short Nat.zero_lt_one
  | cons a below =>
      exact spent_of_receive (s := ⟨a :: below⟩) (Nat.le_add_left 1 _) h

theorem spent_computeBinary {policy : FailurePolicy} {op : BinaryOperator} {precision : Nat}
    {s : Stack α} {cause : Fault}
    (h : (s.computeBinary policy op precision).2 = .error cause) :
    Spent policy 2 s (s.computeBinary policy op precision).1 cause := by
  obtain ⟨operands⟩ := s
  rcases operands with _ | ⟨b, _ | ⟨a, below⟩⟩
  · cases h
    exact spent_of_short Nat.two_pos
  · cases h
    exact spent_of_short Nat.one_lt_two
  · exact spent_of_receive (s := ⟨b :: a :: below⟩) (Nat.le_add_left 2 _) h

end Stack

namespace Machine

/-- What a token of the given arity that failed with `cause` makes of a calculator. -/
structure FailsTo (m n : Machine α) (arity : Nat) (cause : Fault) : Prop where
  precision : n.precision = m.precision
  maxPrecision : n.maxPrecision = m.maxPrecision
  policy : n.policy = m.policy
  running : n.running = m.running
  /-- Only operators change the stack. -/
  kept : arity = 0 → n.stack = m.stack
  /-- An operator takes what operands there are. -/
  spent : 0 < arity → Stack.Spent m.policy arity m.stack n.stack cause

theorem failsTo_self (m : Machine α) (cause : Fault) : FailsTo m m 0 cause :=
  ⟨rfl, rfl, rfl, rfl, fun _ => rfl, fun h => absurd h (Nat.lt_irrefl 0)⟩

theorem failsTo_of_spent {m : Machine α} {left : Stack α} {arity : Nat} {cause : Fault}
    (hpos : 0 < arity) (h : Stack.Spent m.policy arity m.stack left cause) :
    FailsTo m { m with stack := left } arity cause :=
  ⟨rfl, rfl, rfl, rfl, fun hzero => absurd hzero (Nat.ne_of_gt hpos), fun _ => h⟩

end Machine

namespace LineState

/-- A fault among the events of an operator is the cause of its failure. -/
theorem fault_mem_emitted_map {result : Except Fault Unit} {cause : Fault} :
    Event.fault cause ∈ emitted (result.map fun _ => []) ↔ result = .error cause := by
  cases result with
  | ok u => simp [emitted_map]
  | error e => simp [emitted_map, eq_comm]

/-- No command reports a fault beside other events. -/
theorem perform_of_fault_mem {m : Machine α} {c : Command} {cause : Fault}
    (h : Event.fault cause ∈ emitted (m.perform c).2) :
    emitted (m.perform c).2 = [.fault cause] ∧
      m.FailsTo (m.perform c).1 (Token.arity (.command c)) cause := by
  cases c with
  | binary op =>
      have herror : (m.stack.computeBinary m.policy op m.precision).2 = .error cause :=
        fault_mem_emitted_map.mp h
      refine ⟨?_, Machine.failsTo_of_spent Nat.two_pos (Stack.spent_computeBinary herror)⟩
      simp only [Machine.perform, herror, emitted_map]
  | unary op =>
      have herror : (m.stack.computeUnary m.policy op m.precision).2 = .error cause :=
        fault_mem_emitted_map.mp h
      refine ⟨?_, Machine.failsTo_of_spent Nat.one_pos (Stack.spent_computeUnary herror)⟩
      simp only [Machine.perform, herror, emitted_map]
  | printTop =>
      cases hp : m.stack.peek 0 with
      | ok a => simp [Machine.perform, hp, emitted] at h
      | error e =>
          simp only [Machine.perform, hp, emitted, List.mem_singleton] at h ⊢
          exact ⟨by rw [h], m.failsTo_self cause⟩
  | duplicate =>
      cases hd : m.stack.duplicate with
      | ok s => simp [Machine.perform, hd, emitted] at h
      | error e =>
          simp only [Machine.perform, hd, emitted, List.mem_singleton] at h ⊢
          exact ⟨by rw [h], m.failsTo_self cause⟩
  | clear =>
      cases hc : m.stack.clear with
      | ok s => simp [Machine.perform, hc, emitted] at h
      | error e =>
          simp only [Machine.perform, hc, emitted, List.mem_singleton] at h ⊢
          exact ⟨by rw [h], m.failsTo_self cause⟩
  | dump => simp [Machine.perform, emitted] at h
  | printSize => simp [Machine.perform, emitted] at h
  | quit => simp [Machine.perform, emitted] at h
  | setPrecision => simp [Machine.perform, emitted] at h
  | negate => simp [Machine.perform, emitted] at h

theorem setPrecision_of_fault_mem {m : Machine α} {text : List Char} {cause : Fault}
    (h : Event.fault cause ∈ emitted (m.setPrecision text).2) :
    emitted (m.setPrecision text).2 = [.fault cause] ∧ (m.setPrecision text).1 = m := by
  rcases m.setPrecision_cases text with
    ⟨-, hset⟩ | ⟨a, -, ⟨-, hset⟩ | ⟨precision, -, -, hset⟩⟩
  · rw [hset] at h ⊢
    exact ⟨by rw [List.mem_singleton.mp h, emitted], rfl⟩
  · rw [hset] at h ⊢
    exact ⟨by rw [List.mem_singleton.mp h, emitted], rfl⟩
  · rw [hset] at h
    cases List.mem_singleton.mp h

theorem pushLiteral_of_fault_mem {m : Machine α} {negate : Bool} {text : List Char}
    {cause : Fault} (h : Event.fault cause ∈ emitted (m.pushLiteral negate text).2) :
    emitted (m.pushLiteral negate text).2 = [.fault cause] ∧
      (m.pushLiteral negate text).1 = m := by
  rcases m.pushLiteral_cases negate text with ⟨-, hpush⟩ | ⟨a, -, hpush⟩
  · rw [hpush] at h ⊢
    exact ⟨by rw [List.mem_singleton.mp h, emitted], rfl⟩
  · rw [hpush] at h
    cases h

theorem step_of_fault_mem {s : LineState α} {t : Token} {cause : Fault}
    (h : Event.fault cause ∈ emitted (s.step t).2) :
    emitted (s.step t).2 = [.fault cause] ∧
      s.machine.FailsTo (s.step t).1.machine t.arity cause := by
  cases t with
  | command c =>
      rw [step_command] at h ⊢
      exact perform_of_fault_mem h
  | literal text =>
      cases hp : s.pending.precision with
      | true =>
          rw [step_literal_of_precision hp] at h ⊢
          obtain ⟨hevents, hsame⟩ := setPrecision_of_fault_mem h
          exact ⟨hevents, hsame.symm ▸ s.machine.failsTo_self cause⟩
      | false =>
          rw [step_literal_of_operand hp] at h ⊢
          obtain ⟨hevents, hsame⟩ := pushLiteral_of_fault_mem h
          exact ⟨hevents, hsame.symm ▸ s.machine.failsTo_self cause⟩
  | invalid c =>
      simp only [step, emitted, List.mem_singleton] at h ⊢
      exact ⟨by rw [h], s.machine.failsTo_self cause⟩

/-- A token that is reported as failed has one event, its fault. The line goes on with the
next token from what the failure leaves of the calculator: the same precision and running
flag, and a stack that only an operator has taken operands from. -/
theorem run_of_failed_token (s : LineState α) (t : Token) (rest : List Token) (cause : Fault)
    (failed : Event.fault cause ∈ emitted (s.step t).2) :
    s.run (t :: rest) =
        (((s.step t).1.run rest).1, .fault cause :: ((s.step t).1.run rest).2) ∧
      s.machine.FailsTo (s.step t).1.machine t.arity cause := by
  obtain ⟨hevents, heffect⟩ := step_of_fault_mem failed
  refine ⟨?_, heffect⟩
  rw [run_cons, hevents]
  rfl

/-- A division by zero under a deeper operand, while a negation waits. -/
theorem run_of_failed_token_division :
    let m : Machine Decimal96 :=
      { stack := ⟨[.zero, .one, .two]⟩, precision := 4, maxPrecision := 1000 }
    let s : LineState Decimal96 := { machine := m, pending := { negate := true } }
    let t : Token := .command (.binary .div)
    let cause : Fault := .arithmetic .divisionByZero
    Event.fault cause ∈ emitted (s.step t).2 ∧
      s.run [t, .command .printTop] =
          (((s.step t).1.run [.command .printTop]).1,
            .fault cause :: ((s.step t).1.run [.command .printTop]).2) ∧
        s.machine.FailsTo (s.step t).1.machine t.arity cause := by
  intro m s t cause
  have failed : Event.fault cause ∈ emitted (s.step t).2 := by decide
  exact ⟨failed, run_of_failed_token s t [.command .printTop] cause failed⟩

end LineState

end DeskCalc
