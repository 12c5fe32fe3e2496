import DeskCalc.Proofs.Steps

/-!
# Properties of all values on the stack

Values come from literals, from negation, from operators and from the zero in place of a
missing result. A property that each of these establishes holds of every value that a
session has on its stack. Operators see no precision above the largest one.
-/

namespace DeskCalc

variable {α : Type} [Operand α]

/-- A property that every way to a value establishes at precisions up to `maximum`. -/
structure Operand.Establishes (P : α → Prop) (maximum : Nat) : Prop where
  zero : P Operand.zero
  literal : ∀ {text : List Char} {a : α}, Operand.ofLiteral? text = some a → P a
  neg : ∀ {a : α}, P a → P (Operand.neg a)
  unary : ∀ {op : UnaryOperator} {precision : Nat} {a r : α}, precision ≤ maximum → P a →
    Operand.unary op precision a = .ok r → P r
  binary : ∀ {op : BinaryOperator} {precision : Nat} {a b r : α}, precision ≤ maximum → P a →
    P b → Operand.binary op precision a b = .ok r → P r

namespace Stack

theorem forall_receive {P : α → Prop} (hzero : P Operand.zero) {s : Stack α}
    (hs : ∀ a ∈ s.toList, P a) {result : Except ArithmeticError α}
    (hresult : ∀ r, result = .ok r → P r) (policy : FailurePolicy) :
    ∀ a ∈ (s.receive policy result).1.toList, P a := by
  cases result with
  | ok r => exact List.forall_mem_cons.mpr ⟨hresult r rfl, hs⟩
  | error cause =>
      cases policy with
      | pushZero => exact List.forall_mem_cons.mpr ⟨hzero, hs⟩
      | discard => exact hs

theorem forall_computeUnary {P : α → Prop} {maximum : Nat}
    (hP : Operand.Establishes P maximum) {s : Stack α} (hs : ∀ a ∈ s.toList, P a)
    (policy : FailurePolicy) (op : UnaryOperator) {precision : Nat} (h : precision ≤ maximum) :
    ∀ a ∈ (s.computeUnary policy op precision).1.toList, P a := by
  obtain ⟨operands⟩ := s
  cases operands with
  | nil => exact hs
  | cons a rest =>
      obtain ⟨ha, hrest⟩ := List.forall_mem_cons.mp hs
      exact forall_receive (s := ⟨rest⟩) hP.zero hrest (fun r hr => hP.unary h ha hr) policy

theorem forall_computeBinary {P : α → Prop} {maximum : Nat}
    (hP : Operand.Establishes P maximum) {s : Stack α} (hs : ∀ a ∈ s.toList, P a)
    (policy : FailurePolicy) (op : BinaryOperator) {precision : Nat} (h : precision ≤ maximum) :
    ∀ a ∈ (s.computeBinary policy op precision).1.toList, P a := by
  obtain ⟨operands⟩ := s
  rcases operands with _ | ⟨b, _ | ⟨a, rest⟩⟩
  · exact hs
  · exact List.forall_mem_nil _
  · obtain ⟨hb, htail⟩ := List.forall_mem_cons.mp hs
    obtain ⟨ha, hrest⟩ := List.forall_mem_cons.mp htail
    exact forall_receive (s := ⟨rest⟩) hP.zero hrest (fun r hr => hP.binary h ha hb hr) policy

end Stack

namespace Machine

/-- All values on the stack have a property, and the precision is one that may be set. -/
structure Holds (P : α → Prop) (maximum : Nat) (m : Machine α) : Prop where
  values : ∀ a ∈ m.stack.toList, P a
  precision : m.precision ≤ maximum
  maxPrecision : m.maxPrecision = maximum

variable {P : α → Prop} {maximum : Nat}

omit [Operand α] in
theorem Holds.withStack {m : Machine α} (h : m.Holds P maximum) {stack : Stack α}
    (hstack : ∀ a ∈ stack.toList, P a) : Holds P maximum { m with stack } :=
  ⟨hstack, h.precision, h.maxPrecision⟩

theorem holds_perform (hP : Operand.Establishes P maximum) {m : Machine α}
    (h : m.Holds P maximum) (c : Command) : (m.perform c).1.Holds P maximum := by
  cases c with
  | binary op =>
      exact h.withStack (Stack.forall_computeBinary hP h.values m.policy op h.precision)
  | unary op =>
      exact h.withStack (Stack.forall_computeUnary hP h.values m.policy op h.precision)
  | printTop =>
      unfold perform
      cases m.stack.peek 0 <;> exact h
  | duplicate =>
      obtain ⟨⟨operands⟩, precision, maxPrecision, policy, running⟩ := m
      cases operands with
      | nil => exact h
      | cons a rest =>
          have ha := h.values a List.mem_cons_self
          exact h.withStack (List.forall_mem_cons.mpr ⟨ha, h.values⟩)
  | clear =>
      obtain ⟨⟨operands⟩, precision, maxPrecision, policy, running⟩ := m
      cases operands with
      | nil => exact h
      | cons a rest => exact h.withStack (List.forall_mem_nil _)
  | quit => exact ⟨h.values, h.precision, h.maxPrecision⟩
  | dump => exact h
  | printSize => exact h
  | setPrecision => exact h
  | negate => exact h

theorem holds_setPrecision {m : Machine α} (h : m.Holds P maximum) (text : List Char) :
    (m.setPrecision text).1.Holds P maximum := by
  rcases m.setPrecision_cases text with
    ⟨-, hset⟩ | ⟨a, -, ⟨-, hset⟩ | ⟨precision, -, hle, hset⟩⟩
  · rw [hset]
    exact h
  · rw [hset]
    exact h
  · rw [hset]
    exact ⟨h.values, h.maxPrecision ▸ hle, h.maxPrecision⟩

theorem holds_pushLiteral (hP : Operand.Establishes P maximum) {m : Machine α}
    (h : m.Holds P maximum) (negate : Bool) (text : List Char) :
    (m.pushLiteral negate text).1.Holds P maximum := by
  rcases m.pushLiteral_cases negate text with ⟨-, hpush⟩ | ⟨a, hread, hpush⟩
  · rw [hpush]
    exact h
  · have ha : P a := hP.literal hread
    rw [hpush]
    refine h.withStack (List.forall_mem_cons.mpr ⟨?_, h.values⟩)
    cases negate with
    | false => exact ha
    | true => exact hP.neg ha

/-- One token keeps a property of all values. -/
theorem holds_step (hP : Operand.Establishes P maximum) {s : LineState α}
    (h : s.machine.Holds P maximum) (t : Token) : (s.step t).1.machine.Holds P maximum := by
  cases t with
  | command c =>
      rw [LineState.step_command]
      exact holds_perform hP h c
  | literal text =>
      cases hp : s.pending.precision with
      | true =>
          rw [LineState.step_literal_of_precision hp]
          exact holds_setPrecision h text
      | false =>
          rw [LineState.step_literal_of_operand hp]
          exact holds_pushLiteral hP h s.pending.negate text
  | invalid c => exact h

theorem holds_run (hP : Operand.Establishes P maximum) {s : LineState α}
    (h : s.machine.Holds P maximum) (ts : List Token) :
    (s.run ts).1.machine.Holds P maximum := by
  induction ts generalizing s with
  | nil => exact h
  | cons t ts ih =>
      rw [LineState.run_cons]
      exact ih (holds_step hP h t)

/-- A whole session keeps a property of all values. -/
theorem holds_evaluateAll (hP : Operand.Establishes P maximum) {m : Machine α}
    (h : m.Holds P maximum) (lines : List (List Char)) :
    (m.evaluateAll lines).1.Holds P maximum := by
  induction lines generalizing m with
  | nil => exact h
  | cons line lines ih => exact ih (holds_run (s := { machine := m }) hP h (Token.ofLine line))

end Machine

end DeskCalc
