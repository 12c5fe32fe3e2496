import DeskCalc.Machine

/-!
# Steps by kind of token

What one token does, as an equation for each kind: a command acts on the calculator
and may raise a flag, and a literal is taken by what waits for it.
-/

namespace DeskCalc

variable {α : Type} [Operand α]

/-- The flags after a command. -/
def Pending.raise (p : Pending) : Command → Pending
  | .setPrecision => { p with precision := true }
  | .negate => { p with negate := true }
  | _ => p

namespace LineState

theorem step_command (s : LineState α) (c : Command) :
    s.step (.command c) =
      (⟨(s.machine.perform c).1, s.pending.raise c⟩, (s.machine.perform c).2) := by
  cases c <;> rfl

theorem step_literal_of_precision {s : LineState α} (h : s.pending.precision = true)
    (text : List Char) :
    s.step (.literal text) =
      (⟨(s.machine.setPrecision text).1, { s.pending with precision := false }⟩,
        (s.machine.setPrecision text).2) := by
  simp only [step, consume, if_pos h]

theorem step_literal_of_operand {s : LineState α} (h : s.pending.precision = false)
    (text : List Char) :
    s.step (.literal text) =
      (⟨(s.machine.pushLiteral s.pending.negate text).1, { s.pending with negate := false }⟩,
        (s.machine.pushLiteral s.pending.negate text).2) := by
  simp only [step, consume, h, Bool.false_eq_true, if_false]

/-- An operator that succeeds has no events. -/
theorem emitted_map (result : Except Fault Unit) :
    emitted (result.map fun _ => []) =
      match result with
      | .ok _ => []
      | .error cause => [.fault cause] := by
  cases result <;> rfl

end LineState

/-- A literal for the precision is refused, or denotes one that may be set. -/
theorem Machine.setPrecision_cases (m : Machine α) (text : List Char) :
    (Operand.ofLiteral? (α := α) text = none ∧
        m.setPrecision text = (m, .error .malformedLiteral)) ∨
      ∃ a : α, Operand.ofLiteral? text = some a ∧
        (((Operand.toPrecision? a).filter (· ≤ m.maxPrecision) = none ∧
            m.setPrecision text = (m, .error .invalidPrecision)) ∨
          ∃ precision, Operand.toPrecision? a = some precision ∧ precision ≤ m.maxPrecision ∧
            m.setPrecision text = ({ m with precision }, .ok [.precision precision])) := by
  unfold setPrecision
  cases hread : Operand.ofLiteral? (α := α) text with
  | none => exact Or.inl ⟨rfl, rfl⟩
  | some a =>
      refine Or.inr ⟨a, rfl, ?_⟩
      cases hp : (Operand.toPrecision? a).filter (· ≤ m.maxPrecision) with
      | none => exact Or.inl ⟨rfl, by simp only [hp]⟩
      | some precision =>
          obtain ⟨hvalue, hle⟩ := Option.filter_eq_some_iff.mp hp
          exact Or.inr ⟨precision, hvalue, of_decide_eq_true hle, by simp only [hp]⟩

theorem Machine.setPrecision_of_value {m : Machine α} {text : List Char} {a : α}
    {precision : Nat} (hread : Operand.ofLiteral? text = some a)
    (hvalue : Operand.toPrecision? a = some precision) (hle : precision ≤ m.maxPrecision) :
    m.setPrecision text = ({ m with precision }, .ok [.precision precision]) := by
  rcases m.setPrecision_cases text with ⟨hnone, -⟩ | ⟨b, hb, hset⟩
  · exact nomatch hnone.symm.trans hread
  · cases hb.symm.trans hread
    rcases hset with ⟨hfilter, -⟩ | ⟨p, hp, -, hset⟩
    · rw [hvalue, Option.filter_some, if_pos (decide_eq_true hle)] at hfilter
      cases hfilter
    · cases hp.symm.trans hvalue
      exact hset

/-- A literal for the stack is refused or pushed, negated if a negation waits. -/
theorem Machine.pushLiteral_cases (m : Machine α) (negate : Bool) (text : List Char) :
    (Operand.ofLiteral? (α := α) text = none ∧
        m.pushLiteral negate text = (m, .error .malformedLiteral)) ∨
      ∃ a : α, Operand.ofLiteral? text = some a ∧
        m.pushLiteral negate text =
          ({ m with stack := m.stack.push (if negate then Operand.neg a else a) }, .ok []) := by
  unfold pushLiteral
  cases hread : Operand.ofLiteral? (α := α) text with
  | none => exact Or.inl ⟨rfl, rfl⟩
  | some a => exact Or.inr ⟨a, rfl, rfl⟩

/-- A literal is malformed, whatever waits for it, exactly if the number type does not read
it. -/
theorem LineState.step_literal_eq_malformed_iff (s : LineState α) (text : List Char) :
    (s.step (.literal text)).2 = .error .malformedLiteral ↔
      Operand.ofLiteral? (α := α) text = none := by
  cases hp : s.pending.precision with
  | true =>
      rw [step_literal_of_precision hp]
      rcases s.machine.setPrecision_cases text with
        ⟨hnone, h⟩ | ⟨a, hread, ⟨-, h⟩ | ⟨precision, -, -, h⟩⟩
      · exact iff_of_true (congrArg Prod.snd h) hnone
      · rw [h, hread]
        exact iff_of_false nofun nofun
      · rw [h, hread]
        exact iff_of_false nofun nofun
  | false =>
      rw [step_literal_of_operand hp]
      rcases s.machine.pushLiteral_cases s.pending.negate text with ⟨hnone, h⟩ | ⟨a, hread, h⟩
      · exact iff_of_true (congrArg Prod.snd h) hnone
      · rw [h, hread]
        exact iff_of_false nofun nofun

/-- A literal changes at most the stack and the precision. -/
theorem LineState.machine_step_literal (s : LineState α) (text : List Char) :
    ∃ stack precision,
      (s.step (.literal text)).1.machine = { s.machine with stack, precision } := by
  cases hp : s.pending.precision with
  | true =>
      rw [step_literal_of_precision hp]
      rcases s.machine.setPrecision_cases text with
        ⟨-, h⟩ | ⟨a, -, ⟨-, h⟩ | ⟨precision, -, -, h⟩⟩
      · exact ⟨_, _, congrArg Prod.fst h⟩
      · exact ⟨_, _, congrArg Prod.fst h⟩
      · exact ⟨_, _, congrArg Prod.fst h⟩
  | false =>
      rw [step_literal_of_operand hp]
      rcases s.machine.pushLiteral_cases s.pending.negate text with ⟨-, h⟩ | ⟨a, -, h⟩
      · exact ⟨_, _, congrArg Prod.fst h⟩
      · exact ⟨_, _, congrArg Prod.fst h⟩

/-- A command changes at most the stack, unless it is the one to quit. -/
theorem Machine.perform_machine (m : Machine α) (c : Command) :
    ∃ stack, (m.perform c).1 =
      { m with stack, running := if c = .quit then false else m.running } := by
  cases c with
  | printTop =>
      cases h : m.stack.peek 0 <;> exact ⟨m.stack, by simp [perform, h]⟩
  | duplicate =>
      cases h : m.stack.duplicate with
      | ok stack => exact ⟨stack, by simp [perform, h]⟩
      | error cause => exact ⟨m.stack, by simp [perform, h]⟩
  | clear =>
      cases h : m.stack.clear with
      | ok result => exact ⟨result.2, by simp [perform, h]⟩
      | error cause => exact ⟨m.stack, by simp [perform, h]⟩
  | _ => exact ⟨_, rfl⟩

/-- What no token changes: the largest precision and the policy. -/
def Machine.limits (m : Machine α) : Nat × FailurePolicy := (m.maxPrecision, m.policy)

theorem LineState.limits_step (s : LineState α) (t : Token) :
    (s.step t).1.machine.limits = s.machine.limits := by
  cases t with
  | command c =>
      obtain ⟨stack, h⟩ := s.machine.perform_machine c
      rw [step_command, h]
      rfl
  | literal text =>
      obtain ⟨stack, precision, h⟩ := s.machine_step_literal text
      rw [h]
      rfl
  | invalid c => rfl

theorem LineState.policy_step (s : LineState α) (t : Token) :
    (s.step t).1.machine.policy = s.machine.policy :=
  congrArg Prod.snd (s.limits_step t)

theorem LineState.limits_run (s : LineState α) (ts : List Token) :
    (s.run ts).1.machine.limits = s.machine.limits := by
  induction ts generalizing s with
  | nil => rfl
  | cons t ts ih =>
      rw [run_cons, ih]
      exact s.limits_step t

theorem Machine.limits_evaluate (m : Machine α) (line : List Char) :
    (m.evaluate line).1.limits = m.limits :=
  LineState.limits_run { machine := m } (Token.ofLine line)

theorem Machine.policy_evaluate (m : Machine α) (line : List Char) :
    (m.evaluate line).1.policy = m.policy :=
  congrArg Prod.snd (m.limits_evaluate line)

/-- Only a token to quit stops a calculator. -/
theorem LineState.running_step (s : LineState α) (t : Token) :
    (s.step t).1.machine.running = true ↔
      s.machine.running = true ∧ t ≠ .command .quit := by
  cases t with
  | command c =>
      obtain ⟨stack, h⟩ := s.machine.perform_machine c
      rw [step_command, h]
      by_cases hquit : c = .quit <;> simp [hquit]
  | literal text =>
      obtain ⟨stack, precision, h⟩ := s.machine_step_literal text
      rw [h]
      simp
  | invalid c => simp [step]

theorem LineState.running_run (s : LineState α) (ts : List Token) :
    (s.run ts).1.machine.running = true ↔
      s.machine.running = true ∧ Token.command .quit ∉ ts := by
  induction ts generalizing s with
  | nil => simp
  | cons t ts ih =>
      rw [run_cons, ih, s.running_step t, List.mem_cons, not_or, and_assoc]
      exact and_congr_right fun _ => and_congr_left' ne_comm

section Collected

variable {β : Type} (f : LineState α → Token → List β)

/-- What is found in tokens is found in one of them, in the state behind those before it. -/
theorem LineState.mem_collect {s : LineState α} {ts : List Token} {b : β} :
    b ∈ s.collect f ts ↔
      ∃ before t after, ts = before ++ t :: after ∧ b ∈ f (s.run before).1 t := by
  induction ts generalizing s with
  | nil => simp [collect]
  | cons t ts ih =>
      rw [collect, List.mem_append, ih]
      constructor
      · rintro (hb | ⟨before, u, after, rfl, hb⟩)
        · exact ⟨[], t, ts, rfl, hb⟩
        · exact ⟨t :: before, u, after, rfl, hb⟩
      · rintro ⟨_ | ⟨u, before⟩, v, after, hts, hb⟩
        · obtain ⟨rfl, -⟩ := List.cons.inj hts
          exact Or.inl hb
        · obtain ⟨rfl, rfl⟩ := List.cons.inj hts
          exact Or.inr ⟨before, v, after, rfl, hb⟩

namespace Machine

theorem collectAll_append (m : Machine α) (lines more : List (List Char)) :
    m.collectAll f (lines ++ more) =
      m.collectAll f lines ++ (m.evaluateAll lines).1.collectAll f more := by
  induction lines generalizing m with
  | nil => rfl
  | cons line lines ih =>
      rw [List.cons_append, collectAll, collectAll, ih, List.append_assoc]
      rfl

/-- In the first lines nothing is found that is not found in all lines. -/
theorem collectAll_take_subset (m : Machine α) (lines : List (List Char)) (n : Nat) :
    m.collectAll f (lines.take n) ⊆ m.collectAll f lines := by
  intro b hb
  rw [← List.take_append_drop n lines, collectAll_append]
  exact List.mem_append_left _ hb

end Machine

end Collected

end DeskCalc
