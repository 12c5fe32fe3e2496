import DeskCalc.Proofs.Steps
import Mathlib.Data.List.Forall2

/-!
# Calculators in lockstep

Two calculators, of the same number type or of different ones, carry out the same
tokens. A comparison says which values may lie at the same depth and what of an
event is compared. If operators and literals keep to it, so does a whole session.
-/

namespace DeskCalc

variable {α β : Type}

/-- What two calculators are asked to have in common. -/
structure Comparison (α β : Type) where
  /-- The values that may lie at the same depth. -/
  value : α → β → Prop
  /-- The precisions that may be in force, each with the largest one that may be set. -/
  settings : Nat × Nat → Nat × Nat → Prop
  /-- What of an event is compared, if it is compared. -/
  view : Event → Option Event

namespace Comparison

variable (C : Comparison α β)

def seen (events : List Event) : List Event := events.filterMap C.view

@[simp] theorem seen_nil : C.seen [] = [] := rfl

@[simp] theorem seen_cons (e : Event) (events : List Event) :
    C.seen (e :: events) = (C.view e).toList ++ C.seen events := by
  cases h : C.view e with
  | none => simp [seen, h]
  | some v => simp [seen, h]

@[simp] theorem seen_append (a b : List Event) : C.seen (a ++ b) = C.seen a ++ C.seen b :=
  List.filterMap_append

/-- Two calculators with comparable values at every depth. -/
structure Alike (m : Machine α) (m' : Machine β) : Prop where
  stack : List.Forall₂ C.value m.stack.toList m'.stack.toList
  settings : C.settings (m.precision, m.maxPrecision) (m'.precision, m'.maxPrecision)
  policy : m.policy = m'.policy
  running : m.running = m'.running

/-- Results that leave two calculators alike and show the same. -/
def Agree (r : Machine α × Except Fault (List Event))
    (r' : Machine β × Except Fault (List Event)) : Prop :=
  C.Alike r.1 r'.1 ∧ C.seen (LineState.emitted r.2) = C.seen (LineState.emitted r'.2)

variable [Operand α] [Operand β]

/-- Values that are comparable show the same and stay comparable when negated. -/
structure Lawful : Prop where
  shows : ∀ {a b s s'}, C.value a b → C.settings s s' →
    C.view (.value (Operand.toFixed a s.1)) = C.view (.value (Operand.toFixed b s'.1))
  neg : ∀ {a b}, C.value a b → C.value (Operand.neg a) (Operand.neg b)

/-- Results of an operator that leave comparable stacks under a policy. -/
def Settled (policy : FailurePolicy) :
    Except ArithmeticError α → Except ArithmeticError β → Prop
  | .ok a, .ok b => C.value a b
  | .ok a, .error e =>
    policy = .pushZero ∧ C.value a Operand.zero ∧ C.view (.fault (.arithmetic e)) = none
  | .error e, .ok b =>
    policy = .pushZero ∧ C.value Operand.zero b ∧ C.view (.fault (.arithmetic e)) = none
  | .error e, .error e' =>
    (policy = .pushZero → C.value Operand.zero Operand.zero) ∧
      C.view (.fault (.arithmetic e)) = C.view (.fault (.arithmetic e'))

/-- What a token owes for two calculators to stay alike: comparable results of an operator,
and a literal that is read alike. -/
def Meets (m : Machine α) (m' : Machine β) : Token → Prop
  | .command (.unary op) =>
    ∀ a below b below', m.stack.toList = a :: below → m'.stack.toList = b :: below' →
      C.Settled m.policy (Operand.unary op m.precision a) (Operand.unary op m'.precision b)
  | .command (.binary op) =>
    ∀ a₁ a₂ below b₁ b₂ below', m.stack.toList = a₂ :: a₁ :: below →
      m'.stack.toList = b₂ :: b₁ :: below' →
      C.Settled m.policy (Operand.binary op m.precision a₁ a₂)
        (Operand.binary op m'.precision b₁ b₂)
  | .literal text =>
    Option.Rel C.value (Operand.ofLiteral? text) (Operand.ofLiteral? text) ∧
      C.Agree (m.setPrecision text) (m'.setPrecision text)
  | _ => True

variable {C}

omit [Operand α] [Operand β] in
theorem Alike.withStack {m : Machine α} {m' : Machine β} (h : C.Alike m m')
    {s : Stack α} {s' : Stack β} (hs : List.Forall₂ C.value s.toList s'.toList) :
    C.Alike { m with stack := s } { m' with stack := s' } :=
  ⟨hs, h.settings, h.policy, h.running⟩

/-- Settled results leave comparable stacks, and failures among them show the same. -/
theorem receive_settled {policy : FailurePolicy} {below : List α} {below' : List β}
    (hbelow : List.Forall₂ C.value below below')
    {result : Except ArithmeticError α} {result' : Except ArithmeticError β}
    (h : C.Settled policy result result') :
    List.Forall₂ C.value (Stack.receive policy ⟨below⟩ result).1.toList
        (Stack.receive policy ⟨below'⟩ result').1.toList ∧
      C.seen (LineState.emitted ((Stack.receive policy ⟨below⟩ result).2.map fun _ => [])) =
        C.seen (LineState.emitted ((Stack.receive policy ⟨below'⟩ result').2.map fun _ => [])) := by
  cases result with
  | ok a =>
      cases result' with
      | ok b => exact ⟨.cons h hbelow, rfl⟩
      | error e =>
          obtain ⟨rfl, hvalue, hview⟩ := h
          refine ⟨.cons hvalue hbelow, ?_⟩
          simp [Stack.receive, LineState.emitted_map, hview]
  | error e =>
      cases result' with
      | ok b =>
          obtain ⟨rfl, hvalue, hview⟩ := h
          refine ⟨.cons hvalue hbelow, ?_⟩
          simp [Stack.receive, LineState.emitted_map, hview]
      | error e' =>
          obtain ⟨hzero, hview⟩ := h
          cases policy with
          | pushZero =>
              refine ⟨.cons (hzero rfl) hbelow, ?_⟩
              simp [Stack.receive, LineState.emitted_map, hview]
          | discard =>
              refine ⟨hbelow, ?_⟩
              simp [Stack.receive, LineState.emitted_map, hview]

/-- Values that are comparable are printed alike, from top to bottom. -/
theorem seen_values (hC : C.Lawful) {s s' : Nat × Nat} (hs : C.settings s s')
    {values : List α} {values' : List β} (h : List.Forall₂ C.value values values') :
    C.seen (values.map fun a => .value (Operand.toFixed a s.1)) =
      C.seen (values'.map fun b => .value (Operand.toFixed b s'.1)) := by
  induction h with
  | nil => rfl
  | cons hab _ ih =>
      simp only [List.map_cons, seen_cons]
      rw [hC.shows hab hs, ih]

theorem agree_unary {m : Machine α} {m' : Machine β} (h : C.Alike m m') (op : UnaryOperator)
    (hmeets : C.Meets m m' (.command (.unary op))) :
    C.Agree (m.perform (.unary op)) (m'.perform (.unary op)) := by
  obtain ⟨⟨operands⟩, precision, maximum, policy, running⟩ := m
  obtain ⟨⟨operands'⟩, precision', maximum', policy', running'⟩ := m'
  obtain rfl : policy = policy' := h.policy
  have hstack : List.Forall₂ C.value operands operands' := h.stack
  cases hstack with
  | nil => exact ⟨h, rfl⟩
  | cons hab hbelow =>
      obtain ⟨hleft, hseen⟩ := receive_settled hbelow (hmeets _ _ _ _ rfl rfl)
      exact ⟨h.withStack hleft, hseen⟩

theorem agree_binary {m : Machine α} {m' : Machine β} (h : C.Alike m m') (op : BinaryOperator)
    (hmeets : C.Meets m m' (.command (.binary op))) :
    C.Agree (m.perform (.binary op)) (m'.perform (.binary op)) := by
  obtain ⟨⟨operands⟩, precision, maximum, policy, running⟩ := m
  obtain ⟨⟨operands'⟩, precision', maximum', policy', running'⟩ := m'
  obtain rfl : policy = policy' := h.policy
  have hstack : List.Forall₂ C.value operands operands' := h.stack
  cases hstack with
  | nil => exact ⟨h, rfl⟩
  | cons _ htail =>
      cases htail with
      | nil => exact ⟨h.withStack .nil, rfl⟩
      | cons _ hbelow =>
          obtain ⟨hleft, hseen⟩ := receive_settled hbelow (hmeets _ _ _ _ _ _ rfl rfl)
          exact ⟨h.withStack hleft, hseen⟩

/-- Every command keeps two calculators alike, an operator if its results are settled. -/
theorem agree_perform (hC : C.Lawful) {m : Machine α} {m' : Machine β} (h : C.Alike m m')
    (c : Command) (hmeets : C.Meets m m' (.command c)) :
    C.Agree (m.perform c) (m'.perform c) := by
  have hlength := h.stack.length_eq
  cases c with
  | binary op => exact agree_binary h op hmeets
  | unary op => exact agree_unary h op hmeets
  | printTop =>
      obtain ⟨⟨operands⟩, precision, maximum, policy, running⟩ := m
      obtain ⟨⟨operands'⟩, precision', maximum', policy', running'⟩ := m'
      have hstack : List.Forall₂ C.value operands operands' := h.stack
      cases hstack with
      | nil => exact ⟨h, rfl⟩
      | cons hab hbelow => exact ⟨h, seen_values hC h.settings (.cons hab .nil)⟩
  | dump => exact ⟨h, seen_values hC h.settings h.stack⟩
  | printSize =>
      refine ⟨h, ?_⟩
      simp only [Machine.perform, Stack.size, hlength]
  | duplicate =>
      obtain ⟨⟨operands⟩, precision, maximum, policy, running⟩ := m
      obtain ⟨⟨operands'⟩, precision', maximum', policy', running'⟩ := m'
      have hstack : List.Forall₂ C.value operands operands' := h.stack
      cases hstack with
      | nil => exact ⟨h, rfl⟩
      | cons hab hbelow => exact ⟨h.withStack (.cons hab (.cons hab hbelow)), rfl⟩
  | clear =>
      obtain ⟨⟨operands⟩, precision, maximum, policy, running⟩ := m
      obtain ⟨⟨operands'⟩, precision', maximum', policy', running'⟩ := m'
      have hstack : List.Forall₂ C.value operands operands' := h.stack
      cases hstack with
      | nil => exact ⟨h, rfl⟩
      | cons hab hbelow =>
          refine ⟨h.withStack .nil, ?_⟩
          simp only [Machine.perform, Stack.clear, Stack.size, hlength, Stack.isEmpty,
            List.isEmpty_cons, Bool.false_eq_true, if_false]
  | quit => exact ⟨⟨h.stack, h.settings, h.policy, rfl⟩, rfl⟩
  | setPrecision => exact ⟨h, rfl⟩
  | negate => exact ⟨h, rfl⟩

omit [Operand α] [Operand β] in
/-- Two readings that correspond fail together or give related values. -/
private theorem rel_cases {R : α → β → Prop} {x : Option α} {y : Option β}
    (h : Option.Rel R x y) :
    (x = none ∧ y = none) ∨ ∃ a b, x = some a ∧ y = some b ∧ R a b := by
  cases h with
  | none => exact Or.inl ⟨rfl, rfl⟩
  | some hab => exact Or.inr ⟨_, _, rfl, rfl, hab⟩

theorem agree_pushLiteral (hC : C.Lawful) {m : Machine α} {m' : Machine β}
    (h : C.Alike m m') (negate : Bool) {text : List Char}
    (hread : Option.Rel C.value (Operand.ofLiteral? text) (Operand.ofLiteral? text)) :
    C.Agree (m.pushLiteral negate text) (m'.pushLiteral negate text) := by
  unfold Machine.pushLiteral
  rcases rel_cases hread with ⟨hx, hy⟩ | ⟨a, b, hx, hy, hab⟩
  · rw [hx, hy]
    exact ⟨h, rfl⟩
  · rw [hx, hy]
    refine ⟨h.withStack (.cons ?_ h.stack), rfl⟩
    cases negate with
    | false => exact hab
    | true => exact hC.neg hab

/-- Calculators that must have the same settings read a precision alike if they read its
literal alike. -/
theorem agree_setPrecision {m : Machine α} {m' : Machine β} (h : C.Alike m m')
    (hsettings : C.settings = Eq) {text : List Char}
    (hread : Option.Rel (fun a b => Operand.toPrecision? a = Operand.toPrecision? b)
      (Operand.ofLiteral? (α := α) text) (Operand.ofLiteral? (α := β) text)) :
    C.Agree (m.setPrecision text) (m'.setPrecision text) := by
  have hsame : (m.precision, m.maxPrecision) = (m'.precision, m'.maxPrecision) := by
    simpa only [hsettings] using h.settings
  obtain ⟨-, hmax⟩ := Prod.mk.inj hsame
  unfold Machine.setPrecision
  rcases rel_cases hread with ⟨hx, hy⟩ | ⟨a, b, hx, hy, hab⟩
  · rw [hx, hy]
    exact ⟨h, rfl⟩
  · simp only [hx, hy, hab, hmax]
    cases (Operand.toPrecision? b).filter (· ≤ m'.maxPrecision) with
    | none => exact ⟨h, rfl⟩
    | some precision =>
        refine ⟨⟨h.stack, ?_, h.policy, h.running⟩, rfl⟩
        rw [hsettings]

/-- One token keeps two states of a line alike if it meets what it owes. -/
theorem agree_step (hC : C.Lawful) {s : LineState α} {s' : LineState β}
    (h : C.Alike s.machine s'.machine) (hpending : s.pending = s'.pending) (t : Token)
    (hmeets : C.Meets s.machine s'.machine t) :
    C.Alike (s.step t).1.machine (s'.step t).1.machine ∧
      (s.step t).1.pending = (s'.step t).1.pending ∧
      C.seen (LineState.emitted (s.step t).2) = C.seen (LineState.emitted (s'.step t).2) := by
  cases t with
  | command c =>
      obtain ⟨hmachine, hseen⟩ := agree_perform hC h c hmeets
      rw [LineState.step_command, LineState.step_command, hpending]
      exact ⟨hmachine, rfl, hseen⟩
  | literal text =>
      obtain ⟨hread, hset⟩ := hmeets
      cases hp : s.pending.precision with
      | true =>
          rw [LineState.step_literal_of_precision hp,
            LineState.step_literal_of_precision (hpending ▸ hp), hpending]
          exact ⟨hset.1, rfl, hset.2⟩
      | false =>
          obtain ⟨hmachine, hseen⟩ := agree_pushLiteral hC h s.pending.negate hread
          rw [LineState.step_literal_of_operand hp,
            LineState.step_literal_of_operand (hpending ▸ hp), ← hpending]
          exact ⟨hmachine, rfl, hseen⟩
  | invalid c => exact ⟨h, hpending, rfl⟩

/-- Calculators stay alike along a line if a condition on what is left of the line grants
what its first token owes and passes on to the rest. -/
theorem agree_run (hC : C.Lawful) {P : LineState α → LineState β → List Token → Prop}
    (hP : ∀ s s' t ts, C.Alike s.machine s'.machine → P s s' (t :: ts) →
      C.Meets s.machine s'.machine t ∧ P (s.step t).1 (s'.step t).1 ts)
    (s : LineState α) (s' : LineState β) (ts : List Token) (hts : P s s' ts)
    (h : C.Alike s.machine s'.machine) (hpending : s.pending = s'.pending) :
    C.Alike (s.run ts).1.machine (s'.run ts).1.machine ∧
      C.seen (s.run ts).2 = C.seen (s'.run ts).2 := by
  induction ts generalizing s s' with
  | nil => exact ⟨h, rfl⟩
  | cons t ts ih =>
      obtain ⟨hmeets, hrest⟩ := hP s s' t ts h hts
      obtain ⟨hnext, hpending', hseen⟩ := agree_step hC h hpending t hmeets
      obtain ⟨hlast, hmore⟩ := ih _ _ hrest hnext hpending'
      rw [LineState.run_cons, LineState.run_cons]
      refine ⟨hlast, ?_⟩
      rw [seen_append, seen_append, hseen, hmore]

/-- Calculators stay alike along a session if a condition on the lines that are left grants
what the first line owes and passes on to the rest. -/
theorem agree_evaluateAll (hC : C.Lawful)
    {P : LineState α → LineState β → List Token → Prop}
    (hP : ∀ s s' t ts, C.Alike s.machine s'.machine → P s s' (t :: ts) →
      C.Meets s.machine s'.machine t ∧ P (s.step t).1 (s'.step t).1 ts)
    {Q : Machine α → Machine β → List (List Char) → Prop}
    (hQ : ∀ m m' line lines, Q m m' (line :: lines) →
      P { machine := m } { machine := m' } (Token.ofLine line) ∧
        Q (m.evaluate line).1 (m'.evaluate line).1 lines)
    (m : Machine α) (m' : Machine β) (lines : List (List Char)) (hlines : Q m m' lines)
    (h : C.Alike m m') :
    C.Alike (m.evaluateAll lines).1 (m'.evaluateAll lines).1 ∧
      C.seen (m.evaluateAll lines).2 = C.seen (m'.evaluateAll lines).2 := by
  induction lines generalizing m m' with
  | nil => exact ⟨h, rfl⟩
  | cons line lines ih =>
      obtain ⟨htokens, hrest⟩ := hQ m m' line lines hlines
      obtain ⟨hnext, hseen⟩ :=
        agree_run hC hP { machine := m } { machine := m' } (Token.ofLine line) htokens h rfl
      obtain ⟨hlast, hmore⟩ := ih _ _ hrest hnext
      refine ⟨hlast, ?_⟩
      change C.seen ((m.evaluate line).2 ++ ((m.evaluate line).1.evaluateAll lines).2) =
        C.seen ((m'.evaluate line).2 ++ ((m'.evaluate line).1.evaluateAll lines).2)
      rw [seen_append, seen_append]
      exact congrArg₂ (· ++ ·) hseen hmore

end Comparison

end DeskCalc
