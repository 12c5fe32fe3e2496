import DeskCalc.Print
import DeskCalc.Proofs.StackInvariant

/-!
# What a session prints

The values that a session shows are those of its prints, and nothing else is shown of them.
They come from the stack, each at the precision in force, so what holds of all values on the
stack holds of all that is printed.
-/

namespace DeskCalc

/-- The text of an event that shows a value. -/
def Event.text? : Event → Option String
  | .value text => some text
  | _ => none

variable {α : Type} [Operand α]

/-- What a command shows are the texts of its prints. -/
theorem Machine.texts_perform (m : Machine α) (c : Command) :
    (LineState.emitted (m.perform c).2).filterMap Event.text? =
      (m.printed c).map Print.text := by
  cases c with
  | binary op =>
      simp only [perform, LineState.emitted_map]
      split <;> rfl
  | unary op =>
      simp only [perform, LineState.emitted_map]
      split <;> rfl
  | printTop =>
      obtain ⟨⟨operands⟩, precision, maxPrecision, policy, running⟩ := m
      cases operands with
      | nil => rfl
      | cons a below => rfl
  | dump => simp [perform, LineState.emitted, printed, Event.text?, Print.text, Function.comp_def]
  | duplicate =>
      unfold perform
      cases m.stack.duplicate <;> rfl
  | clear =>
      unfold perform
      cases m.stack.clear <;> rfl
  | printSize => rfl
  | quit => rfl
  | setPrecision => rfl
  | negate => rfl

theorem LineState.texts_step (s : LineState α) (t : Token) :
    (emitted (s.step t).2).filterMap Event.text? = (s.printed t).map Print.text := by
  cases t with
  | command c =>
      rw [step_command]
      exact s.machine.texts_perform c
  | literal text =>
      cases hp : s.pending.precision with
      | true =>
          rw [step_literal_of_precision hp]
          rcases s.machine.setPrecision_cases text with
            ⟨-, h⟩ | ⟨a, -, ⟨-, h⟩ | ⟨precision, -, -, h⟩⟩ <;> rw [h] <;> rfl
      | false =>
          rw [step_literal_of_operand hp]
          rcases s.machine.pushLiteral_cases s.pending.negate text with ⟨-, h⟩ | ⟨a, -, h⟩ <;>
            rw [h] <;> rfl
  | invalid c => rfl

theorem LineState.texts_run (s : LineState α) (ts : List Token) :
    (s.run ts).2.filterMap Event.text? = (s.collect printed ts).map Print.text := by
  induction ts generalizing s with
  | nil => rfl
  | cons t ts ih =>
      rw [run_cons, List.filterMap_append, texts_step, ih, collect, List.map_append]

namespace Machine

/-- The values that a session shows are those that it prints, each at the precision in
force. -/
theorem texts_evaluateAll (m : Machine α) (lines : List (List Char)) :
    (m.evaluateAll lines).2.filterMap Event.text? = (m.printsAll lines).map Print.text := by
  induction lines generalizing m with
  | nil => rfl
  | cons line lines ih =>
      have hline : (m.evaluate line).2.filterMap Event.text? = (m.prints line).map Print.text :=
        LineState.texts_run { machine := m } (Token.ofLine line)
      change ((m.evaluate line).2 ++ ((m.evaluate line).1.evaluateAll lines).2).filterMap _ = _
      rw [List.filterMap_append, hline, ih, printsAll, printsAll, collectAll, List.map_append]
      rfl

variable {P : α → Prop} {maximum : Nat}

omit [Operand α] in
theorem Holds.printed {m : Machine α} (h : m.Holds P maximum) {c : Command} {p : Print α}
    (hp : p ∈ m.printed c) : P p.value ∧ p.places ≤ maximum := by
  -- Both commands that print take their values from the stack.
  have hstack (a : α) (ha : a ∈ m.stack.toList) (heq : ⟨a, m.precision⟩ = p) :
      P p.value ∧ p.places ≤ maximum := by
    subst heq
    exact ⟨h.values a ha, h.precision⟩
  cases c with
  | printTop =>
      obtain ⟨a, ha, heq⟩ := List.mem_map.mp hp
      exact hstack a (List.mem_of_mem_take ha) heq
  | dump =>
      obtain ⟨a, ha, heq⟩ := List.mem_map.mp hp
      exact hstack a ha heq
  | _ => cases hp

/-- What all values of a session have in common is so of those that it prints, and no
precision is above the largest one. -/
theorem Holds.prints {s : LineState α} (hP : Operand.Establishes P maximum)
    (h : s.machine.Holds P maximum) {ts : List Token} {p : Print α}
    (hp : p ∈ s.collect LineState.printed ts) : P p.value ∧ p.places ≤ maximum := by
  obtain ⟨before, t, after, -, hprinted⟩ := (LineState.mem_collect _).mp hp
  cases t with
  | command c => exact (holds_run hP h before).printed hprinted
  | literal text => cases hprinted
  | invalid c => cases hprinted

theorem Holds.printsAll {m : Machine α} (hP : Operand.Establishes P maximum)
    (h : m.Holds P maximum) {lines : List (List Char)} {p : Print α}
    (hp : p ∈ m.printsAll lines) : P p.value ∧ p.places ≤ maximum := by
  induction lines generalizing m with
  | nil => cases hp
  | cons line lines ih =>
      rcases List.mem_append.mp hp with hp | hp
      · exact Holds.prints (s := { machine := m }) hP h hp
      · exact ih (holds_run (s := { machine := m }) hP h (Token.ofLine line)) hp

/-- Every precision of a session can be set, whatever its values are. -/
theorem establishes_true (maximum : Nat) : Operand.Establishes (fun _ : α => True) maximum :=
  ⟨trivial, fun _ => trivial, fun _ => trivial, fun _ _ _ => trivial, fun _ _ _ _ => trivial⟩

end Machine

end DeskCalc
