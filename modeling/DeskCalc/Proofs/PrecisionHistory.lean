import DeskCalc.Calculator
import DeskCalc.Proofs.FixedPointText
import DeskCalc.Proofs.Steps

/-!
# The precision that events tell

The events of a session tell every change of the precision, so that their last one says
which precision is in force. What is shown in between has as many places as the events up
to there say.
-/

namespace DeskCalc

/-- The precision that an event sets. -/
def Event.precision? : Event → Option Nat
  | .precision digits => some digits
  | _ => none

/-- Whether an event sets no precision and shows no text without a property. -/
def Event.IsQuiet (Q : String → Prop) : Event → Prop
  | .precision _ => False
  | .value text => Q text
  | _ => True

theorem Event.IsQuiet.precision?_eq_none {Q : String → Prop} {e : Event} (h : e.IsQuiet Q) :
    e.precision? = none := by
  cases e with
  | precision digits => exact absurd h id
  | _ => rfl

/-- The precision that the last event to set one has set, or the one at the start. -/
def lastPrecision (start : Nat) (events : List Event) : Nat :=
  (events.filterMap Event.precision?).getLast?.getD start

theorem lastPrecision_append (start : Nat) (a b : List Event) :
    lastPrecision start (a ++ b) = lastPrecision (lastPrecision start a) b := by
  simp only [lastPrecision, List.filterMap_append, List.getLast?_append, Option.getD_or]

theorem lastPrecision_of_forall {events : List Event} (h : ∀ e ∈ events, e.precision? = none)
    (start : Nat) : lastPrecision start events = start := by
  have hnone : events.filterMap Event.precision? = [] := List.filterMap_eq_nil_iff.mpr h
  rw [lastPrecision, hnone]
  rfl

/-- The precision in force is that of the start or one that was set. -/
theorem lastPrecision_mem (start : Nat) (events : List Event) :
    lastPrecision start events = start ∨
      Event.precision (lastPrecision start events) ∈ events := by
  unfold lastPrecision
  cases hlast : (events.filterMap Event.precision?).getLast? with
  | none => exact Or.inl rfl
  | some digits =>
      obtain ⟨e, he, hdigits⟩ := List.mem_filterMap.mp (List.mem_of_getLast? hlast)
      cases e with
      | precision d =>
          cases hdigits
          exact Or.inr he
      | _ => cases hdigits

/-- Every text that is shown has a property at the precision that the events before it tell. -/
def ShownThroughout (P : Nat → String → Prop) (start : Nat) (events : List Event) : Prop :=
  ∀ before text after, events = before ++ .value text :: after →
    P (lastPrecision start before) text

theorem ShownThroughout.append {P : Nat → String → Prop} {start : Nat} {a b : List Event}
    (ha : ShownThroughout P start a) (hb : ShownThroughout P (lastPrecision start a) b) :
    ShownThroughout P start (a ++ b) := by
  intro before text after h
  rcases List.append_eq_append_iff.mp h with ⟨more, rfl, hmore⟩ | ⟨more, rfl, hmore⟩
  · rw [lastPrecision_append]
    exact hb more text after hmore
  · cases more with
    | nil =>
        have hfirst := hb [] text after hmore.symm
        rwa [List.append_nil] at hfirst
    | cons e more =>
        obtain ⟨rfl, -⟩ := List.cons.inj hmore
        exact ha before text more rfl

/-- Events that tell how the precision came from `start` to `final`, with no change to one
above `maximum`, and that show texts with a property at the precision in force. -/
structure TellsPrecision (P : Nat → String → Prop) (maximum start final : Nat)
    (events : List Event) : Prop where
  last : final = lastPrecision start events
  bounded : ∀ digits, Event.precision digits ∈ events → digits ≤ maximum
  shown : ShownThroughout P start events

namespace TellsPrecision

variable {P : Nat → String → Prop} {maximum start middle final : Nat}

theorem append {a b : List Event} (ha : TellsPrecision P maximum start middle a)
    (hb : TellsPrecision P maximum middle final b) :
    TellsPrecision P maximum start final (a ++ b) := by
  have hmiddle := ha.last
  subst hmiddle
  refine ⟨?_, ?_, ha.shown.append hb.shown⟩
  · rw [lastPrecision_append]
    exact hb.last
  · intro digits h
    rcases List.mem_append.mp h with h | h
    · exact ha.bounded digits h
    · exact hb.bounded digits h

theorem final_le {events : List Event} (h : TellsPrecision P maximum start final events)
    (hstart : start ≤ maximum) : final ≤ maximum := by
  rw [h.last]
  rcases lastPrecision_mem start events with hsame | hset
  · rw [hsame]
    exact hstart
  · exact h.bounded _ hset

/-- Events without a change of the precision. -/
theorem of_quiet {events : List Event} (h : ∀ e ∈ events, e.IsQuiet (P start)) :
    TellsPrecision P maximum start start events := by
  have hnone : ∀ e ∈ events, e.precision? = none := fun e he => (h e he).precision?_eq_none
  refine ⟨(lastPrecision_of_forall hnone start).symm, ?_, ?_⟩
  · intro digits hmem
    cases hnone _ hmem
  · rintro before text after rfl
    have hbefore : ∀ e ∈ before, e.precision? = none := fun e he =>
      hnone e (List.mem_append_left _ he)
    rw [lastPrecision_of_forall hbefore]
    exact h _ (List.mem_append_right _ List.mem_cons_self)

theorem precision {digits : Nat} (h : digits ≤ maximum) :
    TellsPrecision P maximum start digits [.precision digits] := by
  refine ⟨rfl, ?_, ?_⟩
  · intro d hd
    cases List.mem_singleton.mp hd
    exact h
  · intro before text after hevents
    have hmem : Event.value text ∈ [Event.precision digits] := by
      rw [hevents]
      exact List.mem_append_right _ List.mem_cons_self
    cases List.mem_singleton.mp hmem

end TellsPrecision

section Runs

variable {α : Type} [Operand α] {P : Nat → String → Prop}

/-- A command sets no precision, and what it shows is at the precision in force. -/
theorem Machine.isQuiet_of_mem_perform {m : Machine α} {Q : String → Prop}
    (hQ : ∀ a : α, Q (Operand.toFixed a m.precision)) (c : Command) :
    ∀ e ∈ LineState.emitted (m.perform c).2, e.IsQuiet Q := by
  have hfault (cause : Fault) : ∀ e ∈ [Event.fault cause], e.IsQuiet Q :=
    List.forall_mem_singleton.mpr trivial
  have hoperator (result : Except Fault Unit) :
      ∀ e ∈ LineState.emitted (result.map fun _ => []), e.IsQuiet Q := by
    cases result with
    | ok _ => exact List.forall_mem_nil _
    | error cause => exact hfault cause
  cases c with
  | binary op => exact hoperator _
  | unary op => exact hoperator _
  | printTop =>
      unfold perform
      cases m.stack.peek 0 with
      | ok a => exact List.forall_mem_singleton.mpr (hQ a)
      | error cause => exact hfault _
  | dump =>
      intro e he
      obtain ⟨a, -, rfl⟩ := List.mem_map.mp he
      exact hQ a
  | printSize => exact List.forall_mem_singleton.mpr trivial
  | duplicate =>
      unfold perform
      cases m.stack.duplicate with
      | ok stack => exact List.forall_mem_nil _
      | error cause => exact hfault _
  | clear =>
      unfold perform
      cases m.stack.clear with
      | ok result => exact List.forall_mem_singleton.mpr trivial
      | error cause => exact hfault _
  | quit => exact List.forall_mem_singleton.mpr trivial
  | setPrecision => exact List.forall_mem_nil _
  | negate => exact List.forall_mem_nil _

/-- One token tells what it does to the precision. -/
theorem LineState.tellsPrecision_step
    (hP : ∀ (a : α) precision, P precision (Operand.toFixed a precision)) (s : LineState α)
    (t : Token) :
    TellsPrecision P s.machine.maxPrecision s.machine.precision (s.step t).1.machine.precision
      (emitted (s.step t).2) := by
  have hfault (cause : Fault) : TellsPrecision P s.machine.maxPrecision s.machine.precision
      s.machine.precision [.fault cause] :=
    .of_quiet (List.forall_mem_singleton.mpr trivial)
  cases t with
  | command c =>
      obtain ⟨stack, hmachine⟩ := s.machine.perform_machine c
      have hquiet := Machine.isQuiet_of_mem_perform (m := s.machine) (fun a => hP a _) c
      rw [step_command, hmachine]
      exact .of_quiet hquiet
  | literal text =>
      cases hp : s.pending.precision with
      | true =>
          rw [step_literal_of_precision hp]
          rcases s.machine.setPrecision_cases text with
            ⟨-, hset⟩ | ⟨a, -, ⟨-, hset⟩ | ⟨precision, -, hle, hset⟩⟩
          · rw [hset]
            exact hfault _
          · rw [hset]
            exact hfault _
          · rw [hset]
            exact .precision hle
      | false =>
          rw [step_literal_of_operand hp]
          rcases s.machine.pushLiteral_cases s.pending.negate text with
            ⟨-, hpush⟩ | ⟨a, -, hpush⟩
          · rw [hpush]
            exact hfault _
          · rw [hpush]
            exact .of_quiet (List.forall_mem_nil _)
  | invalid c => exact hfault _

theorem LineState.tellsPrecision_run
    (hP : ∀ (a : α) precision, P precision (Operand.toFixed a precision)) (s : LineState α)
    (ts : List Token) :
    TellsPrecision P s.machine.maxPrecision s.machine.precision (s.run ts).1.machine.precision
      (s.run ts).2 := by
  induction ts generalizing s with
  | nil => exact .of_quiet (List.forall_mem_nil _)
  | cons t ts ih =>
      have hmaximum : (s.step t).1.machine.maxPrecision = s.machine.maxPrecision :=
        congrArg Prod.fst (s.limits_step t)
      have hrest := ih (s.step t).1
      rw [hmaximum] at hrest
      exact (tellsPrecision_step hP s t).append hrest

/-- All lines together tell what they do to the precision. -/
theorem Machine.tellsPrecision_evaluateAll
    (hP : ∀ (a : α) precision, P precision (Operand.toFixed a precision)) (m : Machine α)
    (lines : List (List Char)) :
    TellsPrecision P m.maxPrecision m.precision (m.evaluateAll lines).1.precision
      (m.evaluateAll lines).2 := by
  induction lines generalizing m with
  | nil => exact .of_quiet (List.forall_mem_nil _)
  | cons line lines ih =>
      have hline := LineState.tellsPrecision_run hP { machine := m } (Token.ofLine line)
      have hmaximum : (m.evaluate line).1.maxPrecision = m.maxPrecision :=
        congrArg Prod.fst (m.limits_evaluate line)
      have hrest := ih (m.evaluate line).1
      rw [hmaximum] at hrest
      exact hline.append hrest

/-- A literal for the precision is refused exactly if it denotes none that may be set, and
then it changes nothing. -/
theorem LineState.step_precision_cases (s : LineState α) (text : List Char)
    (h : s.pending.precision = true) :
    ((∃ cause, (s.step (.literal text)).2 = .error cause) ↔
        ∀ a : α, Operand.ofLiteral? text = some a →
          ∀ precision, Operand.toPrecision? a = some precision →
            s.machine.maxPrecision < precision) ∧
      ((∃ cause, (s.step (.literal text)).2 = .error cause) →
        (s.step (.literal text)).1.machine = s.machine) := by
  rw [step_literal_of_precision h]
  rcases s.machine.setPrecision_cases text with
    ⟨hread, hset⟩ | ⟨a, hread, ⟨hfilter, hset⟩ | ⟨precision, hvalue, hle, hset⟩⟩
  · rw [hset]
    refine ⟨iff_of_true ⟨_, rfl⟩ ?_, fun _ => rfl⟩
    intro a ha
    exact nomatch hread.symm.trans ha
  · rw [hset]
    refine ⟨iff_of_true ⟨_, rfl⟩ ?_, fun _ => rfl⟩
    intro b hb precision hvalue
    cases hread.symm.trans hb
    rw [hvalue, Option.filter_eq_none_iff] at hfilter
    exact Nat.not_le.mp fun hle => hfilter precision rfl (decide_eq_true hle)
  · rw [hset]
    refine ⟨iff_of_false nofun ?_, nofun⟩
    intro hall
    exact absurd hle (Nat.not_le.mpr (hall a hread precision hvalue))

end Runs

/-- The decimal number types show every value in fixed-point notation. -/
theorem isFixedPoint_toFixed {b : Backend} (h : b ≠ .float) (a : b.Value) (precision : Nat) :
    IsFixedPoint precision (Operand.toFixed a precision).toList := by
  cases b with
  | float => exact absurd rfl h
  | decimal => exact isFixedPoint_fixedPoint _ _ precision
  | bigDecimal => exact isFixedPoint_fixedPoint _ _ precision

/-- What the events of lines tell about the precision of the calculator of a configuration,
checked or not. -/
structure PrecisionHistory (c : Config) (lines : List (List Char)) : Prop where
  /-- The precision is the one that was set last. -/
  last : (c.machine.evaluateAll lines).1.precision =
    lastPrecision c.precision (c.machine.evaluateAll lines).2
  bounded : ∀ digits, Event.precision digits ∈ (c.machine.evaluateAll lines).2 →
    digits ≤ c.maxPrecision
  /-- No precision is above the largest one of a checked configuration. -/
  checked : ∀ build, c.check build = .ok () →
    (c.machine.evaluateAll lines).1.precision ≤ c.maxPrecision
  /-- A literal for the precision that denotes none that may be set is refused, and changes
  nothing; no other literal for the precision is refused. -/
  refused : ∀ (s : LineState c.backend.Value) text, s.pending.precision = true →
    ((∃ cause, (s.step (.literal text)).2 = .error cause) ↔
        ∀ a : c.backend.Value, Operand.ofLiteral? text = some a →
          ∀ precision, Operand.toPrecision? a = some precision →
            s.machine.maxPrecision < precision) ∧
      ((∃ cause, (s.step (.literal text)).2 = .error cause) →
        (s.step (.literal text)).1.machine = s.machine)
  /-- Every text that the decimal number types show has as many places as the precision that
  was in force, and no sign on a zero. -/
  shown : c.backend ≠ .float → ∀ before text after,
    (c.machine.evaluateAll lines).2 = before ++ .value text :: after →
      IsFixedPoint (lastPrecision c.precision before) text.toList

/-- The precision after any lines is what their events tell, on every number type. -/
theorem precisionHistory (c : Config) (lines : List (List Char)) : PrecisionHistory c lines := by
  have htold := Machine.tellsPrecision_evaluateAll (P := fun _ _ => True) (fun _ _ => trivial)
    c.machine lines
  refine ⟨htold.last, htold.bounded, fun build hcheck => ?_,
    fun s text h => s.step_precision_cases text h, fun hbackend => ?_⟩
  · exact htold.final_le (Config.precision_le_of_check hcheck)
  · exact (Machine.tellsPrecision_evaluateAll
      (P := fun precision text => IsFixedPoint precision text.toList)
      (isFixedPoint_toFixed hbackend) c.machine lines).shown

end DeskCalc
