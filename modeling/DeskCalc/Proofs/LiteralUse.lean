import DeskCalc.Decimal96
import DeskCalc.Proofs.Steps
import Mathlib.Data.List.Basic
import Mathlib.Data.List.Induction

/-!
# What literals are used for

A literal sets the precision if a `k` stands behind the literal before it, and is an operand
otherwise. An operand is negated if a `_` stands behind the operand before it. The calculator
keeps two flags for this. They say at every place of a line what the tokens in front of that place
say, so the line alone settles what each of its literals is used for.
-/

namespace DeskCalc

namespace Token

/-- Whether `mark` occurs in the tokens `before` and is taken by none that stands behind it. What a
token takes may depend on the tokens in front of it. -/
def Waits (mark : Token) (takes : List Token → Token → Prop) (before : List Token) : Prop :=
  ∃ front back, before = front ++ mark :: back ∧
    ∀ middle t rest, back = middle ++ t :: rest → ¬ takes (front ++ mark :: middle) t

/-- Whether a `k` stands behind the last literal: a literal at this place sets the precision. -/
def SetsPrecision (before : List Token) : Prop :=
  Waits (.command .setPrecision) (fun _ t => ∃ text, t = literal text) before

/-- Whether a `_` stands behind the last operand: an operand at this place is negated. -/
def NegatesOperand (before : List Token) : Prop :=
  Waits (.command .negate) (fun earlier t => (∃ text, t = literal text) ∧ ¬ SetsPrecision earlier)
    before

section Waits

variable {mark : Token} {takes : List Token → Token → Prop}

theorem not_waits_nil : ¬ Waits mark takes [] := by
  rintro ⟨front, back, h, -⟩
  exact absurd h (by simp)

/-- What waits behind one more token is that token, or waited before and is not taken by it. -/
theorem waits_concat {before : List Token} {t : Token} :
    Waits mark takes (before ++ [t]) ↔ t = mark ∨ Waits mark takes before ∧ ¬ takes before t := by
  constructor
  · rintro ⟨front, back, h, hback⟩
    rcases List.eq_nil_or_concat' back with rfl | ⟨back, u, rfl⟩
    · exact Or.inl (List.cons.inj (List.append_inj' h rfl).2).1
    · rw [← List.cons_append, ← List.append_assoc] at h
      obtain ⟨rfl, hlast⟩ := List.append_inj' h rfl
      cases hlast
      refine Or.inr ⟨⟨front, back, rfl, ?_⟩, hback back t [] rfl⟩
      intro middle v rest hsplit
      exact hback middle v (rest ++ [t]) (by rw [hsplit]; simp)
  · rintro (rfl | ⟨⟨front, back, rfl, hback⟩, htakes⟩)
    · exact ⟨before, [], rfl, fun middle u rest h => absurd h (by simp)⟩
    · refine ⟨front, back ++ [t], by simp, ?_⟩
      intro middle u rest h
      rcases List.eq_nil_or_concat' rest with rfl | ⟨rest, v, rfl⟩
      · obtain ⟨rfl, hlast⟩ := List.append_inj' h rfl
        cases hlast
        exact htakes
      · rw [← List.cons_append, ← List.append_assoc] at h
        exact hback middle u rest (List.append_inj' h rfl).1

end Waits

theorem setsPrecision_concat {before : List Token} {t : Token} :
    SetsPrecision (before ++ [t]) ↔
      t = .command .setPrecision ∨ SetsPrecision before ∧ ¬ ∃ text, t = literal text :=
  waits_concat

theorem negatesOperand_concat {before : List Token} {t : Token} :
    NegatesOperand (before ++ [t]) ↔
      t = .command .negate ∨
        NegatesOperand before ∧ ¬ ((∃ text, t = literal text) ∧ ¬ SetsPrecision before) :=
  waits_concat

/-- The tokens that have a say in what literals are used for. -/
def isMark : Token → Bool
  | .command .setPrecision => true
  | .command .negate => true
  | .literal _ => true
  | _ => false

/-- Other commands and invalid characters in front of a place do not matter there. -/
theorem uses_filter_isMark (before : List Token) :
    (SetsPrecision (before.filter isMark) ↔ SetsPrecision before) ∧
      (NegatesOperand (before.filter isMark) ↔ NegatesOperand before) := by
  induction before using List.reverseRecOn with
  | nil => exact ⟨Iff.rfl, Iff.rfl⟩
  | append_singleton before t ih =>
      obtain ⟨hprecision, hnegate⟩ := ih
      rw [List.filter_append]
      cases hmark : isMark t with
      | true =>
          rw [List.filter_cons_of_pos hmark, List.filter_nil, setsPrecision_concat,
            setsPrecision_concat, negatesOperand_concat, negatesOperand_concat, hprecision, hnegate]
          exact ⟨Iff.rfl, Iff.rfl⟩
      | false =>
          have hother : t ≠ .command .setPrecision ∧ t ≠ .command .negate ∧
              ¬ ∃ text, t = literal text := by
            refine ⟨?_, ?_, ?_⟩
            · rintro rfl
              cases hmark
            · rintro rfl
              cases hmark
            · rintro ⟨text, rfl⟩
              cases hmark
          obtain ⟨hk, hn, hliteral⟩ := hother
          rw [List.filter_cons_of_neg (by simp [hmark]), List.filter_nil, List.append_nil,
            setsPrecision_concat, negatesOperand_concat, hprecision, hnegate]
          constructor
          · exact ⟨fun h => Or.inr ⟨h, hliteral⟩, fun h => (h.resolve_left hk).1⟩
          · exact ⟨fun h => Or.inr ⟨h, fun htaken => hliteral htaken.1⟩,
              fun h => (h.resolve_left hn).1⟩

end Token

open Token (SetsPrecision NegatesOperand)

/-- Flags that say what the tokens in front of a place say. -/
structure Pending.Tells (p : Pending) (before : List Token) : Prop where
  precision : p.precision = true ↔ SetsPrecision before
  negate : p.negate = true ↔ NegatesOperand before

theorem Pending.tells_nil : Pending.Tells {} [] := by
  constructor
  · exact iff_of_false Bool.false_ne_true Token.not_waits_nil
  · exact iff_of_false Bool.false_ne_true Token.not_waits_nil

theorem Pending.precision_raise (p : Pending) (c : Command) :
    (p.raise c).precision = true ↔ c = .setPrecision ∨ p.precision = true := by
  cases c <;> simp [raise]

theorem Pending.negate_raise (p : Pending) (c : Command) :
    (p.raise c).negate = true ↔ c = .negate ∨ p.negate = true := by
  cases c <;> simp [raise]

variable {α : Type} [Operand α]

namespace LineState

/-- The flags behind a token say what the tokens up to it say. -/
theorem tells_step {s : LineState α} {before : List Token} (h : s.pending.Tells before)
    (t : Token) : (s.step t).1.pending.Tells (before ++ [t]) := by
  cases t with
  | command c =>
      rw [step_command]
      constructor
      · rw [Pending.precision_raise, h.precision, Token.setsPrecision_concat]
        simp
      · rw [Pending.negate_raise, h.negate, Token.negatesOperand_concat]
        simp
  | literal text =>
      cases hp : s.pending.precision with
      | true =>
          have hsets := h.precision.mp hp
          rw [step_literal_of_precision hp]
          constructor
          · simp [Token.setsPrecision_concat]
          · simp [Token.negatesOperand_concat, h.negate, hsets]
      | false =>
          have hsets : ¬ SetsPrecision before := mt h.precision.mpr (by simp [hp])
          rw [step_literal_of_operand hp]
          constructor
          · simp [Token.setsPrecision_concat, hp]
          · simp [Token.negatesOperand_concat, hsets]
  | invalid c =>
      constructor
      · simp [step, Token.setsPrecision_concat, h.precision]
      · simp [step, Token.negatesOperand_concat, h.negate]

theorem tells_run {s : LineState α} {before : List Token} (h : s.pending.Tells before)
    (ts : List Token) : (s.run ts).1.pending.Tells (before ++ ts) := by
  induction ts generalizing s before with
  | nil =>
      rw [List.append_nil]
      exact h
  | cons t ts ih =>
      have hrest := ih (tells_step h t)
      rw [List.append_assoc] at hrest
      exact hrest

end LineState

namespace Machine

/-- What a literal behind the tokens `before` of its line makes of the calculator `m`, and what is
reported of it. -/
structure UsedByPlace (before : List Token) (text : List Char) (m n : Machine α)
    (events : List Event) : Prop where
  malformed : Operand.ofLiteral? (α := α) text = none →
    n = m ∧ events = [.fault .malformedLiteral]
  /-- A precision is set if the literal denotes one that may be set. -/
  precision : SetsPrecision before → ∀ a : α, Operand.ofLiteral? text = some a →
    (∃ precision, Operand.toPrecision? a = some precision ∧ precision ≤ m.maxPrecision ∧
        n = { m with precision } ∧ events = [.precision precision]) ∨
      ((∀ precision, Operand.toPrecision? a = some precision → m.maxPrecision < precision) ∧
        n = m ∧ events = [.fault .invalidPrecision])
  negated : ¬ SetsPrecision before → NegatesOperand before →
    ∀ a : α, Operand.ofLiteral? text = some a →
      n = { m with stack := m.stack.push (Operand.neg a) } ∧ events = []
  plain : ¬ SetsPrecision before → ¬ NegatesOperand before →
    ∀ a : α, Operand.ofLiteral? text = some a →
      n = { m with stack := m.stack.push a } ∧ events = []
  /-- The stack tells the use of a literal that is not malformed. -/
  stack : Operand.ofLiteral? (α := α) text ≠ none → (n.stack = m.stack ↔ SetsPrecision before)

/-- A literal behind a `k`. -/
theorem usedByPlace_setPrecision {before : List Token} (h : SetsPrecision before) (m : Machine α)
    (text : List Char) :
    UsedByPlace before text m (m.setPrecision text).1
      (LineState.emitted (m.setPrecision text).2) := by
  have hstack : (m.setPrecision text).1.stack = m.stack := by
    rcases m.setPrecision_cases text with ⟨-, hset⟩ | ⟨a, -, ⟨-, hset⟩ | ⟨precision, -, -, hset⟩⟩
    all_goals rw [hset]
  constructor
  · intro hnone
    rcases m.setPrecision_cases text with ⟨-, hset⟩ | ⟨a, ha, -⟩
    · rw [hset]
      exact ⟨rfl, rfl⟩
    · exact nomatch hnone.symm.trans ha
  · intro _ a ha
    rcases m.setPrecision_cases text with ⟨hnone, -⟩ | ⟨b, hb, hset⟩
    · exact nomatch hnone.symm.trans ha
    · cases hb.symm.trans ha
      rcases hset with ⟨hfilter, hset⟩ | ⟨precision, hvalue, hle, hset⟩
      · refine Or.inr ⟨?_, by rw [hset], by rw [hset]; rfl⟩
        intro precision hvalue
        rw [hvalue] at hfilter
        simpa using hfilter
      · exact Or.inl ⟨precision, hvalue, hle, by rw [hset], by rw [hset]; rfl⟩
  · exact fun hno => absurd h hno
  · exact fun hno => absurd h hno
  · exact fun _ => iff_of_true hstack h

/-- A literal with no `k` for it. -/
theorem usedByPlace_pushLiteral {before : List Token} (h : ¬ SetsPrecision before) {negate : Bool}
    (hnegate : negate = true ↔ NegatesOperand before) (m : Machine α) (text : List Char) :
    UsedByPlace before text m (m.pushLiteral negate text).1
      (LineState.emitted (m.pushLiteral negate text).2) := by
  rcases m.pushLiteral_cases negate text with ⟨hnone, hpush⟩ | ⟨a, ha, hpush⟩
  · rw [hpush]
    constructor
    · exact fun _ => ⟨rfl, rfl⟩
    · exact fun hk => absurd hk h
    · exact fun _ _ a ha => nomatch hnone.symm.trans ha
    · exact fun _ _ a ha => nomatch hnone.symm.trans ha
    · exact fun hsome => absurd hnone hsome
  · rw [hpush]
    constructor
    · exact fun hnone => nomatch hnone.symm.trans ha
    · exact fun hk => absurd hk h
    · intro _ hn b hb
      cases hb.symm.trans ha
      rw [if_pos (hnegate.mpr hn)]
      exact ⟨rfl, rfl⟩
    · intro _ hn b hb
      cases hb.symm.trans ha
      rw [if_neg (mt hnegate.mp hn)]
      exact ⟨rfl, rfl⟩
    · intro _
      refine iff_of_false ?_ h
      intro hsame
      have hlength := congrArg Stack.size hsame
      simp at hlength

/-- What a literal is used for is settled by the tokens in front of it in its line, and of these by
the literals, the `k` and the `_` alone. -/
theorem evaluate_usedByPlace (m : Machine α) (line : List Char) {before after : List Token}
    {text : List Char} (h : Token.ofLine line = before ++ .literal text :: after) :
    let s := (LineState.run { machine := m } before).1
    let t := s.step (.literal text)
    m.evaluate line = ((t.1.run after).1.machine,
        (LineState.run { machine := m } before).2 ++
          (LineState.emitted t.2 ++ (t.1.run after).2)) ∧
      UsedByPlace before text s.machine t.1.machine (LineState.emitted t.2) ∧
      ∀ other, other.filter Token.isMark = before.filter Token.isMark →
        (SetsPrecision other ↔ SetsPrecision before) ∧
          (NegatesOperand other ↔ NegatesOperand before) := by
  intro s t
  have htells : s.pending.Tells before := by
    have hrun := LineState.tells_run (s := { machine := m }) Pending.tells_nil before
    exact hrun
  refine ⟨?_, ?_, ?_⟩
  · rw [evaluate, h, LineState.run_append, LineState.run_cons]
  · cases hp : s.pending.precision with
    | true =>
        have hstep : t = _ := LineState.step_literal_of_precision hp text
        rw [hstep]
        exact usedByPlace_setPrecision (htells.precision.mp hp) s.machine text
    | false =>
        have hsets : ¬ SetsPrecision before := mt htells.precision.mpr (by simp [hp])
        have hstep : t = _ := LineState.step_literal_of_operand hp text
        rw [hstep]
        exact usedByPlace_pushLiteral hsets htells.negate s.machine text
  · intro other hmarks
    obtain ⟨hprecision, hnegate⟩ := Token.uses_filter_isMark other
    rw [← hprecision, ← hnegate, hmarks]
    exact Token.uses_filter_isMark before

/-- A negation that waits while a literal sets the precision and a command fails. -/
theorem evaluate_usedByPlace_negated :
    let m : Machine Decimal96 := { precision := 4, maxPrecision := 1000 }
    let before : List Token :=
      [.command .negate, .command .setPrecision, .literal ['3'], .invalid 'x', .command .printTop]
    let after : List Token := [.literal ['5']]
    let s := (LineState.run { machine := m } before).1
    let t := s.step (.literal ['4'])
    Token.ofLine "_k3xp4 5".toList = before ++ .literal ['4'] :: after ∧
      UsedByPlace before ['4'] s.machine t.1.machine (LineState.emitted t.2) := by
  intro m before after s t
  have h : Token.ofLine "_k3xp4 5".toList = before ++ .literal ['4'] :: after := by decide +kernel
  exact ⟨h, (evaluate_usedByPlace m "_k3xp4 5".toList h).2.1⟩

end Machine

end DeskCalc
