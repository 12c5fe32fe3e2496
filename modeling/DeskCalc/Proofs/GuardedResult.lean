import DeskCalc.LongDecimal

/-!
# Guarded results of long decimals

Sums, differences, products, quotients and powers pass the exponent limit before they are
given. Apart from domain errors, such a result is a number within the limit or an overflow.
Literals pass the same limit.
-/

namespace DeskCalc.LongDecimal

/-- A number within the exponent limit, or an overflow. -/
inductive Guarded : Except ArithmeticError LongDecimal → Prop
  | bounded {x : LongDecimal} (h : x.isBounded = true) : Guarded (.ok x)
  | overflow : Guarded (.error .overflow)

theorem Guarded.isBounded {x : LongDecimal} (h : Guarded (.ok x)) : x.isBounded = true := by
  cases h with
  | bounded hx => exact hx

theorem Guarded.eq_overflow {e : ArithmeticError} (h : Guarded (.error e)) : e = .overflow := by
  cases h
  rfl

theorem Guarded.ne_error {r : Except ArithmeticError LongDecimal} (h : Guarded r)
    {e : ArithmeticError} (he : e ≠ .overflow) : r ≠ .error e := by
  rintro rfl
  exact he h.eq_overflow

theorem guarded_orOverflow (x : LongDecimal) : Guarded x.orOverflow := by
  unfold orOverflow
  split
  · next hx => exact .bounded hx
  · exact .overflow

theorem orOverflow_eq_overflow_iff {x : LongDecimal} :
    x.orOverflow = .error .overflow ↔ ¬ x.isBounded = true := by
  unfold orOverflow
  split <;> simp_all

theorem guarded_add (a b : LongDecimal) : Guarded (a.add b) := guarded_orOverflow _

theorem guarded_sub (a b : LongDecimal) : Guarded (a.sub b) := guarded_orOverflow _

theorem guarded_mul (a b : LongDecimal) : Guarded (a.mul b) := by
  unfold mul
  split
  · exact guarded_orOverflow _
  · exact .overflow

theorem div_cases (a b : LongDecimal) (precision : Nat) :
    (b.coefficient = 0 ∧ a.div b precision = .error .divisionByZero) ∨
      (b.coefficient ≠ 0 ∧ Guarded (a.div b precision)) := by
  unfold div divWith
  by_cases hb : b.coefficient = 0
  · exact Or.inl ⟨hb, if_pos hb⟩
  · rw [if_neg hb]
    refine Or.inr ⟨hb, ?_⟩
    dsimp only
    split
    · exact .overflow
    · exact guarded_orOverflow _

theorem powWith_cases (log : Float → Float) (x exponent : LongDecimal) (precision : Nat) :
    (exponent.truncate < 0 ∧ powWith log x exponent precision = .error .negativeExponent) ∨
      (0 ≤ exponent.truncate ∧ Guarded (powWith log x exponent precision)) := by
  unfold powWith
  by_cases hn : exponent.truncate < 0
  · exact Or.inl ⟨hn, if_pos hn⟩
  · refine Or.inr ⟨Int.not_lt.mp hn, ?_⟩
    -- The powers that are given at once are one and zero.
    have hone : (ofInt 1).isBounded = true := by decide
    have hzero : zero.isBounded = true := by decide
    simp only [if_neg hn]
    split
    · exact .overflow
    · split
      · exact .bounded hone
      · split
        · exact .bounded hzero
        · split
          · exact .overflow
          · exact guarded_orOverflow _

theorem pow_cases (x exponent : LongDecimal) (precision : Nat) :
    (exponent.truncate < 0 ∧ x.pow exponent precision = .error .negativeExponent) ∨
      (0 ≤ exponent.truncate ∧ Guarded (x.pow exponent precision)) :=
  powWith_cases Float.log10 x exponent precision

theorem isBounded_of_ofLiteral? {text : List Char} {y : LongDecimal}
    (h : ofLiteral? text = some y) : y.isBounded = true := by
  simp only [ofLiteral?, Option.bind_eq_bind] at h
  obtain ⟨e, -, hcoefficient⟩ := Option.bind_eq_some_iff.mp h
  obtain ⟨c, -, hy⟩ := Option.bind_eq_some_iff.mp hcoefficient
  split at hy
  · next hbounded =>
      cases hy
      exact hbounded
  · cases hy

end DeskCalc.LongDecimal
