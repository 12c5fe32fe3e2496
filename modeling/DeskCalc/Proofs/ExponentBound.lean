import DeskCalc.Calculator
import DeskCalc.Proofs.DomainErrors
import DeskCalc.Proofs.RootSize
import DeskCalc.Proofs.StackInvariant

/-!
# The exponent limit of long decimals

Every value of a session with long decimals is below the exponent limit in size. Its scale
is within the limit too unless it is a root, which is given at a scale that follows the
precision alone. So the limit is kept by the configurations whose largest precision leaves
room for the guard digits, and by no others.
-/

namespace DeskCalc

/-- The exact result of an operator that does not round. -/
def BinaryOperator.exact? : BinaryOperator → ℚ → ℚ → Option ℚ
  | .add, p, q => some (p + q)
  | .sub, p, q => some (p - q)
  | .mul, p, q => some (p * q)
  | .div, _, _ => none
  | .pow, _, _ => none

namespace LongDecimal

/-- A number below the exponent limit in size, at a scale of at most `top`. -/
structure FitsScale (top : Int) (x : LongDecimal) : Prop where
  size : |x.value| < 10 ^ exponentLimit
  low : -exponentLimit < x.scale
  high : x.scale ≤ top

theorem fitsScale_exponentLimit {x : LongDecimal} :
    x.FitsScale exponentLimit ↔ x.isBounded = true := by
  rw [isBounded_iff_size]
  exact ⟨fun h => ⟨h.size, h.low, h.high⟩, fun h => ⟨h.1, h.2.1, h.2.2⟩⟩

theorem FitsScale.mono {top top' : Int} {x : LongDecimal} (h : x.FitsScale top)
    (hle : top ≤ top') : x.FitsScale top' :=
  ⟨h.size, h.low, le_trans h.high hle⟩

/-- Apart from domain errors, every operator on two operands gives a guarded result. -/
theorem guarded_binary {op : BinaryOperator} {a b : LongDecimal} (precision : Nat)
    (hdiv : op = .div → b.value ≠ 0) (hpow : op = .pow → 0 ≤ towardZero b.value) :
    Guarded (Operand.binary op precision a b) := by
  cases op with
  | add => exact guarded_add a b
  | sub => exact guarded_sub a b
  | mul => exact guarded_mul a b
  | div =>
      rcases a.div_cases b precision with ⟨hzero, -⟩ | ⟨-, hguarded⟩
      · exact absurd (value_eq_zero_iff.mpr hzero) (hdiv rfl)
      · exact hguarded
  | pow =>
      rcases a.pow_cases b precision with ⟨hneg, -⟩ | ⟨-, hguarded⟩
      · rw [truncate_eq_towardZero] at hneg
        exact absurd (hpow rfl) (not_le.mpr hneg)
      · exact hguarded

theorem isBounded_of_binary {op : BinaryOperator} {precision : Nat} {a b r : LongDecimal}
    (h : Operand.binary op precision a b = .ok r) : r.isBounded = true := by
  have hdiv : op = .div → b.value ≠ 0 := by
    rintro rfl hzero
    have herror := (a.div_eq_divisionByZero_iff b precision).mpr hzero
    exact nomatch herror.symm.trans h
  have hpow : op = .pow → 0 ≤ towardZero b.value := by
    rintro rfl
    by_contra hneg
    have herror := (a.pow_eq_negativeExponent_iff b precision).mpr (not_le.mp hneg)
    exact nomatch herror.symm.trans h
  have hguarded := guarded_binary (a := a) precision hdiv hpow
  rw [h] at hguarded
  exact hguarded.isBounded

/-- Sums, differences and products are exact. -/
theorem value_of_binary {op : BinaryOperator} {precision : Nat} {a b r : LongDecimal} {q : ℚ}
    (hq : op.exact? a.value b.value = some q) (h : Operand.binary op precision a b = .ok r) :
    r.value = q := by
  cases op with
  | add =>
      cases hq
      obtain ⟨rfl, -⟩ := isBounded_of_orOverflow (x := sum a b) h
      exact value_sum a b
  | sub =>
      cases hq
      obtain ⟨rfl, -⟩ := isBounded_of_orOverflow (x := alignedSum a b.neg) h
      rw [value_alignedSum, value_neg, sub_eq_add_neg]
  | mul =>
      cases hq
      change a.mul b = .ok r at h
      unfold mul at h
      split at h
      · obtain ⟨rfl, -⟩ := isBounded_of_orOverflow h
        exact value_product a b
      · cases h
  | div => cases hq
  | pow => cases hq

/-- An exact result that no number within the limit can hold is an overflow. -/
theorem binary_eq_overflow {op : BinaryOperator} {precision : Nat} {a b : LongDecimal} {q : ℚ}
    (hq : op.exact? a.value b.value = some q)
    (h : ∀ z : LongDecimal, z.isBounded = true → z.value ≠ q) :
    Operand.binary op precision a b = .error .overflow := by
  have hguarded : Guarded (Operand.binary op precision a b) := by
    apply guarded_binary
    · rintro rfl
      cases hq
    · rintro rfl
      cases hq
  cases hresult : Operand.binary op precision a b with
  | ok z => exact absurd (value_of_binary hq hresult) (h z (isBounded_of_binary hresult))
  | error e =>
      rw [hresult] at hguarded
      rw [hguarded.eq_overflow]

/-- The root of any number that is not negative is given, within the limit or beyond it. -/
theorem sqrt_of_isBounded {x : LongDecimal} (hx : x.isBounded = true) (hsign : 0 ≤ x.value)
    (precision : Nat) :
    ∃ y, x.sqrt precision = .ok y ∧
      (y.isBounded = true ↔ (guardedScale precision : Int) ≤ exponentLimit) := by
  have hcoefficient : ¬ x.coefficient < 0 := fun hneg =>
    absurd hsign (not_le.mpr (value_neg_iff.mpr hneg))
  obtain ⟨y, hy⟩ : ∃ y, x.sqrt precision = .ok y := ⟨_, if_neg hcoefficient⟩
  obtain ⟨hsize, hscale⟩ := abs_value_sqrt_lt hy (isBounded_iff_size.mp hx).1
  have hlow : -exponentLimit < y.scale := by
    rw [hscale, exponentLimit]
    omega
  refine ⟨y, hy, ?_⟩
  rw [isBounded_iff_size, ← hscale]
  exact ⟨fun h => h.2.2, fun h => ⟨hsize, hlow, h⟩⟩

/-- The scale that no value passes where `maximum` is the largest precision. -/
def largestScale (maximum : Nat) : Int := max exponentLimit (guardedScale maximum)

theorem fitsScale_of_isBounded {x : LongDecimal} (h : x.isBounded = true) (maximum : Nat) :
    x.FitsScale (largestScale maximum) :=
  (fitsScale_exponentLimit.mpr h).mono (le_max_left _ _)

/-- Every way to a value keeps to the size limit and to the largest scale. -/
theorem establishes_fitsScale (maximum : Nat) :
    Operand.Establishes (FitsScale (largestScale maximum)) maximum where
  zero := fitsScale_of_isBounded (by decide) maximum
  literal h := fitsScale_of_isBounded (isBounded_of_ofLiteral? h) maximum
  neg {x} h := by
    refine ⟨?_, h.low, h.high⟩
    change |x.neg.value| < _
    rw [value_neg, abs_neg]
    exact h.size
  unary {op precision x y} hprecision hx h := by
    cases op with
    | sqrt =>
        obtain ⟨hsize, hscale⟩ := abs_value_sqrt_lt h hx.size
        have hle : guardedScale precision ≤ guardedScale maximum :=
          Nat.add_le_add_right hprecision guardDigits
        refine ⟨hsize, ?_, ?_⟩
        · rw [hscale, exponentLimit]
          omega
        · rw [hscale, largestScale]
          omega
  binary _ _ _ h := fitsScale_of_isBounded (isBounded_of_binary h) maximum

end LongDecimal

namespace Machine

open LongDecimal

/-- Where the precision for it may be set, the root of one is given beyond the limit, and
nothing tells of it. -/
theorem evaluate_root_of_one {m : Machine LongDecimal} (hempty : m.stack = .empty)
    (h : 99985 ≤ m.maxPrecision) :
    ∃ y : LongDecimal, ¬ y.isBounded = true ∧
      m.evaluate "k99985 1 v".toList =
        ({ m with stack := ⟨[y]⟩, precision := 99985 }, [.precision 99985]) := by
  have hsign : 0 ≤ (ofInt 1).value := by
    rw [ofInt, value_integer]
    norm_num
  obtain ⟨y, hroot, hbounded⟩ := sqrt_of_isBounded (x := ofInt 1) (by decide) hsign 99985
  have htokens : Token.ofLine "k99985 1 v".toList =
      [.command .setPrecision, .literal "99985".toList, .literal ['1'],
        .command (.unary .sqrt)] := by decide +kernel
  have hset : m.setPrecision "99985".toList =
      ({ m with precision := 99985 }, .ok [.precision 99985]) := by
    have hread : (Operand.ofLiteral? "99985".toList : Option LongDecimal) = some ⟨99985, 0⟩ := by
      decide +kernel
    have hvalue : Operand.toPrecision? (⟨99985, 0⟩ : LongDecimal) = some 99985 := by
      decide +kernel
    exact setPrecision_of_value hread hvalue h
  have hpush : Machine.pushLiteral { m with precision := 99985 } false ['1'] =
      ({ m with stack := ⟨[ofInt 1]⟩, precision := 99985 }, .ok []) := by
    have hread : (Operand.ofLiteral? ['1'] : Option LongDecimal) = some (ofInt 1) := by
      decide +kernel
    unfold pushLiteral
    rw [hread, hempty]
    rfl
  have hperform : Machine.perform { m with stack := ⟨[ofInt 1]⟩, precision := 99985 }
      (.unary .sqrt) = ({ m with stack := ⟨[y]⟩, precision := 99985 }, .ok []) := by
    have hroot' : Operand.unary .sqrt 99985 (ofInt 1) = .ok y := hroot
    simp only [perform, Stack.computeUnary, Stack.pop, hroot']
    rfl
  refine ⟨y, ?_, ?_⟩
  · rw [hbounded]
    decide
  · simp only [evaluate, htokens, LineState.run, LineState.step, LineState.consume, hset, hpush,
      hperform, if_true, Bool.false_eq_true, if_false]
    rfl

/-- How a calculator with long decimals keeps to the exponent limit. -/
structure ExponentBounds (m : Machine LongDecimal) : Prop where
  /-- All values of all sessions are within the limit exactly if the scale of quotients and
  roots at the largest precision is. -/
  kept : (∀ lines, ∀ x ∈ (m.evaluateAll lines).1.stack.toList, x.isBounded = true) ↔
    (guardedScale m.maxPrecision : Int) ≤ exponentLimit
  /-- In any case they are below the limit in size, and only their scale may pass it. -/
  scales : ∀ lines, ∀ x ∈ (m.evaluateAll lines).1.stack.toList,
    x.FitsScale (largestScale m.maxPrecision)
  /-- Operators on two operands have no results beyond the limit. -/
  guarded : ∀ op precision (a b : LongDecimal), (op = .div → b.value ≠ 0) →
    (op = .pow → 0 ≤ towardZero b.value) → Guarded (Operand.binary op precision a b)
  /-- An exact result that no number within the limit can hold is an overflow. -/
  overflow : ∀ op precision (a b : LongDecimal) q, op.exact? a.value b.value = some q →
    (∀ z : LongDecimal, z.isBounded = true → z.value ≠ q) →
    Operand.binary op precision a b = .error .overflow
  /-- A root is never an overflow, and it is within the limit only if its scale is. -/
  root : ∀ precision (x : LongDecimal), x.isBounded = true → 0 ≤ x.value →
    ∃ y, Operand.unary .sqrt precision x = .ok y ∧
      (y.isBounded = true ↔ (guardedScale precision : Int) ≤ exponentLimit)

/-- Every calculator that a checked configuration starts with long decimals keeps to the
exponent limit, if and only if its largest precision leaves room for the guard digits. -/
theorem exponentBounds_of_start {build : Build} {precision maxPrecision : Nat}
    {policy : FailurePolicy} {m : Machine LongDecimal}
    (h : Config.start build { backend := .bigDecimal, precision, maxPrecision, policy } = .ok m) :
    ExponentBounds m := by
  obtain ⟨hcheck, hmachine⟩ := Config.start_eq_ok.mp h
  have hm : m = { precision, maxPrecision, policy } := hmachine.symm
  have hstart : Holds (FitsScale (largestScale m.maxPrecision)) m.maxPrecision m := by
    refine ⟨?_, ?_, rfl⟩
    · rw [hm]
      exact List.forall_mem_nil _
    · rw [hm]
      exact Config.precision_le_of_check hcheck
  have hempty : m.stack = .empty := by
    rw [hm]
    rfl
  have hscales (lines : List (List Char)) :
      ∀ x ∈ (m.evaluateAll lines).1.stack.toList, x.FitsScale (largestScale m.maxPrecision) :=
    (holds_evaluateAll (establishes_fitsScale m.maxPrecision) hstart lines).values
  refine ⟨⟨?_, ?_⟩, hscales, fun op p a b => guarded_binary p, fun op p a b q => binary_eq_overflow,
    fun p x hx hsign => sqrt_of_isBounded hx hsign p⟩
  · -- Beyond the limit, one line is enough for a value that is not within it.
    intro hall
    by_contra hlarge
    have hroom : 99985 ≤ m.maxPrecision := by
      rw [guardedScale, guardDigits, exponentLimit] at hlarge
      omega
    obtain ⟨y, hy, hline⟩ := evaluate_root_of_one hempty hroom
    apply hy
    apply hall ["k99985 1 v".toList]
    change y ∈ (m.evaluate _).1.stack.toList
    rw [hline]
    exact List.mem_singleton_self y
  · intro hle lines x hx
    have hfits := hscales lines x hx
    rw [largestScale, max_eq_left hle] at hfits
    exact fitsScale_exponentLimit.mp hfits

/-- The calculator of long decimals with twenty places keeps to the limit. -/
theorem exponentBounds_of_start_long :
    Config.start .full Config.long = .ok Config.long.machine ∧
      ExponentBounds (Config.long.machine : Machine LongDecimal) :=
  ⟨rfl, @exponentBounds_of_start .full 20 1000 .pushZero Config.long.machine rfl⟩

/-- A largest precision of 99985 passes the check, and lets one line give a root whose scale
is one beyond the limit. -/
theorem root_beyond_exponentLimit :
    ∃ m : Machine LongDecimal,
      Config.start .full { backend := .bigDecimal, maxPrecision := 99985 } = .ok m ∧
        (m.evaluate "k99985 1 v".toList).2 = [.precision 99985] ∧
        ∃ y ∈ (m.evaluate "k99985 1 v".toList).1.stack.toList, ¬ y.isBounded = true := by
  let m : Machine LongDecimal := { precision := 4, maxPrecision := 99985 }
  obtain ⟨y, hy, hline⟩ := evaluate_root_of_one (m := m) rfl (le_refl _)
  refine ⟨m, rfl, congrArg Prod.snd hline, y, ?_, hy⟩
  rw [hline]
  exact List.mem_singleton_self y

end Machine

end DeskCalc
