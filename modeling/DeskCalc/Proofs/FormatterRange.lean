import DeskCalc.Proofs.HandledEvents
import DeskCalc.Proofs.Magnitude
import DeskCalc.Proofs.Prints

/-!
# The room of the formatter

The formatter of decimals of fixed width has room for 32 characters without the sign. A value
has up to 29 digits in front of the point, and as many places may be asked for as the
configuration lets a literal set. Both together fit in any case only where no more than two
places may be set; with a third one, there are sessions that the formatter breaks off.
-/

namespace DeskCalc

namespace Decimal96

/-- The digits of the whole part, of which a number below one has none. -/
def wholeDigits (x : Decimal96) : Nat :=
  if x.coefficient < tenPow x.scale then 0 else Digits.count (x.coefficient / tenPow x.scale)

/-- The characters of a number with its whole part, of which one stands at least, and of a
point with the places that the formatter writes. -/
def writtenWidth (x : Decimal96) (places : Nat) : Nat :=
  max 1 x.wholeDigits + if places = 0 then 0 else 1 + min places maxScale

theorem max_wholeDigits (x : Decimal96) :
    max 1 x.wholeDigits = Digits.count (x.coefficient / tenPow x.scale) := by
  unfold wholeDigits
  split
  · next h => rw [Nat.div_eq_of_lt h]; rfl
  · rw [Digits.count_eq_log]
    omega

/-- The whole part of a decimal has at most 29 digits, fewer by one for every place. -/
theorem whole_lt (x : Decimal96) : x.coefficient / tenPow x.scale < tenPow (29 - x.scale) := by
  have hscale := x.scale_le
  apply Nat.div_lt_of_lt_mul
  rw [← tenPow_add, Nat.add_sub_cancel' (by omega)]
  exact x.coefficient_lt.trans (by decide)

theorem max_wholeDigits_le (x : Decimal96) : max 1 x.wholeDigits ≤ 29 - x.scale := by
  have hscale := x.scale_le
  rw [max_wholeDigits]
  exact Digits.count_le_of_lt x.whole_lt (by omega)

/-- The length of a number without a sign. -/
theorem length_fixedPoint (n places : Nat) :
    (fixedPoint false n places).length =
      Digits.count (n / tenPow places) + if places = 0 then 0 else 1 + places := by
  have hwhole : (Digits.ofNat (n / tenPow places)).length = Digits.count (n / tenPow places) :=
    Digits.length_padded _ _
  unfold fixedPoint
  by_cases hplaces : places = 0
  · simp [hplaces, ← String.length_toList, Digits.ofNat, Digits.length_padded]
  · simp [hplaces, ← String.length_toList, hwhole, Digits.length_padded, Nat.add_comm]

/-- Where no place is dropped, the whole part is written as it is. -/
theorem scaled_div_of_le {x : Decimal96} {places : Nat} (h : x.scale ≤ places) :
    x.scaled places / tenPow places = x.coefficient / tenPow x.scale := by
  have hsplit : tenPow places = tenPow x.scale * tenPow (places - x.scale) := by
    rw [← tenPow_add, Nat.add_sub_cancel' h]
  rw [scaled, if_pos h, hsplit, Nat.mul_div_mul_right _ _ (tenPow_pos _)]

/-- Where places are dropped, the whole part is at most raised by one. -/
theorem scaled_div_le {x : Decimal96} {places : Nat} (h : places < x.scale) :
    x.scaled places / tenPow places ≤ x.coefficient / tenPow x.scale + 1 := by
  have hsplit : tenPow x.scale = tenPow (x.scale - places) * tenPow places := by
    rw [← tenPow_add, Nat.sub_add_cancel h.le]
  rw [scaled, if_neg (not_le.mpr h), hsplit, ← Nat.div_div_eq_div_mul]
  set q := x.coefficient / tenPow (x.scale - places)
  calc
    _ ≤ (q + 1) / tenPow places := Nat.div_le_div_right (Rounding.quotient_le _ _ _)
    _ ≤ (q + tenPow places) / tenPow places :=
      Nat.div_le_div_right (Nat.add_le_add_left (tenPow_pos places) q)
    _ = q / tenPow places + 1 := Nat.add_div_right q (tenPow_pos places)

/-- The formatter has room for a value exactly if it has room for its own whole part and
the places asked for. That the whole part may get another digit in rounding does not
matter, as places are then left out. -/
theorem fitsFormatter_iff (x : Decimal96) (places : Nat) :
    x.fitsFormatter places = true ↔ x.writtenWidth places ≤ formatterCapacity := by
  have hmax : maxScale = 28 := rfl
  have hcapacity : formatterCapacity = 32 := rfl
  have hscale := x.scale_le
  have hzero : min places maxScale = 0 ↔ places = 0 := by omega
  rw [fitsFormatter, decide_eq_true_iff, written, length_fixedPoint, writtenWidth]
  simp only [hzero]
  rcases Nat.lt_or_ge (min places maxScale) x.scale with hdropped | hkept
  · have hwhole := scaled_div_le hdropped
    have hlt : x.scaled (min places maxScale) / tenPow (min places maxScale) <
        tenPow (30 - x.scale) :=
      (hwhole.trans x.whole_lt).trans_lt (Nat.pow_lt_pow_right (by norm_num) (by omega))
    have hcount := Digits.count_le_of_lt hlt (by omega)
    have hdigits := x.max_wholeDigits_le
    split <;> omega
  · rw [scaled_div_of_le hkept, max_wholeDigits]

/-- The largest decimal. -/
def largest : Decimal96 :=
  { one with
    coefficient := twoPow 96 - 1
    coefficient_lt := Nat.sub_lt (Nat.two_pow_pos 96) Nat.one_pos }

/-- No value has more than 29 digits in front of the point. -/
theorem writtenWidth_le (x : Decimal96) (places : Nat) :
    x.writtenWidth places ≤ 29 + if places = 0 then 0 else 1 + places := by
  have hdigits := x.max_wholeDigits_le
  have hplaces := Nat.min_le_left places maxScale
  unfold writtenWidth
  split <;> omega

end Decimal96

namespace Machine

open Decimal96

/-- A line that prints the largest decimal with three places. -/
def largestLine : List Char := "k3 79228162514264337593543950335 p".toList

theorem prints_largest {m : Machine Decimal96} (hempty : m.stack = .empty)
    (h : 3 ≤ m.maxPrecision) : m.prints largestLine = [⟨largest, 3⟩] := by
  have htokens : Token.ofLine largestLine =
      [.command .setPrecision, .literal ['3'],
        .literal "79228162514264337593543950335".toList, .command .printTop] := by
    decide +kernel
  have hset : m.setPrecision ['3'] = ({ m with precision := 3 }, .ok [.precision 3]) := by
    have hread : (Operand.ofLiteral? ['3'] : Option Decimal96) =
        some ⟨false, 3, 0, by decide, by decide⟩ := by decide +kernel
    exact setPrecision_of_value hread rfl h
  have hpush : Machine.pushLiteral { m with precision := 3 } false
      "79228162514264337593543950335".toList =
        ({ m with stack := ⟨[largest]⟩, precision := 3 }, .ok []) := by
    have hread : (Operand.ofLiteral? "79228162514264337593543950335".toList :
        Option Decimal96) = some largest := by decide +kernel
    unfold pushLiteral
    rw [hread, hempty]
    rfl
  simp only [prints, collect, htokens, LineState.collect, LineState.printed, LineState.step,
    LineState.consume, hset, hpush, if_true, Bool.false_eq_true, if_false]
  rfl

/-- It takes no root, so the formatter is what breaks it off. -/
theorem crash?_largest {m : Machine Decimal96} (hempty : m.stack = .empty)
    (h : 3 ≤ m.maxPrecision) : m.crash? largestLine = some .formatter := by
  have hprint : ⟨largest, 3⟩ ∈ m.prints largestLine := by
    rw [prints_largest hempty h]
    exact List.mem_singleton_self _
  exact crash?_of_canShow_eq_false (by decide +kernel) hprint (by decide)

/-- The same line as a stream breaks a session off. -/
theorem crashed_of_three_places {m : Machine Decimal96} (hempty : m.stack = .empty)
    (h : 3 ≤ m.maxPrecision) :
    ∃ input, (Session.runWith Handler.recording [] m input).ending = .crashed .formatter := by
  let input := "k3 79228162514264337593543950335 p".toUTF8.toList
  have hsplit : Line.split input = [input] := by decide +kernel
  have hdecode : Line.decode? input = some largestLine := by decide +kernel
  have hrun := Session.runLinesWith_of_stops .recording [] 0 []
    (.crashed hdecode (crash?_largest hempty h))
  rw [← hsplit] at hrun
  exact ⟨input, congrArg Session.Handled.ending hrun⟩

/-- Two places never take a text beyond the formatter. -/
theorem canShow_of_mem_printsAll {m : Machine Decimal96}
    (hstart : m.Holds (fun _ => True) m.maxPrecision) (hle : m.maxPrecision ≤ 2)
    {lines : List (List Char)} {p : Print Decimal96} (hp : p ∈ m.printsAll lines) :
    p.value.fitsFormatter p.places = true ∧ p.canShow = true := by
  obtain ⟨-, hplaces⟩ := hstart.printsAll (establishes_true _) hp
  have hfits : p.value.fitsFormatter p.places = true := by
    have hwidth := p.value.writtenWidth_le p.places
    rw [fitsFormatter_iff, formatterCapacity]
    split at hwidth <;> omega
  have hbound : p.places ≤ placesBound := by
    rw [placesBound]
    omega
  exact ⟨hfits, Bool.and_eq_true_iff.mpr ⟨decide_eq_true hbound, hfits⟩⟩

/-- How the prints of a calculator with decimals of fixed width keep to the formatter. -/
structure FormatterRange (m : Machine Decimal96) : Prop where
  /-- The prints of a session are all that it shows of its values. -/
  shown : ∀ lines, (m.evaluateAll lines).2.filterMap Event.text? =
    (m.printsAll lines).map Print.text
  /-- The formatter has room for a print by the digits of its value and its places. -/
  width : ∀ lines, ∀ p ∈ m.printsAll lines, p.value.fitsFormatter p.places = true ↔
    max 1 p.value.wholeDigits + (if p.places = 0 then 0 else 1 + min p.places 28) ≤ 32
  /-- It has room for all prints of all sessions exactly if no more than two places may be
  set. -/
  kept : (∀ lines, ∀ p ∈ m.printsAll lines, p.value.fitsFormatter p.places = true) ↔
    m.maxPrecision ≤ 2
  /-- Otherwise there are sessions that it breaks off. -/
  unbroken : (∀ input, (Session.runWith Handler.recording [] m input).ending ≠
    .crashed .formatter) ↔ m.maxPrecision ≤ 2

/-- Every calculator that a checked configuration starts with decimals of fixed width keeps to
the formatter, if and only if its largest precision is at most two. -/
theorem formatterRange_of_start {build : Build} {precision maxPrecision : Nat}
    {policy : FailurePolicy} {m : Machine Decimal96}
    (h : Config.start build { backend := .decimal, precision, maxPrecision, policy } = .ok m) :
    FormatterRange m := by
  have hempty : m.stack = .empty := Config.stack_of_start h
  have hstart : m.Holds (fun _ => True) m.maxPrecision :=
    ⟨fun _ _ => trivial, Config.precision_le_of_start h, rfl⟩
  refine ⟨m.texts_evaluateAll, fun _ p _ => fitsFormatter_iff p.value p.places, ?_, ?_⟩
  · -- With a third place, one line is enough for a text that is too long.
    refine ⟨fun hall => ?_, fun hle lines p hp => (canShow_of_mem_printsAll hstart hle hp).1⟩
    by_contra hlarge
    have hprint : ⟨largest, 3⟩ ∈ m.printsAll [largestLine] := by
      apply List.mem_append_left
      rw [← prints, prints_largest hempty (by omega)]
      exact List.mem_singleton_self _
    exact absurd (hall _ _ hprint) (by decide)
  · constructor
    · intro hall
      by_contra hlarge
      obtain ⟨input, hcrash⟩ := crashed_of_three_places hempty (by omega)
      exact hall input hcrash
    · intro hle input
      exact Session.runWith_ne_crashed_formatter .recording [] (Config.running_of_start h)
        (fun _ _ hp => (canShow_of_mem_printsAll hstart hle hp).2) input

/-- Two places are within the range, whatever is done with failed results. -/
theorem formatterRange_of_start_two :
    Config.start .full { backend := .decimal, precision := 2, maxPrecision := 2 } =
        .ok (Config.machine { backend := .decimal, precision := 2, maxPrecision := 2 }) ∧
      FormatterRange ({ precision := 2, maxPrecision := 2 } : Machine Decimal96) :=
  ⟨rfl, @formatterRange_of_start .full 2 2 .pushZero _ rfl⟩

/-- With the largest precision that is standard, one line prints a number of four digits with
28 places, and the formatter has room for one character less. -/
theorem print_beyond_formatter :
    ∃ m : Machine Decimal96, Config.start .full { backend := .decimal } = .ok m ∧
      ∃ p ∈ m.printsAll ["k28 1000 p".toList], p.value.writtenWidth p.places = 33 ∧
        p.value.fitsFormatter p.places = false := by
  let m : Machine Decimal96 := { precision := 4, maxPrecision := 1000 }
  let p : Print Decimal96 := ⟨⟨false, 1000, 0, by decide, by decide⟩, 28⟩
  have hprints : m.printsAll ["k28 1000 p".toList] = [p] := by decide +kernel
  refine ⟨m, rfl, p, ?_, by decide, by decide⟩
  rw [hprints]
  exact List.mem_singleton_self p

end Machine

end DeskCalc
