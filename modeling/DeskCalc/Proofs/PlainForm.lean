import DeskCalc.Proofs.ExactArithmetic
import DeskCalc.Proofs.LiteralParts
import DeskCalc.Proofs.PlainLiteral

/-!
# Plain forms of one number

Numbers with too many digits are rounded by the reader, so what it gives for a literal
without an exponent is not the number that the literal denotes. It depends on that number
alone all the same: zeros in front and at the end do not count, also where digits are cut.
-/

namespace DeskCalc

open Digits (areDigits toNat)

/-- A literal of digits with at most one point among them, and the number it denotes. -/
inductive PlainForm : List Char → ℚ → Prop
  | intro {whole fraction : List Char} {q : ℚ} (hwhole : areDigits whole = true)
      (hfraction : IsFraction fraction) (hne : whole ++ fraction.tail ≠ [])
      (hq : LongDecimal.value ⟨toNat (whole ++ fraction.tail), fraction.tail.length⟩ = q) :
      PlainForm (whole ++ fraction) q

/-- Of one number, the digits in front of the point denote the same whole number, and those
behind it differ by zeros at the end. -/
theorem parts_of_value_eq {whole places whole' places' : List Char}
    (hplaces : areDigits places = true) (hplaces' : areDigits places' = true)
    (h : LongDecimal.value ⟨toNat (whole ++ places), places.length⟩ =
      LongDecimal.value ⟨toNat (whole' ++ places'), places'.length⟩) :
    toNat whole = toNat whole' ∧
      places ++ List.replicate places'.length '0' =
        places' ++ List.replicate places.length '0' := by
  have hzeros := Digits.areDigits_replicate_zero
  have hleft := Digits.areDigits_append.mpr ⟨hplaces, hzeros places'.length⟩
  have hright := Digits.areDigits_append.mpr ⟨hplaces', hzeros places.length⟩
  have hlength : (places ++ List.replicate places'.length '0').length =
      (places' ++ List.replicate places.length '0').length := by
    simp only [List.length_append, List.length_replicate]
    exact Nat.add_comm _ _
  have hnumbers := LongDecimal.value_natCast_eq_iff.mp h
  rw [← Digits.toNat_append_zeros, ← Digits.toNat_append_zeros, List.append_assoc,
    List.append_assoc, Digits.toNat_append whole, Digits.toNat_append whole', ← hlength]
    at hnumbers
  obtain ⟨hwhole, hnumber⟩ :=
    Digits.split_unique (Digits.toNat_lt hleft) (hlength ▸ Digits.toNat_lt hright) hnumbers
  exact ⟨hwhole, Digits.eq_of_toNat_eq hleft hright hlength hnumber⟩

namespace Decimal96

namespace Reading

/-- The number that is read from a text. -/
def number? (r : Reading) (text : List Char) : Option ℚ :=
  (r.continue? text).map fun parts => LongDecimal.value ⟨parts.1, parts.2⟩

/-- A whole part that does not fit is refused. -/
theorem continue?_whole_of_large {digits : List Char} (hdigits : areDigits digits = true)
    (rest : List Char) (r : Reading) (hpoint : r.pointSeen = false)
    (hcoefficient : r.coefficient < twoPow 96)
    (hlarge : twoPow 96 ≤ r.coefficient * tenPow digits.length + toNat digits) :
    r.continue? (digits ++ rest) = none := by
  induction digits generalizing r with
  | nil =>
      simp only [List.length_nil, tenPow_zero, Nat.mul_one, Digits.toNat_nil,
        Nat.add_zero] at hlarge
      exact absurd hcoefficient (not_lt.mpr hlarge)
  | cons c digits ih =>
      obtain ⟨hc, htail⟩ := Digits.areDigits_cons.mp hdigits
      have hnumber : (10 * r.coefficient + Digits.value c) * tenPow digits.length + toNat digits =
          r.coefficient * tenPow (c :: digits).length + toNat (c :: digits) := by
        rw [Digits.toNat_cons, List.length_cons, tenPow_succ]
        ring
      have hfull : r.isFull = false := by rw [isFull, hpoint, Bool.false_and]
      rw [List.cons_append, continue?_digit hc, if_neg (by simp [hfull])]
      by_cases hfits : 10 * r.coefficient + Digits.value c < twoPow 96
      · rw [takeDigit?_of_lt r hfits]
        apply ih htail
        · exact hpoint
        · exact hfits
        · rw [hnumber]
          exact hlarge
      · have hnone : r.takeDigit? (Digits.value c) = none := if_neg hfits
        simp only [hnone, hpoint, Bool.false_eq_true, if_false]

/-- Before a digit it does not matter whether there was another one. -/
theorem continue?_digitSeen {digits : List Char} (hne : digits ≠ [])
    (hdigits : areDigits digits = true) (r : Reading) (seen : Bool) :
    Reading.continue? { r with digitSeen := seen } digits = r.continue? digits := by
  obtain ⟨c, rest, rfl⟩ := List.exists_cons_of_ne_nil hne
  obtain ⟨hc, -⟩ := Digits.areDigits_cons.mp hdigits
  rw [continue?_digit hc, continue?_digit hc]
  rfl

/-- What a literal without an exponent is read as depends on its whole part's number and on
the digits behind its point. -/
theorem continue?_plain {whole fraction : List Char} (hwhole : areDigits whole = true)
    (hfraction : IsFraction fraction) (hne : whole ++ fraction.tail ≠ []) :
    Reading.continue? {} (whole ++ fraction) =
      if toNat whole < twoPow 96 then (atPoint (toNat whole)).continue? fraction.tail
      else none := by
  split
  · next hfits =>
      have hread := continue?_whole hwhole fraction {} rfl (by simpa using hfits)
      simp only [Nat.zero_mul, Nat.zero_add, Bool.false_or] at hread
      rw [hread]
      cases hfraction with
      | none =>
          rw [List.tail_nil, List.append_nil] at hne
          rw [List.isEmpty_eq_false_iff.mpr hne]
          rfl
      | point hplaces =>
          rw [continue?_point rfl]
          rcases eq_or_ne whole [] with rfl | hnonempty
          · exact (continue?_digitSeen hne hplaces (atPoint 0) false)
          · rw [List.isEmpty_eq_false_iff.mpr hnonempty]
            rfl
  · next hlarge =>
      apply continue?_whole_of_large hwhole fraction {} rfl (by decide)
      simpa using hlarge

theorem round?_of_areDigits (r : Reading) (d : Nat) {rest rest' : List Char}
    (h : areDigits rest = true) (h' : areDigits rest' = true) :
    r.round? d rest = r.round? d rest' := by
  have hrest {text : List Char} (htext : areDigits text = true) : text.all isRest = true := by
    rw [List.all_eq_true]
    intro c hc
    rw [isRest, List.all_eq_true.mp htext c hc, Bool.true_or]
  rw [round?, round?, hrest h, hrest h']

/-- Zeros at the end do not change the number that is read. -/
theorem number?_append_zeros {digits : List Char} (hdigits : areDigits digits = true)
    {r : Reading} (h : r.IsBehindPoint) (k : Nat) :
    r.number? (digits ++ List.replicate k '0') = r.number? digits := by
  have hzeros := Digits.areDigits_replicate_zero k
  induction digits generalizing r with
  | nil =>
      have hrep : Representable (r.coefficient * tenPow k) (r.scale + k) := by
        refine ⟨r.coefficient, r.scale, h.coefficient_lt, h.scale_le, ?_⟩
        rw [tenPow_add]
        ring
      obtain ⟨n, s, hread, -, -, heq⟩ :=
        continue?_places hzeros h (by simpa [Digits.toNat_replicate_zero] using hrep)
      rw [Digits.toNat_replicate_zero, List.length_replicate, Nat.add_zero] at heq
      have hvalue : LongDecimal.value ⟨n, s⟩ = LongDecimal.value ⟨r.coefficient, r.scale⟩ := by
        rw [LongDecimal.value_natCast_eq_iff]
        apply Nat.eq_of_mul_eq_mul_right (tenPow_pos k)
        calc
          n * tenPow r.scale * tenPow k = n * tenPow (r.scale + k) := by
            rw [tenPow_add, Nat.mul_assoc]
          _ = r.coefficient * tenPow k * tenPow s := heq
          _ = r.coefficient * tenPow s * tenPow k := Nat.mul_right_comm _ _ _
      rw [number?, number?, List.nil_append, hread, continue?_nil, if_pos h.digitSeen,
        Option.map_some, Option.map_some, hvalue]
  | cons c digits ih =>
      obtain ⟨hc, htail⟩ := Digits.areDigits_cons.mp hdigits
      rw [number?, number?, List.cons_append, continue?_place hc h.pointSeen,
        continue?_place hc h.pointSeen]
      split
      · next hroom => exact ih htail (isBehindPoint_takePlace hroom)
      · rw [r.round?_of_areDigits (Digits.value c)
          (Digits.areDigits_append.mpr ⟨htail, hzeros⟩) htail]

theorem round?_bounds {r : Reading} (hr : r.IsBehindPoint) {d n s : Nat} {rest : List Char}
    (h : r.round? d rest = some (n, s)) : n < twoPow 96 ∧ s ≤ maxScale := by
  have hcoefficient := hr.coefficient_lt
  have hscale := hr.scale_le
  unfold round? at h
  split at h
  · cases h
  · split at h
    · cases h
      exact ⟨hcoefficient, hscale⟩
    · split at h
      · next hfits =>
          cases h
          exact ⟨hfits, hscale⟩
      · split at h
        · cases h
        · cases h
          constructor
          · omega
          · omega

/-- Whatever is read behind the point fits. -/
theorem continue?_bounds {digits : List Char} (hdigits : areDigits digits = true)
    {r : Reading} (hr : r.IsBehindPoint) {n s : Nat} (h : r.continue? digits = some (n, s)) :
    n < twoPow 96 ∧ s ≤ maxScale := by
  induction digits generalizing r with
  | nil =>
      rw [continue?_nil, if_pos hr.digitSeen] at h
      cases h
      exact ⟨hr.coefficient_lt, hr.scale_le⟩
  | cons c digits ih =>
      obtain ⟨hc, htail⟩ := Digits.areDigits_cons.mp hdigits
      rw [continue?_place hc hr.pointSeen] at h
      split at h
      · next hroom => exact ih htail (isBehindPoint_takePlace hroom) h
      · exact round?_bounds hr h

/-- A number below the last place is read as zero. -/
theorem number?_of_small {digits : List Char} (hdigits : areDigits digits = true)
    {r : Reading} (hr : r.IsBehindPoint) (hzero : r.coefficient = 0)
    (hsmall : toNat digits * tenPow (maxScale + 1 - r.scale) < tenPow digits.length) :
    r.number? digits = some 0 := by
  have hread : LongDecimal.value ⟨r.coefficient, r.scale⟩ = 0 :=
    LongDecimal.value_eq_zero_iff.mpr (congrArg Nat.cast hzero)
  induction digits generalizing r with
  | nil =>
      rw [number?, continue?_nil, if_pos hr.digitSeen]
      exact congrArg some hread
  | cons c digits ih =>
      obtain ⟨hc, htail⟩ := Digits.areDigits_cons.mp hdigits
      have hscale := hr.scale_le
      have hplaces : maxScale + 1 - r.scale = maxScale + 1 - (r.scale + 1) + 1 := by omega
      rw [hplaces, tenPow_succ, List.length_cons, tenPow_succ, ← Nat.mul_assoc] at hsmall
      have hrest := Nat.lt_of_mul_lt_mul_right hsmall
      have hlt : toNat (c :: digits) < tenPow digits.length :=
        lt_of_le_of_lt (Nat.le_mul_of_pos_right _ (tenPow_pos _)) hrest
      have hfirst : c = '0' := by
        by_contra hne
        exact absurd (Digits.tenPow_le_toNat hc hne digits) (not_le.mpr hlt)
      have hdigit : Digits.value c = 0 := by
        rw [hfirst]
        rfl
      have hnext : (r.takePlace 0).coefficient = 0 := by
        rw [takePlace, hzero]
      rw [Digits.toNat_cons, hdigit, Nat.zero_mul, Nat.zero_add] at hrest
      rw [number?, continue?_place hc hr.pointSeen, hdigit]
      split
      · next hroom =>
          apply ih htail (isBehindPoint_takePlace hroom) hnext hrest
          exact LongDecimal.value_eq_zero_iff.mpr (congrArg Nat.cast hnext)
      · rw [round?_zero r htail]
        exact congrArg some hread

end Reading

section Parts

variable {whole fraction : List Char} (hwhole : areDigits whole = true)
  (hfraction : IsFraction fraction) (hne : whole ++ fraction.tail ≠ [])

include hwhole hfraction hne

/-- What the reader makes of a literal without an exponent. -/
theorem ofPlain?_of_parts :
    ofPlain? (whole ++ fraction) =
      if toNat whole < twoPow 96 then
        ((Reading.atPoint (toNat whole)).continue? fraction.tail).bind fun parts =>
          (ofParts? false parts.1 parts.2).map unsignZero
      else none := by
  have hsign : Spelling.takeSign (whole ++ fraction) = (false, whole ++ fraction) := by
    cases whole with
    | nil =>
        cases hfraction with
        | none => exact absurd rfl hne
        | point _ => rfl
    | cons c rest => exact Spelling.takeSign_of_isDigit (Digits.areDigits_cons.mp hwhole).1 _
  simp only [ofPlain?, hsign, Option.bind_eq_bind, Reading.continue?_plain hwhole hfraction hne]
  split
  · rfl
  · rfl

theorem value_ofPlain? :
    (ofPlain? (whole ++ fraction)).map value =
      if toNat whole < twoPow 96 then (Reading.atPoint (toNat whole)).number? fraction.tail
      else none := by
  rw [ofPlain?_of_parts hwhole hfraction hne]
  split
  · next hfits =>
      unfold Reading.number?
      cases hread : (Reading.atPoint (toNat whole)).continue? fraction.tail with
      | none => rfl
      | some parts =>
          obtain ⟨n, s⟩ := parts
          obtain ⟨hn, hs⟩ := Reading.continue?_bounds hfraction.areDigits_tail
            (Reading.isBehindPoint_atPoint hfits) hread
          have hparts : ofParts? false n s = some ⟨false, n, s, hn, hs⟩ := dif_pos ⟨hn, hs⟩
          simp only [Option.bind_some, hparts, Option.map_some, value_unsignZero]
          rfl
  · rfl

end Parts

/-- Literals without an exponent that denote one number are read as one number, or neither
of them is read. -/
theorem value_ofPlain?_congr {text text' : List Char} {q : ℚ} (h : PlainForm text q)
    (h' : PlainForm text' q) : (ofPlain? text).map value = (ofPlain? text').map value := by
  cases h with
  | @intro whole fraction _ hwhole hfraction hne hq =>
      cases h' with
      | @intro whole' fraction' _ hwhole' hfraction' hne' hq' =>
          obtain ⟨hsame, hplaces⟩ := parts_of_value_eq hfraction.areDigits_tail
            hfraction'.areDigits_tail (hq.trans hq'.symm)
          rw [value_ofPlain? hwhole hfraction hne, value_ofPlain? hwhole' hfraction' hne', ← hsame]
          split
          · next hfits =>
              have hzeros {digits : List Char} (hdigits : areDigits digits = true) (k : Nat) :=
                Reading.number?_append_zeros hdigits (Reading.isBehindPoint_atPoint hfits) k
              rw [← hzeros hfraction.areDigits_tail fraction'.tail.length, hplaces,
                hzeros hfraction'.areDigits_tail]
          · rfl

/-- A number below a tenth of the last place is read as zero. -/
theorem value_ofPlain?_of_small {text : List Char} {q : ℚ} (h : PlainForm text q)
    (hsmall : q < 10 ^ (-29 : Int)) : (ofPlain? text).map value = some 0 := by
  cases h with
  | @intro whole fraction _ hwhole hfraction hne hq =>
      have hplace : (10 : ℚ) ^ (-29 : Int) = LongDecimal.value ⟨(1 : Nat), (29 : Nat)⟩ := by
        simp [LongDecimal.value]
      rw [← hq, hplace, LongDecimal.value_natCast_lt_iff, Nat.one_mul] at hsmall
      have hlt : toNat (whole ++ fraction.tail) < tenPow fraction.tail.length :=
        lt_of_le_of_lt (Nat.le_mul_of_pos_right _ (tenPow_pos _)) hsmall
      have hzero : toNat whole = 0 := by
        by_contra hpos
        have hle : tenPow fraction.tail.length ≤ toNat (whole ++ fraction.tail) := by
          rw [Digits.toNat_append]
          exact le_trans (Nat.le_mul_of_pos_left _ (Nat.pos_of_ne_zero hpos)) (Nat.le_add_right _ _)
        exact absurd hlt (not_lt.mpr hle)
      have hfits : 0 < twoPow 96 := by decide
      rw [Digits.toNat_append, hzero, Nat.zero_mul, Nat.zero_add] at hsmall
      rw [value_ofPlain? hwhole hfraction hne, hzero, if_pos hfits]
      exact Reading.number?_of_small hfraction.areDigits_tail
        (Reading.isBehindPoint_atPoint hfits) rfl hsmall

/-- A number of more than 29 digits in front of its point is refused. -/
theorem value_ofPlain?_of_large {text : List Char} {q : ℚ} (h : PlainForm text q)
    (hlarge : 10 ^ (29 : Int) ≤ q) : (ofPlain? text).map value = none := by
  cases h with
  | @intro whole fraction _ hwhole hfraction hne hq =>
      have hpower : (10 : ℚ) ^ (29 : Int) = LongDecimal.value ⟨(tenPow 29 : Nat), (0 : Nat)⟩ := by
        simp [LongDecimal.value, cast_tenPow]
      rw [← hq, hpower, ← not_lt, LongDecimal.value_natCast_lt_iff, tenPow_zero, Nat.mul_one,
        not_lt] at hlarge
      have hlt : toNat (whole ++ fraction.tail) <
          (toNat whole + 1) * tenPow fraction.tail.length := by
        have hplaces := Digits.toNat_lt hfraction.areDigits_tail
        rw [Digits.toNat_append, Nat.succ_mul]
        omega
      have hle : tenPow 29 ≤ toNat whole :=
        Nat.lt_succ_iff.mp (Nat.lt_of_mul_lt_mul_right (lt_of_le_of_lt hlarge hlt))
      have hlimit : twoPow 96 ≤ tenPow 29 := by decide
      rw [value_ofPlain? hwhole hfraction hne, if_neg (not_lt.mpr (le_trans hlimit hle))]

end Decimal96

end DeskCalc
