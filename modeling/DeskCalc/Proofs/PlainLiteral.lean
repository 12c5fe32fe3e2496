import DeskCalc.Decimal96.Literal
import DeskCalc.Proofs.DigitValue

/-!
# Reading digits into 96 bits

A number that 96 bits can hold is read without rounding. Its whole part always fits,
and behind the point the reader stops taking digits only where zeros are left.
-/

namespace DeskCalc.Decimal96

open Digits (areDigits toNat)

/-- Whether a decimal of 96 bits denotes `n / 10 ^ s`. -/
def Representable (n s : Nat) : Prop :=
  ∃ m t, m < twoPow 96 ∧ t ≤ maxScale ∧ n * tenPow t = m * tenPow s

/-- A number of few places has zeros behind them. -/
theorem tenPow_dvd_of_shift {n t m s k : Nat} (hts : t ≤ s)
    (h : n * tenPow t = m * tenPow (s + k)) : tenPow k ∣ n := by
  refine ⟨m * tenPow (s - t), Nat.eq_of_mul_eq_mul_right (tenPow_pos t) ?_⟩
  calc
    n * tenPow t = m * tenPow ((s - t) + t + k) := by rw [h, Nat.sub_add_cancel hts]
    _ = tenPow k * (m * tenPow (s - t)) * tenPow t := by
      rw [tenPow_add, tenPow_add]
      ring

/-- The scale of a decimal that is large enough to fill 96 bits sooner is smaller. -/
theorem scale_le_of_large {n t m s k : Nat} (hm : m < twoPow 96)
    (hn : twoPow 96 * tenPow k ≤ n) (h : n * tenPow t = m * tenPow (s + (k + 1))) : t ≤ s := by
  by_contra hts
  have hpow : tenPow (s + 1) ≤ tenPow t := Nat.pow_le_pow_right (by decide) (by omega)
  have hle : twoPow 96 * tenPow k * tenPow (s + 1) ≤ n * tenPow t := Nat.mul_le_mul hn hpow
  have hlt : m * tenPow (s + (k + 1)) < twoPow 96 * tenPow (s + (k + 1)) :=
    Nat.mul_lt_mul_of_pos_right hm (tenPow_pos _)
  have hsame : twoPow 96 * tenPow k * tenPow (s + 1) = twoPow 96 * tenPow (s + (k + 1)) := by
    rw [Nat.mul_assoc, ← tenPow_add]
    congr 2
    omega
  omega

namespace Reading

theorem continue?_nil (r : Reading) :
    r.continue? [] = if r.digitSeen then some (r.coefficient, r.scale) else none := rfl

theorem continue?_digit {c : Char} (h : c.isDigit = true) (r : Reading) (rest : List Char) :
    r.continue? (c :: rest) =
      if r.isFull then r.round? (Digits.value c) rest
      else
        match r.takeDigit? (Digits.value c) with
        | some next => next.continue? rest
        | none => if r.pointSeen then r.round? (Digits.value c) rest else none := by
  change (if c.isDigit = true then _ else _) = _
  exact if_pos h

theorem continue?_point {r : Reading} (h : r.pointSeen = false) (rest : List Char) :
    r.continue? ('.' :: rest) = r.takePoint.continue? rest := by
  change (if ('.' == '.' && !r.pointSeen) = true then _ else none) = _
  exact if_pos (by rw [h]; rfl)

theorem takeDigit?_of_lt (r : Reading) {d : Nat} (h : 10 * r.coefficient + d < twoPow 96) :
    r.takeDigit? d = some
      { r with
        coefficient := 10 * r.coefficient + d
        scale := if r.pointSeen then r.scale + 1 else r.scale
        digitSeen := true } := if_pos h

/-- What holds of a reading once it is behind the point. -/
structure IsBehindPoint (r : Reading) : Prop where
  pointSeen : r.pointSeen = true
  digitSeen : r.digitSeen = true
  coefficient_lt : r.coefficient < twoPow 96
  scale_le : r.scale ≤ maxScale

/-- The reading at the point of a number with the given whole part. -/
def atPoint (whole : Nat) : Reading :=
  { coefficient := whole, pointSeen := true, digitSeen := true }

theorem isBehindPoint_atPoint {whole : Nat} (h : whole < twoPow 96) :
    (atPoint whole).IsBehindPoint :=
  ⟨rfl, rfl, h, Nat.zero_le _⟩

/-- The reading with one more place. -/
def takePlace (r : Reading) (d : Nat) : Reading :=
  { coefficient := 10 * r.coefficient + d, scale := r.scale + 1, pointSeen := true,
    digitSeen := true }

theorem isBehindPoint_takePlace {r : Reading} {d : Nat}
    (h : r.scale < maxScale ∧ 10 * r.coefficient + d < twoPow 96) :
    (r.takePlace d).IsBehindPoint :=
  ⟨rfl, rfl, h.2, h.1⟩

/-- Behind the point a digit is taken if there is room for it, and rounds otherwise. -/
theorem continue?_place {c : Char} (hc : c.isDigit = true) {r : Reading}
    (hpoint : r.pointSeen = true) (rest : List Char) :
    r.continue? (c :: rest) =
      if r.scale < maxScale ∧ 10 * r.coefficient + Digits.value c < twoPow 96 then
        (r.takePlace (Digits.value c)).continue? rest
      else r.round? (Digits.value c) rest := by
  have hfull : r.isFull = true ↔ ¬ r.scale < maxScale := by simp [isFull, hpoint]
  rw [continue?_digit hc]
  by_cases hroom : r.scale < maxScale ∧ 10 * r.coefficient + Digits.value c < twoPow 96
  · rw [if_pos hroom, if_neg fun h => hfull.mp h hroom.1, takeDigit?_of_lt r hroom.2]
    simp only [hpoint, if_true, takePlace]
  · rw [if_neg hroom]
    split
    · rfl
    · next hscale =>
        have hfits : ¬ 10 * r.coefficient + Digits.value c < twoPow 96 := fun h =>
          hroom ⟨not_not.mp (mt hfull.mpr hscale), h⟩
        have hnone : r.takeDigit? (Digits.value c) = none := if_neg hfits
        rw [hnone]

/-- A whole part that fits is taken digit by digit. -/
theorem continue?_whole {digits : List Char} (hdigits : areDigits digits = true)
    (rest : List Char) (r : Reading) (hpoint : r.pointSeen = false)
    (hlt : r.coefficient * tenPow digits.length + toNat digits < twoPow 96) :
    r.continue? (digits ++ rest) =
      Reading.continue?
        { r with
          coefficient := r.coefficient * tenPow digits.length + toNat digits
          digitSeen := r.digitSeen || !digits.isEmpty } rest := by
  induction digits generalizing r with
  | nil => simp
  | cons c digits ih =>
      obtain ⟨hc, htail⟩ := Digits.areDigits_cons.mp hdigits
      have hnumber : (10 * r.coefficient + Digits.value c) * tenPow digits.length + toNat digits =
          r.coefficient * tenPow (c :: digits).length + toNat (c :: digits) := by
        rw [Digits.toNat_cons, List.length_cons, tenPow_succ]
        ring
      have hfits : 10 * r.coefficient + Digits.value c < twoPow 96 := by
        have hle := Nat.le_mul_of_pos_right (10 * r.coefficient + Digits.value c)
          (tenPow_pos digits.length)
        omega
      have hfull : r.isFull = false := by rw [isFull, hpoint, Bool.false_and]
      rw [List.cons_append, continue?_digit hc, if_neg (by simp [hfull]),
        takeDigit?_of_lt r hfits]
      simp only [hpoint, Bool.false_eq_true, if_false]
      rw [← hnumber] at hlt ⊢
      rw [ih htail _ rfl hlt]
      simp only [Bool.true_or, List.isEmpty_cons, Bool.not_false, Bool.or_true]

theorem round?_zero (r : Reading) {rest : List Char} (h : areDigits rest = true) :
    r.round? 0 rest = some (r.coefficient, r.scale) := by
  have hrest : rest.all isRest = true := by
    rw [List.all_eq_true]
    intro c hc
    rw [isRest, List.all_eq_true.mp h c hc, Bool.true_or]
  simp [round?, hrest]

/-- Digits that are not taken are zeros if the number has no more places than were taken. -/
theorem tail_eq_zero {c d k tail : Nat} (hd : d < 10) (htail : tail < tenPow k)
    (h : tenPow (k + 1) ∣ c * tenPow (k + 1) + (d * tenPow k + tail)) : d = 0 ∧ tail = 0 := by
  have hdvd := (Nat.dvd_add_right (Nat.dvd_mul_left _ c)).mp h
  have hlt : d * tenPow k + tail < tenPow (k + 1) := by
    have hle : (d + 1) * tenPow k ≤ 10 * tenPow k := Nat.mul_le_mul_right _ hd
    rw [tenPow_succ]
    linarith
  obtain ⟨hzero, htailzero⟩ := Nat.add_eq_zero_iff.mp (Nat.eq_zero_of_dvd_of_lt hdvd hlt)
  have hpos := tenPow_pos k
  rcases Nat.mul_eq_zero.mp hzero with hd' | hk
  · exact ⟨hd', htailzero⟩
  · omega

/-- Behind the point a representable number is read exactly. -/
theorem continue?_places {digits : List Char} (hdigits : areDigits digits = true)
    {r : Reading} (hr : r.IsBehindPoint)
    (hrep : Representable (r.coefficient * tenPow digits.length + toNat digits)
      (r.scale + digits.length)) :
    ∃ n s, r.continue? digits = some (n, s) ∧ n < twoPow 96 ∧ s ≤ maxScale ∧
      n * tenPow (r.scale + digits.length) =
        (r.coefficient * tenPow digits.length + toNat digits) * tenPow s := by
  induction digits generalizing r with
  | nil =>
      refine ⟨r.coefficient, r.scale, ?_, hr.coefficient_lt, hr.scale_le, ?_⟩
      · rw [continue?_nil, if_pos hr.digitSeen]
      · simp
  | cons c digits ih =>
      obtain ⟨hc, htail⟩ := Digits.areDigits_cons.mp hdigits
      obtain ⟨m, t, hm, ht, hvalue⟩ := hrep
      rw [Digits.toNat_cons, List.length_cons] at hvalue ⊢
      have hnumber : r.coefficient * tenPow (digits.length + 1) +
            (Digits.value c * tenPow digits.length + toNat digits) =
          (10 * r.coefficient + Digits.value c) * tenPow digits.length + toNat digits := by
        rw [tenPow_succ]
        ring
      rw [continue?_place hc hr.pointSeen]
      split
      · next hroom =>
          have hlength : r.scale + (digits.length + 1) = r.scale + 1 + digits.length := by omega
          rw [hnumber, hlength] at hvalue ⊢
          exact ih htail (isBehindPoint_takePlace hroom) ⟨m, t, hm, ht, hvalue⟩
      · next hroom =>
          -- Once no digit is taken any more, the digits left are zeros.
          have hts : t ≤ r.scale := by
            by_cases hmax : r.scale < maxScale
            · have hlarge := not_lt.mp fun hfits => hroom ⟨hmax, hfits⟩
              apply scale_le_of_large hm _ hvalue
              rw [hnumber]
              exact le_trans (Nat.mul_le_mul_right _ hlarge) (Nat.le_add_right _ _)
            · exact le_trans ht (not_lt.mp hmax)
          obtain ⟨hzero, htailzero⟩ := tail_eq_zero (Digits.value_lt_ten hc)
            (Digits.toNat_lt htail) (tenPow_dvd_of_shift hts hvalue)
          refine ⟨r.coefficient, r.scale, ?_, hr.coefficient_lt, hr.scale_le, ?_⟩
          · rw [hzero]
            exact round?_zero r htail
          · rw [hzero, htailzero, Nat.zero_mul, Nat.add_zero, Nat.add_zero, tenPow_add]
            ring

end Reading

end DeskCalc.Decimal96
