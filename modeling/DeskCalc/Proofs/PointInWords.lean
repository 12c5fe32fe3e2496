import DeskCalc.Proofs.LiteralAcceptance

/-!
# Positional notation in words

A literal with an exponent is written out by counting where its point goes. With words of 64
bits the sums on the way are checked, and the other steps rely on what was checked before
them: a difference that stays in the words, a count of zeros that is not negative, a cut that
lies inside the digits. None of these steps goes wrong for any text, and as long as lengths
are far from the end of the words the checks refuse nothing that has a positional form.
-/

namespace DeskCalc

open Digits (areDigits toNat)

namespace Spelling

/-- What is cut off a text fits into it. -/
theorem length_cutAt_le (p : Char → Bool) (text : List Char) :
    (cutAt p text).1.length + ((cutAt p text).2.getD []).length ≤ text.length := by
  have hparts := congrArg List.length (List.takeWhile_append_dropWhile (p := fun c => !p c)
    (l := text))
  rw [List.length_append] at hparts
  unfold cutAt
  split
  · exact Nat.le_refl _
  · next c rest hdrop =>
      rw [hdrop, List.length_cons] at hparts
      simp only [Option.getD_some]
      omega

end Spelling

namespace Decimal96

/-- How a step that is not checked goes wrong. -/
inductive WordFault where
  /-- A difference leaves the words. -/
  | wraps
  /-- A text is cut behind its end. -/
  | cutBehindEnd
  /-- Zeros are asked for in a number that is negative or cannot be counted. -/
  | badCount
  deriving DecidableEq, Repr

/-- A number as a word, if it fits. -/
def word? (i : Int) : Option Int := if Spelling.isWord i then some i else none

def difference (a b : Int) : Except WordFault Int :=
  if Spelling.isWord (a - b) then .ok (a - b) else .error .wraps

def lengthDifference (m n : Nat) : Except WordFault Nat :=
  if n ≤ m then .ok (m - n) else .error .wraps

/-- A word as a count. Counts have 32 bits at least. -/
def toCount (i : Int) : Except WordFault Nat :=
  if 0 ≤ i ∧ i < twoPow 32 then .ok i.toNat else .error .badCount

def cutBehind (k : Nat) (digits : List Char) : Except WordFault (List Char × List Char) :=
  if k ≤ digits.length then .ok (digits.take k, digits.drop k) else .error .cutBehindEnd

/-- Where the point goes, in front of or behind the first digit that is not a zero: every sum
on the way is checked. -/
def countPoint? (whole : Nat) (e : Int) (leading : Nat) : Option Int := do
  let leading ← word? leading
  let whole ← word? whole
  let shifted ← word? (whole + e)
  word? (shifted - leading)

/-- The digits, of which there are `length`, with their point. -/
def setPointByWords (digits : List Char) (length point : Int) :
    Except WordFault (List Char) :=
  if point ≤ 0 then do
    let count ← toCount point.natAbs
    return '0' :: '.' :: (zeros count ++ digits)
  else if length ≤ point then do
    let count ← toCount (← difference point length)
    return digits ++ zeros count
  else do
    let (front, behind) ← cutBehind (← toCount point) digits
    return front ++ '.' :: behind

/-- The digits behind the leading zeros of a literal, with their point. -/
def placeByWords (whole : Nat) (e : Int) (digits significant : List Char) :
    Except WordFault (Option (List Char)) := do
  let leading ← lengthDifference digits.length significant.length
  match countPoint? whole e leading with
  | none => return none
  | some point =>
    if (maxWholeDigits : Int) < point then return none
    else if point < -(maxScale : Int) then return some ['0']
    else
      match word? significant.length with
      | none => return none
      | some length => return some (← setPointByWords significant length point)

/-- A literal with an exponent in positional notation, computed in words. -/
def writeOutByWords (text : List Char) : Except WordFault (Option (List Char)) :=
  let (mantissa, exponent) := Spelling.cutAt Spelling.isMarker text
  match exponent.bind Spelling.toWord? with
  | none => return none
  | some e =>
    let (whole, fraction) := Spelling.cutAt Spelling.isPoint mantissa
    let digits := whole ++ fraction.getD []
    if whole.isEmpty || !areDigits digits then return none
    else
      let significant := digits.dropWhile (· == '0')
      if significant.isEmpty then return some ['0']
      else placeByWords whole.length e digits significant

theorem isWord_iff {i : Int} :
    Spelling.isWord i = true ↔ -(twoPow 63 : Int) ≤ i ∧ i < twoPow 63 := by
  rw [Spelling.isWord, Bool.and_eq_true, decide_eq_true_eq, decide_eq_true_eq]

theorem word?_of_isWord {i : Int} (h : Spelling.isWord i = true) : word? i = some i := if_pos h

theorem word?_eq_some {i j : Int} : word? i = some j ↔ Spelling.isWord i = true ∧ i = j := by
  rw [word?]
  split
  · next h => simp [h]
  · next h => simp [h]

theorem isWord_of_toWord? {text : Option (List Char)} {e : Int}
    (h : text.bind Spelling.toWord? = some e) : Spelling.isWord e = true := by
  obtain ⟨digits, -, hword⟩ := Option.bind_eq_some_iff.mp h
  exact (Option.filter_eq_some_iff.mp hword).2

/-- Zeros of any number up to the largest one are counted and asked for without a fault, and a
point among the digits cuts them. -/
theorem setPointByWords_eq (digits : List Char) {point : Int} (hlow : -(maxScale : Int) ≤ point)
    (hhigh : point ≤ maxWholeDigits) :
    setPointByWords digits digits.length point = .ok (setPoint digits point) := by
  have hcount {i : Int} (h : 0 ≤ i) (hle : i ≤ maxWholeDigits) : toCount i = .ok i.toNat := by
    have hbits : (maxWholeDigits : Int) < twoPow 32 := by decide
    exact if_pos ⟨h, by omega⟩
  have hscale : maxScale < maxWholeDigits := by decide
  unfold setPointByWords setPoint
  split
  · next hneg =>
      rw [hcount (by omega) (by omega)]
      rfl
  · next hpos =>
      split
      · next hlong =>
          have hword : Spelling.isWord (point - digits.length) = true := by
            have hwide : (maxWholeDigits : Int) < twoPow 63 := by decide
            rw [isWord_iff]
            omega
          have hdifference : (point - digits.length).toNat = point.toNat - digits.length := by
            omega
          rw [difference, if_pos hword]
          change (do let count ← toCount (point - digits.length); return digits ++ zeros count) = _
          rw [hcount (by omega) (by omega), hdifference]
          rfl
      · next hshort =>
          have hinside : point.toNat ≤ digits.length := by omega
          rw [hcount (by omega) hhigh]
          change (do let (front, behind) ← cutBehind point.toNat digits
                     return front ++ '.' :: behind) = _
          rw [cutBehind, if_pos hinside]
          rfl

theorem countPoint?_eq_some {whole leading : Nat} {e point : Int}
    (h : countPoint? whole e leading = some point) :
    point = whole + e - leading ∧ Spelling.isWord point = true := by
  simp only [countPoint?, Option.bind_eq_bind, Option.bind_eq_some_iff, word?_eq_some] at h
  obtain ⟨_, ⟨-, rfl⟩, _, ⟨-, rfl⟩, _, ⟨-, rfl⟩, hword, rfl⟩ := h
  exact ⟨rfl, hword⟩

/-- With short lengths every point within reach is counted. -/
theorem countPoint?_of_short {whole leading : Nat} {e point : Int}
    (he : Spelling.isWord e = true) (hwhole : whole + maxWholeDigits < twoPow 63)
    (hleading : leading + maxWholeDigits < twoPow 63) (hpoint : point = whole + e - leading)
    (hnear : -(twoPow 63 : Int) ≤ point ∧ point ≤ maxWholeDigits) :
    countPoint? whole e leading = some point := by
  rw [isWord_iff] at he
  have hfirst : Spelling.isWord (leading : Int) = true := isWord_iff.mpr (by omega)
  have hsecond : Spelling.isWord (whole : Int) = true := isWord_iff.mpr (by omega)
  have hthird : Spelling.isWord ((whole : Int) + e) = true := isWord_iff.mpr (by omega)
  have hfourth : Spelling.isWord point = true := isWord_iff.mpr (by omega)
  rw [countPoint?, word?_of_isWord hfirst, Option.bind_eq_bind, Option.bind_some,
    word?_of_isWord hsecond, Option.bind_some, word?_of_isWord hthird, Option.bind_some, ← hpoint]
  exact word?_of_isWord hfourth

theorem ok_bind {ε α β : Type} (a : α) (f : α → Except ε β) : (Except.ok a >>= f) = f a := rfl

/-- The digits of a literal are placed as without words, unless there are so many of them that
their number is close to the end of the words. -/
theorem placeByWords_cases {whole : Nat} {e : Int} (he : Spelling.isWord e = true)
    {digits significant : List Char} (hwhole : whole ≤ digits.length)
    (hle : significant.length ≤ digits.length) {point : Int}
    (hpoint : point = whole + e - (digits.length - significant.length : Nat)) :
    placeByWords whole e digits significant =
        .ok (if !Spelling.isWord point || decide ((maxWholeDigits : Int) < point) then none
          else if point < -(maxScale : Int) then some ['0']
          else some (setPoint significant point)) ∨
      placeByWords whole e digits significant = .ok none ∧
        twoPow 63 ≤ digits.length + maxWholeDigits := by
  have hleading : lengthDifference digits.length significant.length =
      .ok (digits.length - significant.length) := if_pos hle
  rw [placeByWords, hleading, ok_bind]
  cases hcount : countPoint? whole e (digits.length - significant.length) with
  | none =>
      by_cases hlong : twoPow 63 ≤ digits.length + maxWholeDigits
      · exact Or.inr ⟨rfl, hlong⟩
      · have hfar : (!Spelling.isWord point || decide ((maxWholeDigits : Int) < point)) = true := by
          rw [isFar_iff]
          intro hnear
          have hsome := countPoint?_of_short he (by omega) (by omega) hpoint hnear
          exact nomatch hcount.symm.trans hsome
        rw [if_pos hfar]
        exact Or.inl rfl
  | some counted =>
      obtain ⟨hsum, hword⟩ := countPoint?_eq_some hcount
      obtain rfl : counted = point := hsum.trans hpoint.symm
      rw [hword, Bool.not_true, Bool.false_or]
      dsimp only
      by_cases hfar : (maxWholeDigits : Int) < counted
      · rw [if_pos hfar, if_pos (decide_eq_true hfar)]
        exact Or.inl rfl
      · rw [if_neg hfar, decide_eq_false hfar, if_neg Bool.false_ne_true]
        by_cases hsmall : counted < -(maxScale : Int)
        · rw [if_pos hsmall, if_pos hsmall]
          exact Or.inl rfl
        · rw [if_neg hsmall, if_neg hsmall]
          by_cases hlength : Spelling.isWord (significant.length : Int) = true
          · rw [word?_of_isWord hlength]
            dsimp only
            rw [setPointByWords_eq significant (not_lt.mp hsmall) (not_lt.mp hfar), ok_bind]
            exact Or.inl rfl
          · have hnone : word? significant.length = none := if_neg hlength
            rw [hnone]
            rw [isWord_iff] at hlength
            exact Or.inr ⟨rfl, by omega⟩

/-- Computing in words goes wrong nowhere. It gives the positional form, unless the text is so
long that its length is close to the end of the words. -/
theorem writeOutByWords_cases (text : List Char) :
    writeOutByWords text = .ok (writeOut? text) ∨
      writeOutByWords text = .ok none ∧ twoPow 63 ≤ text.length + maxWholeDigits := by
  have hmantissa := Spelling.length_cutAt_le Spelling.isMarker text
  rw [writeOutByWords, writeOut?]
  generalize Spelling.cutAt Spelling.isMarker text = parts at hmantissa ⊢
  obtain ⟨mantissa, exponent⟩ := parts
  dsimp only [Option.bind_eq_bind] at hmantissa ⊢
  cases hexponent : exponent.bind Spelling.toWord? with
  | none => exact Or.inl rfl
  | some e =>
      have hwhole := Spelling.length_cutAt_le Spelling.isPoint mantissa
      generalize Spelling.cutAt Spelling.isPoint mantissa = parts at hwhole ⊢
      obtain ⟨whole, fraction⟩ := parts
      dsimp only [Option.bind_some] at hwhole ⊢
      by_cases hform : (whole.isEmpty || !areDigits (whole ++ fraction.getD [])) = true
      · rw [if_pos hform, if_pos hform]
        exact Or.inl rfl
      · rw [if_neg hform, if_neg hform]
        generalize hdigits : whole ++ fraction.getD [] = digits
        have hlength : digits.length ≤ text.length := by
          rw [← hdigits, List.length_append]
          omega
        have hpart : whole.length ≤ digits.length := by
          rw [← hdigits, List.length_append]
          exact Nat.le_add_right _ _
        have hsignificant := List.length_dropWhile_le (· == '0') digits
        generalize digits.dropWhile (· == '0') = significant at hsignificant ⊢
        by_cases hzero : significant.isEmpty = true
        · rw [if_pos hzero, if_pos hzero]
          exact Or.inl rfl
        · rw [if_neg hzero, if_neg hzero]
          have he := isWord_of_toWord? hexponent
          rcases placeByWords_cases he hpart hsignificant rfl with hplaced | ⟨hrefused, hlong⟩
          · exact Or.inl hplaced
          · exact Or.inr ⟨hrefused, by omega⟩

end Decimal96

end DeskCalc
