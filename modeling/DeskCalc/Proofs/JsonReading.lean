import DeskCalc.Proofs.DigitValue
import DeskCalc.Proofs.JsonGrammar
import Mathlib.Data.List.DropRight

/-!
# Reading what the grammar admits

Every text that spells a value is read as that value, and the reader stops right behind it.
Only the end of a number needs a look at what follows; everything else ends with a character
of its own.
-/

namespace DeskCalc.Json

open Digits (areDigits)

/-- What may stand right behind a value. -/
def EndsValue (rest : List Char) : Prop :=
  ∀ c ∈ rest.head?, isBlank c = true ∨ c = ',' ∨ c = ']' ∨ c = '\x7d'

theorem skipBlanks_append {blanks : List Char} (h : AreBlanks blanks) (rest : List Char) :
    skipBlanks (blanks ++ rest) = skipBlanks rest := List.dropWhile_append_of_pos h

theorem skipBlanks_cons {c : Char} (h : isBlank c = false) (rest : List Char) :
    skipBlanks (c :: rest) = c :: rest :=
  List.dropWhile_cons_of_neg (by rw [h]; exact Bool.false_ne_true)

theorem skipBlanks_skipBlanks (text : List Char) :
    skipBlanks (skipBlanks text) = skipBlanks text := List.dropWhile_idempotent isBlank text

section Strings

theorem escape?_of_escapes {e c : Char} (h : Escapes e c) : escape? e = some c := by
  cases h <;> rfl

theorem hexDigit?_of_isHexDigit {c : Char} {n : Nat} (h : IsHexDigit c n) :
    hexDigit? c = some n := by
  have htable : ∀ n < 16, hexDigit? n.digitChar = some n ∧
      hexDigit? n.digitChar.toUpper = some n := by decide
  obtain ⟨hn, rfl | rfl⟩ := h
  · exact (htable n hn).1
  · exact (htable n hn).2

theorem hexUnit?_of_unitDigits {digits : List Char} {n : Nat} (h : UnitDigits digits n) :
    ∃ a b c d, digits = [a, b, c, d] ∧ hexUnit? a b c d = some n ∧ n < 0x10000 := by
  cases h with
  | @intro a b c d i j k l ha hb hc hd =>
      refine ⟨a, b, c, d, rfl, ?_, ?_⟩
      · simp only [hexUnit?, hexDigit?_of_isHexDigit ha, hexDigit?_of_isHexDigit hb,
          hexDigit?_of_isHexDigit hc, hexDigit?_of_isHexDigit hd, Option.bind_eq_bind,
          Option.bind_some]
      · have hi := ha.1
        have hj := hb.1
        have hk := hc.1
        have hl := hd.1
        omega

/-- The body of a string is read up to its quote. -/
theorem readString?_append {body : List Char} {parts : List StringPart} (h : IsBody body parts)
    (rest : List Char) : readString? (body ++ '"' :: rest) = some (parts, rest) := by
  induction h with
  | nil => rfl
  | @char c body parts hquote hbackslash hcontrol h ih =>
      rw [List.cons_append, readString?]
      · rw [if_neg (by omega), ih]
        rfl
      all_goals simp_all
  | @escape e c body parts he h ih =>
      rw [List.cons_append, List.cons_append, readString?]
      · rw [escape?_of_escapes he, ih]
        rfl
      · rintro a b c d rest' rfl
        cases he
  | unit hn h ih =>
      obtain ⟨a, b, c, d, rfl, hunit, -⟩ := hexUnit?_of_unitDigits hn
      simp only [List.cons_append, List.nil_append, readString?, hunit, ih, Option.bind_eq_bind,
        Option.bind_some]

theorem IsBody.unit_lt {body : List Char} {parts : List StringPart} (h : IsBody body parts) :
    ∀ n, StringPart.unit n ∈ parts → n < 0x10000 := by
  induction h with
  | nil => simp
  | char _ _ _ _ ih => simpa using ih
  | escape _ _ ih => simpa using ih
  | unit hn _ ih =>
      obtain ⟨-, -, -, -, -, -, hlt⟩ := hexUnit?_of_unitDigits hn
      intro m hm
      rcases List.mem_cons.mp hm with heq | hm
      · cases heq
        exact hlt
      · exact ih m hm

theorem isHighSurrogate_iff {n : Nat} :
    isHighSurrogate n = true ↔ 0xd800 ≤ n ∧ n < 0xdc00 := by
  rw [isHighSurrogate, Bool.and_eq_true, decide_eq_true_eq, decide_eq_true_eq]

theorem isLowSurrogate_iff {n : Nat} : isLowSurrogate n = true ↔ 0xdc00 ≤ n ∧ n < 0xe000 := by
  rw [isLowSurrogate, Bool.and_eq_true, decide_eq_true_eq, decide_eq_true_eq]

/-- Half of a pair is no character. -/
theorem not_isSurrogate (c : Char) :
    ¬ isHighSurrogate c.toNat = true ∧ ¬ isLowSurrogate c.toNat = true := by
  have hvalid : c.toNat.isValidChar := c.valid
  rw [Nat.isValidChar] at hvalid
  rw [isHighSurrogate_iff, isLowSurrogate_iff]
  omega

theorem toNat_ofNat {n : Nat} (h : n.isValidChar) : (Char.ofNat n).toNat = n := by
  rw [Char.ofNat, dif_pos h]
  rfl

section Denotation

variable {c : Char} {n m : Nat} {parts : List StringPart} {text : List Char}

theorem denotes_char_iff :
    Denotes (.char c :: parts) text ↔ ∃ t, Denotes parts t ∧ c :: t = text := by
  constructor
  · rintro (_ | h)
    exact ⟨_, h, rfl⟩
  · rintro ⟨t, h, rfl⟩
    exact .char h

/-- A unit that is no half of a pair denotes its character. -/
theorem denotes_unit_iff (hn : n < 0x10000) (hhigh : ¬ isHighSurrogate n = true)
    (hlow : ¬ isLowSurrogate n = true) :
    Denotes (.unit n :: parts) text ↔ ∃ t, Denotes parts t ∧ Char.ofNat n :: t = text := by
  rw [isHighSurrogate_iff] at hhigh
  rw [isLowSurrogate_iff] at hlow
  constructor
  · intro h
    cases h with
    | unit h => exact ⟨_, h, by rw [Char.ofNat_toNat]⟩
    | pair hfirst _ _ _ => omega
  · rintro ⟨t, h, rfl⟩
    have hvalid : n.isValidChar := by
      rw [Nat.isValidChar]
      omega
    have hunit := Denotes.unit (c := Char.ofNat n) h
    rwa [toNat_ofNat hvalid] at hunit

/-- Two halves that follow each other denote one character. -/
theorem denotes_pair_iff (hhigh : isHighSurrogate n = true) (hlow : isLowSurrogate m = true) :
    Denotes (.unit n :: .unit m :: parts) text ↔
      ∃ t, Denotes parts t ∧
        Char.ofNat (0x10000 + (n - 0xd800) * 0x400 + (m - 0xdc00)) :: t = text := by
  constructor
  · intro h
    generalize hparts : StringPart.unit n :: .unit m :: parts = all at h
    cases h with
    | nil => cases hparts
    | char _ => cases hparts
    | @unit c _ _ _ =>
        cases hparts
        exact absurd hhigh (not_isSurrogate c).1
    | @pair high low c _ t _ _ hc h =>
        cases hparts
        rw [Nat.add_sub_cancel_left, Nat.add_sub_cancel_left, ← hc, Char.ofNat_toNat]
        exact ⟨t, h, rfl⟩
  · rintro ⟨t, h, rfl⟩
    rw [isHighSurrogate_iff] at hhigh
    rw [isLowSurrogate_iff] at hlow
    obtain ⟨high, rfl⟩ := Nat.exists_eq_add_of_le hhigh.1
    obtain ⟨low, rfl⟩ := Nat.exists_eq_add_of_le hlow.1
    rw [Nat.add_sub_cancel_left, Nat.add_sub_cancel_left]
    have hvalid : (0x10000 + high * 0x400 + low).isValidChar := by
      rw [Nat.isValidChar]
      omega
    exact .pair (by omega) (by omega) (toNat_ofNat hvalid) h

/-- A half without the other one denotes nothing. -/
theorem not_denotes_half (hhalf : isHighSurrogate n = true ∨ isLowSurrogate n = true)
    (hnext : isHighSurrogate n = true →
      ∀ m rest, parts = .unit m :: rest → ¬ isLowSurrogate m = true) :
    ¬ Denotes (.unit n :: parts) text := by
  intro h
  cases h with
  | @unit c _ _ _ =>
      rcases hhalf with hhigh | hlow
      · exact (not_isSurrogate c).1 hhigh
      · exact (not_isSurrogate c).2 hlow
  | @pair high low _ _ _ hfirst hsecond _ _ =>
      have hhigh : isHighSurrogate (0xd800 + high) = true := isHighSurrogate_iff.mpr (by omega)
      exact hnext hhigh _ _ rfl (isLowSurrogate_iff.mpr (by omega))

end Denotation

/-- The text of string parts is what they denote. -/
theorem text?_eq_some_iff {parts : List StringPart} (hparts : ∀ n, .unit n ∈ parts → n < 0x10000)
    (text : List Char) : text? parts = some text ↔ Denotes parts text := by
  fun_induction text? parts generalizing text with
  | case1 =>
      constructor
      · intro h
        cases h
        exact .nil
      · intro h
        cases h
        rfl
  | case2 c rest ih =>
      have hrest := fun n hn => hparts n (List.mem_cons_of_mem _ hn)
      simp only [Option.map_eq_some_iff, denotes_char_iff, ih hrest]
  | case3 n m rest hhigh hlow ih =>
      have hrest := fun n hn =>
        hparts n (List.mem_cons_of_mem _ (List.mem_cons_of_mem _ hn))
      simp only [Option.map_eq_some_iff, denotes_pair_iff hhigh hlow, ih hrest]
  | case4 n m rest hhigh hlow =>
      refine iff_of_false (Option.some_ne_none text).symm (not_denotes_half (.inl hhigh) ?_)
      rintro - m' rest' heq
      cases heq
      exact hlow
  | case5 n m rest hhigh hlow =>
      refine iff_of_false (Option.some_ne_none text).symm (not_denotes_half (.inr hlow) ?_)
      exact fun h => absurd h hhigh
  | case6 n m rest hhigh hlow ih =>
      have hrest := fun n hn => hparts n (List.mem_cons_of_mem _ hn)
      have hn := hparts n List.mem_cons_self
      simp only [Option.map_eq_some_iff, denotes_unit_iff hn hhigh hlow, ih hrest]
  | case7 n rest hlast hhalf =>
      rw [Bool.or_eq_true] at hhalf
      refine iff_of_false (Option.some_ne_none text).symm (not_denotes_half hhalf ?_)
      rintro - m rest' heq
      exact absurd heq (hlast m rest')
  | case8 n rest hlast hhalf ih =>
      rw [Bool.or_eq_true, not_or] at hhalf
      have hrest := fun n hn => hparts n (List.mem_cons_of_mem _ hn)
      have hn := hparts n List.mem_cons_self
      simp only [Option.map_eq_some_iff, denotes_unit_iff hn hhalf.1 hhalf.2, ih hrest]

theorem map_text?_eq_some_iff {body : List Char} {parts : List StringPart}
    (hbody : IsBody body parts) (t : String) :
    (text? parts).map String.ofList = some t ↔ Denotes parts t.toList := by
  rw [← text?_eq_some_iff hbody.unit_lt, Option.map_eq_some_iff]
  constructor
  · rintro ⟨chars, hchars, rfl⟩
    rw [hchars, String.toList_ofList]
  · intro hchars
    exact ⟨t.toList, hchars, String.ofList_toList⟩

/-- A string is read up to its quote, as the text that it has or as one without a text. -/
theorem readText?_append {body : List Char} {text : Option String} (h : Quoted body text)
    (rest : List Char) : readText? (body ++ '"' :: rest) = some (text, rest) := by
  obtain ⟨hbody, htext⟩ := h
  have hdenoted := Option.ext fun t => (map_text?_eq_some_iff hbody t).trans (htext t).symm
  rw [readText?, readString?_append hbody, Option.map_some]
  dsimp only
  rw [hdenoted]

end Strings

section Numbers

variable {rest : List Char}

theorem readDigits?_append {digits : List Char} (hne : digits ≠ []) (h : areDigits digits = true)
    (hrest : ∀ c ∈ rest.head?, c.isDigit = false) :
    readDigits? (digits ++ rest) = some (digits, rest) := by
  have hpass := List.all_eq_true.mp h
  have hstop : rest.takeWhile Char.isDigit = [] ∧ rest.dropWhile Char.isDigit = rest := by
    cases rest with
    | nil => exact ⟨rfl, rfl⟩
    | cons c rest =>
        have hc : ¬ c.isDigit = true := by
          rw [hrest c rfl]
          exact Bool.false_ne_true
        exact ⟨List.takeWhile_cons_of_neg hc, List.dropWhile_cons_of_neg hc⟩
  rw [readDigits?, List.takeWhile_append_of_pos hpass, List.dropWhile_append_of_pos hpass,
    hstop.1, hstop.2, List.append_nil]
  split
  · exact absurd rfl hne
  · rfl

theorem readWhole?_append {whole : List Char} (h : IsWhole whole)
    (hrest : ∀ c ∈ rest.head?, c.isDigit = false) :
    readWhole? (whole ++ rest) = some (whole, rest) := by
  cases h with
  | zero => rfl
  | positive hc hdigits =>
      rw [readWhole?]
      · exact readDigits?_append (List.cons_ne_nil _ _) hdigits hrest
      · rintro after heq
        exact hc (List.cons.inj heq).1

theorem readFraction?_append {places : List Char} (h : IsPlaces places)
    (hrest : ∀ c ∈ rest.head?, c.isDigit = false ∧ c ≠ '.') :
    readFraction? (places ++ rest) = some (places, rest) := by
  cases h with
  | none =>
      rw [List.nil_append, readFraction?]
      rintro after rfl
      exact (hrest '.' rfl).2 rfl
  | some hne hdigits =>
      rw [List.cons_append, readFraction?,
        readDigits?_append hne hdigits (fun c hc => (hrest c hc).1)]
      rfl

theorem readSign_append {sign digits : List Char} (h : sign = [] ∨ sign = ['+'] ∨ sign = ['-'])
    (hne : digits ≠ []) (hdigits : areDigits digits = true) :
    readSign (sign ++ (digits ++ rest)) = (sign, digits ++ rest) := by
  rcases h with rfl | rfl | rfl
  · obtain ⟨c, more, rfl⟩ := List.exists_cons_of_ne_nil hne
    have hc := (Digits.areDigits_cons.mp hdigits).1
    rw [List.nil_append, readSign]
    · rintro after heq
      obtain rfl := (List.cons.inj heq).1
      exact absurd hc (by decide)
    · rintro after heq
      obtain rfl := (List.cons.inj heq).1
      exact absurd hc (by decide)
  · rfl
  · rfl

theorem readExponent?_append {power : List Char} (h : IsPower power)
    (hrest : ∀ c ∈ rest.head?, c.isDigit = false ∧ c ≠ 'e' ∧ c ≠ 'E') :
    readExponent? (power ++ rest) = some (power, rest) := by
  cases h with
  | none =>
      rw [List.nil_append]
      cases rest with
      | nil => rfl
      | cons c rest =>
          obtain ⟨-, he, hE⟩ := hrest c rfl
          rw [readExponent?, if_neg (by simp [he, hE])]
  | some hmarker hsign hne hdigits =>
      rw [List.cons_append, readExponent?, if_pos (by simpa using hmarker), List.append_assoc,
        readSign_append hsign hne hdigits]
      dsimp only
      rw [readDigits?_append hne hdigits (fun c hc => (hrest c hc).1)]
      rfl

theorem IsWhole.isDigit_head {whole : List Char} (h : IsWhole whole) :
    ∃ c digits, whole = c :: digits ∧ c.isDigit = true := by
  cases h with
  | zero => exact ⟨'0', [], rfl, rfl⟩
  | positive hc hdigits => exact ⟨_, _, rfl, (Digits.areDigits_cons.mp hdigits).1⟩

theorem EndsValue.head (h : EndsValue rest) :
    ∀ c ∈ rest.head?, c.isDigit = false ∧ c ≠ '.' ∧ c ≠ 'e' ∧ c ≠ 'E' := by
  intro c hc
  have hblank (h : isBlank c = true) : c = ' ' ∨ c = '\t' ∨ c = '\n' ∨ c = '\r' := by
    simpa [isBlank, or_assoc] using h
  rcases (h c hc).imp_left hblank with (rfl | rfl | rfl | rfl) | rfl | rfl | rfl <;> decide

/-- Neither a power nor what ends a value starts with a digit or a point. -/
theorem IsPower.head_append {power : List Char} (h : IsPower power) (hrest : EndsValue rest) :
    ∀ c ∈ (power ++ rest).head?, c.isDigit = false ∧ c ≠ '.' := by
  intro c hc
  cases h with
  | none =>
      obtain ⟨hdigit, hpoint, -⟩ := hrest.head c hc
      exact ⟨hdigit, hpoint⟩
  | some hmarker _ _ _ =>
      obtain rfl := Option.some.inj hc
      rcases hmarker with rfl | rfl <;> decide

theorem IsPlaces.head_append {places : List Char} (h : IsPlaces places)
    (hrest : ∀ c ∈ rest.head?, c.isDigit = false ∧ c ≠ '.') :
    ∀ c ∈ (places ++ rest).head?, c.isDigit = false := by
  intro c hc
  cases h with
  | none => exact (hrest c hc).1
  | some _ _ =>
      obtain rfl := Option.some.inj hc
      rfl

/-- A number is read up to what ends a value. -/
theorem readNumber?_append {text : List Char} (h : IsNumber text) (hrest : EndsValue rest) :
    readNumber? (text ++ rest) = some (text, rest) := by
  obtain @⟨sign, whole, places, power, hsign, hwhole, hplaces, hpower⟩ := h
  have hafterWhole := hpower.head_append hrest
  have hread : readWhole? (whole ++ (places ++ (power ++ rest))) =
      some (whole, places ++ (power ++ rest)) :=
    readWhole?_append hwhole (hplaces.head_append hafterWhole)
  have hfraction := readFraction?_append hplaces hafterWhole
  have hexponent := readExponent?_append hpower fun c hc =>
    ⟨(hrest.head c hc).1, (hrest.head c hc).2.2⟩
  have hunsigned (sign : List Char) :
      ((readWhole? (whole ++ (places ++ (power ++ rest)))).bind fun w =>
        (readFraction? w.2).bind fun f => (readExponent? f.2).bind fun e =>
          some (sign ++ w.1 ++ f.1 ++ e.1, e.2)) = some (sign ++ whole ++ places ++ power, rest) := by
    simp only [hread, hfraction, hexponent, Option.bind_some]
  have hparts : sign ++ whole ++ places ++ power ++ rest =
      sign ++ (whole ++ (places ++ (power ++ rest))) := by
    simp only [List.append_assoc]
  rw [hparts]
  rcases hsign with rfl | rfl
  · obtain ⟨c, digits, rfl, hc⟩ := hwhole.isDigit_head
    rw [List.nil_append, readNumber?]
    · exact hunsigned []
    · rintro after heq
      obtain rfl := (List.cons.inj heq).1
      exact absurd hc (by decide)
  · rw [List.singleton_append, readNumber?]
    exact hunsigned ['-']

end Numbers

section Values

theorem readValue?_skipBlanks (fuel : Nat) (text : List Char) :
    readValue? fuel (skipBlanks text) = readValue? fuel text := by
  cases fuel with
  | zero => rfl
  | succ fuel => rw [readValue?, readValue?, skipBlanks_skipBlanks]

theorem readItems?_skipBlanks (fuel : Nat) (text : List Char) :
    readItems? fuel (skipBlanks text) = readItems? fuel text := by
  cases fuel with
  | zero => rfl
  | succ fuel => rw [readItems?, readItems?, readValue?_skipBlanks]

theorem readMembers?_skipBlanks (fuel : Nat) (text : List Char) :
    readMembers? fuel (skipBlanks text) = readMembers? fuel text := by
  cases fuel with
  | zero => rfl
  | succ fuel => rw [readMembers?, readMembers?, skipBlanks_skipBlanks]

theorem IsNumber.head {text : List Char} (h : IsNumber text) :
    ∃ c rest, text = c :: rest ∧ (c.isDigit = true ∨ c = '-') := by
  obtain ⟨hsign, hwhole, -, -⟩ := h
  rcases hsign with rfl | rfl
  · obtain ⟨c, digits, rfl, hc⟩ := hwhole.isDigit_head
    exact ⟨c, _, rfl, Or.inl hc⟩
  · exact ⟨'-', _, rfl, Or.inr rfl⟩

/-- A character that starts a number starts nothing else. -/
theorem ne_of_startsNumber {c d : Char} (h : c.isDigit = true ∨ c = '-')
    (hd : (d.isDigit || d == '-') = false) : c ≠ d := by
  rintro rfl
  rcases h with hdigit | rfl
  · rw [hdigit] at hd
    exact absurd hd Bool.noConfusion
  · exact absurd hd (by decide)

theorem isBlank_of_startsNumber {c : Char} (h : c.isDigit = true ∨ c = '-') :
    isBlank c = false := by
  have hne (d : Char) (hd : (d.isDigit || d == '-') = false) : c ≠ d := ne_of_startsNumber h hd
  simp [isBlank, hne ' ' rfl, hne '\t' rfl, hne '\n' rfl, hne '\r' rfl]

/-- Neither a blank nor a closing bracket starts a value. -/
theorem Spells.head {v : Json} {text : List Char} (h : Spells v text) :
    ∃ c rest, text = c :: rest ∧ isBlank c = false ∧ c ≠ ']' := by
  cases h with
  | number h =>
      obtain ⟨c, rest, rfl, hc⟩ := h.head
      exact ⟨c, rest, rfl, isBlank_of_startsNumber hc, ne_of_startsNumber hc rfl⟩
  | _ => exact ⟨_, _, rfl, rfl, by decide⟩

theorem readValue?_number {text rest : List Char} (h : IsNumber text) (hrest : EndsValue rest)
    (fuel : Nat) : readValue? (fuel + 1) (text ++ rest) = some (.number text, rest) := by
  have hread := readNumber?_append h hrest
  obtain ⟨c, more, rfl, hc⟩ := h.head
  have hne (d : Char) (hd : (d.isDigit || d == '-') = false) : c ≠ d := ne_of_startsNumber hc hd
  have hscalar : readScalar? (c :: (more ++ rest)) = some (.number (c :: more), rest) := by
    rw [readScalar?]
    · rw [← List.cons_append, hread]
      rfl
    all_goals
      rintro after heq
      exact hne _ rfl (List.cons.inj heq).1
  rw [List.cons_append, readValue?, skipBlanks_cons (isBlank_of_startsNumber hc)]
  split
  · next heq => exact absurd (List.cons.inj heq).1 (hne '"' rfl)
  · next heq => exact absurd (List.cons.inj heq).1 (hne '[' rfl)
  · next heq => exact absurd (List.cons.inj heq).1 (hne '\x7b' rfl)
  · exact hscalar

theorem IsText.head {v : Json} {text : List Char} (h : IsText v text) (rest : List Char) :
    ∃ c more, skipBlanks (text ++ rest) = c :: more ∧ c ≠ ']' := by
  obtain ⟨hfront, hspells, -⟩ := h
  obtain ⟨c, more, rfl, hblank, hne⟩ := hspells.head
  rw [List.append_assoc, List.append_assoc, skipBlanks_append hfront, List.cons_append,
    skipBlanks_cons hblank]
  exact ⟨c, _, rfl, hne⟩

theorem SpellsItems.head {items : List Json} {text : List Char} (h : SpellsItems items text)
    (rest : List Char) : ∃ c more, skipBlanks (text ++ rest) = c :: more ∧ c ≠ ']' := by
  cases h with
  | one h => exact h.head rest
  | cons h _ =>
      rw [List.append_assoc]
      exact h.head _

theorem SpellsMember.head {member : Option String × Json} {text : List Char}
    (h : SpellsMember member text) (rest : List Char) :
    ∃ more, skipBlanks (text ++ rest) = '"' :: more := by
  obtain ⟨hfront, -, -, -⟩ := h
  rw [List.append_assoc, skipBlanks_append hfront]
  exact ⟨_, rfl⟩

theorem SpellsMembers.head {members : List (Option String × Json)} {text : List Char}
    (h : SpellsMembers members text) (rest : List Char) :
    ∃ more, skipBlanks (text ++ rest) = '"' :: more := by
  cases h with
  | one h => exact h.head rest
  | cons h _ =>
      rw [List.append_assoc]
      exact h.head _

theorem readValue?_quote (fuel : Nat) (rest : List Char) :
    readValue? (fuel + 1) ('"' :: rest) =
      (readText? rest).map fun (s, after) => (string s, after) := rfl

theorem readValue?_bracket (fuel : Nat) (rest : List Char) :
    readValue? (fuel + 1) ('[' :: rest) =
      match skipBlanks rest with
      | ']' :: after => some (array [], after)
      | inner => (readItems? fuel inner).map fun (items, after) => (array items, after) := rfl

theorem readValue?_brace (fuel : Nat) (rest : List Char) :
    readValue? (fuel + 1) ('\x7b' :: rest) =
      match skipBlanks rest with
      | '\x7d' :: after => some (object [], after)
      | inner => (readMembers? fuel inner).map fun (ms, after) => (object ms, after) := rfl

theorem readValue?_of_items {fuel : Nat} {text rest : List Char} {items : List Json}
    (hhead : ∃ c more, skipBlanks text = c :: more ∧ c ≠ ']')
    (hitems : readItems? fuel text = some (items, rest)) :
    readValue? (fuel + 1) ('[' :: text) = some (.array items, rest) := by
  obtain ⟨c, more, hskip, hne⟩ := hhead
  have hinner : readItems? fuel (c :: more) = some (items, rest) := by
    rw [← hskip, readItems?_skipBlanks, hitems]
  rw [readValue?_bracket, hskip]
  split
  · next heq => exact absurd (List.cons.inj heq).1 hne
  · rw [hinner]
    rfl

theorem readValue?_of_members {fuel : Nat} {text rest : List Char}
    {members : List (Option String × Json)} (hhead : ∃ more, skipBlanks text = '"' :: more)
    (hmembers : readMembers? fuel text = some (members, rest)) :
    readValue? (fuel + 1) ('\x7b' :: text) = some (.object members, rest) := by
  obtain ⟨more, hskip⟩ := hhead
  have hinner : readMembers? fuel ('"' :: more) = some (members, rest) := by
    rw [← hskip, readMembers?_skipBlanks, hmembers]
  rw [readValue?_brace, hskip]
  split
  · next heq => exact absurd (List.cons.inj heq).1 (by decide)
  · rw [hinner]
    rfl

/-- Behind the last item stands the bracket, and behind every other one a comma. -/
theorem readItems?_last {fuel : Nat} {text after rest : List Char} {v : Json}
    (hread : readValue? fuel text = some (v, after)) (hskip : skipBlanks after = ']' :: rest) :
    readItems? (fuel + 1) text = some ([v], rest) := by
  rw [readItems?, hread, Option.bind_eq_bind, Option.bind_some]
  dsimp only
  rw [hskip]
  rfl

theorem readItems?_more {fuel : Nat} {text after more : List Char} {v : Json}
    (hread : readValue? fuel text = some (v, after)) (hskip : skipBlanks after = ',' :: more) :
    readItems? (fuel + 1) text =
      (readItems? fuel more).map fun (items, rest) => (v :: items, rest) := by
  rw [readItems?, hread, Option.bind_eq_bind, Option.bind_some]
  dsimp only
  rw [hskip]
  change (readItems? fuel more).bind (fun (items, rest) => some (v :: items, rest)) = _
  cases readItems? fuel more <;> rfl

/-- A key is read up to its colon, and its value behind that. -/
theorem readMembers?_key {front body back : List Char} {key : Option String}
    (hfront : AreBlanks front) (hkey : Quoted body key) (hback : AreBlanks back) (fuel : Nat)
    (text : List Char) :
    readMembers? (fuel + 1) (front ++ '"' :: (body ++ '"' :: (back ++ ':' :: text))) =
      (readValue? fuel text).bind fun (value, behind) =>
        match skipBlanks behind with
        | '\x7d' :: after => some ([(key, value)], after)
        | ',' :: more => (readMembers? fuel more).bind fun (members, after) =>
            some ((key, value) :: members, after)
        | _ => none := by
  have hquote := skipBlanks_append hfront ('"' :: (body ++ '"' :: (back ++ ':' :: text)))
  have hcolon := skipBlanks_append hback (':' :: text)
  rw [readMembers?, hquote]
  change (readText? (body ++ '"' :: (back ++ ':' :: text))).bind _ = _
  rw [readText?_append hkey, Option.bind_some]
  dsimp only
  rw [hcolon]
  rfl

section Member

variable {fuel : Nat} {front body back text after : List Char} {key : Option String} {v : Json}
  (hfront : AreBlanks front) (hkey : Quoted body key) (hback : AreBlanks back)
  (hread : readValue? fuel text = some (v, after))

include hfront hkey hback hread

/-- Behind the last member stands the brace, and behind every other one a comma. -/
theorem readMembers?_last {rest : List Char} (hskip : skipBlanks after = '\x7d' :: rest) :
    readMembers? (fuel + 1) (front ++ '"' :: (body ++ '"' :: (back ++ ':' :: text))) =
      some ([(key, v)], rest) := by
  rw [readMembers?_key hfront hkey hback, hread, Option.bind_some]
  dsimp only
  rw [hskip]
  rfl

theorem readMembers?_more {more : List Char} (hskip : skipBlanks after = ',' :: more) :
    readMembers? (fuel + 1) (front ++ '"' :: (body ++ '"' :: (back ++ ':' :: text))) =
      (readMembers? fuel more).map fun (members, rest) => ((key, v) :: members, rest) := by
  rw [readMembers?_key hfront hkey hback, hread, Option.bind_some]
  dsimp only
  rw [hskip]
  change (readMembers? fuel more).bind (fun (members, rest) => some ((key, v) :: members, rest)) = _
  cases readMembers? fuel more <;> rfl

end Member

theorem endsValue_comma (rest : List Char) : EndsValue (',' :: rest) := by
  rintro c ⟨⟩
  exact Or.inr (Or.inl rfl)

theorem endsValue_bracket (rest : List Char) : EndsValue (']' :: rest) := by
  rintro c ⟨⟩
  exact Or.inr (Or.inr (Or.inl rfl))

theorem endsValue_brace (rest : List Char) : EndsValue ('\x7d' :: rest) := by
  rintro c ⟨⟩
  exact Or.inr (Or.inr (Or.inr rfl))

theorem EndsValue.blanks_append {blanks rest : List Char} (h : AreBlanks blanks)
    (hrest : EndsValue rest) : EndsValue (blanks ++ rest) := by
  cases blanks with
  | nil => exact hrest
  | cons c blanks =>
      rintro d ⟨⟩
      exact Or.inl (h c List.mem_cons_self)

/-- Behind what opens a value stand its inner text and what closes it. -/
theorem enclosed_append (opening closing : Char) (inner rest : List Char) :
    opening :: (inner ++ [closing]) ++ rest = opening :: (inner ++ closing :: rest) := by
  rw [List.cons_append, List.append_assoc, List.singleton_append]

mutual

/-- A value is read up to its last character. -/
theorem readValue?_append {v : Json} {text : List Char} : Spells v text →
    ∀ {fuel : Nat} {rest : List Char}, 2 * text.length < fuel → EndsValue rest →
      readValue? fuel (text ++ rest) = some (v, rest)
  | .null, _ + 1, _, _, _ => rfl
  | .boolTrue, _ + 1, _, _, _ => rfl
  | .boolFalse, _ + 1, _, _, _ => rfl
  | .number h, fuel + 1, _, _, hrest => readValue?_number h hrest fuel
  | .string h, fuel + 1, rest, _, _ => by
      rw [enclosed_append, readValue?_quote, readText?_append h]
      rfl
  | .noItems h, fuel + 1, rest, _, _ => by
      have hskip : skipBlanks (_ ++ ']' :: rest) = ']' :: rest := skipBlanks_append h _
      rw [enclosed_append, readValue?_bracket, hskip]
      rfl
  | .array h, fuel + 1, rest, hfuel, _ => by
      rw [enclosed_append]
      apply readValue?_of_items (h.head _)
      apply readItems?_append h
      simp only [List.length_cons, List.length_append] at hfuel
      omega
  | .noMembers h, fuel + 1, rest, _, _ => by
      have hskip : skipBlanks (_ ++ '\x7d' :: rest) = '\x7d' :: rest := skipBlanks_append h _
      rw [enclosed_append, readValue?_brace, hskip]
      rfl
  | .object h, fuel + 1, rest, hfuel, _ => by
      rw [enclosed_append]
      apply readValue?_of_members (h.head _)
      apply readMembers?_append h
      simp only [List.length_cons, List.length_append] at hfuel
      omega

/-- Blanks in front are skipped, and those behind are left. -/
theorem readValue?_isText {v : Json} {text : List Char} : IsText v text →
    ∀ {fuel : Nat} {rest : List Char}, 2 * text.length < fuel → EndsValue rest →
      ∃ after, readValue? fuel (text ++ rest) = some (v, after) ∧
        skipBlanks after = skipBlanks rest
  | @IsText.intro _ _ text back hfront h hback, fuel, rest, hfuel, hrest => by
      have hvalue : readValue? fuel (text ++ (back ++ rest)) = some (v, back ++ rest) := by
        apply readValue?_append h
        · simp only [List.length_append] at hfuel
          omega
        · exact hrest.blanks_append hback
      refine ⟨back ++ rest, ?_, skipBlanks_append hback rest⟩
      rw [List.append_assoc, List.append_assoc, ← readValue?_skipBlanks,
        skipBlanks_append hfront, readValue?_skipBlanks, hvalue]

/-- Items are read up to their bracket. -/
theorem readItems?_append {items : List Json} {text : List Char} : SpellsItems items text →
    ∀ {fuel : Nat} {rest : List Char}, 2 * text.length + 1 < fuel →
      readItems? fuel (text ++ ']' :: rest) = some (items, rest)
  | .one h, fuel + 1, rest, hfuel => by
      obtain ⟨after, hread, hskip⟩ :=
        readValue?_isText h (Nat.lt_of_succ_lt_succ hfuel) (endsValue_bracket rest)
      exact readItems?_last hread hskip
  | @SpellsItems.cons _ text _ more h hmore, fuel + 1, rest, hfuel => by
      rw [List.length_append, List.length_cons] at hfuel
      have hitem : 2 * text.length < fuel := by omega
      have hitems : 2 * more.length + 1 < fuel := by omega
      obtain ⟨after, hread, hskip⟩ :=
        readValue?_isText h hitem (endsValue_comma (more ++ ']' :: rest))
      have htail : readItems? fuel (more ++ ']' :: rest) = some (_, rest) :=
        readItems?_append hmore hitems
      rw [List.append_assoc, List.cons_append, readItems?_more hread hskip, htail]
      rfl

/-- Members are read up to their brace. -/
theorem readMembers?_append {members : List (Option String × Json)} {text : List Char} :
    SpellsMembers members text →
    ∀ {fuel : Nat} {rest : List Char}, 2 * text.length + 1 < fuel →
      readMembers? fuel (text ++ '\x7d' :: rest) = some (members, rest)
  | .one (@SpellsMember.intro _ _ _ _ _ text hfront hkey hback h), fuel + 1, rest, hfuel => by
      simp only [List.length_append, List.length_cons] at hfuel
      have hmember : 2 * text.length < fuel := by omega
      obtain ⟨after, hread, hskip⟩ := readValue?_isText h hmember (endsValue_brace rest)
      simp only [List.append_assoc, List.cons_append]
      exact readMembers?_last hfront hkey hback hread hskip
  | @SpellsMembers.cons _ _ _ more (@SpellsMember.intro _ _ _ _ _ text hfront hkey hback h) hmore,
      fuel + 1, rest, hfuel => by
      simp only [List.length_append, List.length_cons] at hfuel
      have hmember : 2 * text.length < fuel := by omega
      have hmembers : 2 * more.length + 1 < fuel := by omega
      obtain ⟨after, hread, hskip⟩ :=
        readValue?_isText h hmember (endsValue_comma (more ++ '\x7d' :: rest))
      have htail : readMembers? fuel (more ++ '\x7d' :: rest) = some (_, rest) :=
        readMembers?_append hmore hmembers
      simp only [List.append_assoc, List.cons_append]
      rw [readMembers?_more hfront hkey hback hread hskip, htail]
      rfl

end

/-- A text that spells a value with blanks around it is read as that value. -/
theorem parse?_of_isText {v : Json} {text : List Char} (h : IsText v text) :
    parse? text = some v := by
  have hfuel : 2 * text.length < 2 * text.length + 2 := Nat.lt_add_of_pos_right (by decide)
  have hend : EndsValue [] := fun c hc => by cases hc
  obtain ⟨after, hread, hskip⟩ := readValue?_isText h hfuel hend
  rw [List.append_nil] at hread
  rw [parse?, hread, Option.bind_eq_bind, Option.bind_some]
  dsimp only
  rw [hskip]
  rfl

end Values

end DeskCalc.Json
