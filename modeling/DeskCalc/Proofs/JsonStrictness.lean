import DeskCalc.Proofs.JsonReading

/-!
# Only what the grammar admits is read

What is read of a text spells the value that is given, from the first character behind the
blanks to the last one that is taken. So the reader accepts the texts of the grammar and no
others, and nothing but blanks may follow a value.
-/

namespace DeskCalc.Json

open Digits (areDigits)

theorem exists_blanks {text rest : List Char} (h : skipBlanks text = rest) :
    ∃ blanks, AreBlanks blanks ∧ text = blanks ++ rest := by
  refine ⟨text.takeWhile isBlank, fun _ => List.mem_takeWhile_imp, ?_⟩
  rw [← h]
  exact List.takeWhile_append_dropWhile.symm

section Strings

theorem escapes_of_escape? {e c : Char} (h : escape? e = some c) : Escapes e c := by
  unfold escape? at h
  split at h <;> cases h <;> constructor

theorem hexDigit?_cases {c : Char} {n : Nat} (h : hexDigit? c = some n) :
    c.toNat = n + 48 ∧ n < 10 ∨ (c.toNat = n + 87 ∨ c.toNat = n + 55) ∧ 10 ≤ n ∧ n < 16 := by
  have hdigit : c.isDigit = true ↔ 48 ≤ c.toNat ∧ c.toNat ≤ 57 := by
    simp only [Char.isDigit, Bool.and_eq_true, decide_eq_true_eq, ge_iff_le,
      UInt32.le_iff_toNat_le]
    rfl
  have hsmall : 'a' ≤ c ∧ c ≤ 'f' ↔ 97 ≤ c.toNat ∧ c.toNat ≤ 102 := by
    simp only [Char.le_def, UInt32.le_iff_toNat_le]
    rfl
  have hcapital : 'A' ≤ c ∧ c ≤ 'F' ↔ 65 ≤ c.toNat ∧ c.toNat ≤ 70 := by
    simp only [Char.le_def, UInt32.le_iff_toNat_le]
    rfl
  simp only [hexDigit?, hdigit, hsmall, hcapital] at h
  have hzero : '0'.toNat = 48 := rfl
  have ha : 'a'.toNat = 97 := rfl
  have hA : 'A'.toNat = 65 := rfl
  rw [hzero, ha, hA] at h
  split at h
  · obtain rfl := Option.some.inj h
    omega
  · split at h
    · obtain rfl := Option.some.inj h
      omega
    · split at h
      · obtain rfl := Option.some.inj h
        omega
      · cases h

theorem isHexDigit_of_hexDigit? {c : Char} {n : Nat} (h : hexDigit? c = some n) :
    IsHexDigit c n := by
  have htable : ∀ n < 16, (n < 10 → n.digitChar.toNat = n + 48) ∧
      (10 ≤ n → n.digitChar.toNat = n + 87 ∧ n.digitChar.toUpper.toNat = n + 55) := by decide
  have hcases := hexDigit?_cases h
  have hn : n < 16 := by omega
  obtain ⟨hdecimal, hletter⟩ := htable n hn
  refine ⟨hn, ?_⟩
  rw [← Char.toNat_inj, ← Char.toNat_inj]
  omega

theorem unitDigits_of_hexUnit? {a b c d : Char} {n : Nat} (h : hexUnit? a b c d = some n) :
    UnitDigits [a, b, c, d] n := by
  simp only [hexUnit?, Option.bind_eq_bind, Option.bind_eq_some_iff] at h
  obtain ⟨i, hi, j, hj, k, hk, l, hl, hsum⟩ := h
  have hdigits := UnitDigits.intro (isHexDigit_of_hexDigit? hi) (isHexDigit_of_hexDigit? hj)
    (isHexDigit_of_hexDigit? hk) (isHexDigit_of_hexDigit? hl)
  rwa [Option.some.inj hsum] at hdigits

/-- What is read of a string is a body and its quote. -/
theorem isBody_of_readString? {text rest : List Char} {parts : List StringPart}
    (h : readString? text = some (parts, rest)) :
    ∃ body, IsBody body parts ∧ text = body ++ '"' :: rest := by
  fun_induction readString? text generalizing parts rest with
  | case1 => cases h
  | case2 after =>
      cases h
      exact ⟨[], .nil, rfl⟩
  | case3 a b c d after ih =>
      simp only [Option.bind_eq_bind, Option.bind_eq_some_iff] at h
      obtain ⟨n, hn, ⟨parts', rest'⟩, hread, heq⟩ := h
      cases heq
      obtain ⟨body, hbody, rfl⟩ := ih hread
      exact ⟨_, .unit (unitDigits_of_hexUnit? hn) hbody, rfl⟩
  | case4 e after hunit ih =>
      simp only [Option.bind_eq_bind, Option.bind_eq_some_iff] at h
      obtain ⟨c, hc, ⟨parts', rest'⟩, hread, heq⟩ := h
      cases heq
      obtain ⟨body, hbody, rfl⟩ := ih hread
      exact ⟨_, .escape (escapes_of_escape? hc) hbody, rfl⟩
  | case5 => cases h
  | case6 c after hquote hunit hescape hcontrol ih =>
      simp only [Option.bind_eq_bind, Option.bind_eq_some_iff] at h
      obtain ⟨⟨parts', rest'⟩, hread, heq⟩ := h
      cases heq
      obtain ⟨body, hbody, rfl⟩ := ih hread
      -- A backslash at the end of the text is followed by no quote.
      have hbackslash : c ≠ '\\' := by
        intro hc
        cases body with
        | nil => exact hescape _ _ hc rfl
        | cons e body => exact hescape _ _ hc rfl
      exact ⟨c :: body, .char hquote hbackslash (not_lt.mp hcontrol) hbody, rfl⟩

theorem quoted_of_readText? {text rest : List Char} {denoted : Option String}
    (h : readText? text = some (denoted, rest)) :
    ∃ body, Quoted body denoted ∧ text = body ++ '"' :: rest := by
  obtain ⟨⟨parts, after⟩, hread, heq⟩ := Option.map_eq_some_iff.mp h
  cases heq
  obtain ⟨body, hbody, rfl⟩ := isBody_of_readString? hread
  exact ⟨body, .intro hbody fun t => map_text?_eq_some_iff hbody t, rfl⟩

end Strings

section Numbers

variable {text rest taken : List Char}

theorem areDigits_of_readDigits? (h : readDigits? text = some (taken, rest)) :
    taken ≠ [] ∧ areDigits taken = true ∧ text = taken ++ rest := by
  have hparts := List.takeWhile_append_dropWhile (p := Char.isDigit) (l := text)
  have hdigits : areDigits (text.takeWhile Char.isDigit) = true :=
    List.all_eq_true.mpr fun _ => List.mem_takeWhile_imp
  unfold readDigits? at h
  split at h
  · cases h
  · next hne =>
      cases h
      exact ⟨hne, hdigits, hparts.symm⟩

theorem isWhole_of_readWhole? (h : readWhole? text = some (taken, rest)) :
    IsWhole taken ∧ text = taken ++ rest := by
  unfold readWhole? at h
  split at h
  · cases h
    exact ⟨.zero, rfl⟩
  · next hzero =>
      obtain ⟨hne, hdigits, rfl⟩ := areDigits_of_readDigits? h
      obtain ⟨c, digits, rfl⟩ := List.exists_cons_of_ne_nil hne
      exact ⟨.positive (fun hc => hzero _ (by rw [hc]; rfl)) hdigits, rfl⟩

theorem isPlaces_of_readFraction? (h : readFraction? text = some (taken, rest)) :
    IsPlaces taken ∧ text = taken ++ rest := by
  unfold readFraction? at h
  split at h
  · obtain ⟨⟨digits, after⟩, hread, heq⟩ := Option.map_eq_some_iff.mp h
    cases heq
    obtain ⟨hne, hdigits, rfl⟩ := areDigits_of_readDigits? hread
    exact ⟨.some hne hdigits, rfl⟩
  · cases h
    exact ⟨.none, rfl⟩

theorem readSign_cases (text : List Char) :
    ((readSign text).1 = [] ∨ (readSign text).1 = ['+'] ∨ (readSign text).1 = ['-']) ∧
      text = (readSign text).1 ++ (readSign text).2 := by
  unfold readSign
  split <;> simp

theorem isPower_of_readExponent? (h : readExponent? text = some (taken, rest)) :
    IsPower taken ∧ text = taken ++ rest := by
  cases text with
  | nil =>
      cases h
      exact ⟨.none, rfl⟩
  | cons c text =>
      rw [readExponent?] at h
      split at h
      · next hmarker =>
          obtain ⟨hsign, htext⟩ := readSign_cases text
          generalize readSign text = parts at h hsign htext
          obtain ⟨sign, unsigned⟩ := parts
          obtain ⟨⟨digits, after⟩, hread, heq⟩ := Option.map_eq_some_iff.mp h
          cases heq
          obtain ⟨hne, hdigits, rfl⟩ := areDigits_of_readDigits? hread
          refine ⟨.some (by simpa using hmarker) hsign hne hdigits, ?_⟩
          rw [htext, List.cons_append, List.append_assoc]
      · cases h
        exact ⟨.none, rfl⟩

theorem isNumber_of_readNumber? (h : readNumber? text = some (taken, rest)) :
    IsNumber taken ∧ text = taken ++ rest := by
  obtain ⟨sign, unsigned, hsign, rfl, hread⟩ : ∃ sign unsigned, (sign = [] ∨ sign = ['-']) ∧
      text = sign ++ unsigned ∧ ((readWhole? unsigned).bind fun w =>
        (readFraction? w.2).bind fun f => (readExponent? f.2).bind fun e =>
          some (sign ++ w.1 ++ f.1 ++ e.1, e.2)) = some (taken, rest) := by
    by_cases hminus : ∃ unsigned, text = '-' :: unsigned
    · obtain ⟨unsigned, rfl⟩ := hminus
      exact ⟨['-'], unsigned, Or.inr rfl, rfl, h⟩
    · rw [readNumber?] at h
      · exact ⟨[], text, Or.inl rfl, rfl, h⟩
      · exact fun unsigned heq => hminus ⟨unsigned, heq⟩
  simp only [Option.bind_eq_some_iff] at hread
  obtain ⟨⟨whole, afterWhole⟩, hwhole, ⟨places, afterPlaces⟩, hplaces, ⟨power, after⟩, hpower,
    heq⟩ := hread
  cases heq
  obtain ⟨hisWhole, rfl⟩ := isWhole_of_readWhole? hwhole
  obtain ⟨hisPlaces, rfl⟩ := isPlaces_of_readFraction? hplaces
  obtain ⟨hisPower, rfl⟩ := isPower_of_readExponent? hpower
  refine ⟨.intro hsign hisWhole hisPlaces hisPower, ?_⟩
  simp only [List.append_assoc]

end Numbers

section Values

theorem spells_of_readScalar? {text rest : List Char} {v : Json}
    (h : readScalar? text = some (v, rest)) : ∃ t, Spells v t ∧ text = t ++ rest := by
  unfold readScalar? at h
  split at h
  · cases h
    exact ⟨_, .null, rfl⟩
  · cases h
    exact ⟨_, .boolTrue, rfl⟩
  · cases h
    exact ⟨_, .boolFalse, rfl⟩
  · obtain ⟨⟨n, after⟩, hread, heq⟩ := Option.map_eq_some_iff.mp h
    cases heq
    obtain ⟨hnumber, rfl⟩ := isNumber_of_readNumber? hread
    exact ⟨n, .number hnumber, rfl⟩

theorem readItems?_cases {fuel : Nat} {text rest : List Char} {items : List Json}
    (h : readItems? (fuel + 1) text = some (items, rest)) :
    ∃ v after, readValue? fuel text = some (v, after) ∧
      (items = [v] ∧ skipBlanks after = ']' :: rest ∨
        ∃ more tail, skipBlanks after = ',' :: more ∧ readItems? fuel more = some (tail, rest) ∧
          items = v :: tail) := by
  rw [readItems?, Option.bind_eq_bind] at h
  obtain ⟨⟨v, after⟩, hvalue, h⟩ := Option.bind_eq_some_iff.mp h
  refine ⟨v, after, hvalue, ?_⟩
  dsimp only at h
  split at h
  · next hskip =>
      cases h
      exact Or.inl ⟨rfl, hskip⟩
  · next more hskip =>
      obtain ⟨⟨tail, rest'⟩, hmore, heq⟩ := Option.bind_eq_some_iff.mp h
      cases heq
      exact Or.inr ⟨more, tail, hskip, hmore, rfl⟩
  · cases h

theorem readMembers?_cases {fuel : Nat} {text rest : List Char}
    {members : List (Option String × Json)}
    (h : readMembers? (fuel + 1) text = some (members, rest)) :
    ∃ quoted key behind text' v after, skipBlanks text = '"' :: quoted ∧
      readText? quoted = some (key, behind) ∧ skipBlanks behind = ':' :: text' ∧
      readValue? fuel text' = some (v, after) ∧
      (members = [(key, v)] ∧ skipBlanks after = '\x7d' :: rest ∨
        ∃ more tail, skipBlanks after = ',' :: more ∧ readMembers? fuel more = some (tail, rest) ∧
          members = (key, v) :: tail) := by
  rw [readMembers?] at h
  split at h
  · next quoted hquote =>
      rw [Option.bind_eq_bind] at h
      obtain ⟨⟨key, behind⟩, hkey, h⟩ := Option.bind_eq_some_iff.mp h
      dsimp only at h
      split at h
      · next text' hcolon =>
          rw [Option.bind_eq_bind] at h
          obtain ⟨⟨v, after⟩, hvalue, h⟩ := Option.bind_eq_some_iff.mp h
          refine ⟨quoted, key, behind, text', v, after, hquote, hkey, hcolon, hvalue, ?_⟩
          dsimp only at h
          split at h
          · next hskip =>
              cases h
              exact Or.inl ⟨rfl, hskip⟩
          · next more hskip =>
              obtain ⟨⟨tail, rest'⟩, hmore, heq⟩ := Option.bind_eq_some_iff.mp h
              cases heq
              exact Or.inr ⟨more, tail, hskip, hmore, rfl⟩
          · cases h
      · cases h
  · cases h

/-- A value with blanks in front and what is left behind it spell one text. -/
theorem IsText.of_parts {blanks t after rest : List Char} {v : Json} (hblanks : AreBlanks blanks)
    (h : Spells v t) (hskip : skipBlanks after = rest) :
    ∃ text, IsText v text ∧ blanks ++ (t ++ after) = text ++ rest := by
  obtain ⟨back, hback, rfl⟩ := exists_blanks hskip
  refine ⟨_, .intro hblanks h hback, ?_⟩
  simp only [List.append_assoc]

mutual

/-- What is read of a value are blanks and a text that spells it. -/
theorem spells_of_readValue? : ∀ {fuel : Nat} {text rest : List Char} {v : Json},
    readValue? fuel text = some (v, rest) →
      ∃ blanks t, AreBlanks blanks ∧ Spells v t ∧ text = blanks ++ (t ++ rest)
  | 0, _, _, _, h => by cases h
  | fuel + 1, text, rest, v, h => by
      rw [readValue?] at h
      generalize hvalue : skipBlanks text = value at h
      obtain ⟨blanks, hblanks, rfl⟩ := exists_blanks hvalue
      suffices hspells : ∃ t, Spells v t ∧ value = t ++ rest by
        obtain ⟨t, ht, rfl⟩ := hspells
        exact ⟨blanks, t, hblanks, ht, rfl⟩
      split at h
      · obtain ⟨⟨denoted, after⟩, hread, heq⟩ := Option.map_eq_some_iff.mp h
        cases heq
        obtain ⟨body, hquoted, rfl⟩ := quoted_of_readText? hread
        exact ⟨_, .string hquoted, (enclosed_append _ _ _ _).symm⟩
      · next inner =>
          split at h
          · next after hskip =>
              cases h
              obtain ⟨front, hfront, rfl⟩ := exists_blanks hskip
              exact ⟨_, .noItems hfront, (enclosed_append _ _ _ _).symm⟩
          · rw [readItems?_skipBlanks] at h
            obtain ⟨⟨items, after⟩, hread, heq⟩ := Option.map_eq_some_iff.mp h
            cases heq
            obtain ⟨t, hitems, rfl⟩ := spellsItems_of_readItems? hread
            exact ⟨_, .array hitems, (enclosed_append _ _ _ _).symm⟩
      · next inner =>
          split at h
          · next after hskip =>
              cases h
              obtain ⟨front, hfront, rfl⟩ := exists_blanks hskip
              exact ⟨_, .noMembers hfront, (enclosed_append _ _ _ _).symm⟩
          · rw [readMembers?_skipBlanks] at h
            obtain ⟨⟨members, after⟩, hread, heq⟩ := Option.map_eq_some_iff.mp h
            cases heq
            obtain ⟨t, hmembers, rfl⟩ := spellsMembers_of_readMembers? hread
            exact ⟨_, .object hmembers, (enclosed_append _ _ _ _).symm⟩
      · exact spells_of_readScalar? h

/-- What is read of an array are its items and the bracket. -/
theorem spellsItems_of_readItems? : ∀ {fuel : Nat} {text rest : List Char} {items : List Json},
    readItems? fuel text = some (items, rest) →
      ∃ t, SpellsItems items t ∧ text = t ++ ']' :: rest
  | 0, _, _, _, h => by cases h
  | fuel + 1, text, rest, items, h => by
      obtain ⟨v, after, hvalue, hrest⟩ := readItems?_cases h
      obtain ⟨blanks, t, hblanks, ht, rfl⟩ := spells_of_readValue? hvalue
      rcases hrest with ⟨rfl, hskip⟩ | ⟨more, tail, hskip, hmore, rfl⟩
      · obtain ⟨t, hv, htext⟩ := IsText.of_parts hblanks ht hskip
        exact ⟨t, .one hv, htext⟩
      · obtain ⟨t, hv, htext⟩ := IsText.of_parts hblanks ht hskip
        obtain ⟨t', htail, rfl⟩ := spellsItems_of_readItems? hmore
        exact ⟨_, .cons hv htail, by rw [htext]; simp⟩

/-- What is read of an object are its members and the brace. -/
theorem spellsMembers_of_readMembers? : ∀ {fuel : Nat} {text rest : List Char}
    {members : List (Option String × Json)}, readMembers? fuel text = some (members, rest) →
      ∃ t, SpellsMembers members t ∧ text = t ++ '\x7d' :: rest
  | 0, _, _, _, h => by cases h
  | fuel + 1, text, rest, members, h => by
      obtain ⟨quoted, key, behind, value, v, after, hquote, hkey, hcolon, hvalue, hrest⟩ :=
        readMembers?_cases h
      obtain ⟨front, hfront, rfl⟩ := exists_blanks hquote
      obtain ⟨body, hbody, rfl⟩ := quoted_of_readText? hkey
      obtain ⟨back, hback, rfl⟩ := exists_blanks hcolon
      obtain ⟨blanks, t, hblanks, ht, rfl⟩ := spells_of_readValue? hvalue
      rcases hrest with ⟨rfl, hskip⟩ | ⟨more, tail, hskip, hmore, rfl⟩
      · obtain ⟨t, hv, hparts⟩ := IsText.of_parts hblanks ht hskip
        exact ⟨_, .one (.intro hfront hbody hback hv), by rw [hparts]; simp⟩
      · obtain ⟨t, hv, hparts⟩ := IsText.of_parts hblanks ht hskip
        obtain ⟨t', htail, rfl⟩ := spellsMembers_of_readMembers? hmore
        exact ⟨_, .cons (.intro hfront hbody hback hv) htail, by rw [hparts]; simp⟩

end

/-- A text is read as a value exactly if it spells that value with blanks around it. -/
theorem parse?_eq_some_iff (text : List Char) (v : Json) : parse? text = some v ↔ IsText v text := by
  constructor
  · intro h
    rw [parse?, Option.bind_eq_bind] at h
    obtain ⟨⟨v', after⟩, hread, h⟩ := Option.bind_eq_some_iff.mp h
    dsimp only at h
    split at h
    · next hend =>
        cases h
        obtain ⟨blanks, t, hblanks, ht, rfl⟩ := spells_of_readValue? hread
        have hnil : skipBlanks after = [] := List.isEmpty_iff.mp hend
        obtain ⟨text, hv, heq⟩ := IsText.of_parts hblanks ht hnil
        rw [heq, List.append_nil]
        exact hv
    · cases h
  · exact parse?_of_isText

end Values

end DeskCalc.Json
