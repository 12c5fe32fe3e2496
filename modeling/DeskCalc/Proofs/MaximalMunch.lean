import DeskCalc.Proofs.LiteralParts
import Mathlib.Data.List.Forall2

/-!
# Maximal munch

A line is cut from left to right, and a literal is as long as the grammar lets it be. What
is cut, the longest literals and single characters between them, is thereby settled, so the
scanner finds the one way there is to cut a line.
-/

namespace DeskCalc

open Digits (areDigits)

/-- The longest of the texts with a property at the start of a text. -/
structure IsLongest (P : List Char → Prop) (front text : List Char) : Prop where
  holds : P front
  starts : front <+: text
  longest : ∀ other, P other → other <+: text → other.length ≤ front.length

theorem IsLongest.eq {P : List Char → Prop} {a b text : List Char} (ha : IsLongest P a text)
    (hb : IsLongest P b text) : a = b := by
  have hlength : a.length = b.length :=
    Nat.le_antisymm (hb.longest a ha.holds ha.starts) (ha.longest b hb.holds hb.starts)
  exact (List.prefix_of_prefix_length_le ha.starts hb.starts hlength.le).eq_of_length hlength

/-- A literal starts with a digit. -/
theorem IsLiteral.isDigit_head {c : Char} {text : List Char} (h : IsLiteral (c :: text)) :
    c.isDigit = true := by
  generalize heq : c :: text = literal at h
  cases h with
  | @intro whole fraction exponent hne hwhole _ _ =>
      obtain ⟨d, more, rfl⟩ := List.exists_cons_of_ne_nil hne
      obtain ⟨rfl, -⟩ := List.cons.inj heq
      exact List.all_eq_true.mp hwhole c List.mem_cons_self

theorem IsLiteral.ne_nil {text : List Char} (h : IsLiteral text) : text ≠ [] := by
  cases h with
  | intro hne _ _ _ => simp [hne]

namespace Lexeme

theorem takeDigits_of_areDigits {digits : List Char} (h : areDigits digits = true)
    (rest : List Char) :
    takeDigits (digits ++ rest) = (digits ++ (takeDigits rest).1, (takeDigits rest).2) := by
  have hpass := List.all_eq_true.mp h
  rw [takeDigits, List.takeWhile_append_of_pos hpass, List.dropWhile_append_of_pos hpass]
  rfl

theorem takeDigits_of_not_isDigit {c : Char} (h : c.isDigit = false) (rest : List Char) :
    takeDigits (c :: rest) = ([], c :: rest) := by
  simp [takeDigits, h]

/-- A digit is no sign. -/
theorem takeSign_of_isDigit {c : Char} (h : c.isDigit = true) (rest : List Char) :
    takeSign (c :: rest) = ([], c :: rest) := by
  rcases takeSign_cases (c :: rest) with hnone | ⟨s, d, more, heq, hs, -, -⟩
  · exact hnone
  · obtain ⟨rfl, -⟩ := List.cons.inj heq
    rcases hs with rfl | rfl
    · exact absurd h (by decide)
    · exact absurd h (by decide)

theorem takeSign_of_sign {s d : Char} (hs : s = '+' ∨ s = '-') (hd : d.isDigit = true)
    (rest : List Char) : takeSign (s :: d :: rest) = ([s], d :: rest) := by
  rcases hs with rfl | rfl <;> simp [takeSign, hd]

theorem takeExponent_cons {marker : Char} (h : Spelling.isMarker marker = true)
    (text : List Char) :
    takeExponent (marker :: text) =
      (marker :: ((takeSign text).1 ++ (takeDigits (takeSign text).2).1),
        (takeDigits (takeSign text).2).2) := by
  simp only [takeExponent, if_pos h]

/-- Where an exponent stands, no less than that is taken for one. -/
theorem takeExponent_prefix {exponent : List Char} (h : IsExponent exponent)
    (rest : List Char) : exponent <+: (takeExponent (exponent ++ rest)).1 := by
  cases h with
  | none => exact List.nil_prefix
  | @bare marker digits hmarker hdigits =>
      rw [List.cons_append, takeExponent_cons hmarker]
      refine List.cons_prefix_cons.mpr ⟨rfl, ?_⟩
      cases digits with
      | nil => exact List.nil_prefix
      | cons d digits =>
          have hd : d.isDigit = true := List.all_eq_true.mp hdigits d List.mem_cons_self
          have hsign : takeSign (d :: digits ++ rest) = ([], d :: digits ++ rest) :=
            takeSign_of_isDigit hd (digits ++ rest)
          rw [hsign, takeDigits_of_areDigits hdigits]
          exact List.prefix_append _ _
  | @signed marker sign digits hmarker hsign hne hdigits =>
      obtain ⟨d, more, rfl⟩ := List.exists_cons_of_ne_nil hne
      have hd : d.isDigit = true := List.all_eq_true.mp hdigits d List.mem_cons_self
      have htake : takeSign (sign :: (d :: more) ++ rest) = ([sign], d :: more ++ rest) :=
        takeSign_of_sign hsign hd (more ++ rest)
      rw [List.cons_append, takeExponent_cons hmarker, htake, takeDigits_of_areDigits hdigits]
      refine List.cons_prefix_cons.mpr ⟨rfl, List.cons_prefix_cons.mpr ⟨rfl, ?_⟩⟩
      exact List.prefix_append _ _

/-- A marker continues neither digits nor a fraction. -/
theorem takeDigits_of_isMarker {marker : Char} (h : Spelling.isMarker marker = true)
    (text : List Char) : takeDigits (marker :: text) = ([], marker :: text) := by
  refine takeDigits_of_not_isDigit ?_ text
  cases hdigit : marker.isDigit with
  | false => rfl
  | true => exact absurd h (by simp [Spelling.isMarker_of_isDigit hdigit])

theorem takeFraction_of_isMarker {marker : Char} (h : Spelling.isMarker marker = true)
    (text : List Char) : takeFraction (marker :: text) = ([], marker :: text) := by
  unfold takeFraction
  split
  · next heq =>
      obtain ⟨rfl, -⟩ := List.cons.inj heq
      exact absurd h (by decide)
  · rfl

/-- Where a fraction and an exponent stand, no less than both is taken. -/
theorem takeFraction_prefix {fraction exponent : List Char} (hfraction : IsFraction fraction)
    (hexponent : IsExponent exponent) (rest : List Char) :
    fraction ++ exponent <+:
      (takeFraction (fraction ++ exponent ++ rest)).1 ++
        (takeExponent (takeFraction (fraction ++ exponent ++ rest)).2).1 := by
  have hmore := takeExponent_prefix hexponent rest
  cases hfraction with
  | none =>
      rcases hexponent.eq_nil_or_cons with rfl | ⟨marker, digits, rfl, hmarker⟩
      · exact List.nil_prefix
      · rw [List.nil_append, List.cons_append, takeFraction_of_isMarker hmarker]
        exact hmore
  | @point digits hdigits =>
      have htake : takeFraction ('.' :: digits ++ exponent ++ rest) =
          ('.' :: digits ++ (takeDigits (exponent ++ rest)).1,
            (takeDigits (exponent ++ rest)).2) := by
        simp only [List.cons_append, List.append_assoc, takeFraction,
          takeDigits_of_areDigits hdigits]
      rw [htake]
      rcases hexponent.eq_nil_or_cons with rfl | ⟨marker, more, rfl, hmarker⟩
      · rw [List.append_nil, List.append_assoc]
        exact List.prefix_append _ _
      · have hnone : takeDigits (marker :: more ++ rest) = ([], marker :: more ++ rest) :=
          takeDigits_of_isMarker hmarker (more ++ rest)
        rw [hnone, List.append_nil]
        exact (List.prefix_append_right_inj _).mpr hmore

/-- What stands behind the whole part of a literal goes on with no digit. -/
theorem takeDigits_of_isFraction {fraction exponent : List Char}
    (hfraction : IsFraction fraction) (hexponent : IsExponent exponent)
    (hne : fraction ++ exponent ≠ []) (rest : List Char) :
    takeDigits (fraction ++ exponent ++ rest) = ([], fraction ++ exponent ++ rest) := by
  cases hfraction with
  | none =>
      rcases hexponent.eq_nil_or_cons with rfl | ⟨marker, more, rfl, hmarker⟩
      · exact absurd rfl hne
      · exact takeDigits_of_isMarker hmarker (more ++ rest)
  | point _ => exact takeDigits_of_not_isDigit rfl _

/-- Where a literal stands, no less than that is taken for one. -/
theorem takeLiteral_prefix {text : List Char} (h : IsLiteral text) (rest : List Char) :
    text <+: (takeLiteral (text ++ rest)).1 := by
  cases h with
  | @intro whole fraction exponent _ hwhole hfraction hexponent =>
      simp only [takeLiteral, List.append_assoc, takeDigits_of_areDigits hwhole]
      refine (List.prefix_append_right_inj _).mpr ?_
      by_cases hne : fraction ++ exponent = []
      · rw [hne]
        exact List.nil_prefix
      · have hnone := takeDigits_of_isFraction hfraction hexponent hne rest
        simp only [List.append_assoc] at hnone
        rw [hnone]
        have hmore := takeFraction_prefix hfraction hexponent rest
        simp only [List.append_assoc] at hmore
        exact hmore

/-- The scanner takes the longest literal where a digit stands. -/
theorem isLongest_takeLiteral {c : Char} (h : c.isDigit = true) (rest : List Char) :
    IsLongest IsLiteral (takeLiteral (c :: rest)).1 (c :: rest) where
  holds := isLiteral_takeLiteral h rest
  starts := ⟨_, takeLiteral_append (c :: rest)⟩
  longest := by
    rintro other hother ⟨more, hmore⟩
    have hprefix := takeLiteral_prefix hother more
    rw [hmore] at hprefix
    exact hprefix.length_le

/-- The longest literal in front of a text is the one that the scanner takes, and the
scanner goes on behind it. -/
theorem takeLiteral_of_isLongest {literal rest : List Char}
    (h : IsLongest IsLiteral literal (literal ++ rest)) :
    takeLiteral (literal ++ rest) = (literal, rest) := by
  obtain ⟨c, more, rfl⟩ := List.exists_cons_of_ne_nil h.holds.ne_nil
  have hfront : (takeLiteral (c :: more ++ rest)).1 = c :: more :=
    (isLongest_takeLiteral h.holds.isDigit_head (more ++ rest)).eq h
  have htext := takeLiteral_append (c :: more ++ rest)
  rw [hfront] at htext
  exact Prod.ext hfront (List.append_cancel_left htext)

theorem scan_literal {literal rest : List Char}
    (h : IsLongest IsLiteral literal (literal ++ rest)) :
    scan (literal ++ rest) = .literal literal :: scan rest := by
  obtain ⟨c, more, rfl⟩ := List.exists_cons_of_ne_nil h.holds.ne_nil
  have htake := takeLiteral_of_isLongest h
  rw [List.cons_append] at htake ⊢
  rw [scan, dif_pos h.holds.isDigit_head, htake]

theorem scan_symbol {c : Char} (hdigit : c.isDigit = false) (hblank : isBlank c = false)
    (rest : List Char) : scan (c :: rest) = symbol c :: scan rest := by
  rw [scan, dif_neg (by simp [hdigit]), if_neg (by simp [hblank])]

/-- The text of some pieces one after another. -/
def spell (pieces : List Lexeme) : List Char := pieces.flatMap source

@[simp] theorem spell_cons (l : Lexeme) (pieces : List Lexeme) :
    spell (l :: pieces) = l.source ++ spell pieces := List.flatMap_cons

theorem spell_append (a b : List Lexeme) : spell (a ++ b) = spell a ++ spell b :=
  List.flatMap_append

/-- What may be cut off in front of a rest: a space or a newline, the longest literal that
starts there, or a character of another kind. -/
def CutsOff (rest : List Char) : Lexeme → Prop
  | blank c => c = ' ' ∨ c = '\n'
  | literal digits => IsLongest IsLiteral digits (digits ++ rest)
  | symbol c => c.isDigit = false ∧ c ≠ ' ' ∧ c ≠ '\n'

/-- A text cut into pieces from left to right. -/
structure IsCutting (text : List Char) (pieces : List Lexeme) : Prop where
  spells : spell pieces = text
  cuts : ∀ before l after, pieces = before ++ l :: after → l.CutsOff (spell after)

theorem isCutting_cons {text : List Char} {l : Lexeme} {pieces : List Lexeme} :
    IsCutting text (l :: pieces) ↔
      text = l.source ++ spell pieces ∧ l.CutsOff (spell pieces) ∧
        IsCutting (spell pieces) pieces := by
  constructor
  · intro h
    refine ⟨h.spells.symm.trans (spell_cons l pieces), h.cuts [] l pieces rfl, rfl, ?_⟩
    intro before next after heq
    exact h.cuts (l :: before) next after (congrArg (l :: ·) heq)
  · rintro ⟨rfl, hfirst, hrest⟩
    refine ⟨spell_cons l pieces, ?_⟩
    intro before next after heq
    rcases List.cons_eq_append_iff.mp heq with ⟨-, hnext⟩ | ⟨more, -, hmore⟩
    · obtain ⟨rfl, rfl⟩ := List.cons.inj hnext
      exact hfirst
    · exact hrest.cuts more next after hmore

theorem isBlank_iff {c : Char} : isBlank c = true ↔ c = ' ' ∨ c = '\n' := by
  rw [isBlank, Bool.or_eq_true, beq_iff_eq, beq_iff_eq]

/-- What may be cut off in front of a rest is what the scanner cuts off there. -/
theorem scan_of_cutsOff {l : Lexeme} {rest : List Char} (h : l.CutsOff rest) :
    scan (l.source ++ rest) = l :: scan rest := by
  cases l with
  | blank c => exact scan_blank (isBlank_iff.mpr h) rest
  | literal digits => exact scan_literal h
  | symbol c =>
      obtain ⟨hdigit, hspace, hnewline⟩ := h
      have hblank : isBlank c = false := by simp [isBlank, hspace, hnewline]
      exact scan_symbol hdigit hblank rest

/-- No text can be cut in two ways. -/
theorem IsCutting.eq_scan {text : List Char} {pieces : List Lexeme}
    (h : IsCutting text pieces) : pieces = scan text := by
  induction pieces generalizing text with
  | nil => rw [← h.spells, spell, List.flatMap_nil, scan]
  | cons l pieces ih =>
      obtain ⟨rfl, hfirst, hrest⟩ := isCutting_cons.mp h
      rw [scan_of_cutsOff hfirst, ← ih hrest]

theorem isCutting_scan (text : List Char) : IsCutting text (scan text) := by
  fun_induction scan text with
  | case1 => exact ⟨rfl, fun before l after h => absurd h (by simp)⟩
  | case2 c rest hdigit ih =>
      have hsplit := takeLiteral_append (c :: rest)
      refine isCutting_cons.mpr ?_
      rw [ih.spells]
      refine ⟨hsplit.symm, ?_, ih⟩
      change IsLongest IsLiteral _ _
      rw [hsplit]
      exact isLongest_takeLiteral hdigit rest
  | case3 c rest hdigit hblank ih =>
      refine isCutting_cons.mpr ?_
      rw [ih.spells]
      exact ⟨rfl, isBlank_iff.mp hblank, ih⟩
  | case4 c rest hdigit hblank ih =>
      refine isCutting_cons.mpr ?_
      rw [ih.spells]
      rw [isBlank_iff, not_or] at hblank
      exact ⟨rfl, ⟨Bool.eq_false_iff.mpr hdigit, hblank⟩, ih⟩

/-- Whether a piece is one that is carried out. -/
def isToken : Lexeme → Bool
  | blank _ => false
  | _ => true

/-- The position in the bytes of a text behind some pieces at its start. -/
def endOf (pieces : List Lexeme) : String.Pos.Raw := (String.ofList (spell pieces)).rawEndPos

/-- No piece ends within the bytes of a character. -/
theorem IsCutting.isValid_endOf {text : List Char} {pieces before after : List Lexeme}
    (h : IsCutting text pieces) (hpieces : pieces = before ++ after) :
    (endOf before).IsValid (String.ofList text) := by
  refine String.Pos.Raw.isValid_iff_exists_append.mpr
    ⟨String.ofList (spell before), String.ofList (spell after), ?_, rfl⟩
  rw [← h.spells, hpieces, spell_append, String.ofList_append]

end Lexeme

namespace Token

/-- The token that a piece is read as. -/
inductive Reads : Lexeme → Token → Prop
  | literal (text : List Char) : Reads (.literal text) (literal text)
  | command {c : Char} {cmd : Command} (h : Command.ofChar? c = some cmd) :
      Reads (.symbol c) (command cmd)
  | invalid {c : Char} (h : Command.ofChar? c = none) : Reads (.symbol c) (invalid c)

theorem reads_iff {l : Lexeme} {t : Token} : Reads l t ↔ ofLexeme? l = some t := by
  constructor
  · rintro (_ | h | h)
    · rfl
    · simp only [ofLexeme?, ofSymbol, h]
    · simp only [ofLexeme?, ofSymbol, h]
  · intro h
    cases l with
    | blank c => cases h
    | literal text =>
        cases h
        exact .literal text
    | symbol c =>
        simp only [ofLexeme?, ofSymbol, Option.some.injEq] at h
        split at h
        · next cmd hcmd =>
            subst h
            exact .command hcmd
        · next hnone =>
            subst h
            exact .invalid hnone

theorem isToken_eq_isSome (l : Lexeme) : l.isToken = (ofLexeme? l).isSome := by
  cases l <;> rfl

/-- Every piece but the blanks is read as one token. -/
theorem forall₂_reads_iff {pieces : List Lexeme} {tokens : List Token} :
    List.Forall₂ Reads (pieces.filter Lexeme.isToken) tokens ↔
      tokens = pieces.filterMap ofLexeme? := by
  induction pieces generalizing tokens with
  | nil => exact List.forall₂_nil_left_iff
  | cons l pieces ih =>
      cases hread : ofLexeme? l with
      | none =>
          have hblank : ¬ l.isToken = true := by rw [isToken_eq_isSome, hread]; decide
          rw [List.filter_cons_of_neg hblank, ih, List.filterMap_cons_none hread]
      | some t =>
          have htoken : l.isToken = true := by rw [isToken_eq_isSome, hread]; rfl
          rw [List.filter_cons_of_pos htoken, List.forall₂_cons_left_iff,
            List.filterMap_cons_some hread]
          constructor
          · rintro ⟨u, rest, hu, hrest, rfl⟩
            rw [← ih.mp hrest, Option.some.inj (hread.symm.trans (reads_iff.mp hu))]
          · rintro rfl
            exact ⟨t, _, reads_iff.mpr hread, ih.mpr rfl, rfl⟩

/-- A line taken apart: its pieces spell it in order and end between characters, each is
what may be cut off there, and all but the blanks are read as tokens. -/
structure IsLexing (text : List Char) (pieces : List Lexeme) (tokens : List Token) : Prop where
  spells : Lexeme.spell pieces = text
  boundaries : ∀ before after, pieces = before ++ after →
    (Lexeme.endOf before).IsValid (String.ofList text)
  cuts : ∀ before l after, pieces = before ++ l :: after → l.CutsOff (Lexeme.spell after)
  reads : List.Forall₂ Reads (pieces.filter Lexeme.isToken) tokens

/-- Every line can be taken apart in one way, by longest literals, and this is how the
scanner does it. -/
theorem isLexing_iff (text : List Char) (pieces : List Lexeme) (tokens : List Token) :
    IsLexing text pieces tokens ↔ pieces = Lexeme.scan text ∧ tokens = ofLine text := by
  constructor
  · intro h
    have hpieces := Lexeme.IsCutting.eq_scan ⟨h.spells, h.cuts⟩
    have htokens := forall₂_reads_iff.mp h.reads
    rw [hpieces] at htokens
    exact ⟨hpieces, htokens⟩
  · rintro ⟨rfl, rfl⟩
    have h := Lexeme.isCutting_scan text
    exact ⟨h.spells, fun _ _ => h.isValid_endOf, h.cuts, forall₂_reads_iff.mpr rfl⟩

end Token

end DeskCalc
