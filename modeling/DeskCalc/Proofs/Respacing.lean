import DeskCalc.Proofs.LineComposition
import DeskCalc.Proofs.MaximalMunch

/-!
# Lines with other blanks

Where a literal ends was settled by what follows it. A blank in that place settles it in the same
way, because a literal that is longest in front of some text is longest on its own. So the tokens
of a line can be written down again with any blanks between them, and they are the tokens of what
is written.
-/

namespace DeskCalc

theorem IsLiteral.isLongest_self {text : List Char} (h : IsLiteral text) :
    IsLongest IsLiteral text text :=
  ⟨h, List.prefix_rfl, fun _ _ hprefix => hprefix.length_le⟩

namespace Lexeme

/-- Whether a text consists of spaces and newlines alone. -/
def areBlanks (text : List Char) : Bool := text.all isBlank

theorem areBlanks_cons {c : Char} {text : List Char} :
    areBlanks (c :: text) = true ↔ isBlank c = true ∧ areBlanks text = true := by
  rw [areBlanks, List.all_cons, Bool.and_eq_true, areBlanks]

theorem not_isToken_blank (c : Char) : ¬ (blank c).isToken = true := Bool.false_ne_true

/-- The pieces of a text that are carried out. -/
def tokenPieces (text : List Char) : List Lexeme := (scan text).filter isToken

/-- A piece that is cut out of a line is the only one of its own text. -/
theorem scan_source {l : Lexeme} (h : l.WellFormed) : scan l.source = [l] := by
  cases h with
  | blank hblank =>
      rw [source, scan_blank hblank, scan]
  | @literal text htext =>
      have hlongest : IsLongest IsLiteral text (text ++ []) := by
        rw [List.append_nil]
        exact htext.isLongest_self
      have hscan := scan_literal hlongest
      rw [List.append_nil, scan] at hscan
      exact hscan
  | symbol hdigit hblank =>
      rw [source, scan_symbol hdigit hblank, scan]

theorem wellFormed_of_mem_tokenPieces {text : List Char} {l : Lexeme}
    (h : l ∈ tokenPieces text) : l.WellFormed :=
  wellFormed_of_mem_scan (List.mem_of_mem_filter h)

theorem isToken_of_mem_tokenPieces {text : List Char} {l : Lexeme} (h : l ∈ tokenPieces text) :
    l.isToken = true :=
  List.of_mem_filter h

theorem tokenPieces_source {l : Lexeme} (h : l.WellFormed) (htoken : l.isToken = true) :
    tokenPieces l.source = [l] := by
  rw [tokenPieces, scan_source h, List.filter_cons_of_pos htoken, List.filter_nil]

theorem tokenPieces_blanks {blanks : List Char} (h : areBlanks blanks = true)
    (rest : List Char) : tokenPieces (blanks ++ rest) = tokenPieces rest := by
  induction blanks with
  | nil => rfl
  | cons c blanks ih =>
      obtain ⟨hc, hblanks⟩ := areBlanks_cons.mp h
      rw [List.cons_append, tokenPieces, scan_blank hc,
        List.filter_cons_of_neg (not_isToken_blank c)]
      exact ih hblanks

/-- Texts with blanks between them have their own pieces. -/
theorem tokenPieces_append {blanks rest : List Char} (h : areBlanks blanks = true)
    (hne : rest ≠ [] → blanks ≠ []) (text : List Char) :
    tokenPieces (text ++ (blanks ++ rest)) = tokenPieces text ++ tokenPieces rest := by
  cases blanks with
  | nil =>
      have hrest : rest = [] := by
        by_contra hsome
        exact hne hsome rfl
      rw [hrest, List.append_nil, List.append_nil, tokenPieces, tokenPieces, scan,
        List.filter_nil, List.append_nil]
  | cons c blanks =>
      obtain ⟨hc, hblanks⟩ := areBlanks_cons.mp h
      have hmore := tokenPieces_blanks hblanks rest
      rw [List.cons_append, tokenPieces, scan_append_blank hc, List.filter_append,
        List.filter_cons_of_neg (not_isToken_blank c)]
      exact congrArg (tokenPieces text ++ ·) hmore

/-- A line of the texts `spans` in their order, with blanks behind each of them. Only behind the
last one there may be none. -/
inductive Spaced : List (List Char) → List Char → Prop
  | nil : Spaced [] []
  | cons {span blanks line : List Char} {spans : List (List Char)}
      (hblanks : areBlanks blanks = true) (hne : spans ≠ [] → blanks ≠ [])
      (hline : Spaced spans line) : Spaced (span :: spans) (span ++ (blanks ++ line))

theorem Spaced.ne_nil {spans : List (List Char)} {line : List Char} (h : Spaced spans line)
    (hne : line ≠ []) : spans ≠ [] := by
  rintro rfl
  cases h
  exact hne rfl

/-- The pieces of a line are those whose texts it was written from. -/
theorem tokenPieces_of_spaced {pieces : List Lexeme} {line : List Char}
    (hform : ∀ l ∈ pieces, l.WellFormed) (htoken : ∀ l ∈ pieces, l.isToken = true)
    (h : Spaced (pieces.map source) line) : tokenPieces line = pieces := by
  induction pieces generalizing line with
  | nil =>
      cases h
      rw [tokenPieces, scan, List.filter_nil]
  | cons l pieces ih =>
      cases h with
      | @cons span blanks rest spans hblanks hne hrest =>
          have hpieces : tokenPieces rest = pieces :=
            ih (fun k hk => hform k (List.mem_cons_of_mem l hk))
              (fun k hk => htoken k (List.mem_cons_of_mem l hk)) hrest
          have hfirst : tokenPieces l.source = [l] :=
            tokenPieces_source (hform l List.mem_cons_self) (htoken l List.mem_cons_self)
          rw [tokenPieces_append hblanks (fun hsome => hne (hrest.ne_nil hsome)), hfirst, hpieces]
          rfl

end Lexeme

namespace Token

/-- The texts that the tokens of a line were read from. -/
def spans (line : List Char) : List (List Char) :=
  (Lexeme.tokenPieces line).map Lexeme.source

theorem ofLine_eq_tokenPieces (line : List Char) :
    ofLine line = (Lexeme.tokenPieces line).filterMap ofLexeme? := by
  rw [ofLine, Lexeme.tokenPieces, List.filterMap_filter]
  congr 1
  funext l
  cases l <;> rfl

/-- The literal of a line is the only token of its own text. -/
theorem ofLine_of_isLiteral {text : List Char} (h : IsLiteral text) :
    ofLine text = [literal text] := by
  have hscan : Lexeme.scan text = [.literal text] :=
    Lexeme.scan_source (Lexeme.WellFormed.literal h)
  rw [ofLine, hscan]
  rfl

/-- The tokens of a line written down again, with any blanks in front of them and between them,
are the tokens of what is written. A literal alone is read as this literal. -/
theorem ofLine_respaced (text : List Char) :
    (∀ blanks line, Lexeme.areBlanks blanks = true → Lexeme.Spaced (spans text) line →
      ofLine (blanks ++ line) = ofLine text ∧ spans (blanks ++ line) = spans text) ∧
      ∀ digits, literal digits ∈ ofLine text → ofLine digits = [literal digits] := by
  constructor
  · intro blanks line hblanks hline
    have hpieces : Lexeme.tokenPieces (blanks ++ line) = Lexeme.tokenPieces text := by
      rw [Lexeme.tokenPieces_blanks hblanks]
      exact Lexeme.tokenPieces_of_spaced (fun _ => Lexeme.wellFormed_of_mem_tokenPieces)
        (fun _ => Lexeme.isToken_of_mem_tokenPieces) hline
    constructor
    · rw [ofLine_eq_tokenPieces, hpieces, ← ofLine_eq_tokenPieces]
    · rw [spans, hpieces, spans]
  · intro digits h
    exact ofLine_of_isLiteral (literal_mem_ofLine h)

/-- Literals that end before a second point, a second marker and a sign without a digit. -/
theorem ofLine_respaced_points :
    Lexeme.areBlanks " \n".toList = true ∧
      Lexeme.Spaced (spans "1.2.3e5e2e-k".toList) "1.2 .\n3e5  e 2e\n\n- k".toList ∧
      ofLine (" \n".toList ++ "1.2 .\n3e5  e 2e\n\n- k".toList) = ofLine "1.2.3e5e2e-k".toList ∧
      ofLine "2e".toList = [literal "2e".toList] := by
  have hspans : spans "1.2.3e5e2e-k".toList =
      ["1.2".toList, ['.'], "3e5".toList, ['e'], "2e".toList, ['-'], ['k']] := by
    decide +kernel
  have hspaced : Lexeme.Spaced (spans "1.2.3e5e2e-k".toList)
      "1.2 .\n3e5  e 2e\n\n- k".toList := by
    rw [hspans]
    have hk : Lexeme.Spaced [['k']] (['k'] ++ ([] ++ [])) := .cons rfl (by simp) .nil
    have hminus : Lexeme.Spaced _ (['-'] ++ ([' '] ++ _)) := .cons rfl (by simp) hk
    have hopen : Lexeme.Spaced _ ("2e".toList ++ (['\n', '\n'] ++ _)) :=
      .cons rfl (by simp) hminus
    have he : Lexeme.Spaced _ (['e'] ++ ([' '] ++ _)) := .cons rfl (by simp) hopen
    have hclosed : Lexeme.Spaced _ ("3e5".toList ++ ([' ', ' '] ++ _)) := .cons rfl (by simp) he
    have hpoint : Lexeme.Spaced _ (['.'] ++ (['\n'] ++ _)) := .cons rfl (by simp) hclosed
    have hfirst : Lexeme.Spaced _ ("1.2".toList ++ ([' '] ++ _)) := .cons rfl (by simp) hpoint
    exact hfirst
  obtain ⟨hlines, hliterals⟩ := ofLine_respaced "1.2.3e5e2e-k".toList
  have hmem : literal "2e".toList ∈ ofLine "1.2.3e5e2e-k".toList := by decide +kernel
  exact ⟨rfl, hspaced, (hlines _ _ rfl hspaced).1, hliterals _ hmem⟩

end Token

end DeskCalc
