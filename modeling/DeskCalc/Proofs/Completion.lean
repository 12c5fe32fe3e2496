import DeskCalc.Execution
import DeskCalc.LongDecimal
import DeskCalc.Proofs.Steps

/-!
# Lines that are carried out to their end

Lines are carried out to their end exactly if the formatter has room for all that they show and
the steps toward every root that they take come to an end. Then they give what they are evaluated
to, and otherwise they stop at the first line where this fails.
-/

namespace DeskCalc

variable {α : Type} [Operand α]

namespace LineState

/-- A token is broken off by a print without room, by a root without an end, or by nothing. -/
theorem crash?_cases (s : LineState α) (t : Token) :
    (s.crash? t = some .formatter ∧ ∃ p ∈ s.printed t, p.canShow = false) ∨
      (s.crash? t = some .root ∧ ∃ a ∈ s.rooted t, Operand.canRoot a = false) ∨
      (s.crash? t = none ∧
        (∀ p ∈ s.printed t, p.canShow = true) ∧ ∀ a ∈ s.rooted t, Operand.canRoot a = true) := by
  unfold crash?
  cases hshown : (s.printed t).all Print.canShow with
  | false => exact Or.inl ⟨rfl, by simpa using hshown⟩
  | true =>
      cases hrooted : (s.rooted t).all Operand.canRoot with
      | false => exact Or.inr (Or.inl ⟨rfl, by simpa using hrooted⟩)
      | true =>
          exact Or.inr (Or.inr ⟨rfl, List.all_eq_true.mp hshown, List.all_eq_true.mp hrooted⟩)

theorem crash?_eq_none_iff {s : LineState α} {t : Token} :
    s.crash? t = none ↔
      (∀ p ∈ s.printed t, p.canShow = true) ∧ ∀ a ∈ s.rooted t, Operand.canRoot a = true := by
  rcases s.crash?_cases t with ⟨h, p, hp, hshow⟩ | ⟨h, a, ha, hroot⟩ | ⟨h, hall⟩
  · refine iff_of_false (h ▸ nofun) fun hall => ?_
    rw [hall.1 p hp] at hshow
    cases hshow
  · refine iff_of_false (h ▸ nofun) fun hall => ?_
    rw [hall.2 a ha] at hroot
    cases hroot
  · exact iff_of_true h hall

/-- A print or a root stands behind every cause. -/
theorem of_crash?_eq_some {s : LineState α} {t : Token} {cause : Crash}
    (h : s.crash? t = some cause) :
    match cause with
    | .formatter => ∃ p ∈ s.printed t, p.canShow = false
    | .root => ∃ a ∈ s.rooted t, Operand.canRoot a = false := by
  rcases s.crash?_cases t with ⟨hcrash, hprint⟩ | ⟨hcrash, hroot⟩ | ⟨hcrash, -⟩
  · cases hcrash.symm.trans h
    exact hprint
  · cases hcrash.symm.trans h
    exact hroot
  · cases hcrash.symm.trans h

theorem collect_crash?_eq_nil_iff {s : LineState α} {ts : List Token} :
    s.collect (fun s t => (s.crash? t).toList) ts = [] ↔
      (∀ p ∈ s.collect printed ts, p.canShow = true) ∧
        ∀ a ∈ s.collect rooted ts, Operand.canRoot a = true := by
  induction ts generalizing s with
  | nil => simp [collect]
  | cons t ts ih =>
      simp only [collect, List.append_eq_nil_iff, Option.toList_eq_nil_iff, crash?_eq_none_iff, ih,
        List.forall_mem_append]
      exact and_and_and_comm

/-- Without the command for it no root is taken. -/
theorem collect_rooted_eq_nil {s : LineState α} {ts : List Token}
    (h : Token.command (.unary .sqrt) ∉ ts) : s.collect rooted ts = [] := by
  rw [List.eq_nil_iff_forall_not_mem]
  intro a ha
  obtain ⟨before, t, after, rfl, hroot⟩ := (mem_collect rooted).mp ha
  have ht : t ≠ .command (.unary .sqrt) := fun heq =>
    h (heq ▸ List.mem_append_right before List.mem_cons_self)
  unfold rooted at hroot
  split at hroot
  · exact ht rfl
  · cases hroot

end LineState

namespace Machine

/-- Nothing breaks the lines off. -/
structure Completes (m : Machine α) (lines : List (List Char)) : Prop where
  shown : ∀ p ∈ m.printsAll lines, p.canShow = true
  rooted : ∀ a ∈ m.rootsAll lines, Operand.canRoot a = true

theorem crash?_eq_none_iff {m : Machine α} {line : List Char} :
    m.crash? line = none ↔
      (∀ p ∈ m.collect LineState.printed line, p.canShow = true) ∧
        ∀ a ∈ m.collect LineState.rooted line, Operand.canRoot a = true := by
  rw [crash?, List.head?_eq_none_iff]
  exact LineState.collect_crash?_eq_nil_iff

/-- Why a line breaks off can be told from a token of it. -/
theorem exists_of_crash? {m : Machine α} {line : List Char} {cause : Crash}
    (h : m.crash? line = some cause) :
    match cause with
    | .formatter => ∃ p ∈ m.prints line, p.canShow = false
    | .root => ∃ a ∈ m.collect LineState.rooted line, Operand.canRoot a = false := by
  have hmem := List.mem_of_mem_head? h
  obtain ⟨before, t, after, hts, hcause⟩ := (LineState.mem_collect _).mp hmem
  have htoken := LineState.of_crash?_eq_some (Option.mem_toList.mp hcause)
  cases cause with
  | formatter =>
      obtain ⟨p, hp, hshow⟩ := htoken
      exact ⟨p, (LineState.mem_collect _).mpr ⟨before, t, after, hts, hp⟩, hshow⟩
  | root =>
      obtain ⟨a, ha, hroot⟩ := htoken
      exact ⟨a, (LineState.mem_collect _).mpr ⟨before, t, after, hts, ha⟩, hroot⟩

/-- Only the formatter breaks off a line without the command for a root. -/
theorem crash?_of_canShow_eq_false {m : Machine α} {line : List Char} {p : Print α}
    (hsqrt : Token.command (.unary .sqrt) ∉ Token.ofLine line) (hp : p ∈ m.prints line)
    (hshow : p.canShow = false) : m.crash? line = some .formatter := by
  cases hcrash : m.crash? line with
  | none =>
      rw [(crash?_eq_none_iff.mp hcrash).1 p hp] at hshow
      cases hshow
  | some cause =>
      cases cause with
      | formatter => rfl
      | root =>
          obtain ⟨a, ha, -⟩ := exists_of_crash? hcrash
          rw [collect, LineState.collect_rooted_eq_nil hsqrt] at ha
          cases ha

theorem completes_nil (m : Machine α) : m.Completes [] :=
  ⟨List.forall_mem_nil _, List.forall_mem_nil _⟩

theorem completes_cons {m : Machine α} {line : List Char} {rest : List (List Char)} :
    m.Completes (line :: rest) ↔
      m.crash? line = none ∧ (m.evaluate line).1.Completes rest := by
  rw [crash?_eq_none_iff]
  constructor
  · rintro ⟨hshown, hrooted⟩
    obtain ⟨hline, hrest⟩ := List.forall_mem_append.mp hshown
    obtain ⟨hline', hrest'⟩ := List.forall_mem_append.mp hrooted
    exact ⟨⟨hline, hline'⟩, hrest, hrest'⟩
  · rintro ⟨⟨hline, hline'⟩, hrest, hrest'⟩
    exact ⟨List.forall_mem_append.mpr ⟨hline, hrest⟩, List.forall_mem_append.mpr ⟨hline', hrest'⟩⟩

/-- The first lines complete if all do. -/
theorem Completes.take {m : Machine α} {lines : List (List Char)} (h : m.Completes lines)
    (n : Nat) : m.Completes (lines.take n) :=
  ⟨fun p hp => h.shown p (m.collectAll_take_subset _ lines n hp),
    fun a ha => h.rooted a (m.collectAll_take_subset _ lines n ha)⟩

theorem execute_of_crash?_eq_none {m : Machine α} {line : List Char} (h : m.crash? line = none) :
    m.execute line = .ok (m.evaluate line) := by
  rw [execute, h]

theorem execute_of_crash? {m : Machine α} {line : List Char} {cause : Crash}
    (h : m.crash? line = some cause) : m.execute line = .error cause := by
  rw [execute, h]

/-- Without the command for it no root is taken in any line. -/
theorem rootsAll_eq_nil {m : Machine α} {lines : List (List Char)}
    (h : ∀ line ∈ lines, Token.command (.unary .sqrt) ∉ Token.ofLine line) :
    m.rootsAll lines = [] := by
  induction lines generalizing m with
  | nil => rfl
  | cons line rest ih =>
      obtain ⟨hline, hrest⟩ := List.forall_mem_cons.mp h
      rw [rootsAll, collectAll, collect, LineState.collect_rooted_eq_nil hline]
      exact ih hrest

/-- Decimals of any length are written out and their roots are found. -/
theorem completes_long (m : Machine LongDecimal) (lines : List (List Char)) :
    m.Completes lines :=
  ⟨fun _ _ => rfl, fun _ _ => rfl⟩

theorem executeAll_of_crash? {m : Machine α} {line : List Char} {cause : Crash}
    (h : m.crash? line = some cause) (rest : List (List Char)) :
    m.executeAll (line :: rest) = .error cause := by
  rw [executeAll, execute_of_crash? h]
  rfl

/-- Lines behind one that does not break off go on from where it leaves. -/
theorem executeAll_cons {m : Machine α} {line : List Char} (h : m.crash? line = none)
    (rest : List (List Char)) :
    m.executeAll (line :: rest) = ((m.evaluate line).1.executeAll rest).map fun r =>
      (r.1, (m.evaluate line).2 ++ r.2) := by
  rw [executeAll, execute_of_crash?_eq_none h]
  obtain ⟨next, events⟩ := m.evaluate line
  simp only [bind, Except.bind]
  cases next.executeAll rest <;> rfl

/-- Lines give something exactly if they complete, and then it is what they are evaluated to. -/
theorem executeAll_eq_ok_iff {m : Machine α} {lines : List (List Char)}
    {r : Machine α × List Event} :
    m.executeAll lines = .ok r ↔ m.Completes lines ∧ m.evaluateAll lines = r := by
  induction lines generalizing m r with
  | nil => exact ⟨fun h => ⟨m.completes_nil, Except.ok.inj h⟩, fun h => congrArg Except.ok h.2⟩
  | cons line rest ih =>
      rw [completes_cons]
      cases hcrash : m.crash? line with
      | some cause =>
          rw [executeAll_of_crash? hcrash]
          exact ⟨nofun, nofun⟩
      | none =>
          rw [executeAll_cons hcrash]
          constructor
          · intro h
            cases hrest : (m.evaluate line).1.executeAll rest with
            | error cause =>
                rw [hrest] at h
                cases h
            | ok last =>
                rw [hrest] at h
                obtain ⟨hcompletes, hlast⟩ := ih.mp hrest
                refine ⟨⟨rfl, hcompletes⟩, ?_⟩
                rw [evaluateAll]
                simp only [hlast]
                exact Except.ok.inj h
          · rintro ⟨⟨-, hcompletes⟩, rfl⟩
            rw [ih.mpr ⟨hcompletes, rfl⟩]
            rfl

theorem executeAll_of_completes {m : Machine α} {lines : List (List Char)}
    (h : m.Completes lines) : m.executeAll lines = .ok (m.evaluateAll lines) :=
  executeAll_eq_ok_iff.mpr ⟨h, rfl⟩

end Machine

end DeskCalc
