import DeskCalc.Calculator
import DeskCalc.Proofs.Completion
import DeskCalc.Proofs.LiteralGrammar
import DeskCalc.Session

/-!
# What a session reports

A session carries out its lines up to the first one with a `q` anywhere in it. If these lines
are UTF-8 and none of them breaks off, the session ends by dropping the operands; otherwise it
ends before the first line that is not or does. Nothing behind these lines plays a part.
-/

namespace DeskCalc

variable {α : Type}

/-- A calculator stops with a line that has a `q`, which no literal can hold. -/
theorem Machine.running_evaluate [Operand α] {m : Machine α} (h : m.running = true)
    (line : List Char) :
    (m.evaluate line).1.running = true ↔ 'q' ∉ line := by
  rw [← Token.quit_mem_ofLine_iff]
  have hrun := LineState.running_run { machine := m } (Token.ofLine line)
  rw [h, eq_self, true_and] at hrun
  exact hrun

namespace Line

/-- Whether a line can be read and has a `q`. -/
def hasQuit (line : List UInt8) : Bool := (decode? line).any (·.contains 'q')

/-- The lines up to the first one with a `q`, or all of them. -/
def upToQuit (lines : List (List UInt8)) : List (List UInt8) :=
  lines.take (lines.findIdx hasQuit + 1)

/-- The lines of a stream that count. -/
def counted (input : List UInt8) : List (List UInt8) := upToQuit (split input)

/-- The characters of the lines that can be read. -/
def texts (lines : List (List UInt8)) : List (List Char) := lines.filterMap decode?

theorem texts_cons {line : List UInt8} {text : List Char} (h : decode? line = some text)
    (rest : List (List UInt8)) : texts (line :: rest) = text :: texts rest :=
  List.filterMap_cons_some h

theorem hasQuit_of_decode {line : List UInt8} {text : List Char}
    (h : decode? line = some text) : hasQuit line = true ↔ 'q' ∈ text := by
  simp [hasQuit, h]

theorem upToQuit_cons_of_quit {line : List UInt8} (h : hasQuit line = true)
    (rest : List (List UInt8)) : upToQuit (line :: rest) = [line] := by
  simp [upToQuit, List.findIdx_cons, h]

theorem upToQuit_cons_of_not_quit {line : List UInt8} (h : hasQuit line = false)
    (rest : List (List UInt8)) : upToQuit (line :: rest) = line :: upToQuit rest := by
  simp [upToQuit, List.findIdx_cons, h]

/-- Lines behind one with a `q` do not count. -/
theorem upToQuit_append {lines : List (List UInt8)} (h : ∃ line ∈ lines, hasQuit line = true)
    (more : List (List UInt8)) : upToQuit (lines ++ more) = upToQuit lines := by
  induction lines with
  | nil =>
      obtain ⟨line, hmem, -⟩ := h
      cases hmem
  | cons line rest ih =>
      rw [List.cons_append]
      cases hq : hasQuit line with
      | true => rw [upToQuit_cons_of_quit hq, upToQuit_cons_of_quit hq]
      | false =>
          have hrest : ∃ line ∈ rest, hasQuit line = true := by
            obtain ⟨other, hmem, hother⟩ := h
            rcases List.mem_cons.mp hmem with rfl | hmem
            · rw [hq] at hother
              cases hother
            · exact ⟨other, hmem, hother⟩
          rw [upToQuit_cons_of_not_quit hq, upToQuit_cons_of_not_quit hq, ih hrest]

/-- Of the lines that count, only the last one may have a `q`. -/
theorem not_hasQuit_of_upToQuit {lines before after : List (List UInt8)} {line : List UInt8}
    (h : upToQuit lines = before ++ line :: after) :
    (∀ other ∈ before, hasQuit other = false) ∧ ∃ more, lines = before ++ line :: more := by
  induction lines generalizing before with
  | nil => simp [upToQuit] at h
  | cons first rest ih =>
      cases before with
      | nil =>
          have hfirst : (upToQuit (first :: rest)).head? = some first := rfl
          rw [h] at hfirst
          exact ⟨List.forall_mem_nil _, rest, by rw [Option.some.inj hfirst]; rfl⟩
      | cons other before =>
          cases hq : hasQuit first with
          | true =>
              rw [upToQuit_cons_of_quit hq] at h
              simp at h
          | false =>
              rw [upToQuit_cons_of_not_quit hq] at h
              obtain ⟨rfl, hrest⟩ := List.cons.inj h
              obtain ⟨hbefore, more, rfl⟩ := ih hrest
              exact ⟨List.forall_mem_cons.mpr ⟨hq, hbefore⟩, more, rfl⟩

theorem splitFrom_append_newline (pending head tail : List UInt8) :
    splitFrom pending (head ++ newline :: tail) =
      splitFrom pending (head ++ [newline]) ++ split tail := by
  induction head generalizing pending with
  | nil => simp [splitFrom, split]
  | cons b head ih =>
      by_cases hb : b = newline
      · simp [splitFrom, hb, ih]
      · simp [splitFrom, hb, ih]

/-- A stream splits at any newline. -/
theorem split_append_newline (head tail : List UInt8) :
    split (head ++ newline :: tail) = split (head ++ [newline]) ++ split tail :=
  splitFrom_append_newline [] head tail

end Line

section Carried

variable [Operand α]

/-- The events of each of several lines. -/
def Machine.batches (m : Machine α) : List (List Char) → List (List Event)
  | [] => []
  | line :: rest => (m.evaluate line).2 :: batches (m.evaluate line).1 rest

theorem Machine.flatten_batches (m : Machine α) (lines : List (List Char)) :
    (m.batches lines).flatten = (m.evaluateAll lines).2 := by
  induction lines generalizing m with
  | nil => rfl
  | cons line rest ih => exact congrArg _ (ih _)

/-- All lines can be read, and none of them breaks off. -/
structure Machine.CarriesOut (m : Machine α) (lines : List (List UInt8)) : Prop where
  read : ∀ line ∈ lines, (Line.decode? line).isSome = true
  completes : m.Completes (Line.texts lines)

namespace Machine

variable {m : Machine α} {line : List UInt8} {text : List Char}

theorem carriesOut_nil (m : Machine α) : m.CarriesOut [] :=
  ⟨List.forall_mem_nil _, m.completes_nil⟩

theorem carriesOut_cons (h : Line.decode? line = some text) {rest : List (List UInt8)} :
    m.CarriesOut (line :: rest) ↔
      m.crash? text = none ∧ (m.evaluate text).1.CarriesOut rest := by
  have hline : (Line.decode? line).isSome = true := by rw [h]; rfl
  constructor
  · rintro ⟨hread, hcompletes⟩
    rw [Line.texts_cons h, completes_cons] at hcompletes
    exact ⟨hcompletes.1, (List.forall_mem_cons.mp hread).2, hcompletes.2⟩
  · rintro ⟨hcrash, hread, hcompletes⟩
    refine ⟨List.forall_mem_cons.mpr ⟨hline, hread⟩, ?_⟩
    rw [Line.texts_cons h]
    exact completes_cons.mpr ⟨hcrash, hcompletes⟩

theorem CarriesOut.exists_text {rest : List (List UInt8)} (h : m.CarriesOut (line :: rest)) :
    ∃ text, Line.decode? line = some text :=
  Option.isSome_iff_exists.mp (h.read line List.mem_cons_self)

/-- What stops a session before its end: a line that cannot be read or breaks off. -/
inductive Stops (m : Machine α) (line : List UInt8) : Session.Ending → Prop
  | unreadable (hdecode : Line.decode? line = none) : Stops m line (.unreadable .notUtf8)
  | crashed {text : List Char} {cause : Crash} (hdecode : Line.decode? line = some text)
      (hcrash : m.crash? text = some cause) : Stops m line (.crashed cause)

/-- A line is carried out, or it stops the session. -/
theorem completes_or_stops (m : Machine α) (line : List UInt8) :
    (∃ text, Line.decode? line = some text ∧ m.crash? text = none) ∨
      ∃ ending, m.Stops line ending := by
  cases hdecode : Line.decode? line with
  | none => exact Or.inr ⟨_, .unreadable hdecode⟩
  | some text =>
      cases hcrash : m.crash? text with
      | none => exact Or.inl ⟨text, rfl, hcrash⟩
      | some cause => exact Or.inr ⟨_, .crashed hdecode hcrash⟩

/-- All lines are carried out, or there is a first one that is not. -/
theorem carriesOut_or_stops (m : Machine α) (lines : List (List UInt8)) :
    m.CarriesOut lines ∨
      ∃ before line after ending, lines = before ++ line :: after ∧ m.CarriesOut before ∧
        (m.evaluateAll (Line.texts before)).1.Stops line ending := by
  induction lines generalizing m with
  | nil => exact Or.inl m.carriesOut_nil
  | cons line rest ih =>
      rcases m.completes_or_stops line with ⟨text, hdecode, hcrash⟩ | ⟨ending, hstops⟩
      · rcases ih (m.evaluate text).1 with
          hrest | ⟨before, other, after, ending, rfl, hbefore, hstops⟩
        · exact Or.inl ((carriesOut_cons hdecode).mpr ⟨hcrash, hrest⟩)
        · refine Or.inr ⟨line :: before, other, after, ending, rfl,
            (carriesOut_cons hdecode).mpr ⟨hcrash, hbefore⟩, ?_⟩
          rw [Line.texts_cons hdecode]
          exact hstops
      · exact Or.inr ⟨[], line, rest, ending, rfl, m.carriesOut_nil, hstops⟩

end Machine

end Carried

namespace Session

variable {σ : Type} (h : Handler σ)

/-- What a session leaves that comes to its end with `m` after `count` lines: the operands are
dropped, and an event tells how many if there were any. -/
def ended (state : σ) (m : Machine α) (count : Nat) : Handled α σ where
  machine := { m with stack := .empty }
  state := if m.stack.isEmpty then state else h.takeOne state (.cleared m.stack.size)
  ending := .done { lines := count, released := m.stack.size }

theorem finishWith_eq_ended (state : σ) (m : Machine α) (count : Nat) :
    finishWith h state m count = ended h state m count := by
  obtain ⟨⟨operands⟩, precision, maximum, policy, running⟩ := m
  cases operands with
  | nil => rfl
  | cons a below => rfl

variable [Operand α] (state : σ)

/-- What a handler makes of the events of lines, of which each hands on its own together. -/
def handed (m : Machine α) (texts : List (List Char)) : σ :=
  (m.batches texts).foldl h.takeAll state

section Step

variable {m : Machine α} (count : Nat) {line : List UInt8} (rest : List (List UInt8))

theorem runLinesWith_of_stops {ending : Ending} (hstops : m.Stops line ending) :
    runLinesWith h state m count (line :: rest) = { machine := m, state, ending } := by
  cases hstops with
  | unreadable hdecode => simp only [runLinesWith, hdecode]
  | crashed hdecode hcrash => simp only [runLinesWith, hdecode, Machine.execute_of_crash? hcrash]

variable {text : List Char} (hdecode : Line.decode? line = some text)
  (hcrash : m.crash? text = none)

include hdecode hcrash

/-- A line that does not break off is carried out and handed on. -/
theorem runLinesWith_of_completes :
    runLinesWith h state m count (line :: rest) =
      if (m.evaluate text).1.running then
        runLinesWith h (h.takeAll state (m.evaluate text).2) (m.evaluate text).1 (count + 1) rest
      else
        finishWith h (h.takeAll state (m.evaluate text).2) (m.evaluate text).1 (count + 1) := by
  simp only [runLinesWith, hdecode, Machine.execute_of_crash?_eq_none hcrash]

variable (running : m.running = true)

include running

/-- A session stops behind a line with a `q`. -/
theorem runLinesWith_of_quit (hq : Line.hasQuit line = true) :
    runLinesWith h state m count (line :: rest) =
      ended h (h.takeAll state (m.evaluate text).2) (m.evaluate text).1 (count + 1) := by
  have hstop : ¬ (m.evaluate text).1.running = true := by
    rw [Machine.running_evaluate running]
    exact not_not_intro ((Line.hasQuit_of_decode hdecode).mp hq)
  rw [runLinesWith_of_completes h state count rest hdecode hcrash, if_neg hstop,
    finishWith_eq_ended]

/-- A session goes on behind any other line. -/
theorem runLinesWith_of_not_quit (hq : Line.hasQuit line = false) :
    (m.evaluate text).1.running = true ∧
      runLinesWith h state m count (line :: rest) =
        runLinesWith h (h.takeAll state (m.evaluate text).2) (m.evaluate text).1 (count + 1)
          rest := by
  have hgo : (m.evaluate text).1.running = true := by
    rw [Machine.running_evaluate running]
    intro hmem
    rw [(Line.hasQuit_of_decode hdecode).mpr hmem] at hq
    cases hq
  refine ⟨hgo, ?_⟩
  rw [runLinesWith_of_completes h state count rest hdecode hcrash, if_pos hgo]

end Step

/-- Lines without a `q` that are carried out leave the session to the lines behind them. -/
theorem runLinesWith_append {m : Machine α} (running : m.running = true) (count : Nat)
    {before : List (List UInt8)} (hquit : ∀ line ∈ before, Line.hasQuit line = false)
    (hbefore : m.CarriesOut before) (rest : List (List UInt8)) :
    (m.evaluateAll (Line.texts before)).1.running = true ∧
      runLinesWith h state m count (before ++ rest) =
        runLinesWith h (handed h state m (Line.texts before))
          (m.evaluateAll (Line.texts before)).1 (count + before.length) rest := by
  induction before generalizing m state count with
  | nil => exact ⟨running, rfl⟩
  | cons line before ih =>
      obtain ⟨hq, hquit⟩ := List.forall_mem_cons.mp hquit
      obtain ⟨text, hdecode⟩ := hbefore.exists_text
      obtain ⟨hcrash, hbefore⟩ := (Machine.carriesOut_cons hdecode).mp hbefore
      obtain ⟨hgo, hrun⟩ :=
        runLinesWith_of_not_quit h state count (before ++ rest) hdecode hcrash running hq
      obtain ⟨hlast, hmore⟩ :=
        ih (h.takeAll state (m.evaluate text).2) hgo (count + 1) hquit hbefore
      rw [Line.texts_cons hdecode]
      refine ⟨hlast, ?_⟩
      rw [List.cons_append, hrun, hmore, List.length_cons, Nat.add_assoc, Nat.add_comm 1]
      rfl

/-- What a session leaves whose lines are all carried out. -/
def completed (m : Machine α) (lines : List (List UInt8)) : Handled α σ :=
  ended h (handed h state m (Line.texts lines)) (m.evaluateAll (Line.texts lines)).1 lines.length

/-- What a session leaves that ends at once behind the lines that were carried out. -/
def interrupted (m : Machine α) (before : List (List UInt8)) (ending : Ending) :
    Handled α σ where
  machine := (m.evaluateAll (Line.texts before)).1
  state := handed h state m (Line.texts before)
  ending := ending

/-- A session whose lines are carried out comes to its end. -/
theorem runLinesWith_of_carriesOut {m : Machine α} (running : m.running = true) (count : Nat)
    {lines : List (List UInt8)} (hlines : m.CarriesOut (Line.upToQuit lines)) :
    runLinesWith h state m count lines =
      ended h (handed h state m (Line.texts (Line.upToQuit lines)))
        (m.evaluateAll (Line.texts (Line.upToQuit lines))).1
        (count + (Line.upToQuit lines).length) := by
  induction lines generalizing m state count with
  | nil => exact finishWith_eq_ended h state m count
  | cons line rest ih =>
      cases hq : Line.hasQuit line with
      | true =>
          rw [Line.upToQuit_cons_of_quit hq] at hlines ⊢
          obtain ⟨text, hdecode⟩ := hlines.exists_text
          obtain ⟨hcrash, -⟩ := (Machine.carriesOut_cons hdecode).mp hlines
          rw [Line.texts_cons hdecode]
          exact runLinesWith_of_quit h state count rest hdecode hcrash running hq
      | false =>
          rw [Line.upToQuit_cons_of_not_quit hq] at hlines ⊢
          obtain ⟨text, hdecode⟩ := hlines.exists_text
          obtain ⟨hcrash, hrest⟩ := (Machine.carriesOut_cons hdecode).mp hlines
          obtain ⟨hgo, hrun⟩ :=
            runLinesWith_of_not_quit h state count rest hdecode hcrash running hq
          rw [hrun, ih (h.takeAll state (m.evaluate text).2) hgo (count + 1) hrest,
            Line.texts_cons hdecode, List.length_cons, Nat.add_assoc, Nat.add_comm 1]
          rfl

section Counted

variable {m : Machine α} (running : m.running = true) {input : List UInt8}

include running

theorem runWith_of_carriesOut (hlines : m.CarriesOut (Line.counted input)) :
    runWith h state m input = completed h state m (Line.counted input) := by
  rw [runWith, runLinesWith_of_carriesOut h state running 0 hlines, Nat.zero_add]
  rfl

/-- A session ends before the first line that stops it. -/
theorem runWith_of_stops {before after : List (List UInt8)} {line : List UInt8} {ending : Ending}
    (hlines : Line.counted input = before ++ line :: after) (hbefore : m.CarriesOut before)
    (hstops : (m.evaluateAll (Line.texts before)).1.Stops line ending) :
    runWith h state m input = interrupted h state m before ending := by
  obtain ⟨hquit, more, hsplit⟩ := Line.not_hasQuit_of_upToQuit hlines
  obtain ⟨-, hrun⟩ := runLinesWith_append h state running 0 hquit hbefore (line :: more)
  rw [runWith, hsplit, hrun, runLinesWith_of_stops h _ _ more hstops]
  rfl

/-- A session comes to its end or is stopped by a line. -/
theorem runWith_cases (input : List UInt8) :
    (m.CarriesOut (Line.counted input) ∧
        runWith h state m input = completed h state m (Line.counted input)) ∨
      ∃ before line after ending, Line.counted input = before ++ line :: after ∧
        m.CarriesOut before ∧ (m.evaluateAll (Line.texts before)).1.Stops line ending ∧
        runWith h state m input = interrupted h state m before ending := by
  rcases m.carriesOut_or_stops (Line.counted input) with
    hlines | ⟨before, line, after, ending, hlines, hbefore, hstops⟩
  · exact Or.inl ⟨hlines, runWith_of_carriesOut h state running hlines⟩
  · exact Or.inr ⟨before, line, after, ending, hlines, hbefore, hstops,
      runWith_of_stops h state running hlines hbefore hstops⟩

/-- Only lines that are not carried out keep a session from its end. -/
theorem runWith_eq_done_iff :
    (∃ s, (runWith h state m input).ending = .done s) ↔ m.CarriesOut (Line.counted input) := by
  constructor
  · rintro ⟨s, hdone⟩
    rcases runWith_cases h state running input with
      ⟨hlines, -⟩ | ⟨before, line, after, ending, -, -, hstops, hrun⟩
    · exact hlines
    · rw [hrun] at hdone
      cases hstops with
      | unreadable => cases hdone
      | crashed => cases hdone
  · intro hlines
    rw [runWith_of_carriesOut h state running hlines]
    exact ⟨_, rfl⟩

/-- Only the lines that count play a part. -/
theorem runWith_of_counted_eq {input' : List UInt8}
    (hcounted : Line.counted input = Line.counted input') :
    runWith h state m input = runWith h state m input' := by
  rcases m.carriesOut_or_stops (Line.counted input) with
    hlines | ⟨before, line, after, ending, hlines, hbefore, hstops⟩
  · rw [runWith_of_carriesOut h state running hlines, hcounted,
      runWith_of_carriesOut h state running (hcounted ▸ hlines)]
  · rw [runWith_of_stops h state running hlines hbefore hstops,
      runWith_of_stops h state running (hcounted ▸ hlines) hbefore hstops]

end Counted

/-- What is due from a session that starts with `m` and reads `input`, whatever its handler
makes of the events. The lines that count are those up to the first one with a `q`. -/
structure Reports (m : Machine α) (input : List UInt8) (r : Handled α σ) : Prop where
  /-- If all of them can be read and none breaks off, they are carried out, and then the
  operands are dropped. -/
  ends : m.CarriesOut (Line.counted input) → r = completed h state m (Line.counted input)
  /-- No other session comes to its end. -/
  done_iff : (∃ s, r.ending = .done s) ↔ m.CarriesOut (Line.counted input)
  /-- A second end of the session then drops nothing and tells nothing. -/
  idle : m.CarriesOut (Line.counted input) →
    finishWith h r.state r.machine 0 = { r with ending := .done { lines := 0, released := 0 } }
  /-- Before the first line that cannot be read, the lines are carried out, and no more. -/
  unreadable : ∀ before line after, Line.counted input = before ++ line :: after →
    m.CarriesOut before → Line.decode? line = none →
    r = interrupted h state m before (.unreadable .notUtf8)
  /-- So they are before the first line that breaks off. -/
  crashes : ∀ before line after text cause, Line.counted input = before ++ line :: after →
    m.CarriesOut before → Line.decode? line = some text →
    (m.evaluateAll (Line.texts before)).1.crash? text = some cause →
    r = interrupted h state m before (.crashed cause)
  /-- Nothing behind a line with a `q` plays a part. -/
  stops : ∀ head tail, input = head ++ Line.newline :: tail →
    (∃ line ∈ Line.split (head ++ [Line.newline]), Line.hasQuit line = true) →
    r = runWith h state m (head ++ [Line.newline])

/-- Every session of a calculator that has not stopped reports what is due. -/
theorem reports_runWith {m : Machine α} (running : m.running = true) (input : List UInt8) :
    Reports h state m input (runWith h state m input) := by
  refine ⟨runWith_of_carriesOut h state running, runWith_eq_done_iff h state running, ?_, ?_, ?_,
    ?_⟩
  · intro hlines
    rw [runWith_of_carriesOut h state running hlines, finishWith_eq_ended]
    rfl
  · intro before line after hlines hbefore hdecode
    exact runWith_of_stops h state running hlines hbefore (.unreadable hdecode)
  · intro before line after text cause hlines hbefore hdecode hcrash
    exact runWith_of_stops h state running hlines hbefore (.crashed hdecode hcrash)
  · intro head tail hinput hquit
    apply runWith_of_counted_eq h state running
    rw [hinput, Line.counted, Line.counted, Line.split_append_newline, Line.upToQuit_append hquit]

/-- A line that is not UTF-8 is never read behind a line with a `q`. -/
theorem reports_runWith_quit :
    let m : Machine Decimal96 := { precision := 4, maxPrecision := 1000 }
    let input : List UInt8 := [49, 32, 113, 32, 112, 10, 255, 10, 50]
    m.running = true ∧ Reports .recording [] m input (run m input) := by
  intro m input
  exact ⟨rfl, reports_runWith .recording [] rfl input⟩

/-- With the largest precision that is standard, one line that can be read breaks a session off. -/
theorem crashed_of_readable :
    ∃ m : Machine Decimal96, Config.start .full { backend := .decimal } = .ok m ∧
      Line.split "k28 1000 p\n".toUTF8.toList = ["k28 1000 p".toUTF8.toList] ∧
      Line.decode? "k28 1000 p".toUTF8.toList = some "k28 1000 p".toList ∧
      (run m "k28 1000 p\n".toUTF8.toList).ending = .crashed .formatter := by
  refine ⟨{ precision := 4, maxPrecision := 1000 }, rfl, ?_, ?_, ?_⟩
  · decide +kernel
  · decide +kernel
  · decide +kernel

end Session

end DeskCalc
