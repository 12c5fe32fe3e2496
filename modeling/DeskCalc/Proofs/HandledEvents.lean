import DeskCalc.Proofs.SessionReport

/-!
# Sessions by what is made of their events

A session passes its events to a handler and never looks at what the handler makes of them.
A handler whose state can be told from the events that it was given is therefore, at the end
of a session, in the state that belongs to the events of that session. A sink is such a
handler: it holds the first bytes of the lines of the events, as many as it has room for,
however they were handed on.
-/

namespace DeskCalc

/-- Collecting the bytes of an array adds those behind the index to what was collected. -/
theorem toList_loop (bytes : ByteArray) (i : Nat) (collected : List UInt8) :
    ByteArray.toList.loop bytes i collected = collected.reverse ++ bytes.data.toList.drop i := by
  fun_induction ByteArray.toList.loop bytes i collected with
  | case1 i collected hi ih =>
      have hlt : i < bytes.data.toList.length := hi
      rw [ih, List.reverse_cons, List.append_assoc, List.drop_eq_getElem_cons hlt]
      simp [ByteArray.get!, hi]
  | case2 i collected hi =>
      have hle : bytes.data.toList.length ≤ i := Nat.le_of_not_lt hi
      rw [List.drop_eq_nil_of_le hle, List.append_nil]

/-- The bytes of a text that is made up of two are those of both. -/
theorem toList_toUTF8_append (a b : String) :
    (a ++ b).toUTF8.toList = a.toUTF8.toList ++ b.toUTF8.toList := by
  simp [ByteArray.toList, toList_loop]

namespace Sink

/-- The part of a stream of bytes that a sink of a given capacity takes. -/
def taken : Option Nat → List UInt8 → List UInt8
  | none, bytes => bytes
  | some n, bytes => bytes.take n

/-- An empty sink to which a stream of bytes was written. -/
def after (capacity : Option Nat) (stream : List UInt8) : Sink :=
  { capacity, written := taken capacity stream }

theorem after_nil (capacity : Option Nat) : after capacity [] = { capacity } := by
  cases capacity with
  | none => rfl
  | some n => rw [after, taken, List.take_nil]

/-- How a sink that held a stream comes out of a write: the stream has grown by the bytes, and
if they were not taken whole, nothing that follows them makes a difference. -/
structure Grows (capacity : Option Nat) (stream bytes : List UInt8) (r : Sink × Bool) :
    Prop where
  sink : r.1 = after capacity (stream ++ bytes)
  full : r.2 = false →
    ∀ more, after capacity (stream ++ bytes ++ more) = after capacity (stream ++ bytes)

theorem grows_write (capacity : Option Nat) (stream bytes : List UInt8) :
    Grows capacity stream bytes ((after capacity stream).write bytes) := by
  cases capacity with
  | none => exact ⟨rfl, fun h => by simp [write, accepted, after] at h⟩
  | some n =>
      have hroom : n - (stream.take n).length = n - stream.length := by
        rw [List.length_take]
        omega
      constructor
      · simp only [write, accepted, after, taken, hroom, List.take_append]
      · intro h more
        have hcut : n - stream.length < bytes.length := by
          simp only [write, accepted, after, taken, beq_eq_false_iff_ne, List.length_take] at h
          omega
        have hle : n ≤ (stream ++ bytes).length := by
          rw [List.length_append]
          omega
        simp only [after, taken, List.take_append_of_le_length hle]

theorem grows_writeLine (capacity : Option Nat) (stream : List UInt8) (line : String) :
    Grows capacity stream (lineBytes line) ((after capacity stream).writeLine line) := by
  have hline := grows_write capacity stream line.toUTF8.toList
  have hnewline := grows_write capacity (stream ++ line.toUTF8.toList) "\n".toUTF8.toList
  rw [lineBytes, toList_toUTF8_append, writeLine]
  simp only [hline.sink]
  split
  · exact ⟨hnewline.sink.trans (by rw [List.append_assoc]), by
      simpa only [List.append_assoc] using hnewline.full⟩
  · next hcut =>
      have hfull := hline.full (Bool.eq_false_iff.mpr hcut)
      constructor
      · rw [← List.append_assoc, hfull]
      · intro _ more
        rw [← List.append_assoc, List.append_assoc (stream ++ _), hfull, hfull]

/-- A batch leaves the first bytes of its lines, although it ends where one is cut. -/
theorem writeLines_after (capacity : Option Nat) (stream : List UInt8) (lines : List String) :
    (after capacity stream).writeLines lines =
      after capacity (stream ++ lines.flatMap lineBytes) := by
  induction lines generalizing stream with
  | nil => rw [writeLines, List.flatMap_nil, List.append_nil]
  | cons line lines ih =>
      have hline := grows_writeLine capacity stream line
      rw [writeLines, List.flatMap_cons, ← List.append_assoc]
      simp only [hline.sink]
      split
      · exact ih _
      · next hcut => exact (hline.full (Bool.eq_false_iff.mpr hcut) _).symm

/-- The bytes of the lines of events. -/
def bytesOf (events : List Event) : List UInt8 := (Event.lines events).flatMap lineBytes

theorem bytesOf_append (a b : List Event) : bytesOf (a ++ b) = bytesOf a ++ bytesOf b := by
  rw [bytesOf, Event.lines_append, List.flatMap_append]
  rfl

theorem writeEvent_after (capacity : Option Nat) (stream : List UInt8) (e : Event) :
    (after capacity stream).writeEvent e = after capacity (stream ++ bytesOf [e]) := by
  rw [writeEvent, bytesOf, Event.lines]
  cases hline : e.line? with
  | none => simp [hline]
  | some line => simpa [hline] using (grows_writeLine capacity stream line).sink

end Sink

namespace Handler

variable {σ : Type}

/-- A handler whose state can be told from the events that it was given. -/
structure Follows (h : Handler σ) (view : List Event → σ) : Prop where
  one : ∀ given e, h.takeOne (view given) e = view (given ++ [e])
  all : ∀ given events, h.takeAll (view given) events = view (given ++ events)

/-- Events may be handed on one after another. -/
theorem foldl_of_one {h : Handler σ} {view : List Event → σ}
    (hone : ∀ given e, h.takeOne (view given) e = view (given ++ [e]))
    (given events : List Event) :
    events.foldl h.takeOne (view given) = view (given ++ events) := by
  induction events generalizing given with
  | nil => rw [List.append_nil, List.foldl_nil]
  | cons e events ih =>
      rw [List.foldl_cons, hone, ih, List.append_assoc, List.singleton_append]

theorem foldl_recording (given events : List Event) :
    events.foldl recording.takeOne given = given ++ events :=
  @foldl_of_one _ recording id (fun _ _ => rfl) given events

theorem recording_takeAll (given events : List Event) :
    recording.takeAll given events = given ++ events :=
  foldl_recording given events

/-- A sink holds as much of the lines of all events that it was given as it has room for. -/
theorem writing_follows (capacity : Option Nat) :
    writing.Follows fun given => Sink.after capacity (Sink.bytesOf given) := by
  constructor
  · intro given e
    rw [Sink.bytesOf_append]
    exact Sink.writeEvent_after capacity _ e
  · intro given events
    rw [Sink.bytesOf_append]
    exact Sink.writeLines_after capacity _ (Event.lines events)

end Handler

namespace Session

variable {α : Type} {σ τ : Type}

/-- What a session leaves behind, with another view of its events. -/
def Handled.map (f : σ → τ) (r : Handled α σ) : Handled α τ where
  machine := r.machine
  state := f r.state
  ending := r.ending

open Handler

theorem finishWith_of_follows {h : Handler σ} {view : List Event → σ} (hview : h.Follows view)
    (given : List Event) (m : Machine α) (count : Nat) :
    finishWith h (view given) m count = (finishWith recording given m count).map view := by
  simp only [finishWith, Handled.map, foldl_of_one hview.one, foldl_recording]

variable [Operand α]

/-- The events decide what a handler is left with, and no handler has a part in them. -/
theorem runLinesWith_of_follows {h : Handler σ} {view : List Event → σ} (hview : h.Follows view)
    (given : List Event) (m : Machine α) (count : Nat) (lines : List (List UInt8)) :
    runLinesWith h (view given) m count lines =
      (runLinesWith recording given m count lines).map view := by
  induction lines generalizing given m count with
  | nil => exact finishWith_of_follows hview given m count
  | cons line rest ih =>
      rcases m.completes_or_stops line with ⟨text, hdecode, hcrash⟩ | ⟨ending, hstops⟩
      · rw [runLinesWith_of_completes h _ _ _ hdecode hcrash,
          runLinesWith_of_completes recording _ _ _ hdecode hcrash, hview.all,
          recording_takeAll, ih, finishWith_of_follows hview]
        split <;> rfl
      · rw [runLinesWith_of_stops h _ _ _ hstops, runLinesWith_of_stops recording _ _ _ hstops]
        rfl

/-- Lines that are carried out are recorded with all of their events. -/
theorem handed_recording (given : List Event) (m : Machine α) (texts : List (List Char)) :
    handed recording given m texts = given ++ (m.evaluateAll texts).2 := by
  rw [← Machine.flatten_batches, handed]
  generalize m.batches texts = batches
  induction batches generalizing given with
  | nil => exact (List.append_nil given).symm
  | cons events batches ih =>
      rw [List.foldl_cons, recording_takeAll, ih, List.flatten_cons, List.append_assoc]

/-- So is the end of a session. -/
theorem completed_recording (m : Machine α) (lines : List (List UInt8)) :
    (completed .recording [] m lines).state =
      (m.evaluateAll (Line.texts lines)).2 ++ (m.evaluateAll (Line.texts lines)).1.close.2 := by
  rw [completed, ← finishWith_eq_ended, handed_recording, List.nil_append]
  exact foldl_recording _ _

/-- The formatter breaks no session off if it has room for all that the calculator may come to
print. -/
theorem runWith_ne_crashed_formatter (h : Handler σ) (state : σ) {m : Machine α}
    (running : m.running = true)
    (hshown : ∀ texts, ∀ p ∈ m.printsAll texts, p.canShow = true) (input : List UInt8) :
    (runWith h state m input).ending ≠ .crashed .formatter := by
  intro hending
  rcases runWith_cases h state running input with
    ⟨-, hrun⟩ | ⟨before, line, after, ending, -, -, hstops, hrun⟩
  · rw [hrun] at hending
    cases hending
  · rw [hrun] at hending
    obtain rfl : ending = .crashed .formatter := hending
    cases hstops with
    | @crashed text _ hdecode hcrash =>
        obtain ⟨p, hp, hshow⟩ := Machine.exists_of_crash? hcrash
        have hmem : p ∈ m.printsAll (Line.texts before ++ [text]) := by
          rw [Machine.printsAll, Machine.collectAll_append]
          exact List.mem_append_right _ (List.mem_append_left _ hp)
        rw [hshown _ p hmem] at hshow
        cases hshow

end Session

end DeskCalc
