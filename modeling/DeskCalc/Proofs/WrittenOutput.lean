import DeskCalc.Proofs.HandledEvents

/-!
# Output that is cut

A sink that has no room for all of its output holds the beginning of it and nothing else,
wherever the cut falls: inside a character, a line or between a line and its newline. Events
that are written one by one go on behind a cut, a batch ends there, and the sink cannot tell
them apart.
-/

namespace DeskCalc

namespace Sink

/-- The lines of the events that a recording holds, each with a newline behind it. -/
def outputText (events : List Event) : String :=
  String.join ((Event.lines (Handler.recording.takeAll [] events)).map (· ++ "\n"))

theorem toList_toUTF8_join (lines : List String) :
    (String.join (lines.map (· ++ "\n"))).toUTF8.toList = lines.flatMap lineBytes := by
  induction lines with
  | nil => simp [ByteArray.toList, toList_loop]
  | cons line lines ih =>
      rw [List.map_cons, String.join_cons, toList_toUTF8_append, ih, List.flatMap_cons]
      rfl

theorem toList_toUTF8_outputText (events : List Event) :
    (outputText events).toUTF8.toList = bytesOf events := by
  rw [outputText, toList_toUTF8_join, Handler.recording_takeAll, List.nil_append]
  rfl

/-- What a sink of a given capacity holds of events, however they are handed on. -/
structure HoldsPrefix (capacity : Nat) (events : List Event) : Prop where
  /-- One batch leaves the first bytes of the output. -/
  batch : (Handler.writing.takeAll { capacity := some capacity } events).written =
    (outputText events).toUTF8.toList.take capacity
  /-- So do the events one by one. -/
  each : (events.foldl Handler.writing.takeOne { capacity := some capacity }).written =
    (outputText events).toUTF8.toList.take capacity
  /-- So do batches that the events are split into. -/
  batches : ∀ parts : List (List Event), parts.flatten = events →
    (parts.foldl Handler.writing.takeAll { capacity := some capacity }).written =
      (outputText events).toUTF8.toList.take capacity
  /-- With room for it, the sink holds the whole output. -/
  whole : (outputText events).toUTF8.toList.length ≤ capacity →
    (Handler.writing.takeAll { capacity := some capacity } events).written =
        (outputText events).toUTF8.toList ∧
      (events.foldl Handler.writing.takeOne { capacity := some capacity }).written =
        (outputText events).toUTF8.toList

end Sink

namespace Handler

variable {σ : Type}

/-- Events may be handed on in batches. -/
theorem Follows.foldl_batches {h : Handler σ} {view : List Event → σ} (hview : h.Follows view)
    (given : List Event) (parts : List (List Event)) :
    parts.foldl h.takeAll (view given) = view (given ++ parts.flatten) := by
  induction parts generalizing given with
  | nil => rw [List.foldl_nil, List.flatten_nil, List.append_nil]
  | cons part parts ih =>
      rw [List.foldl_cons, hview.all, ih, List.flatten_cons, List.append_assoc]

end Handler

namespace Sink

/-- Every sink holds the first bytes of the output, as many as it has room for, whether the
events come as one batch, as several or one by one. -/
theorem holdsPrefix (capacity : Nat) (events : List Event) : HoldsPrefix capacity events := by
  have hview := Handler.writing_follows (some capacity)
  have hempty : ({ capacity := some capacity } : Sink) = after (some capacity) (bytesOf []) :=
    (after_nil _).symm
  have hheld : (after (some capacity) (bytesOf events)).written =
      (outputText events).toUTF8.toList.take capacity := by
    rw [toList_toUTF8_outputText]
    rfl
  have hbatch : Handler.writing.takeAll { capacity := some capacity } events =
      after (some capacity) (bytesOf events) := by
    rw [hempty, hview.all, List.nil_append]
  have heach : events.foldl Handler.writing.takeOne { capacity := some capacity } =
      after (some capacity) (bytesOf events) := by
    rw [hempty, Handler.foldl_of_one hview.one, List.nil_append]
  refine ⟨hbatch ▸ hheld, heach ▸ hheld, fun parts hparts => ?_, fun hroom => ?_⟩
  · rw [hempty, hview.foldl_batches, List.nil_append, hparts, hheld]
  · rw [hbatch, heach, hheld, List.take_of_length_le hroom]
    exact ⟨rfl, rfl⟩

end Sink

namespace Session

/-- A session leaves in a sink the beginning of the output of the events that it records. -/
theorem written_runWith {α : Type} [Operand α] (capacity : Option Nat) (m : Machine α)
    (input : List UInt8) :
    (runWith Handler.writing { capacity } m input).state.written =
      Sink.taken capacity (Sink.bytesOf (run m input).state) := by
  have hempty : ({ capacity } : Sink) = Sink.after capacity (Sink.bytesOf []) :=
    (Sink.after_nil capacity).symm
  rw [hempty, runWith, runLinesWith_of_follows (Handler.writing_follows capacity)]
  rfl

end Session

end DeskCalc
