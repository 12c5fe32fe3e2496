import DeskCalc.Sink

/-!
# Handlers

A handler is given the events of a session as they arise: those of a line together, when
the line is done, and the one that tells of dropped operands alone.
-/

namespace DeskCalc

/-- What becomes of events, of one by itself and of several handed on together. -/
structure Handler (σ : Type) where
  takeOne : σ → Event → σ
  takeAll : σ → List Event → σ := fun state events => events.foldl takeOne state

namespace Handler

/-- Keeps all events in order. -/
def recording : Handler (List Event) where
  takeOne recorded event := recorded ++ [event]

/-- Writes the lines that show. -/
def writing : Handler Sink where
  takeOne := Sink.writeEvent
  takeAll := Sink.writeBatch

end Handler

end DeskCalc
