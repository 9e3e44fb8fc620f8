import SharedValues.Datum
import SharedValues.World

/-!
Answers: the result of an action or the reason why it has none, with the events that happened.
-/
namespace SharedValues.Answer

/-- The texts of the events; publications are shown on request only. -/
def eventTexts (showPublished : Bool) (events : List Event) : List Datum :=
  (events.filter fun e => showPublished || !e.isPublished).map (.text ·.text)

/-- The events as a field, if there are any. -/
def eventField (texts : List Datum) : List (String × Datum) :=
  if texts.isEmpty then [] else [("ev", .list texts)]

def stopFields : Stop → List (String × Datum)
  | .panic p => [("error", .text "Panic"), ("message", .text p.message)]
  | .refused => [("error", .text "BadInput")]
  | .endless => [("error", .text "Endless")]
  | .deadlock => [("error", .text "Deadlock")]
  | .dangling => [("error", .text "Dangling")]

def errorFields (e : AccessError) : List (String × Datum) :=
  [("error", .text e.label), ("message", .text e.message)]

/-- Run an action and say how it ended. -/
def ofRun (showPublished : Bool) (act : Run (Except AccessError Datum)) (w : World) :
    Datum × World :=
  let finish (fields : List (String × Datum)) (after : World) : Datum × World :=
    let texts := eventTexts showPublished (after.trace.drop w.trace.length)
    (.record (fields ++ eventField texts), after)
  match act w with
  | .ok (.ok d) after => finish [("ok", d)] after
  | .ok (.error e) after => finish (errorFields e) after
  | .error stop after => finish (stopFields stop) after

end SharedValues.Answer
