import SharedValues.Answer
import SharedValues.Program.Machine

/-!
Whole programs: the answers of the steps, a final dump, and the events of giving up all variables.
-/
namespace SharedValues.Program

/-- Perform a step as it was written down. -/
def performDatum (fresh : Bool) (d : Datum) : Run Machine.Result :=
  match Step.ofDatum? d with
  | some step => Machine.perform fresh step
  | none => Run.refuse

def runSteps (fresh : Bool) : List Datum → World → List Datum × World
  | [], w => ([], w)
  | d :: ds, w =>
    let (answer, w) := Answer.ofRun fresh (performDatum fresh d) w
    let (answers, w) := runSteps fresh ds w
    (answer :: answers, w)

/-- Give up all variables in ascending order of their names. -/
def releaseAll (w : World) : World :=
  World.release (w.bindings.map fun (_, v) => v.value) { w with bindings := [] }

def run (fresh : Bool) (steps : List Datum) (w : World) : Datum :=
  let (answers, w) := runSteps fresh steps w
  let (last, w) := Answer.ofRun fresh Machine.dump w
  let released := (releaseAll w).trace.drop w.trace.length
  .record [("steps", .list answers), ("end", last),
    ("released", .list (Answer.eventTexts fresh released))]

end SharedValues.Program
