import SharedValues.Store.Basic

/-!
The registry of published tables, in the order in which they were published. A table is asked for
in two steps: a look-up, and, if that found nothing, an entry, which looks again before it
publishes.
-/
namespace SharedValues

structure Registry where
  tables : List Table := []
  deriving DecidableEq, Repr

namespace Registry

def size (r : Registry) : Nat :=
  r.tables.length

def find? (r : Registry) (t : Ty) : Option Table :=
  r.tables.find? (·.type == t)

/-- The table of `t`, which is published if it was not there. -/
def enter (r : Registry) (t : Ty) : Table × Registry :=
  match r.find? t with
  | some table => (table, r)
  | none =>
    let table : Table := ⟨r.size, t⟩
    (table, ⟨r.tables ++ [table]⟩)

end Registry

end SharedValues
