import SharedValues.World

/-!
Equality. Parts are compared in order up to the first difference, and nodes of different shape or
size without looking at their parts. Two shares of one allocation are equal at once; otherwise
cells are compared by what they hold, slots by type and payload, and objects and functions are
different.
-/
namespace SharedValues

namespace Value

mutual

/-- Compare two values, given how two different allocations of one kind are compared. -/
def equalsWith (through : HandleKind → Nat → Nat → Run Bool) : Value → Value → Run Bool
  | .scalar a, .scalar b => pure (a.equals b)
  | .probe p, .probe q => do
    Run.callHook .eq p
    pure (p.id == q.id)
  | .handle _ none, .handle _ none => pure true
  | .handle kind (some a), .handle _ (some b) => if a = b then pure true else through kind a b
  | .node s as, .node t bs =>
    if s.meaning = t.meaning ∧ as.length = bs.length then partsEqualWith through as bs else pure false
  | _, _ => pure false

def partsEqualWith (through : HandleKind → Nat → Nat → Run Bool) :
    List Value → List Value → Run Bool
  | a :: as, b :: bs => do
    if ← equalsWith through a b then partsEqualWith through as bs else pure false
  | _, _ => pure true

end

end Value

/-- Compare two payloads with a table. Payloads of another type are equal to nothing. -/
def Table.equalsWith (through : HandleKind → Nat → Nat → Run Bool) (table : Table)
    (a b : Payload) : Run Bool :=
  if a.type = table.type ∧ b.type = table.type then a.value.equalsWith through b.value
  else pure false

namespace Value

/-- Compare two different allocations, following at most `hops` handles in a row. -/
def equalThrough : Nat → HandleKind → Nat → Nat → Run Bool
  | _, .object, _, _ => pure false
  | _, .callable, _, _ => pure false
  | 0, _, _, _ => throw .endless
  | hops + 1, kind, a, b => do
    let x ← Run.read kind a
    let y ← Run.read kind b
    match x.role, y.role with
    | .slot table type, .slot table' type' =>
      if table.type = table'.type then
        table.equalsWith (equalThrough hops) ⟨type, x.content⟩ ⟨type', y.content⟩
      else pure false
    | _, _ => x.content.equalsWith (equalThrough hops) y.content

def equals (v w : Value) : Run Bool := do
  v.equalsWith (equalThrough (← get).hops) w

end Value

def Table.equals (table : Table) (a b : Payload) : Run Bool := do
  table.equalsWith (Value.equalThrough (← get).hops) a b

end SharedValues
