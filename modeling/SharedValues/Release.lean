import SharedValues.World

/-!
Giving up values. A value that is given up gives up its parts in order; a handle gives up one share,
and the last share of an allocation destroys it, which gives up what it owned. The pending values
are a list that is worked off from the front, so every cascade ends: each step lowers the weight of
the store and of the list together.
-/
namespace SharedValues

namespace World

/-- Take an allocation out of the store. Only slots report it. -/
def destroy (w : World) (id : Nat) (a : Allocation) : World :=
  let w := { w with store := w.store.erase id }
  match a.role with
  | .slot table _ => w.recordAll [.lastShare id table.type, .destroying table.type]
  | _ => w

@[simp] theorem destroy_store (w : World) (id : Nat) (a : Allocation) :
    (w.destroy id a).store = w.store.erase id := by
  unfold destroy
  split <;> rfl

/-- Give up values, from the first to the last. -/
def release : List Value → World → World
  | [], w => w
  | .scalar _ :: rest, w => release rest w
  | .probe p :: rest, w => release rest (w.record (.dropped p))
  | .handle _ none :: rest, w => release rest w
  | .handle _ (some id) :: rest, w =>
    match _h : w.store.get? id with
    | none => release rest w
    | some a =>
      if a.shares ≤ 1 then release (a.content :: rest) (w.destroy id a)
      else release rest { w with store := w.store.put id { a with shares := a.shares - 1 } }
  | .node _ parts :: rest, w => release (parts ++ rest) w
termination_by vs w => w.store.weight + Value.sizes vs
decreasing_by
  · simp [Value.sizes, Value.size]
  · simp [Value.sizes, Value.size, record]
  · simp [Value.sizes, Value.size]
  · simp [Value.sizes, Value.size]
  · have := Store.weight_erase _h
    simp only [destroy_store, Value.sizes, Value.size]
    omega
  · have := Store.weight_put (b := { a with shares := a.shares - 1 }) _h rfl
    simp only [Value.sizes, Value.size]
    omega
  · simp only [Value.sizes, Value.size, Value.sizes_append]
    omega

end World

namespace Run

def drop (vs : List Value) : Run Unit :=
  modify (World.release vs)

/-- Run an action, and give up the values built so far if it is abandoned. -/
def unwinding {α : Type} (built : List Value) (act : Run α) : Run α := fun w =>
  match act w with
  | .ok a w => .ok a w
  | .error e w => .error e (w.release built)

/-- Run an action, and give up the values afterwards in every case. -/
def dropping {α : Type} (vs : List Value) (act : Run α) : Run α := do
  let a ← unwinding vs act
  drop vs
  pure a

/-- Build the parts of a node from left to right. -/
def collect (shape : Shape) (done : List Value) : List (Run Value) → Run (List Value)
  | [] => pure done
  | act :: acts => do
    let v ← unwinding (shape.giveUp done) act
    collect shape (done ++ [v]) acts

end Run

end SharedValues
