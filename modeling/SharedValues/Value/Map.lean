import SharedValues.Value.Basic
import SharedValues.Value.Levels

/-!
Maps. The parts of a map node are entries, each a key and a value, in ascending order of keys. The
levels of the entries follow from how they came and went.
-/
namespace SharedValues

namespace Value

mutual

/-- The order of keys: an absent option comes first, and sequences are compared part by part. -/
def order : Value → Value → Ordering
  | .scalar a, .scalar b => a.order b
  | .node .none _, .node .some _ => .lt
  | .node .some _, .node .none _ => .gt
  | .node _ as, .node _ bs => orders as bs
  | _, _ => .eq

def orders : List Value → List Value → Ordering
  | [], [] => .eq
  | [], _ :: _ => .lt
  | _ :: _, [] => .gt
  | a :: as, b :: bs => (order a b).then (orders as bs)

end

def entry (key value : Value) : Value :=
  .node .entry [key, value]

/-- Put a value under a key, and return what was there before. -/
def insertEntry (key value : Value) : List Value → List Value × Option Value
  | [] => ([entry key value], none)
  | .node .entry [k, old] :: rest =>
    match order key k with
    | .lt => (entry key value :: entry k old :: rest, none)
    | .eq => (entry k value :: rest, some old)
    | .gt =>
      let (rest', before) := insertEntry key value rest
      (entry k old :: rest', before)
  | other :: rest =>
    let (rest', before) := insertEntry key value rest
    (other :: rest', before)

/-- Is this the entry of the given key? -/
def isEntryOf (key : Value) : Value → Bool
  | .node .entry [k, _] => order key k == .eq
  | _ => false

/-- Does the entry come before the given key? -/
def isEntryBefore (key : Value) : Value → Bool
  | .node .entry [k, _] => order key k == .gt
  | _ => false

end Value

/-- The entries of a map, and their levels. -/
structure Entries where
  levels : List Nat
  list : List Value
  deriving DecidableEq, Repr

namespace Entries

def empty : Entries := ⟨[], []⟩

def toValue (es : Entries) : Value :=
  .node (.map es.levels) es.list

/-- Put a value under a key, and return what is left over: if the key is there already, the old
value makes room and the new key is not needed. -/
def insert (key value : Value) (es : Entries) : Entries × List Value :=
  match Value.insertEntry key value es.list with
  | (list, some old) => (⟨es.levels, list⟩, [key, old])
  | (list, none) =>
    let position := (es.list.takeWhile (Value.isEntryBefore key)).length
    (⟨Levels.insert position es.levels, list⟩, [])

/-- Take out the entry of a key, and return it. -/
def erase (key : Value) (es : Entries) : Entries × Option Value :=
  match es.list.findIdx? (Value.isEntryOf key) with
  | some i => (⟨Levels.erase i es.levels, es.list.eraseIdx i⟩, es.list[i]?)
  | none => (es, none)

end Entries

end SharedValues
