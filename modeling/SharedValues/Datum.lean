/-!
Plain trees of data, in which requests are read and answers are given.
-/
namespace SharedValues

inductive Datum where
  | null
  | bool (b : Bool)
  | int (n : Int)
  | text (s : String)
  | list (items : List Datum)
  | record (fields : List (String × Datum))
  /-- A number that is not whole. -/
  | fractional
  deriving Repr, Inhabited

namespace Datum

/-- An integer in decimal notation. -/
def decimal (n : Int) : Datum :=
  .text (toString n)

def field? (d : Datum) (key : String) : Option Datum :=
  match d with
  | .record fields => fields.lookup key
  | _ => none

def isNull : Datum → Bool
  | .null => true
  | _ => false

def text? : Datum → Option String
  | .text s => some s
  | _ => none

def list? : Datum → Option (List Datum)
  | .list items => some items
  | _ => none

/-- A natural number that is given as a number. -/
def nat? : Datum → Option Nat
  | .int n => if 0 ≤ n then some n.toNat else none
  | _ => none

def textField? (d : Datum) (key : String) : Option String :=
  (d.field? key).bind text?

/-- Has the record one of the fields? -/
def hasAny (d : Datum) (keys : List String) : Bool :=
  keys.any fun key => (d.field? key).isSome

theorem sizeOf_lt_of_lookup {fields : List (String × Datum)} {key : String} {x : Datum}
    (h : fields.lookup key = some x) : sizeOf x < sizeOf fields := by
  induction fields with
  | nil => simp at h
  | cons f fs ih =>
    obtain ⟨k, y⟩ := f
    simp only [List.lookup_cons] at h
    split at h
    · obtain rfl : y = x := by simpa using h
      simp only [List.cons.sizeOf_spec, Prod.mk.sizeOf_spec]
      omega
    · have := ih h
      simp only [List.cons.sizeOf_spec]
      omega

/-- A field is smaller than the record it stands in. -/
theorem sizeOf_field {d : Datum} {key : String} {x : Datum} (h : d.field? key = some x) :
    sizeOf x < sizeOf d := by
  cases d with
  | record fields =>
    have : sizeOf x < sizeOf fields := sizeOf_lt_of_lookup h
    simp only [record.sizeOf_spec]
    omega
  | _ => simp [field?] at h

/-- An item is smaller than the list it stands in. -/
theorem sizeOf_item {items : List Datum} {x : Datum} (h : x ∈ items) :
    sizeOf x < sizeOf (Datum.list items) := by
  have := List.sizeOf_lt_of_mem h
  simp only [list.sizeOf_spec]
  omega

theorem sizeOf_innerField {r : Datum} {outer key : String} {x : Datum}
    (h : r.field? key = some x) : sizeOf x < sizeOf (Datum.record [(outer, r)]) := by
  have := sizeOf_field h
  simp only [record.sizeOf_spec, List.cons.sizeOf_spec, Prod.mk.sizeOf_spec]
  omega

theorem sizeOf_key {items : List Datum} {k v : Datum} (h : .list [k, v] ∈ items) :
    sizeOf k < sizeOf (Datum.list items) := by
  have := sizeOf_item h
  simp only [list.sizeOf_spec, List.cons.sizeOf_spec] at this ⊢
  omega

theorem sizeOf_value {items : List Datum} {k v : Datum} (h : .list [k, v] ∈ items) :
    sizeOf v < sizeOf (Datum.list items) := by
  have := sizeOf_item h
  simp only [list.sizeOf_spec, List.cons.sizeOf_spec] at this ⊢
  omega

def digits? (cs : List Char) : Option Nat :=
  if cs ≠ [] ∧ cs.all Char.isDigit then
    some (cs.foldl (fun n c => 10 * n + (c.toNat - '0'.toNat)) 0)
  else none

/-- An integer in decimal notation, with a sign or without; a minus only where one is allowed. -/
def decimal? (signed : Bool) (s : String) : Option Int :=
  match s.toList with
  | '-' :: cs => if signed then (digits? cs).map fun n => -(n : Int) else none
  | '+' :: cs => (digits? cs).map Int.ofNat
  | cs => (digits? cs).map Int.ofNat

/-- An integer, as a number or in decimal notation. A number has to fit in 64 bits, with a sign
or without; larger ones are written in decimal notation. -/
def int? (signed : Bool) : Datum → Option Int
  | .int n => if -Int.pow 2 63 ≤ n ∧ n < Int.pow 2 64 then some n else none
  | .text s => decimal? signed s
  | _ => none

def hexDigit? (c : Char) : Option Nat :=
  if c.isDigit then some (c.toNat - '0'.toNat)
  else if 'a' ≤ c ∧ c ≤ 'f' then some (c.toNat - 'a'.toNat + 10)
  else if 'A' ≤ c ∧ c ≤ 'F' then some (c.toNat - 'A'.toNat + 10)
  else none

/-- A bit pattern of exactly `count` hexadecimal digits. -/
def bits? (count : Nat) (d : Datum) : Option Nat := do
  let cs := (← d.text?).toList
  let digits ← cs.mapM hexDigit?
  if digits.length = count then some (digits.foldl (fun n k => 16 * n + k) 0) else none

/-- A bit pattern in hexadecimal notation. -/
def bits (count n : Nat) : Datum :=
  let digits := Nat.toDigits 16 n
  .text (String.ofList (List.replicate (count - digits.length) '0' ++ digits))

end Datum

end SharedValues
