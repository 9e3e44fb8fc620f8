import SharedValues.Reader

/-!
Edits. A path leads into a value, through its parts and through cells, to the place that changes.
The new value of a place is read before anything is replaced, so an edit that is refused or panics
leaves every place as it was. What an edit takes out is given up only when the new value is in its
place.
-/
namespace SharedValues.Edit

open Reader

inductive Reply where
  | datum (d : Datum)
  /-- The picture of a value that was taken out. -/
  | picture (v : Value)
  deriving Repr

/-- What an edit leads to: the new value, what was taken out, and the reply. -/
structure Change (α : Type) where
  result : α
  removed : List Value
  reply : Reply
  deriving Repr

namespace Change

def map {α β : Type} (f : α → β) (c : Change α) : Change β :=
  ⟨f c.result, c.removed, c.reply⟩

/-- Give up what was taken out, and reply. -/
def finish {α : Type} (c : Change α) : Run Datum :=
  Run.dropping c.removed <|
    match c.reply with
    | .datum d => pure d
    | .picture v => v.picture

end Change

/-- The reply of an edit of a list or a map is the number of its parts. -/
def counted (parts removed : List Value) : Change (List Value) :=
  ⟨parts, removed, .datum (.decimal parts.length)⟩

def countedEntries (entries : Entries) (removed : List Value) : Change Entries :=
  ⟨entries, removed, .datum (.decimal entries.list.length)⟩

/-- Edits of lists as a whole. -/
def editList (elem : Ty) (parts : List Value) (m : Datum) : Run (Change (List Value)) :=
  match m.field? "push", m.field? "clear", m.field? "pop" with
  | some x, _, _ => do
    let v ← read elem x
    pure (counted (parts ++ [v]) [])
  | _, some _, _ => pure (counted [] parts)
  | _, _, some _ =>
    match parts.getLast? with
    | none => pure ⟨[], [], .datum .null⟩
    | some last => pure ⟨parts.dropLast, [last], .picture last⟩
  | _, _, _ => Run.refuse

/-- Edits of maps as a whole. -/
def editMap (key value : Ty) (entries : Entries) (m : Datum) : Run (Change Entries) :=
  match m.field? "insert", m.field? "remove", m.field? "clear" with
  | some (.list [k, v]), _, _ => do
    let k ← read key k
    let v ← Run.unwinding [k] (read value v)
    let (entries, left) := entries.insert k v
    pure (countedEntries entries left)
  | none, some k, _ => do
    let k ← read key k
    let (entries, old) := entries.erase k
    pure (countedEntries entries (k :: old.toList))
  | none, none, some _ => pure (countedEntries .empty entries.list)
  | _, _, _ => Run.refuse

/-- Edit the part with the given number. -/
def editPart (i : Nat) (parts : List Value) (change : Value → Run (Change Value)) :
    Run (Change (List Value)) :=
  match parts[i]? with
  | some p => do
    let c ← change p
    pure (c.map (parts.set i ·))
  | none => Run.refuse

/-- Edit the value under a key. -/
def editEntry (key : Value) (entries : List Value) (change : Value → Run (Change Value)) :
    Run (Change (List Value)) :=
  match entries.findIdx? (Value.isEntryOf key) with
  | some i =>
    editPart i entries fun
      | .node .entry [k, v] => do
        let c ← change v
        pure (c.map (.entry k ·))
      | _ => Run.refuse
  | none => Run.refuse

/--
Edit a value of a type along a path. An alternative of the recursive sample type hands the edit on
to what it holds, past a box that it is held in. The components of a tuple are picked by plain
numbers, the parts of a list or an array by numbers that may come from variables.
-/
def edit (t : Ty) (v : Value) (m : Datum) : Run (Change Value) :=
  match m.field? "set", m.field? "panic" with
  | some x, _ => do
    let new ← read t x
    pure ⟨new, [v], .datum .null⟩
  | none, some text => do Run.panic (.raised (← Run.orRefuse text.text?))
  | none, none =>
    match t, v with
    | .int it, .scalar (.int n) => do
      let k ← expectInt (← read t (← Run.orRefuse (m.field? "add")))
      pure ⟨.int (it.wrap (n + k)), [], .datum (.decimal (it.wrap (n + k)))⟩
    | .string, .scalar (.text s) => do
      let more ← Run.orRefuse (m.textField? "push")
      pure ⟨.text (s ++ more), [], .datum (.text (s ++ more))⟩
    | .list elem, .node shape parts =>
      if m.hasAny ["push", "clear", "pop"] then do
        let c ← editList elem parts m
        pure (c.map (.node shape))
      else
        match _h : m.field? "m" with
        | some path => do
          let i ← readNat .usize (m.field? "at")
          let c ← editPart i parts fun p => edit elem p path
          pure (c.map (.node shape))
        | none => Run.refuse
    | .array elem _, .node shape parts =>
      match _h : m.field? "m" with
      | some path => do
        let i ← readNat .usize (m.field? "at")
        let c ← editPart i parts fun p => edit elem p path
        pure (c.map (.node shape))
      | none => Run.refuse
    | .tuple first rest, .node shape parts =>
      match _h : m.field? "m" with
      | some path => do
        let i ← Run.orRefuse ((m.field? "at").bind Datum.nat?)
        let component ← Run.orRefuse (Ty.tuple first rest).components[i]?
        let c ← editPart i parts fun p => edit component p path
        pure (c.map (.node shape))
      | none => Run.refuse
    | .sortedMap key value, .node (.map levels) entries
    | .hashedMap key value, .node (.map levels) entries
    | .fixedMap key value, .node (.map levels) entries =>
      if m.hasAny ["insert", "remove", "clear"] then do
        let c ← editMap key value ⟨levels, entries⟩ m
        pure (c.map Entries.toValue)
      else
        match _h : m.field? "m" with
        | some path => do
          let k ← read key (← Run.orRefuse (m.field? "at"))
          let c ← Run.unwinding [k] (editEntry k entries fun p => edit value p path)
          pure ⟨.node (.map levels) c.result, k :: c.removed, c.reply⟩
        | none => Run.refuse
    | .option elem, .node .some [p] =>
      match _h : m.field? "inner" with
      | some path => do
        let c ← edit elem p path
        pure (c.map fun p => .node .some [p])
      | none => Run.refuse
    | .boxed elem, .node .box [p] =>
      match _h : m.field? "inner" with
      | some path => do
        let c ← edit elem p path
        pure (c.map fun p => .node .box [p])
      | none => Run.refuse
    | .cell elem, .handle kind target =>
      match m.field? "put", _h : m.field? "inner" with
      | some x, _ => do
        let content ← read elem x
        Cell.put target content
        pure ⟨.handle kind target, [], .datum .null⟩
      | none, some path => do
        let c ← Cell.update target fun content => do
          let c ← edit elem content path
          pure (c.result, c)
        pure (c.map fun _ => .handle kind target)
      | none, none => Run.refuse
    | .dog, .node shape [name, tricks] =>
      match _h : m.field? "tricks" with
      | some path => do
        let c ← edit (.cell (.list .string)) tricks path
        pure (c.map fun tricks => .node shape [name, tricks])
      | none => Run.refuse
    | .inventory, .node shape [owner, items, stock] =>
      match _h₁ : m.field? "items", _h₂ : m.field? "stock" with
      | some path, _ => do
        let c ← edit (.list .string) items path
        pure (c.map fun items => .node shape [owner, items, stock])
      | none, some path => do
        let c ← edit (.cell (.sortedMap .string (.int .u32))) stock path
        pure (c.map fun stock => .node shape [owner, items, stock])
      | none, none => Run.refuse
    | .dyn, .node (.variant .opt) [.node .some [.node .box [p]]] => do
      let c ← edit .dyn p m
      pure (c.map fun p => .node (.variant .opt) [.node .some [.node .box [p]]])
    | .dyn, .node (.variant .arr) [.node .box [p]] => do
      let c ← edit (.array .dyn 2) p m
      pure (c.map fun p => .node (.variant .arr) [.node .box [p]])
    | .dyn, .node (.variant variant) [p] => do
      let c ← edit variant.content p m
      pure (c.map fun p => .node (.variant variant) [p])
    | _, _ => Run.refuse
termination_by (sizeOf m, sizeOf v)
decreasing_by
  all_goals first
    | exact .left _ _ (Datum.sizeOf_field ‹_›)
    | decreasing_tactic

end SharedValues.Edit
