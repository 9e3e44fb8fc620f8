import Mathlib
import SharedValues.Proofs.DeepCopies
import SharedValues.Proofs.SlotTypes

/-!
Positions in a value. A position is reached through parts and through handles of the kinds to be
followed: comparing and rendering look through slots and cells, a deep copy goes through cells and
objects. In an orderly store whatever looks through a value of a type comes to an answer, unless a
probe at one of the positions that it looks at refuses.
-/
namespace SharedValues

/-- Comparing and rendering look through handles of this kind. -/
def HandleKind.transparent : HandleKind → Bool
  | .slot | .cell => true
  | .object | .callable => false

theorem Shape.map_or_meaning (shape : Shape) :
    (∃ levels, shape = .map levels) ∨ shape.meaning = shape := by
  cases shape with
  | map levels => exact .inl ⟨levels, rfl⟩
  | _ => exact .inr rfl

/-- Shapes of one meaning are the same, apart from the levels of maps. -/
theorem Shape.eq_or_map {shape shape' : Shape} (h : shape.meaning = shape'.meaning) :
    shape = shape' ∨ ∃ levels levels', shape = .map levels ∧ shape' = .map levels' := by
  rcases shape.map_or_meaning with ⟨levels, rfl⟩ | e
  · rcases shape'.map_or_meaning with ⟨levels', rfl⟩ | e'
    · exact .inr ⟨levels, levels', rfl, rfl⟩
    · exact .inr ⟨levels, [], rfl, e'.symm.trans h.symm⟩
  · rcases shape'.map_or_meaning with ⟨levels', rfl⟩ | e'
    · exact .inr ⟨[], levels', e.symm.trans h, rfl⟩
    · exact .inl (by rw [← e, h, e'])

theorem Value.mem_handles_node {shape : Shape} {parts : List Value} {v : Value} {h : Handle}
    (hv : v ∈ parts) (hh : h ∈ v.handles) : h ∈ (Value.node shape parts).handles := by
  rw [handles]
  exact mem_handlesOf.mpr ⟨v, hv, hh⟩

namespace Store

/-- The path leads from the first value to the second one, through parts and followed handles. -/
inductive At (s : Store) (follow : HandleKind → Bool) : Value → List Nat → Value → Prop where
  | here {v : Value} : At s follow v [] v
  | part {shape : Shape} {parts : List Value} {i : Nat} {v x : Value} {path : List Nat}
    (hi : parts[i]? = some v) (h : At s follow v path x) : At s follow (.node shape parts) (i :: path) x
  | behind {k : HandleKind} {id : Nat} {a : Allocation} {x : Value} {path : List Nat}
    (hk : follow k) (ha : s.get? id = some a) (h : At s follow a.content path x) :
    At s follow (.handle k (some id)) (0 :: path) x

/-- What stands at a position holds nothing but live handles, if the value does. -/
theorem At.alive {s : Store} {follow : HandleKind → Bool} {v x : Value} {path : List Nat}
    (h : s.At follow v path x) (hc : s.Closed) (hv : ∀ y ∈ v.handles, s.Alive y) :
    ∀ y ∈ x.handles, s.Alive y := by
  induction h with
  | here => exact hv
  | part hi _ ih =>
    exact ih fun y hy => hv y (Value.mem_handles_node (List.mem_of_getElem? hi) hy)
  | behind _ ha _ ih => exact ih (hc _ _ ha)

/-- The second value stands at some position of the first one. -/
def Occurs (s : Store) (follow : HandleKind → Bool) (v x : Value) : Prop :=
  ∃ path, s.At follow v path x

/-- Whoever looks through the value meets the probe. -/
def Meets (s : Store) (v : Value) (p : Probe) : Prop :=
  s.Occurs HandleKind.transparent v (.probe p)

namespace Occurs

variable {s : Store} {follow : HandleKind → Bool}

theorem refl (v : Value) : s.Occurs follow v v := ⟨[], .here⟩

theorem part {shape : Shape} {parts : List Value} {v x : Value} (hv : v ∈ parts)
    (h : s.Occurs follow v x) : s.Occurs follow (.node shape parts) x := by
  obtain ⟨i, hi⟩ := List.mem_iff_getElem?.mp hv
  obtain ⟨path, hp⟩ := h
  exact ⟨i :: path, .part hi hp⟩

theorem behind {k : HandleKind} {id : Nat} {a : Allocation} {x : Value} (hk : follow k)
    (ha : s.get? id = some a) (h : s.Occurs follow a.content x) :
    s.Occurs follow (.handle k (some id)) x := by
  obtain ⟨path, hp⟩ := h
  exact ⟨0 :: path, .behind hk ha hp⟩

end Occurs

theorem occurs_scalar {s : Store} {follow : HandleKind → Bool} {x : Scalar} {y : Value} :
    s.Occurs follow (.scalar x) y ↔ y = .scalar x := by
  refine ⟨?_, fun h => h ▸ .refl _⟩
  rintro ⟨_, h⟩
  cases h
  rfl

theorem occurs_probe {s : Store} {follow : HandleKind → Bool} {p : Probe} {y : Value} :
    s.Occurs follow (.probe p) y ↔ y = .probe p := by
  refine ⟨?_, fun h => h ▸ .refl _⟩
  rintro ⟨_, h⟩
  cases h
  rfl

theorem occurs_absent {s : Store} {follow : HandleKind → Bool} {k : HandleKind} {y : Value} :
    s.Occurs follow (.handle k none) y ↔ y = .handle k none := by
  refine ⟨?_, fun h => h ▸ .refl _⟩
  rintro ⟨_, h⟩
  cases h
  rfl

theorem occurs_handle {s : Store} {follow : HandleKind → Bool} {k : HandleKind} {id : Nat}
    {y : Value} :
    s.Occurs follow (.handle k (some id)) y ↔ y = .handle k (some id) ∨
      ∃ a, follow k ∧ s.get? id = some a ∧ s.Occurs follow a.content y := by
  constructor
  · rintro ⟨_, h⟩
    cases h with
    | here => exact .inl rfl
    | behind hk ha h => exact .inr ⟨_, hk, ha, _, h⟩
  · rintro (rfl | ⟨a, hk, ha, h⟩)
    · exact .refl _
    · exact h.behind hk ha

theorem occurs_node {s : Store} {follow : HandleKind → Bool} {shape : Shape} {parts : List Value}
    {y : Value} :
    s.Occurs follow (.node shape parts) y ↔ y = .node shape parts ∨
      ∃ v ∈ parts, s.Occurs follow v y := by
  constructor
  · rintro ⟨_, h⟩
    cases h with
    | here => exact .inl rfl
    | part hi h => exact .inr ⟨_, List.mem_of_getElem? hi, _, h⟩
  · rintro (rfl | ⟨v, hv, h⟩)
    · exact .refl _
    · exact h.part hv

/-- The probes of a value are those that are reached without following a handle. -/
theorem occurs_probe_iff {s : Store} {v : Value} {p : Probe} :
    s.Occurs (fun _ => false) v (.probe p) ↔ p ∈ v.probes := by
  induction v using Value.induction with
  | scalar x => simp [occurs_scalar, Value.probes]
  | probe q => simp [occurs_probe, Value.probes]
  | handle k target => cases target <;> simp [occurs_absent, occurs_handle, Value.probes]
  | node shape parts ih =>
    simp only [occurs_node, reduceCtorEq, false_or, Value.probes, Value.mem_probesOf]
    constructor
    · rintro ⟨v, hv, h⟩
      exact ⟨v, hv, (ih v hv).mp h⟩
    · rintro ⟨v, hv, h⟩
      exact ⟨v, hv, (ih v hv).mpr h⟩

/-- What a live handle leads to is still there, with its role and its content. -/
theorem Persists.get?_of_alive {s s' : Store} (hp : s.Persists s') {h : Handle} (hh : s.Alive h)
    {b : Allocation} (hb : s'.get? h.target = some b) :
    ∃ a, s.get? h.target = some a ∧ b.role = a.role ∧ b.content = a.content := by
  obtain ⟨a, ha, -⟩ := hh
  obtain ⟨b', hb', hr, hc⟩ := hp _ a ha
  cases hb.symm.trans hb'
  exact ⟨a, ha, hr, hc⟩

/-- Nothing new stands in a value while the allocations stay. -/
theorem Occurs.of_persists {s s' : Store} {follow : HandleKind → Bool} {v x : Value}
    (h : s'.Occurs follow v x) (hp : s.Persists s') (hc : s.Closed)
    (hv : ∀ y ∈ v.handles, s.Alive y) : s.Occurs follow v x := by
  obtain ⟨path, h⟩ := h
  induction h with
  | here => exact .refl _
  | part hi _ ih =>
    have hm := List.mem_of_getElem? hi
    exact (ih fun y hy => hv y (Value.mem_handles_node hm hy)).part hm
  | @behind k id b _ _ hk hb _ ih =>
    obtain ⟨a, ha, -, hcontent⟩ := hp.get?_of_alive (hv ⟨k, id⟩ (by simp [Value.handles])) hb
    rw [hcontent] at ih
    exact (ih (hc id a ha)).behind hk ha

/-- A store that values can be looked through: everything that is held is alive and has its type,
nothing owns itself, and every slot has the table of its type. -/
structure Orderly (s : Store) : Prop where
  closed : s.Closed
  acyclic : s.Acyclic
  typed : ∀ id a, s.get? id = some a → HasType s a.role.content a.content
  tables : ∀ id a table type, s.get? id = some a → a.role = .slot table type → table.type = type

/-- The value stands at a place of that kind, and all that it holds is alive. -/
structure Live (s : Store) (p : Place) (v : Value) : Prop where
  fits : Fits s p v
  alive : ∀ h ∈ v.handles, s.Alive h

namespace Live

variable {s : Store} {p : Place}

/-- Every part of a node stands at a place of its own. -/
theorem part {shape : Shape} {parts : List Value} (h : s.Live p (.node shape parts)) {i : Nat}
    {v : Value} (hi : parts[i]? = some v) :
    ∃ ps q, p.parts shape parts.length = some ps ∧ ps[i]? = some q ∧ s.Live q v := by
  obtain ⟨ps, hps, hf⟩ := h.fits
  have hlt := (List.getElem?_eq_some_iff.mp hi).1
  have hlt' : i < ps.length := by
    rw [fitAll_length hf]
    exact hlt
  have hv : Fits s ps[i] v := by
    have hq := (List.forall₂_iff_get.mp (fitAll_iff.mp hf)).2 i hlt' hlt
    rw [List.getElem?_eq_getElem hlt, Option.some.injEq] at hi
    rw [← hi]
    exact hq
  have ha : ∀ x ∈ v.handles, s.Alive x := fun x hx =>
    h.alive x (Value.mem_handles_node (List.mem_of_getElem? hi) hx)
  exact ⟨ps, ps[i], hps, List.getElem?_eq_getElem hlt', hv, ha⟩

theorem get? {k : HandleKind} {id : Nat} (h : s.Live p (.handle k (some id))) :
    ∃ t a, p = .value t ∧ s.get? id = some a ∧ a.role.kind = k ∧ t.admits a.role := by
  obtain ⟨t, rfl, -, hp⟩ := h.fits
  obtain ⟨a, ha, hk⟩ := h.alive ⟨k, id⟩ (by simp [Value.handles])
  exact ⟨t, a, rfl, ha, hk, (hp id rfl).2 a ha⟩

/-- A live handle of a cell leads to one with contents of the right type. -/
theorem cell {id : Nat} (h : s.Live p (.handle .cell (some id))) :
    ∃ elem a, p = .value (.cell elem) ∧ s.get? id = some a ∧ a.role = .cell elem := by
  obtain ⟨t, a, rfl, ha, hk, hat⟩ := h.get?
  cases hr : a.role with
  | cell elem =>
    rw [hr] at hat
    cases t <;> simp only [Ty.admits, Bool.false_eq_true, decide_eq_true_eq] at hat
    exact ⟨elem, a, by rw [hat], ha, hr⟩
  | _ => simp [hr, Role.kind] at hk

/-- A live handle of a slot leads to one. -/
theorem slot {id : Nat} (h : s.Live p (.handle .slot (some id))) :
    ∃ a table type, s.get? id = some a ∧ a.role = .slot table type := by
  obtain ⟨t, a, rfl, ha, hk, -⟩ := h.get?
  cases hr : a.role with
  | slot table type => exact ⟨a, table, type, ha, hr⟩
  | _ => simp [hr, Role.kind] at hk

end Live

theorem Orderly.content {s : Store} (hs : s.Orderly) {id : Nat} {a : Allocation}
    (ha : s.get? id = some a) : s.Live (.value a.role.content) a.content :=
  ⟨hs.typed id a ha, hs.closed id a ha⟩

end Store

theorem Config.Sound.orderly {c : Config} (hs : c.Sound) (hl : c.world.locks = [])
    (ha : c.world.store.Acyclic) : c.world.store.Orderly where
  closed := hs.closed hl
  acyclic := ha
  typed := hs.typed
  tables _ _ _ _ hg hr := (hs.slot hg hr).table_type

theorem Config.Sound.live {c : Config} (hs : c.Sound) {t : Ty} {v : Value}
    (ht : HasType c.world.store t v) (hv : v.pieces ≤ c.hand) :
    c.world.store.Live (.value t) v :=
  ⟨ht, hs.alive_of_le hv⟩

/-- Between the steps of a run without cycles the store is orderly, and variables hold live values. -/
theorem World.Settled.orderly {w : World} (hw : w.Settled) (ha : w.store.Acyclic) :
    w.store.Orderly :=
  hw.sound.orderly hw.locks ha

theorem World.Settled.live {w : World} (hw : w.Settled) {name : String} {x : Variable}
    (hx : w.find? name = some x) : w.store.Live (.value x.type) x.value :=
  hw.sound.live (hw.sound.variable hx) (World.find?_le_owned hx)

/-- In every state with the given store the action ends with an answer that fits, unless one of the
probes that it meets refuses. Either way nothing changes but the trace. -/
def Answers {α : Type} (s : Store) (k : Hook) (met : Probe → Prop) (act : Run α)
    (fits : α → Prop) : Prop :=
  ∀ w : World, w.store = s → ∃ es : List Event,
    (∃ a, act w = .ok a (w.recordAll es) ∧ fits a) ∨
      ∃ p, met p ∧ p.boom = some k ∧ act w = .error (.panic (.refused k p)) (w.recordAll es)

namespace Answers

variable {α β : Type} {s : Store} {k : Hook} {met : Probe → Prop}

theorem pure {a : α} {fits : α → Prop} (h : fits a) : Answers s k met (pure a) fits :=
  fun w _ => ⟨[], .inl ⟨a, by rw [w.recordAll_nil]; rfl, h⟩⟩

theorem bind {act : Run α} {f : α → Run β} {Q : α → Prop} {fits : β → Prop}
    (h : Answers s k met act Q) (hf : ∀ a, Q a → Answers s k met (f a) fits) :
    Answers s k met (act >>= f) fits := by
  intro w hw
  obtain ⟨es, ⟨a, ha, hq⟩ | ⟨p, hp, hb, he⟩⟩ := h w hw
  · rw [Run.bind_of_ok ha]
    obtain ⟨fs, hfs⟩ := hf a hq (w.recordAll es) hw
    rw [World.recordAll_recordAll] at hfs
    exact ⟨es ++ fs, hfs⟩
  · rw [Run.bind_of_error he]
    exact ⟨es, .inr ⟨p, hp, hb, rfl⟩⟩

theorem mono {act : Run α} {met' : Probe → Prop} {fits fits' : α → Prop}
    (h : Answers s k met act fits) (hm : ∀ p, met p → met' p) (hf : ∀ a, fits a → fits' a) :
    Answers s k met' act fits' := by
  intro w hw
  obtain ⟨es, ⟨a, ha, hq⟩ | ⟨p, hp, hb, he⟩⟩ := h w hw
  · exact ⟨es, .inl ⟨a, ha, hf a hq⟩⟩
  · exact ⟨es, .inr ⟨p, hm p hp, hb, he⟩⟩

theorem read {kind : HandleKind} {id : Nat} {a : Allocation} {f : Allocation → Run α}
    {fits : α → Prop} (ha : s.get? id = some a) (hk : a.role.kind = kind)
    (h : Answers s k met (f a) fits) : Answers s k met (Run.read kind id >>= f) fits := by
  intro w hw
  have hr : Run.read kind id w = .ok a w := hk ▸ Run.read_of_get? (hw ▸ ha)
  rw [Run.bind_of_ok hr]
  exact h w hw

theorem callHook {p : Probe} (hp : met p) : Answers s k met (Run.callHook k p) fun _ => True := by
  intro w _
  refine ⟨[.hook k p], ?_⟩
  by_cases e : p.boom = some k
  · right
    refine ⟨p, hp, e, ?_⟩
    rw [Run.callHook, if_pos e]
    rfl
  · left
    refine ⟨(), ?_, trivial⟩
    rw [Run.callHook, if_neg e]
    rfl

/-- The number of handles that can be followed is known from the store. -/
theorem ofHops {f : Nat → Run α} {fits : α → Prop} (h : Answers s k met (f s.next) fits) :
    Answers s k met (do f (← get).hops) fits := by
  intro w hw
  have hh : w.hops = s.next := by rw [← hw]; rfl
  have h' := h w hw
  rw [← hh] at h'
  exact h'

/-- What follows the only answer that fits goes on from there. -/
theorem bind_eq {act : Run α} {f : α → Run β} {a : α} (h : Answers s k met act (· = a)) {w : World}
    (hw : w.store = s) :
    ∃ es : List Event, (act >>= f) w = f a (w.recordAll es) ∨
      ∃ p, met p ∧ p.boom = some k ∧
        (act >>= f) w = .error (.panic (.refused k p)) (w.recordAll es) := by
  obtain ⟨es, ⟨b, hb, rfl⟩ | ⟨p, hp, hboom, he⟩⟩ := h w hw
  · exact ⟨es, .inl (Run.bind_of_ok hb)⟩
  · exact ⟨es, .inr ⟨p, hp, hboom, Run.bind_of_error he⟩⟩

/-- What is answered in one state fits what is said of all of them. -/
theorem fits_of_ok {act : Run α} {fits : α → Prop} (h : Answers s k met act fits) {w w' : World}
    {a : α} (hw : w.store = s) (ha : act w = .ok a w') : fits a := by
  obtain ⟨es, ⟨b, hb, hq⟩ | ⟨p, -, -, he⟩⟩ := h w hw
  · rw [ha] at hb
    cases hb
    exact hq
  · rw [ha] at he
    cases he

end Answers

end SharedValues
