import Mathlib
import SharedValues.Proofs.Equality
import SharedValues.Proofs.Independence
import SharedValues.Proofs.Texts

/-!
The state of an object is what is found in its value and in the cells that the value holds. Whatever
the type of the object, a projection that depends on the state alone shows the same of objects in the
same state, in all states of the store. What the interfaces show is such a projection.
-/
namespace SharedValues

section looking

mutual

/-- The value without the levels of its maps. -/
def Value.data : Value → Value
  | .node shape parts => .node shape.meaning (dataOf parts)
  | v => v

def Value.dataOf : List Value → List Value
  | [] => []
  | v :: vs => v.data :: dataOf vs

end

theorem Value.dataOf_eq_map (vs : List Value) : dataOf vs = vs.map data := by
  induction vs with
  | nil => rw [dataOf, List.map_nil]
  | cons v vs ih => rw [dataOf, List.map_cons, ih]

mutual

/-- What is found in a value. In place of the cells that it holds stands what they hold, and the levels
of maps are left out. -/
def Store.look (s : Store) : Value → Value
  | .handle .cell (some id) =>
    match s.get? id with
    | some a => .node .box [a.content.data]
    | none => .handle .cell none
  | .node shape parts => .node shape.meaning (s.lookOf parts)
  | v => v

def Store.lookOf (s : Store) : List Value → List Value
  | [] => []
  | v :: vs => s.look v :: s.lookOf vs

end

theorem Store.lookOf_eq_map (s : Store) (vs : List Value) : s.lookOf vs = vs.map s.look := by
  induction vs with
  | nil => rw [lookOf, List.map_nil]
  | cons v vs ih => rw [lookOf, List.map_cons, ih]

theorem Store.look_scalar (s : Store) (x : Scalar) : s.look (.scalar x) = .scalar x := by
  rw [look] <;> simp

theorem Store.look_absent (s : Store) (k : HandleKind) :
    s.look (.handle k none) = .handle k none := by
  rw [look] <;> simp

theorem Store.look_probe (s : Store) (p : Probe) : s.look (.probe p) = .probe p := by
  rw [look] <;> simp

theorem Store.look_node (s : Store) (shape : Shape) (parts : List Value) :
    s.look (.node shape parts) = .node shape.meaning (parts.map s.look) := by
  rw [look, lookOf_eq_map]

variable {s s' : Store} {v c : Value}

theorem Store.look_cell {id : Nat} {a : Allocation} (ha : s.get? id = some a) :
    s.look (.handle .cell (some id)) = .node .box [a.content.data] := by
  rw [look, ha]

/-- The cells in a value decide what is found in it. -/
theorem Store.look_congr (h : ∀ y ∈ v.handles, y.kind = .cell →
    (s'.get? y.target).map (·.content) = (s.get? y.target).map (·.content)) :
    s'.look v = s.look v := by
  induction v using Value.induction with
  | scalar x => rw [look_scalar, look_scalar]
  | probe p => rw [look_probe, look_probe]
  | handle k target =>
    cases target with
    | none => rw [look_absent, look_absent]
    | some id =>
      cases k with
      | cell =>
        have hid := h ⟨.cell, id⟩ (by simp [Value.handles]) rfl
        cases ha : s.get? id with
        | none =>
          rw [ha, Option.map_none, Option.map_eq_none_iff] at hid
          rw [look, look, ha, hid]
        | some a =>
          rw [ha, Option.map_some] at hid
          obtain ⟨b, hb, hc⟩ := Option.map_eq_some_iff.mp hid
          rw [look_cell ha, look_cell hb, hc]
      | _ => rw [look, look] <;> simp
  | node shape parts ih =>
    rw [look_node, look_node]
    congr 1
    refine List.map_congr_left fun u hu => ih u hu fun y hy => h y ?_
    exact Value.mem_handles_node hu hy

theorem Store.look_persist (h : s.Persists s') (hv : ∀ y ∈ v.handles, s.Alive y) :
    s'.look v = s.look v := by
  refine look_congr fun y hy _ => ?_
  obtain ⟨a, ha, -⟩ := hv y hy
  obtain ⟨b, hb, -, hc⟩ := h _ _ ha
  rw [ha, hb, Option.map_some, Option.map_some, hc]

/-- The probes in a value are found in it. -/
theorem Store.probes_look {p : Probe} (hp : p ∈ v.probes) : p ∈ (s.look v).probes := by
  induction v using Value.induction with
  | scalar x => rwa [look_scalar]
  | probe q => rwa [look_probe]
  | handle k target =>
    rw [Value.probes] at hp
    cases hp
  | node shape parts ih =>
    rw [Value.probes] at hp
    obtain ⟨u, hu, hpu⟩ := Value.mem_probesOf.mp hp
    rw [look_node, Value.probes]
    exact Value.mem_probesOf.mpr ⟨_, List.mem_map_of_mem hu, ih u hu hpu⟩

end looking

section contents

/-- The places where neither handles nor probes can stand. -/
def Place.bare : Place → Bool
  | .value .string | .value .borrowed | .value (.int _) | .value .cat | .value .counter
  | .value .meters | .value (.list .string) | .value (.list (.int _)) | .value (.array (.int _) _)
  | .value (.sortedMap .string (.int _)) | .entry .string (.int _) => true
  | _ => false

theorem Place.parts_bare {p : Place} (hp : p.bare) {shape : Shape} {n : Nat} {ps : List Place}
    (h : p.parts shape n = some ps) : ∀ q ∈ ps, q.bare := by
  unfold Place.bare at hp
  split at hp
  case h_12 => cases hp
  all_goals
    cases shape <;> simp only [Place.parts, reduceCtorEq, Option.ite_none_right_eq_some,
      Option.some.injEq] at h
  case h_4 | h_5 | h_6 | h_11 =>
    subst h
    simp [bare]
  case h_7 | h_8 =>
    subst h
    simp [List.mem_replicate, bare]
  case h_9 | h_10 =>
    obtain ⟨-, rfl⟩ := h
    simp [List.mem_replicate, bare]

theorem Ty.handleKind?_of_bare {t : Ty} (h : (Place.value t).bare) : t.handleKind? = none := by
  cases t <;> first | rfl | cases h

variable {s : Store} {v : Value}

theorem FitAll.exists_place {ps : List Place} {vs : List Value} (h : FitAll s ps vs) {u : Value}
    (hu : u ∈ vs) : ∃ q ∈ ps, Fits s q u := by
  rw [fitAll_iff] at h
  induction h with
  | nil => cases hu
  | cons hfit _ ih =>
    rcases List.mem_cons.mp hu with rfl | hu
    · exact ⟨_, List.mem_cons_self, hfit⟩
    · obtain ⟨q, hq, hfit⟩ := ih hu
      exact ⟨q, List.mem_cons_of_mem _ hq, hfit⟩

theorem Fits.bare {p : Place} (hp : p.bare) (hv : Fits s p v) : v.handles = [] ∧ v.probes = [] := by
  induction v using Value.induction generalizing p with
  | scalar x => exact ⟨by rw [Value.handles], by rw [Value.probes]⟩
  | probe q =>
    cases hv
    cases hp
  | handle k target =>
    obtain ⟨t, rfl, hk, -⟩ := hv
    rw [Ty.handleKind?_of_bare hp] at hk
    cases hk
  | node shape parts ih =>
    obtain ⟨ps, hps, hf⟩ := hv
    have hall : ∀ u ∈ parts, u.handles = [] ∧ u.probes = [] := by
      intro u hu
      obtain ⟨q, hq, hfit⟩ := hf.exists_place hu
      exact ih u hu (p.parts_bare hp hps q hq) hfit
    refine ⟨List.eq_nil_iff_forall_not_mem.mpr fun y hy => ?_,
      List.eq_nil_iff_forall_not_mem.mpr fun q hq => ?_⟩
    · rw [Value.handles] at hy
      obtain ⟨u, hu, hy⟩ := Value.mem_handlesOf.mp hy
      exact List.not_mem_nil ((hall u hu).1 ▸ hy)
    · rw [Value.probes] at hq
      obtain ⟨u, hu, hq⟩ := Value.mem_probesOf.mp hq
      exact List.not_mem_nil ((hall u hu).2 ▸ hq)

/-- The places where no handles can stand but those to cells, with neither handles nor probes in
them. -/
def Place.shallow : Place → Bool
  | .value (.cell elem) => (Place.value elem).bare
  | .value .dog | .value .inventory | .value .probe => true
  | p => p.bare

theorem Place.shallow_of_bare {p : Place} (h : p.bare) : p.shallow := by
  unfold shallow
  split
  case h_1 => cases h
  case h_5 => exact h
  all_goals rfl

theorem Place.parts_shallow {p : Place} (hp : p.shallow) {shape : Shape} {n : Nat} {ps : List Place}
    (h : p.parts shape n = some ps) : ∀ q ∈ ps, q.shallow := by
  unfold shallow at hp
  split at hp
  case h_5 => exact fun q hq => shallow_of_bare (parts_bare hp h q hq)
  all_goals
    cases shape <;> simp only [Place.parts, reduceCtorEq, Option.some.injEq] at h
  all_goals
    subst h
    simp [shallow, bare]

theorem Ty.exists_cell_of_shallow {t : Ty} {k : HandleKind} (ht : (Place.value t).shallow)
    (hk : t.handleKind? = some k) : ∃ elem, t = .cell elem ∧ k = .cell ∧ (Place.value elem).bare := by
  cases t with
  | cell elem =>
    cases hk
    exact ⟨elem, rfl, rfl, ht⟩
  | _ => simp [Ty.handleKind?, Place.shallow, Place.bare] at hk ht

/-- What stands at such a place. -/
theorem Fits.shallow {p : Place} (hp : p.shallow) (hv : Fits s p v) : ∀ y ∈ v.handles,
    y.kind = .cell ∧ ∃ elem, (Place.value elem).bare ∧ s.Points (.cell elem) y.target := by
  induction v using Value.induction generalizing p with
  | scalar x => simp [Value.handles]
  | probe q => simp [Value.handles]
  | handle k target =>
    intro y hy
    obtain ⟨t, rfl, hk, hpoints⟩ := hv
    obtain ⟨elem, rfl, rfl, hbare⟩ := Ty.exists_cell_of_shallow hp hk
    cases target with
    | none => simp [Value.handles] at hy
    | some id =>
      obtain rfl : y = ⟨.cell, id⟩ := by simpa [Value.handles] using hy
      exact ⟨rfl, elem, hbare, hpoints id rfl⟩
  | node shape parts ih =>
    intro y hy
    obtain ⟨ps, hps, hf⟩ := hv
    rw [Value.handles] at hy
    obtain ⟨u, hu, hyu⟩ := Value.mem_handlesOf.mp hy
    obtain ⟨q, hq, hfit⟩ := hf.exists_place hu
    exact ih u hu (p.parts_shallow hp hps q hq) hfit y hyu

theorem Interface.accepts_shallow {i : Interface} {t : Ty} (hi : i.accepts t) :
    (Place.value t).shallow := by
  unfold Interface.accepts at hi
  split at hi <;> first | rfl | cases hi

end contents

theorem Object.view_of_object? {z : World} {target : Option Nat} {i : Interface} {p : Payload}
    (h : Object.object? target z = .ok (some (i, p)) z) : Object.view target z = i.view p.value z := by
  have hget : Object.get target z = .ok (i, p) z := by
    rw [Object.get, Run.bind_of_ok h]
    rfl
  rw [Object.view, Run.bind_of_ok hget]

/-- There is an object with this address, interface, type and value. -/
def Store.IsObject (s : Store) (id : Nat) (i : Interface) (t : Ty) (v : Value) : Prop :=
  ∃ a, s.get? id = some a ∧ a.role = .object i t ∧ a.content = v

namespace Store.IsObject

variable {w : World} {hand : Multiset Piece} {id : Nat} {i : Interface} {t : Ty} {v : Value}

theorem accepts (h : w.store.IsObject id i t v) (hs : Config.Sound ⟨w, hand⟩) : i.accepts t := by
  obtain ⟨a, ha, hr, -⟩ := h
  have hallowed := hs.allowed id a ha
  rwa [hr] at hallowed

theorem live_of_closed {s : Store} (h : s.IsObject id i t v) (hc : s.Closed)
    (ht : ∀ id a, s.get? id = some a → HasType s a.role.content a.content) :
    s.Live (.value t) v := by
  obtain ⟨a, ha, hr, rfl⟩ := h
  have htyped := ht id a ha
  rw [hr] at htyped
  exact ⟨htyped, hc id a ha⟩

theorem live (h : w.store.IsObject id i t v) (hs : Config.Sound ⟨w, hand⟩) (hl : w.locks = []) :
    w.store.Live (.value t) v :=
  h.live_of_closed (hs.closed hl) hs.typed

/-- The cells of an object. -/
theorem cell (h : w.store.IsObject id i t v) (hs : Config.Sound ⟨w, hand⟩) (hl : w.locks = [])
    {y : Handle} (hy : y ∈ v.handles) : y.kind = .cell ∧ ∃ b, w.store.get? y.target = some b ∧
      b.role.kind = .cell ∧ b.content.handles = [] ∧ b.content.probes = [] := by
  have hlive := h.live hs hl
  obtain ⟨hk, elem, hbare, hpoints⟩ :=
    Fits.shallow (Interface.accepts_shallow (h.accepts hs)) hlive.fits y hy
  obtain ⟨b, hb, hkind⟩ := hlive.alive y hy
  have hadmits := hpoints.2 b hb
  have htyped := hs.typed y.target b hb
  have hcontent : b.role.content = elem := by
    cases hr : b.role with
    | cell elem' =>
      rw [hr] at hadmits
      exact (of_decide_eq_true hadmits).symm
    | _ =>
      rw [hr] at hadmits
      cases hadmits
  rw [hcontent] at htyped
  exact ⟨hk, b, hb, hkind.trans hk, Fits.bare hbare htyped⟩

theorem ne_cell (h : w.store.IsObject id i t v) {j : Nat} {b : Allocation}
    (hb : w.store.get? j = some b) (hk : b.role.kind = .cell) : id ≠ j := by
  rintro rfl
  obtain ⟨a, ha, hr, -⟩ := h
  cases ha.symm.trans hb
  rw [hr] at hk
  cases hk

theorem object? (h : w.store.IsObject id i t v) :
    Object.object? (some id) w = .ok (some (i, ⟨t, v⟩)) w := by
  obtain ⟨a, ha, hr, rfl⟩ := h
  exact Object.object?_of_get? ha hr

theorem read (h : w.store.IsObject id i t v) : ∃ a, w.store.get? id = some a ∧
    a.role = .object i t ∧ a.content = v ∧ Run.read .object id w = .ok a w := by
  obtain ⟨a, ha, hr, hv⟩ := h
  have hread := Run.read_of_get? ha
  rw [hr] at hread
  exact ⟨a, ha, hr, hv, hread⟩

theorem view (h : w.store.IsObject id i t v) : Object.view (some id) w = i.view v w :=
  Object.view_of_object? h.object?

theorem access (h : w.store.IsObject id i t v) : Object.access (some id) t w = .ok (.ok v) w := by
  obtain ⟨a, ha, hr, rfl⟩ := h
  have hget : w.store.get? id = some ⟨.object i t, a.content, a.shares⟩ := by rw [ha, ← hr]
  rw [Object.access_of_get? hget, if_pos rfl]

theorem type? (h : w.store.IsObject id i t v) : Object.type? (some id) w = .ok (some t) w :=
  Run.bind_of_ok h.object?

theorem unique {v' : Value} (h : w.store.IsObject id i t v) (h' : w.store.IsObject id i t v') :
    v' = v := by
  obtain ⟨a, ha, -, rfl⟩ := h
  obtain ⟨b, hb, -, rfl⟩ := h'
  cases ha.symm.trans hb
  rfl

theorem alive (h : w.store.IsObject id i t v) : w.store.Alive ⟨.object, id⟩ := by
  obtain ⟨a, ha, hr, -⟩ := h
  exact ⟨a, ha, by rw [hr]; rfl⟩

/-- What is added and given up leaves the state of an object. -/
theorem moves {u : World} {hand' : Multiset Piece} (h : w.store.IsObject id i t v)
    (hs : Config.Sound ⟨w, hand⟩) (hl : w.locks = [])
    (hm : Moves .shrink ⟨w, hand⟩ ⟨u, hand'⟩) (ha : u.store.Alive ⟨.object, id⟩) :
    u.store.IsObject id i t v ∧ u.store.look v = w.store.look v := by
  have hlu : u.locks = [] := (hm.locks_eq (Scope.le_refl _)).trans hl
  obtain ⟨b, hb, -⟩ := ha
  have hobject : u.store.IsObject id i t v := by
    obtain ⟨a, ha, hr, rfl⟩ := h
    obtain ⟨hrb, hcb⟩ := (hm.fixed (Store.fixed_of_get? ha)).2 b hb
    exact ⟨b, hb, hrb.trans hr, hcb⟩
  refine ⟨hobject, look_congr fun y hy _ => ?_⟩
  obtain ⟨-, d, hd, -⟩ := h.cell hs hl hy
  obtain ⟨-, d', hd', -⟩ := hobject.cell (hs.moves hm) hlu hy
  rw [hd, hd', Option.map_some, Option.map_some,
    ((hm.fixed (Store.fixed_of_get? hd)).2 d' hd').2]

end Store.IsObject

section types

variable {s : Store} {v : Value}

/-- Where neither scalars, probes nor handles have the type, its values are nodes. -/
theorem HasType.exists_node {t : Ty} (h : HasType s t v) (hx : ∀ x, t.hasScalar x = false)
    (hp : t ≠ .probe) (hk : t.handleKind? = none) :
    ∃ shape parts ps, v = .node shape parts ∧ (Place.value t).parts shape parts.length = some ps ∧
      FitAll s ps parts := by
  cases v with
  | scalar x => simp [hasType_scalar, hx] at h
  | probe p => exact absurd (hasType_probe.mp h) hp
  | handle k target => simp [hasType_handle, hk] at h
  | node shape parts =>
    obtain ⟨ps, hps, hf⟩ := hasType_node.mp h
    exact ⟨shape, parts, ps, rfl, hps, hf⟩

theorem HasType.exists_text (h : HasType s .string v) : ∃ text, v = .text text := by
  cases v with
  | scalar x =>
    cases x with
    | text text => exact ⟨text, rfl⟩
    | _ => cases hasType_scalar.mp h
  | probe p => cases hasType_probe.mp h
  | handle k target => exact absurd h (not_hasType_handle rfl)
  | node shape parts => exact absurd h (not_hasType_node (by cases shape <;> rfl))

theorem HasType.exists_cell {elem : Ty} (h : HasType s (.cell elem) v) :
    ∃ target, v = .handle .cell target := by
  cases v with
  | scalar x => cases x <;> cases hasType_scalar.mp h
  | probe p => cases hasType_probe.mp h
  | handle k target =>
    obtain rfl : HandleKind.cell = k := by simpa [Ty.handleKind?] using (hasType_handle.mp h).1
    exact ⟨target, rfl⟩
  | node shape parts => exact absurd h (not_hasType_node (by cases shape <;> rfl))

theorem HasType.exists_dog (h : HasType s .dog v) :
    ∃ name tricks, v = .node .dog [.text name, tricks] := by
  obtain ⟨shape, parts, ps, rfl, hps, hf⟩ := h.exists_node (fun x => by cases x <;> rfl) (by simp) rfl
  cases shape <;> simp only [Place.parts, reduceCtorEq, Option.some.injEq] at hps
  subst hps
  obtain ⟨x, y, rfl⟩ := List.length_eq_two.mp (fitAll_length hf).symm
  obtain ⟨name, rfl⟩ := HasType.exists_text hf.1
  exact ⟨name, y, rfl⟩

theorem HasType.exists_inventory (h : HasType s .inventory v) :
    ∃ owner items stock, v = .node .inventory [.text owner, items, .handle .cell stock] := by
  obtain ⟨shape, parts, ps, rfl, hps, hf⟩ := h.exists_node (fun x => by cases x <;> rfl) (by simp) rfl
  cases shape <;> simp only [Place.parts, reduceCtorEq, Option.some.injEq] at hps
  subst hps
  obtain ⟨x, y, z, rfl⟩ := List.length_eq_three.mp (fitAll_length hf).symm
  obtain ⟨owner, rfl⟩ := HasType.exists_text hf.1
  obtain ⟨stock, rfl⟩ := HasType.exists_cell hf.2.2.1
  exact ⟨owner, y, stock, rfl⟩

/-- Cats and counters consist of one number. -/
theorem HasType.exists_number {t : Ty} {shape : Shape}
    (ht : t = .cat ∧ shape = .cat ∨ t = .counter ∧ shape = .counter) (h : HasType s t v) :
    ∃ n, v = .node shape [.int n] := by
  rcases ht with ⟨rfl, rfl⟩ | ⟨rfl, rfl⟩
  all_goals
    obtain ⟨shape, parts, ps, rfl, hps, hf⟩ :=
      h.exists_node (fun x => by cases x <;> rfl) (by simp) rfl
    cases shape <;> simp only [Place.parts, reduceCtorEq, Option.some.injEq] at hps
    subst hps
    obtain ⟨x, rfl⟩ := List.length_eq_one_iff.mp (fitAll_length hf).symm
    obtain ⟨n, rfl, -⟩ := HasType.int_inv hf.1
    exact ⟨n, rfl⟩

/-- Texts, probes, and nodes whose parts are numbers. -/
def Ty.inert : Ty → Bool
  | .string | .borrowed | .probe | .cat | .counter | .meters | .list (.int _) | .array (.int _) _ => true
  | _ => false

theorem Place.parts_inert {t : Ty} (ht : t.inert) {shape : Shape} {n : Nat} {ps : List Place}
    (h : (Place.value t).parts shape n = some ps) :
    (∀ levels, shape ≠ .map levels) ∧ ∀ p ∈ ps, ∃ n, p = .value (.int n) := by
  unfold Ty.inert at ht
  split at ht
  case h_9 => cases ht
  all_goals
    cases shape <;> simp only [Place.parts, reduceCtorEq, Option.ite_none_right_eq_some,
      Option.some.injEq] at h
  case h_4 | h_5 | h_6 =>
    subst h
    simp
  case h_7 =>
    subst h
    simp [List.mem_replicate]
  case h_8 =>
    obtain ⟨-, rfl⟩ := h
    simp [List.mem_replicate]

/-- Values of such types are found as they are. -/
theorem HasType.inert {t : Ty} (hv : HasType s t v) (ht : t.inert) :
    v.handles = [] ∧ s.look v = v := by
  cases v with
  | scalar x => exact ⟨by rw [Value.handles], s.look_scalar x⟩
  | probe p => exact ⟨by rw [Value.handles], s.look_probe p⟩
  | handle k target =>
    have hk := (hasType_handle.mp hv).1
    cases t <;> simp [Ty.handleKind?, Ty.inert] at hk ht
  | node shape parts =>
    obtain ⟨ps, hps, hf⟩ := hv
    obtain ⟨hmap, hints⟩ := Place.parts_inert ht hps
    have hmeaning : shape.meaning = shape := by
      rcases shape.map_or_meaning with ⟨levels, h⟩ | h
      · exact absurd h (hmap levels)
      · exact h
    have hparts : ∀ u ∈ parts, ∃ m, u = .int m := by
      intro u hu
      obtain ⟨q, hq, hfit⟩ := hf.exists_place hu
      obtain ⟨k, rfl⟩ := hints q hq
      obtain ⟨m, hm, -⟩ := HasType.int_inv hfit
      exact ⟨m, hm⟩
    constructor
    · rw [Value.handles]
      refine List.eq_nil_iff_forall_not_mem.mpr fun y hy => ?_
      obtain ⟨u, hu, hy⟩ := Value.mem_handlesOf.mp hy
      obtain ⟨m, rfl⟩ := hparts u hu
      cases hy
    · have hsame : ∀ u ∈ parts, s.look u = u := by
        intro u hu
        obtain ⟨m, rfl⟩ := hparts u hu
        exact s.look_scalar _
      rw [Store.look_node, hmeaning, List.map_congr_left hsame, List.map_id']

/-- The types that the interfaces accept, by what the interfaces show of their values. -/
theorem Interface.accepts_cases {i : Interface} {t : Ty} (h : i.accepts t) :
    (t = .dog ∧ i ≠ .ints) ∨ (t = .inventory ∧ i = .named) ∨ t.inert := by
  unfold Interface.accepts at h
  split at h <;> simp_all [Ty.inert]

end types

section projections

/-- The projection depends on the state alone: what it does is determined by what is found in the value,
and is the same in all states of the store. -/
def Projects {α : Type} (t : Ty) (view : Value → Run α) : Prop :=
  ∃ shown : Value → Run α, ∀ (w : World) (v : Value), w.locks = [] → w.store.Live (.value t) v →
    view v w = shown (w.store.look v) w ∧
      ∀ s s', Alike s s' (shown (w.store.look v)) (shown (w.store.look v))

theorem Alike.outcome_eq {α : Type} {act act' : Run α} {w w' : World}
    (h : Alike w.store w'.store act act') : act'.outcome w' = act.outcome w := by
  obtain ⟨es, ⟨a, ha, ha'⟩ | ⟨e, he, he'⟩⟩ := h w w' rfl rfl
  · rw [Run.outcome, Run.outcome, ha, ha']
  · rw [Run.outcome, Run.outcome, he, he']

namespace Projects

variable {α : Type} {t : Ty} {view : Value → Run α} {w w' : World} {v v' : Value}

/-- Of values in the same state it shows the same. -/
theorem outcome_eq (h : Projects t view) (hl : w.locks = []) (hl' : w'.locks = [])
    (hv : w.store.Live (.value t) v) (hv' : w'.store.Live (.value t) v')
    (hlook : w'.store.look v' = w.store.look v) :
    (view v').outcome w' = (view v).outcome w := by
  obtain ⟨shown, h⟩ := h
  obtain ⟨hrun, halike⟩ := h w v hl hv
  rw [Run.outcome, Run.outcome, hrun, (h w' v' hl' hv').1, hlook]
  exact (halike _ _).outcome_eq

/-- At one state of the store it does the same with them. -/
theorem run_eq (h : Projects t view) (hl : w.locks = []) (hv : w.store.Live (.value t) v)
    (hv' : w.store.Live (.value t) v') (hlook : w.store.look v' = w.store.look v) :
    view v' w = view v w := by
  obtain ⟨shown, h⟩ := h
  rw [(h w v hl hv).1, (h w v' hl hv').1, hlook]

/-- A projection that does not look into the store. -/
theorem of_inert (ht : t.inert)
    (h : ∀ v : Value, v.handles = [] → ∀ s s', Alike s s' (view v) (view v)) : Projects t view := by
  refine ⟨view, fun w v _ hv => ?_⟩
  obtain ⟨hbare, hlook⟩ := HasType.inert hv.fits ht
  rw [hlook]
  exact ⟨rfl, h v hbare⟩

end Projects

/-- Looking into a cell that is not locked. -/
theorem Cell.peek_of_get? {z : World} {id : Nat} {a : Allocation} (ha : z.store.get? id = some a)
    (hk : a.role.kind = .cell) (hl : id ∉ z.locks) : Cell.peek (some id) z = .ok a.content z := by
  have hread : Run.read .cell id z = .ok a z := hk ▸ Run.read_of_get? ha
  rw [Cell.peek, Run.bind_of_ok (Cell.address_of_not_mem hl), Run.bind_of_ok hread]
  rfl

variable {s s' : Store} {v : Value}

theorem Alike.fatal {α : Type} (e : AccessError) :
    Alike s s' (Run.fatal e : Run α) (Run.fatal e) :=
  .bind (.record _) fun _ => .throw _

/-- The text of a value without handles is the same everywhere. -/
theorem Value.toText_of_bare (hv : v.handles = []) : Alike s s' v.toText v.toText := by
  intro z z' hz hz'
  have hg : (get : Run World) z = .ok z z := rfl
  have hg' : (get : Run World) z' = .ok z' z' := rfl
  rw [Value.toText, Value.render, Run.bind_of_ok hg, Run.bind_of_ok hg']
  exact alike_renderWith v "" (fun y hy => by rw [hv] at hy; cases hy) z z' hz hz'

namespace Interface

/-- What an interface shows of a value without handles is the same everywhere. -/
theorem view_of_bare (i : Interface) (hv : v.handles = []) : Alike s s' (i.view v) (i.view v) := by
  unfold Interface.view
  split
  case h_4 => exact .bind (.callHook _ _) fun _ => .pure _
  case h_6 owner items stock =>
    cases stock with
    | none => exact Alike.fatal (α := Value) .invalidMemory
    | some id => simp [Value.handles, Value.handlesOf] at hv
  case h_7 => exact .bind (Value.toText_of_bare hv) fun _ => .pure _
  all_goals exact .pure _

/-- What is shown of an inventory, by its state. -/
def stockView : Value → Run Value
  | .node .inventory [.scalar (.text owner), _, .node .box [.node (.map _) entries]] =>
    pure (.text (owner ++ " has " ++ toString entries.length ++ " kinds"))
  | .node .inventory [_, _, .handle _ none] => Run.fatal .invalidMemory
  | _ => throw .dangling

theorem alike_stockView (v : Value) : Alike s s' (stockView v) (stockView v) := by
  unfold stockView
  split
  · exact .pure _
  · exact .fatal _
  · exact .throw _

theorem projects_inventory : Projects .inventory named.view := by
  refine ⟨stockView, fun w v hl hv => ⟨?_, fun s s' => alike_stockView _⟩⟩
  obtain ⟨owner, items, stock, rfl⟩ := HasType.exists_inventory hv.fits
  rw [Store.look_node, List.map_cons, List.map_cons, List.map_cons, List.map_nil]
  cases stock with
  | none =>
    rw [Store.look_absent]
    rfl
  | some j =>
    obtain ⟨b, hb, hk⟩ := hv.alive ⟨.cell, j⟩ (by simp [Value.handles, Value.handlesOf])
    have hpeek : Cell.peek (some j) w = .ok b.content w := Cell.peek_of_get? hb hk (by simp [hl])
    rw [Store.look_cell hb, Interface.view, Run.bind_of_ok hpeek]
    -- The stock is a map with as many entries as are found, or no map.
    cases b.content with
    | node shape parts =>
      rw [Value.data, Value.dataOf_eq_map]
      cases shape with
      | map levels =>
        have hlen : (parts.map Value.data).length = parts.length := List.length_map ..
        simp only [Shape.meaning, Value.text, Store.look_scalar, stockView, hlen]
      | _ => rfl
    | _ => rfl

/-- What an interface shows depends on the state of the object alone. -/
theorem projects {i : Interface} {t : Ty} (hi : i.accepts t) : Projects t i.view := by
  rcases i.accepts_cases hi with ⟨rfl, hne⟩ | ⟨rfl, rfl⟩ | ht
  · refine ⟨i.view, fun w v _ hv => ?_⟩
    obtain ⟨name, tricks, rfl⟩ := HasType.exists_dog hv.fits
    rw [Store.look_node, List.map_cons, List.map_cons, List.map_nil]
    cases i with
    | ints => exact absurd rfl hne
    | _ => exact ⟨rfl, fun s s' => .pure _⟩
  · exact projects_inventory
  · exact .of_inert ht fun v hv s s' => view_of_bare i hv

end Interface

end projections

end SharedValues
