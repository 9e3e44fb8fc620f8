import Mathlib.Data.List.Forall2
import SharedValues.Reader

/-!
Types of values. A value has a type relative to a store: a handle has the type if the allocation
that it points at, as long as there is one, plays the right role. So a value that has a type keeps
it whatever is allocated or destroyed later, and only the liveness of handles is left to counting.
-/
namespace SharedValues

/-- The type of the state that code has captured. -/
def Code.captured : Code → Ty
  | .tally => .cell (.int .i64)
  | .add _ | .mul _ | .raise _ | .increment | .square | .byteCount | .charCount => .unit

def Code.signature : Code → Signature
  | .add _ | .mul _ | .tally | .raise _ => .closure
  | .increment | .square => .plain
  | .byteCount | .charCount => .measure

/-- The type of what an allocation owns. -/
def Role.content : Role → Ty
  | .slot _ type => type
  | .cell elem => elem
  | .object _ type => type
  | .callable code => code.captured

namespace Ty

def hasScalar : Ty → Scalar → Bool
  | .int t, .int n => t.holds n
  | .float32, .float32 _ | .float64, .float64 _ | .bool, .bool _ | .char, .char _
  | .string, .text _ | .borrowed, .text _ | .unit, .unit => true
  | _, _ => false

/-- The kind of the handles that are the values of a type. -/
def handleKind? : Ty → Option HandleKind
  | .erased => some .slot
  | .cell _ => some .cell
  | .object _ => some .object
  | .function _ => some .callable
  | _ => none

/-- The roles that the handles of a type point at. -/
def admits : Ty → Role → Bool
  | .erased, .slot .. => true
  | .cell elem, .cell elem' => elem = elem'
  | .object i, .object j _ => i = j
  | .function signature, .callable code => signature = code.signature
  | _, _ => false

theorem admits_kind {t : Ty} {role : Role} (h : t.admits role) : t.handleKind? = some role.kind := by
  cases t <;> cases role <;> simp_all [admits, handleKind?, Role.kind]

end Ty

/-- What can stand at one place of a value: a value of a type, or an entry of a map. -/
inductive Place where
  | value (type : Ty)
  | entry (key value : Ty)
  deriving DecidableEq, Repr

/-- What stands at the places of a node of the given shape and size, if there may be one. -/
def Place.parts : Place → Shape → Nat → Option (List Place)
  | .entry k v, .entry, _ => some [.value k, .value v]
  | .value (.list elem), .sequence, n => some (List.replicate n (.value elem))
  | .value (.array elem size), .sequence, n =>
    if n = size then some (List.replicate n (.value elem)) else none
  | .value (.option _), .none, _ => some []
  | .value (.option elem), .some, _ => some [.value elem]
  | .value (.boxed elem), .box, _ => some [.value elem]
  | .value (.sortedMap k v), .map levels, n | .value (.hashedMap k v), .map levels, n
  | .value (.fixedMap k v), .map levels, n =>
    if n = levels.length then some (List.replicate n (.entry k v)) else none
  | .value (.tuple first rest), .tuple, _ => some ((first :: rest.components).map .value)
  | .value .meters, .meters, _ => some [.value (.int .i64)]
  | .value .feet, .feet, _ => some [.value (.int .i64)]
  | .value .cat, .cat, _ => some [.value (.int .u8)]
  | .value .counter, .counter, _ => some [.value (.int .u32)]
  | .value .dog, .dog, _ => some [.value .string, .value (.cell (.list .string))]
  | .value .inventory, .inventory, _ =>
    some [.value .string, .value (.list .string), .value (.cell (.sortedMap .string (.int .u32)))]
  | .value .dyn, .variant v, _ => some [.value v.content]
  | _, _, _ => none

/-- Does a handle of the type point at the right role, if it points at a live allocation at all? -/
def Store.Points (s : Store) (t : Ty) (id : Nat) : Prop :=
  id < s.next ∧ ∀ a, s.get? id = some a → t.admits a.role

mutual

def Fits (s : Store) : Place → Value → Prop
  | p, .scalar x => ∃ t, p = .value t ∧ t.hasScalar x
  | p, .probe _ => p = .value .probe
  | p, .handle kind target =>
    ∃ t, p = .value t ∧ t.handleKind? = some kind ∧ ∀ id, target = some id → s.Points t id
  | p, .node shape parts => ∃ ps, p.parts shape parts.length = some ps ∧ FitAll s ps parts

def FitAll (s : Store) : List Place → List Value → Prop
  | [], [] => True
  | p :: ps, v :: vs => Fits s p v ∧ FitAll s ps vs
  | _, _ => False

end

/-- The value has the type. -/
def HasType (s : Store) (t : Ty) (v : Value) : Prop :=
  Fits s (.value t) v

theorem fitAll_iff {s : Store} {ps : List Place} {vs : List Value} :
    FitAll s ps vs ↔ List.Forall₂ (Fits s) ps vs := by
  induction ps generalizing vs with
  | nil => cases vs <;> simp [FitAll]
  | cons p ps ih => cases vs <;> simp [FitAll, ih]

theorem fitAll_length {s : Store} {ps : List Place} {vs : List Value} (h : FitAll s ps vs) :
    ps.length = vs.length :=
  (fitAll_iff.mp h).length_eq

theorem fitAll_replicate {s : Store} {n : Nat} {p : Place} {vs : List Value} :
    FitAll s (List.replicate n p) vs ↔ vs.length = n ∧ ∀ v ∈ vs, Fits s p v := by
  induction vs generalizing n with
  | nil => cases n <;> simp [FitAll, List.replicate_succ]
  | cons v vs ih =>
    cases n with
    | zero => simp [FitAll]
    | succ n =>
      simp only [List.replicate_succ, FitAll, ih, List.length_cons, List.mem_cons, forall_eq_or_imp,
        Nat.add_right_cancel_iff]
      exact and_left_comm

theorem fitAll_append {s : Store} {ps qs : List Place} {vs ws : List Value} (h : FitAll s ps vs)
    (h' : FitAll s qs ws) : FitAll s (ps ++ qs) (vs ++ ws) := by
  rw [fitAll_iff] at *
  exact List.rel_append h h'

/-- What can become of a store: allocations come and go, but none changes its role and none comes
back. -/
structure Store.Evolves (s s' : Store) : Prop where
  next_le : s.next ≤ s'.next
  role_eq : ∀ id < s.next, ∀ a', s'.get? id = some a' → ∃ a, s.get? id = some a ∧ a.role = a'.role

namespace Store.Evolves

theorem refl (s : Store) : s.Evolves s :=
  ⟨Nat.le_refl _, fun _ _ a' h => ⟨a', h, rfl⟩⟩

theorem trans {s s' s'' : Store} (h : s.Evolves s') (h' : s'.Evolves s'') : s.Evolves s'' := by
  refine ⟨Nat.le_trans h.next_le h'.next_le, fun id hid a'' ha'' => ?_⟩
  obtain ⟨a', ha', e'⟩ := h'.role_eq id (Nat.lt_of_lt_of_le hid h.next_le) a'' ha''
  obtain ⟨a, ha, e⟩ := h.role_eq id hid a' ha'
  exact ⟨a, ha, e.trans e'⟩

theorem push (s : Store) (a : Allocation) : s.Evolves (s.push a) := by
  refine ⟨by simp, fun id hid a' ha' => ⟨a', ?_, rfl⟩⟩
  rwa [get?_push_of_ne s a (Nat.ne_of_lt hid)] at ha'

theorem put {s : Store} {id : Nat} {a b : Allocation} (h : s.get? id = some a)
    (hr : b.role = a.role) : s.Evolves (s.put id b) := by
  refine ⟨by simp, fun other ho c hc => ?_⟩
  by_cases e : other = id
  · subst e
    rw [get?_put_same b ho, Option.some.injEq] at hc
    exact ⟨a, h, by rw [← hr, hc]⟩
  · rw [get?_put_other s b e] at hc
    exact ⟨c, hc, rfl⟩

theorem erase (s : Store) (id : Nat) : s.Evolves (s.erase id) := by
  refine ⟨by simp, fun other _ c hc => ?_⟩
  by_cases e : other = id
  · subst e
    simp at hc
  · rw [get?_erase_other s e] at hc
    exact ⟨c, hc, rfl⟩

end Store.Evolves

theorem Store.points_of_get? {s : Store} {t : Ty} {id : Nat} {a : Allocation}
    (ha : s.get? id = some a) (ht : t.admits a.role) : s.Points t id := by
  refine ⟨lt_next_of_get? ha, fun b hb => ?_⟩
  obtain rfl := Option.some.inj (ha.symm.trans hb)
  exact ht

theorem Store.Points.evolve {s s' : Store} {t : Ty} {id : Nat} (h : s.Points t id)
    (e : s.Evolves s') : s'.Points t id := by
  refine ⟨Nat.lt_of_lt_of_le h.1 e.next_le, fun a' ha' => ?_⟩
  obtain ⟨a, ha, hr⟩ := e.role_eq id h.1 a' ha'
  rw [← hr]
  exact h.2 a ha

mutual

theorem Fits.evolve {s s' : Store} (e : s.Evolves s') {p : Place} :
    {v : Value} → Fits s p v → Fits s' p v
  | .scalar _, h => h
  | .probe _, h => h
  | .handle _ _, ⟨t, ht, hk, hp⟩ => ⟨t, ht, hk, fun id hid => (hp id hid).evolve e⟩
  | .node _ _, ⟨ps, hp, hs⟩ => ⟨ps, hp, FitAll.evolve e hs⟩

theorem FitAll.evolve {s s' : Store} (e : s.Evolves s') :
    {ps : List Place} → {vs : List Value} → FitAll s ps vs → FitAll s' ps vs
  | [], [], _ => trivial
  | _ :: _, _ :: _, h => ⟨Fits.evolve e h.1, FitAll.evolve e h.2⟩

end

theorem HasType.evolve {s s' : Store} {t : Ty} {v : Value} (h : HasType s t v)
    (e : s.Evolves s') : HasType s' t v :=
  Fits.evolve e h

section inversion

theorem hasType_scalar {s : Store} {t : Ty} {x : Scalar} : HasType s t (.scalar x) ↔ t.hasScalar x := by
  simp [HasType, Fits]

theorem hasType_probe {s : Store} {t : Ty} {p : Probe} : HasType s t (.probe p) ↔ t = .probe := by
  simp [HasType, Fits]

theorem hasType_handle {s : Store} {t : Ty} {kind : HandleKind} {target : Option Nat} :
    HasType s t (.handle kind target) ↔
      t.handleKind? = some kind ∧ ∀ id, target = some id → s.Points t id := by
  simp [HasType, Fits]

theorem hasType_node {s : Store} {t : Ty} {shape : Shape} {parts : List Value} :
    HasType s t (.node shape parts) ↔
      ∃ ps, (Place.value t).parts shape parts.length = some ps ∧ FitAll s ps parts := by
  simp [HasType, Fits]

theorem not_hasType_handle {s : Store} {t : Ty} {kind : HandleKind} {target : Option Nat}
    (ht : t.handleKind? = none) : ¬HasType s t (.handle kind target) := by
  rw [hasType_handle, ht]
  simp

theorem not_hasType_node {s : Store} {t : Ty} {shape : Shape} {parts : List Value}
    (ht : (Place.value t).parts shape parts.length = none) : ¬HasType s t (.node shape parts) := by
  rw [hasType_node, ht]
  simp

theorem hasType_int {s : Store} {t : IntType} {n : Int} (h : t.holds n) :
    HasType s (.int t) (.int n) :=
  hasType_scalar.mpr h

theorem HasType.int_inv {s : Store} {t : IntType} {v : Value} (h : HasType s (.int t) v) :
    ∃ n, v = .int n ∧ t.holds n := by
  cases v with
  | scalar x =>
    have hx := hasType_scalar.mp h
    cases x with
    | int n => exact ⟨n, rfl, hx⟩
    | _ => cases hx
  | probe p => cases hasType_probe.mp h
  | handle kind target => exact absurd h (not_hasType_handle rfl)
  | node shape parts => exact absurd h (not_hasType_node (by cases shape <;> rfl))

theorem HasType.probe_inv {s : Store} {v : Value} (h : HasType s .probe v) :
    ∃ p, v = .probe p := by
  cases v with
  | scalar x => cases x <;> cases hasType_scalar.mp h
  | probe p => exact ⟨p, rfl⟩
  | handle kind target => exact absurd h (not_hasType_handle rfl)
  | node shape parts => exact absurd h (not_hasType_node (by cases shape <;> rfl))

theorem HasType.erased_inv {s : Store} {v : Value} (h : HasType s .erased v) :
    ∃ target, v = .handle .slot target := by
  cases v with
  | scalar x => cases x <;> cases hasType_scalar.mp h
  | probe p => cases hasType_probe.mp h
  | handle kind target =>
    obtain rfl : HandleKind.slot = kind := by simpa [Ty.handleKind?] using (hasType_handle.mp h).1
    exact ⟨target, rfl⟩
  | node shape parts => exact absurd h (not_hasType_node (by cases shape <;> rfl))

/-- The type that only serves as a name has no values. -/
theorem not_hasType_nil {s : Store} (v : Value) : ¬HasType s .nil v := by
  intro h
  cases v with
  | scalar x => cases x <;> cases hasType_scalar.mp h
  | probe p => cases hasType_probe.mp h
  | handle kind target => exact absurd h (not_hasType_handle rfl)
  | node shape parts => exact absurd h (not_hasType_node (by cases shape <;> rfl))

theorem hasType_nothing {t : Ty} {kind : HandleKind} (h : t.handleKind? = some kind) (s : Store) :
    HasType s t (.handle kind none) :=
  ⟨t, rfl, h, nofun⟩

theorem hasType_list {s : Store} {elem : Ty} {vs : List Value} (h : ∀ v ∈ vs, HasType s elem v) :
    HasType s (.list elem) (.node .sequence vs) :=
  ⟨_, rfl, fitAll_replicate.mpr ⟨rfl, h⟩⟩

theorem fits_list {s : Store} {elem : Ty} {shape : Shape} {parts : List Value} :
    Fits s (.value (.list elem)) (.node shape parts) ↔
      shape = .sequence ∧ ∀ v ∈ parts, HasType s elem v := by
  constructor
  · rintro ⟨ps, hps, hf⟩
    cases shape <;> cases hps
    exact ⟨rfl, (fitAll_replicate.mp hf).2⟩
  · rintro ⟨rfl, h⟩
    exact hasType_list h

theorem HasType.list_inv {s : Store} {elem : Ty} {v : Value} (h : HasType s (.list elem) v) :
    ∃ parts, v = .node .sequence parts ∧ ∀ p ∈ parts, HasType s elem p := by
  cases v with
  | scalar x => cases x <;> cases hasType_scalar.mp h
  | probe p => cases hasType_probe.mp h
  | handle kind target => exact absurd h (not_hasType_handle rfl)
  | node shape parts =>
    obtain ⟨rfl, hp⟩ := fits_list.mp h
    exact ⟨parts, rfl, hp⟩

theorem fits_one {s : Store} {p q : Place} {shape : Shape} {a : Value}
    (h : p.parts shape 1 = some [q]) : Fits s p (.node shape [a]) ↔ Fits s q a := by
  constructor
  · rintro ⟨ps, hps, hf⟩
    obtain rfl : ps = [q] := Option.some.inj (hps.symm.trans h)
    exact hf.1
  · intro ha
    exact ⟨[q], h, ha, trivial⟩

theorem fits_entry {s : Store} {key value : Ty} {v : Value} :
    Fits s (.entry key value) v ↔ ∃ a b, v = .entry a b ∧ HasType s key a ∧ HasType s value b := by
  constructor
  · intro h
    cases v with
    | scalar x => obtain ⟨_, h, _⟩ := h; cases h
    | probe p => cases h
    | handle kind target => obtain ⟨_, h, _⟩ := h; cases h
    | node shape parts =>
      obtain ⟨ps, hp, hf⟩ := h
      cases shape <;> cases hp
      match parts, hf with
      | [a, b], hf => exact ⟨a, b, rfl, hf.1, hf.2.1⟩
  · rintro ⟨a, b, rfl, ha, hb⟩
    exact ⟨_, rfl, ha, hb, trivial⟩

end inversion

end SharedValues
