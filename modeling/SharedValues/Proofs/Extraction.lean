import SharedValues.Proofs.Looking
import SharedValues.Proofs.Performing

/-!
Extraction. In a sound configuration the table of a slot is the published one of its payload's type,
so the two checks of an access by type, that of the table and that of the payload, always agree. What
an access finds is the content of a live allocation, and extracting leaves a clone of it in hand.
-/
namespace SharedValues

open Machine

theorem Registry.type_of_find? {r : Registry} {t : Ty} {table : Table}
    (h : r.find? t = some table) : table.type = t := by
  simpa using List.find?_some h

theorem HasType.ne_slot {s : Store} {t : Ty} {v : Value} (h : HasType s t v) (ht : t ≠ .erased)
    (target : Option Nat) : v ≠ .handle .slot target := by
  rintro rfl
  have hk := (hasType_handle.mp h).1
  cases t <;> simp_all [Ty.handleKind?]

/-- The table and the payload type of a slot, and what it holds. -/
structure World.Slot (w : World) (id : Nat) (table : Table) (type : Ty) (payload : Value) : Prop where
  alive : ∃ n, w.store.get? id = some ⟨.slot table type, payload, n⟩
  published : w.registry.find? type = some table
  typed : HasType w.store type payload
  bare : type ≠ .erased

namespace World.Slot

variable {w : World} {id : Nat} {table : Table} {type : Ty} {payload : Value}

theorem table_type (h : w.Slot id table type payload) : table.type = type :=
  Registry.type_of_find? h.published

theorem ne_nil (h : w.Slot id table type payload) : type ≠ .nil := by
  rintro rfl
  exact not_hasType_nil _ h.typed

theorem slot? (h : w.Slot id table type payload) :
    Erased.slot? (some id) w = .ok (some (table, ⟨type, payload⟩)) w := by
  obtain ⟨n, ha⟩ := h.alive
  exact Run.bind_of_ok (Run.read_of_get? ha)

/-- The table's own type decides what the slot is taken for. -/
theorem isType (h : w.Slot id table type payload) (t : Ty) :
    Erased.isType (some id) t w = .ok (decide (t = type)) w := by
  unfold Erased.isType
  split
  next e =>
    subst e
    rw [decide_eq_false h.ne_nil.symm]
    rfl
  next =>
    have ht : Erased.type? (some id) w = .ok (some table.type) w := Run.bind_of_ok h.slot?
    refine (Run.bind_of_ok ht).trans ?_
    rw [h.table_type]
    by_cases e : t = type
    · subst e
      simp [pure, EStateM.pure]
    · simp [pure, EStateM.pure, e, Ne.symm e]

/-- The two checks of a downcast agree. -/
theorem downcast? (h : w.Slot id table type payload) (t : Ty) :
    Erased.downcast? (some id) t w = .ok (if t = type then some payload else none) w := by
  refine (Run.bind_of_ok (h.isType t)).trans ?_
  by_cases e : t = type
  · subst e
    simp only [decide_true, if_true]
    refine (Run.bind_of_ok h.slot?).trans ?_
    simp [Payload.as?, pure, EStateM.pure]
  · simp [e, pure, EStateM.pure]

theorem access (h : w.Slot id table type payload) (t : Ty) :
    Erased.access (some id) t w =
      .ok (if t = type then .ok payload else .error (.incompatibleType t.name table.type.name)) w := by
  refine (Run.bind_of_ok h.slot?).trans ?_
  refine (Run.bind_of_ok (h.downcast? t)).trans ?_
  by_cases e : t = type
  · simp [e, pure, EStateM.pure]
  · simp [e, pure, EStateM.pure]

end World.Slot

theorem Config.Sound.slot {c : Config} (hs : c.Sound) {id : Nat} {a : Allocation} {table : Table}
    {type : Ty} (ha : c.world.store.get? id = some a) (hr : a.role = .slot table type) :
    c.world.Slot id table type a.content := by
  have hallowed := hs.allowed id a ha
  have htyped := hs.typed id a ha
  rw [hr] at hallowed htyped
  refine ⟨⟨a.shares, ?_⟩, hallowed.1, htyped, hallowed.2⟩
  rw [ha, ← hr]

/-- A live handle to a slot leads to one. -/
theorem Config.Sound.slot_of_alive {c : Config} (hs : c.Sound) {id : Nat}
    (ha : c.world.store.Alive ⟨.slot, id⟩) :
    ∃ table type payload, c.world.Slot id table type payload := by
  obtain ⟨a, ha, hk⟩ := ha
  cases hr : a.role with
  | slot table type => exact ⟨table, type, a.content, hs.slot ha hr⟩
  | _ =>
    rw [hr] at hk
    cases hk

theorem Erased.isType_none (w : World) (t : Ty) : isType none t w = .ok false w := by
  unfold isType
  split <;> rfl

theorem Erased.downcast?_none (w : World) (t : Ty) : downcast? none t w = .ok none w :=
  Run.bind_of_ok (isType_none w t)

theorem Object.object?_of_get? {w : World} {id : Nat} {a : Allocation} {i : Interface} {t : Ty}
    (ha : w.store.get? id = some a) (hr : a.role = .object i t) :
    Object.object? (some id) w = .ok (some (i, ⟨t, a.content⟩)) w := by
  have hread : Run.read .object id w = .ok a w := by
    have := Run.read_of_get? ha
    rwa [hr] at this
  rw [Object.object?, Run.bind_of_ok hread, hr]
  rfl

theorem Object.access_of_get? {w : World} {id n : Nat} {i : Interface} {t : Ty} {v : Value}
    (ha : w.store.get? id = some ⟨.object i t, v, n⟩) (type : Ty) :
    Object.access (some id) type w =
      .ok (if t = type then .ok v else .error (.incompatibleType type.name t.name)) w := by
  refine (Run.bind_of_ok (Object.object?_of_get? ha rfl)).trans ?_
  by_cases e : t = type <;> simp [e, pure, EStateM.pure]

/-- The fetched value, if there is one, is the content of a live allocation. -/
def Fetches (type : Ty) (access : Run (Except AccessError Value)) (c : Config) : Prop :=
  Accounts .grow access c
    (fun r d => d = c ∧ ∀ v, r = .ok v →
      ∃ id a, c.world.store.get? id = some a ∧ v = a.content ∧ a.role.content = type)
    (fun d => d.hand = c.hand)

/-- What an attempt to extract leaves in hand. -/
def fetched : Except AccessError Value → Multiset Piece
  | .ok v => v.pieces
  | .error _ => 0

/-- An attempt to extract leaves a clone in hand, or nothing. -/
def Extracts (type : Ty) (attempt : Run (Except AccessError Value)) (c : Config) : Prop :=
  Accounts .grow attempt c
    (fun r d => d.hand = fetched r + c.hand ∧ ∀ v, r = .ok v → HasType d.world.store type v)
    (fun d => d.hand = c.hand)

theorem accounts_cloneStored {c : Config} (hs : c.Sound) (hl : c.world.locks = []) {id : Nat}
    {a : Allocation} (ha : c.world.store.get? id = some a) :
    Accounts .grow a.content.clone c (CopyOf (.value a.role.content) c)
      (fun d => d.hand = c.hand) :=
  accounts_clone (hs.typed id a ha) fun _ hm => hs.alive_of_stored (by simp [hl]) ha hm

theorem Fetches.extract {type : Ty} {access : Run (Except AccessError Value)} {c : Config}
    (h : Fetches type access c) (hs : c.Sound) (hl : c.world.locks = [])
    {f : Except AccessError Value → Run (Except AccessError Value)}
    (hf : ∀ e, f (.error e) = pure (.error e))
    (hf' : ∀ v, f (.ok v) = (do
      let copy ← v.clone
      pure (.ok copy))) :
    Extracts type (access >>= f) c := by
  refine Accounts.bind h ?_
  rintro r c - - - ⟨rfl, hr⟩
  cases r with
  | error e =>
    rw [hf]
    exact .pure ⟨by simp [fetched], nofun⟩
  | ok v =>
    obtain ⟨id, a, ha, rfl, rfl⟩ := hr v rfl
    rw [hf']
    refine .bind (accounts_cloneStored hs hl ha) ?_
    rintro x d - - - ⟨hd, hx⟩
    refine .pure ⟨hd, ?_⟩
    rintro _ ⟨⟩
    exact hx

theorem fetches_erased {c : Config} {target : Option Nat} {type : Ty} (hs : c.Sound)
    (hal : ∀ id, target = some id → c.world.store.Alive ⟨.slot, id⟩) :
    Fetches type (Erased.access target type) c := by
  cases target with
  | none => exact .stays rfl ⟨rfl, nofun⟩
  | some id =>
    obtain ⟨table, t, payload, h⟩ := hs.slot_of_alive (hal id rfl)
    obtain ⟨n, ha⟩ := h.alive
    refine .stays (h.access type) ⟨rfl, fun v hv => ?_⟩
    split at hv
    next e =>
      cases hv
      exact ⟨id, _, ha, rfl, e.symm⟩
    next => cases hv

theorem fetches_object {c : Config} {target : Option Nat} {type : Ty}
    (hal : ∀ id, target = some id → c.world.store.Alive ⟨.object, id⟩) :
    Fetches type (Object.access target type) c := by
  cases target with
  | none => exact .stays rfl ⟨rfl, nofun⟩
  | some id =>
    obtain ⟨⟨role, content, n⟩, ha, hk⟩ := hal id rfl
    cases role with
    | object i t =>
      refine .stays (Object.access_of_get? ha type) ⟨rfl, fun v hv => ?_⟩
      split at hv
      next e =>
        cases hv
        exact ⟨id, _, ha, rfl, e⟩
      next => cases hv
    | _ => cases hk

theorem extracts_erased {c : Config} {target : Option Nat} {type : Ty} (hs : c.Sound)
    (hl : c.world.locks = [])
    (hal : ∀ id, target = some id → c.world.store.Alive ⟨.slot, id⟩) :
    Extracts type (Erased.tryExtract target type) c :=
  Fetches.extract (fetches_erased hs hal) hs hl (fun _ => rfl) fun _ => rfl

theorem extracts_object {c : Config} {target : Option Nat} {type : Ty} (hs : c.Sound)
    (hl : c.world.locks = [])
    (hal : ∀ id, target = some id → c.world.store.Alive ⟨.object, id⟩) :
    Extracts type (Object.tryExtract target type) c :=
  Fetches.extract (fetches_object hal) hs hl (fun _ => rfl) fun _ => rfl

/-- What an extraction is about: a variable that holds a handle of the kind. -/
def ExtractsFrom (k : HandleKind) (target : Option Nat) (type : Ty)
    (attempt : Run (Except AccessError Value)) : Prop :=
  ∀ c : Config, c.Sound → c.world.locks = [] →
    (∀ id, target = some id → c.world.store.Alive ⟨k, id⟩) → Extracts type attempt c

theorem performs_tryExtract {name : String} {k : HandleKind} {target : Option Nat} {type : Ty}
    {attempt : Run (Except AccessError Value)} (h : ExtractsFrom k target type attempt) :
    Performs 0 (fun w => w.Holds name k target) attempt fetched
      (fun r w => ∀ v, r = .ok v → HasType w.store type v) 0 := by
  refine .of_accounts (S := .grow) (by decide) fun c hs hh hl hv => ?_
  refine Accounts.mono (h c hs hl (hs.alive_of_holds hh hv)) ?_ fun d _ _ hd => by rw [hd, hh]
  rintro r d - - - ⟨hd, hr⟩
  exact ⟨by rw [hd, hh, zero_add], hr⟩

/-- Extracting with a panic if that is not possible. -/
theorem performs_extract {name : String} {k : HandleKind} {target : Option Nat} {type : Ty}
    {attempt : Run (Except AccessError Value)} (h : ExtractsFrom k target type attempt)
    {f : Except AccessError Value → Run Value} (hf : ∀ e, f (.error e) = Run.fatal e)
    (hf' : ∀ v, f (.ok v) = pure v) :
    Performs 0 (fun w => w.Holds name k target) (.ok <$> (attempt >>= f)) fetched
      (fun r w => ∀ v, r = .ok v → HasType w.store type v) 0 := by
  have h₁ : Performs 0 (fun w => w.Holds name k target) (attempt >>= f) Value.pieces
      (fun v w => HasType w.store type v) 0 := by
    refine (performs_tryExtract h).bind fun r => ?_
    cases r with
    | error e =>
      rw [hf]
      exact .of_accounts (S := .grow) (by decide) fun c _ hh _ _ => .fatal hh
    | ok v =>
      rw [hf']
      exact .pure rfl fun _ h => h v rfl
  refine h₁.bind fun v => .pure rfl fun w hw => ?_
  rintro _ ⟨⟩
  exact hw

theorem performs_showCopy (v : Value) :
    Performs v.pieces (fun _ => True) (showCopy v) (fun _ => 0) (fun _ _ => True) 0 := by
  have h := (observes_picture v).dropping [v]
  rw [Value.piecesOf_cons, Value.piecesOf_nil, add_zero] at h
  exact h.bind fun _ => .pure rfl fun _ h => h

/-- Extracting with or without a panic, and then making use of the clone. -/
theorem performs_extraction {name : String} {k : HandleKind} {target : Option Nat} {type : Ty}
    {attempt : Run (Except AccessError Value)} (h : ExtractsFrom k target type attempt)
    {f : Except AccessError Value → Run Value} (hf : ∀ e, f (.error e) = Run.fatal e)
    (hf' : ∀ v, f (.ok v) = pure v) {use : Except AccessError Value → Run Result}
    (he : ∀ e, use (.error e) = pure (.error e))
    (hu : ∀ v, Performs v.pieces (fun w => HasType w.store type v) (use (.ok v)) (fun _ => 0)
      (fun _ _ => True) 0) (total : Bool) :
    Performs 0 (fun w => w.Holds name k target)
      (if total then attempt >>= use else (.ok <$> (attempt >>= f)) >>= use)
      (fun _ => 0) (fun _ _ => True) 0 := by
  have hr : ∀ r, Performs (fetched r) (fun w => ∀ v, r = .ok v → HasType w.store type v) (use r)
      (fun _ => 0) (fun _ _ => True) 0 :=
    performs_onOk (fun _ => rfl) he fun v => (hu v).mono (fun _ h => h v rfl) fun _ _ h => h
  cases total with
  | true => exact (performs_tryExtract h).bind hr
  | false => exact (performs_extract h hf hf').bind hr

end SharedValues
