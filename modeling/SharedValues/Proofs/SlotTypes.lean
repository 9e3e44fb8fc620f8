import SharedValues.Proofs.ShareCounts

/-!
Slots are well typed. In every state of a run the table of a slot is the published one of the type
of its payload, and the payload is no erased value. So the two checks of an access by type, that of
the table and that of the payload, always agree, and a table never meets a payload of another type.
That a branch is never taken is said by putting an arbitrary action in its place.
-/
namespace SharedValues

section Foreign

/-- Comparing with a table, where payloads of another type are met with the given action. -/
def Table.equalsOr (foreign : Run Bool) (through : HandleKind → Nat → Nat → Run Bool)
    (table : Table) (a b : Payload) : Run Bool :=
  if a.type = table.type ∧ b.type = table.type then a.value.equalsWith through b.value
  else foreign

/-- Comparing two allocations, where payloads of another type are met with the given action. -/
def Value.equalThroughOr (foreign : Run Bool) : Nat → HandleKind → Nat → Nat → Run Bool
  | _, .object, _, _ => pure false
  | _, .callable, _, _ => pure false
  | 0, _, _, _ => throw .endless
  | hops + 1, kind, a, b => do
    let x ← Run.read kind a
    let y ← Run.read kind b
    match x.role, y.role with
    | .slot table type, .slot table' type' =>
      if table.type = table'.type then
        table.equalsOr foreign (equalThroughOr foreign hops) ⟨type, x.content⟩ ⟨type', y.content⟩
      else pure false
    | _, _ => x.content.equalsWith (equalThroughOr foreign hops) y.content

/-- Rendering with a table, where a payload of another type is met with the given action. -/
def Table.renderOr (foreign : String → Run String)
    (through : HandleKind → Nat → String → Run String) (table : Table) (a : Payload)
    (out : String) : Run String :=
  if a.type = table.type then a.value.renderWith through out else foreign out

/-- Rendering what a handle points at, where a payload of another type is met with the given
action. -/
def Value.renderThroughOr (foreign : String → Run String) :
    Nat → HandleKind → Nat → String → Run String
  | _, .object, id, out => pure (out ++ addressText id)
  | _, .callable, _, out => pure (out ++ HandleKind.callable.emptyText)
  | 0, _, _, _ => throw .endless
  | hops + 1, kind, id, out => do
    let a ← Run.read kind id
    match a.role with
    | .slot table type => table.renderOr foreign (renderThroughOr foreign hops) ⟨type, a.content⟩ out
    | _ => a.content.renderWith (renderThroughOr foreign hops) out

theorem Value.equalThroughOr_pure (hops : Nat) :
    equalThroughOr (pure false) hops = equalThrough hops := by
  induction hops with
  | zero =>
    funext kind a b
    cases kind <;> rfl
  | succ hops ih =>
    funext kind a b
    cases kind with
    | object | callable => rfl
    | slot | cell =>
      rw [equalThroughOr, equalThrough, ih]
      · rfl
      all_goals simp

theorem Value.renderThroughOr_pure (hops : Nat) :
    renderThroughOr pure hops = renderThrough hops := by
  induction hops with
  | zero =>
    funext kind id out
    cases kind <;> rfl
  | succ hops ih =>
    funext kind id out
    cases kind with
    | object | callable => rfl
    | slot | cell =>
      rw [renderThroughOr, renderThrough, ih]
      · rfl
      all_goals simp

/-- The table of every slot is that of its payload's type. -/
def Store.TablesFit (s : Store) : Prop :=
  ∀ id a table type, s.get? id = some a → a.role = .slot table type → table.type = type

variable {s : Store}

theorem agree_equalThroughOr (hs : s.TablesFit) (foreign : Run Bool) (hops : Nat)
    (kind : HandleKind) (a b : Nat) :
    Agree s (Value.equalThrough hops kind a b) (Value.equalThroughOr foreign hops kind a b) := by
  induction hops generalizing kind a b with
  | zero => cases kind <;> exact .of_observes (observes_equalThrough 0 _ a b)
  | succ hops ih =>
    cases kind with
    | object | callable => exact .of_observes (.pure _)
    | slot | cell =>
      rw [Value.equalThrough, Value.equalThroughOr]
      · refine .read fun x hx => .read fun y hy => ?_
        cases hr : x.role with
        | slot table type =>
          cases hr' : y.role with
          | slot table' type' =>
            show Agree s (if table.type = table'.type then _ else _)
              (if table.type = table'.type then _ else _)
            by_cases same : table.type = table'.type
            · have h : table.type = type := hs a x table type hx hr
              have h' : table'.type = type' := hs b y table' type' hy hr'
              have hboth : type = table.type ∧ type' = table.type := ⟨h.symm, by rw [same, h']⟩
              rw [if_pos same, if_pos same, Table.equalsWith, Table.equalsOr, if_pos hboth,
                if_pos hboth]
              exact agree_equalsWith ih _ _
            · rw [if_neg same, if_neg same]
              exact .of_observes (.pure _)
          | _ => exact agree_equalsWith ih _ _
        | _ => exact agree_equalsWith ih _ _
      all_goals simp

theorem agree_renderThroughOr (hs : s.TablesFit) (foreign : String → Run String) (hops : Nat)
    (kind : HandleKind) (id : Nat) (out : String) :
    Agree s (Value.renderThrough hops kind id out)
      (Value.renderThroughOr foreign hops kind id out) := by
  induction hops generalizing kind id out with
  | zero => cases kind <;> exact .of_observes (observes_renderThrough 0 _ id out)
  | succ hops ih =>
    cases kind with
    | object | callable => exact .of_observes (.pure _)
    | slot | cell =>
      rw [Value.renderThrough, Value.renderThroughOr]
      · refine .read fun a ha => ?_
        cases hr : a.role with
        | slot table type =>
          have h : type = table.type := (hs id a table type ha hr).symm
          show Agree s (table.renderWith _ _ _) (table.renderOr _ _ _ _)
          rw [Table.renderWith, Table.renderOr, if_pos h, if_pos h]
          exact agree_renderWith ih _ _
        | _ => exact agree_renderWith ih _ _
      all_goals simp

/-- Comparing two values, where payloads of another type than their table's are met with the given
action. -/
def Value.equalsOr (foreign : Run Bool) (v v' : Value) : Run Bool := do
  v.equalsWith (equalThroughOr foreign (← get).hops) v'

/-- Rendering a value, where a payload of another type than its table's is met with the given
action. -/
def Value.renderOr (foreign : String → Run String) (v : Value) (out : String) : Run String := do
  v.renderWith (renderThroughOr foreign (← get).hops) out

theorem Value.equalsOr_pure : equalsOr (pure false) = equals := by
  funext v v'
  simp only [equalsOr, equals, equalThroughOr_pure]

theorem Value.renderOr_pure : renderOr pure = render := by
  funext v out
  simp only [renderOr, render, renderThroughOr_pure]

theorem agree_equalsOr (hs : s.TablesFit) (foreign : Run Bool) (v v' : Value) :
    Agree s (v.equals v') (v.equalsOr foreign v') :=
  .bind (.of_observes .get) fun _ => agree_equalsWith (agree_equalThroughOr hs foreign _) v v'

theorem agree_renderOr (hs : s.TablesFit) (foreign : String → Run String) (v : Value)
    (out : String) : Agree s (v.render out) (v.renderOr foreign out) :=
  .bind (.of_observes .get) fun _ => agree_renderWith (agree_renderThroughOr hs foreign _) v out

end Foreign

/-- The stored value can be cloned out as one of the given type, unless a probe inside it refuses to
be cloned. -/
def Erased.Extracts (w : World) (target : Option Nat) (t : Ty) : Prop :=
  (∃ v u, tryExtract target t w = .ok (.ok v) u) ∨
    ∃ v p u, downcast? target t w = .ok (some v) w ∧ p ∈ v.probes ∧ p.boom = some .clone ∧
      tryExtract target t w = .error (.panic (.refused .clone p)) u

theorem Erased.not_extracts_none (w : World) (t : Ty) : ¬Extracts w none t := by
  have ht : tryExtract none t w = .ok (.error .invalidMemory) w := rfl
  rintro (⟨v, u, h⟩ | ⟨v, p, u, -, -, -, h⟩)
  · rw [ht] at h
    cases h
  · rw [ht] at h
    cases h

/-- Extraction follows the type of the payload. -/
theorem World.Slot.extracts_iff {w : World} {id : Nat} {table : Table} {type : Ty}
    {payload : Value} (h : w.Slot id table type payload) (hw : w.Settled) (t : Ty) :
    Erased.Extracts w (some id) t ↔ t = type := by
  have ha := h.access t
  constructor
  · intro he
    by_contra hne
    rw [if_neg hne] at ha
    have ht : Erased.tryExtract (some id) t w = _ := Run.bind_of_ok ha
    rcases he with ⟨v, u, he⟩ | ⟨v, p, u, -, -, -, he⟩
    · rw [ht] at he
      cases he
    · rw [ht] at he
      cases he
  · rintro rfl
    rw [if_pos rfl] at ha
    obtain ⟨n, hg⟩ := h.alive
    have hc : Run.Clones payload.probes payload.clone w :=
      payload.clones w fun x hx => hw.sound.alive_of_stored (by simp [hw.locks]) hg hx
    unfold Run.Clones at hc
    cases hr : payload.clone w with
    | ok v u =>
      exact .inl ⟨v, u, (Run.bind_of_ok ha).trans (Run.bind_of_ok hr)⟩
    | error e u =>
      rw [hr] at hc
      obtain ⟨p, hp, hb, rfl⟩ := hc
      have hd := h.downcast? t
      rw [if_pos rfl] at hd
      exact .inr ⟨payload, p, u, hd, hp, hb, (Run.bind_of_ok ha).trans (Run.bind_of_error hr)⟩

/-- The erased value is empty or held somewhere. -/
def World.HoldsErased (w : World) (target : Option Nat) : Prop :=
  ∀ id, target = some id → ⟨.slot, id⟩ ∈ w.handles

/-- In every state that a run reaches, the table of a slot is the published one of its payload's
type, and the payload is no erased value. So for every erased value the check of the table, the
downcast of the payload and the extraction succeed together, for one type at most, which is neither
that of erased values nor the one without values. And whatever comparing and rendering would do with
a payload of another type than its table's, it makes no difference. -/
theorem slots_well_typed (fresh : Bool) (steps : List Step) :
    let w := Machine.after fresh steps
    (∀ id a table type, w.store.get? id = some a → a.role = .slot table type →
      w.registry.find? type = some table ∧ HasType w.store type a.content ∧ type ≠ .erased ∧
        ∀ target, a.content ≠ .handle .slot target) ∧
    (∀ target, w.HoldsErased target → ∀ t, ∃ b, Erased.isType target t w = .ok b w ∧
      (b = true ↔ ∃ v, Erased.downcast? target t w = .ok (some v) w) ∧
      (b = true ↔ Erased.Extracts w target t) ∧
      (b = true → t ≠ .erased ∧ t ≠ .nil ∧
        ∀ t', Erased.isType target t' w = .ok true w → t' = t)) ∧
    (Value.equalsOr (pure false) = Value.equals ∧
      ∀ foreign v v', Value.equalsOr foreign v v' w = Value.equals v v' w) ∧
    Value.renderOr pure = Value.render ∧
      ∀ foreign v out, Value.renderOr foreign v out w = Value.render v out w := by
  intro w
  have hw : w.Settled := Machine.settled_after fresh steps
  have hs : w.store.TablesFit := fun id a table type ha hr => (hw.sound.slot ha hr).table_type
  refine ⟨?_, ?_, ⟨Value.equalsOr_pure, ?_⟩, Value.renderOr_pure, ?_⟩
  · intro id a table type ha hr
    have h := hw.sound.slot ha hr
    exact ⟨h.published, h.typed, h.bare, h.typed.ne_slot h.bare⟩
  · intro target ht t
    cases target with
    | none =>
      refine ⟨false, Erased.isType_none w t, ?_, ?_, nofun⟩
      · simp [Erased.downcast?_none w t]
      · simp [Erased.not_extracts_none w t]
    | some id =>
      obtain ⟨table, type, payload, h⟩ := hw.sound.slot_of_alive (hw.alive_of_held (ht id rfl))
      refine ⟨_, h.isType t, ?_, ?_, ?_⟩
      · rw [h.downcast? t, decide_eq_true_iff]
        by_cases e : t = type <;> simp [e]
      · rw [h.extracts_iff hw t, decide_eq_true_iff]
      · intro e
        obtain rfl : t = type := by simpa using e
        refine ⟨h.bare, h.ne_nil, fun t' ht' => ?_⟩
        rw [h.isType t'] at ht'
        simpa using ht'
  · intro foreign v v'
    exact (agree_equalsOr hs foreign v v' w rfl).1.symm
  · intro foreign v out
    exact (agree_renderOr hs foreign v out w rfl).1.symm

end SharedValues
