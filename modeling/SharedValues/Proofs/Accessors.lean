import Mathlib
import SharedValues.Proofs.CopyAndDrop

/-!
Access by type. An erased value and an object are looked at in several ways: is it of the type, which
value is it, give me a copy. In a state that a run reaches all of them follow the type that is stored.
Where the type is another one, or nothing is stored, an access tells the reason and does nothing.
-/
namespace SharedValues

/-- The contents of what a handle points at, with their type. -/
def World.payload? (w : World) (target : Option Nat) : Option Payload :=
  (target.bind w.store.get?).map fun a => ⟨a.role.content, a.content⟩

/-- What an access to the contents gives: the value, if it has the type. -/
def Payload.accessed (stored : Option Payload) (t : Ty) : Except AccessError Value :=
  match stored with
  | none => .error .invalidMemory
  | some p => if p.type = t then .ok p.value else .error (.incompatibleType t.name p.type.name)

/-- The ways to get at what a handle points at. -/
structure Accessors where
  isType : Ty → Run Bool
  downcast? : Ty → Run (Option Value)
  tryExtract : Ty → Run (Except AccessError Value)
  extract : Ty → Run Value

def Erased.accessors (target : Option Nat) : Accessors :=
  ⟨isType target, downcast? target, tryExtract target, extract target⟩

def Object.accessors (target : Option Nat) : Accessors :=
  ⟨isType target, downcast? target, tryExtract target, extract target⟩

/-- The accessors of a handle to the given contents agree on a type: what is stored is of the type or
there is one reason for all of them, and a refused access changes nothing. -/
structure Accessors.Agree (x : Accessors) (w : World) (stored : Option Payload) (t : Ty) : Prop where
  isType : ∃ b, x.isType t w = .ok b w ∧ (b = true ↔ ∃ v, stored = some ⟨t, v⟩)
  downcast : x.downcast? t w = .ok (stored.bind (·.as? t)) w
  invalid : x.tryExtract t w = .ok (.error .invalidMemory) w ↔ stored = none
  incompatible : ∀ expected found,
    x.tryExtract t w = .ok (.error (.incompatibleType expected found)) w ↔
      expected = t.name ∧ ∃ p, stored = some p ∧ p.type ≠ t ∧ found = p.type.name
  found : ∀ v, stored = some ⟨t, v⟩ →
    x.tryExtract t w = (.ok <$> v.clone) w ∧ x.extract t w = v.clone w ∧
      ((∀ q ∈ v.probes, q.boom ≠ some .clone) → ∃ u, v.clone w = .ok v u)
  refused : ∀ e u, x.tryExtract t w = .ok (.error e) u →
    u = w ∧ ∃ p ev, x.extract t w = .error (.panic p) (w.record ev) ∧ p.message = e.message ∧
      ev.text = "ERROR fatal runtime error: " ++ e.message

namespace Payload

variable {stored : Option Payload} {t : Ty}

theorem accessed_eq_ok {v : Value} : accessed stored t = .ok v ↔ stored = some ⟨t, v⟩ := by
  cases stored with
  | none => simp [accessed]
  | some p =>
    obtain ⟨type, value⟩ := p
    by_cases e : type = t <;> simp [accessed, e]

theorem accessed_eq_invalid : accessed stored t = .error .invalidMemory ↔ stored = none := by
  cases stored with
  | none => simp [accessed]
  | some p => by_cases e : p.type = t <;> simp [accessed, e]

theorem accessed_eq_incompatible {expected found : String} :
    accessed stored t = .error (.incompatibleType expected found) ↔
      expected = t.name ∧ ∃ p, stored = some p ∧ p.type ≠ t ∧ found = p.type.name := by
  cases stored with
  | none => simp [accessed]
  | some p =>
    by_cases e : p.type = t
    · simp [accessed, e]
    · rw [accessed, if_neg e]
      constructor
      · rintro ⟨⟩
        exact ⟨rfl, p, rfl, e, rfl⟩
      · rintro ⟨rfl, _, ⟨⟩, -, rfl⟩
        rfl

theorem any_type_iff : stored.any (·.type = t) = true ↔ ∃ v, stored = some ⟨t, v⟩ := by
  cases stored with
  | none => simp
  | some p =>
    cases p
    simp

end Payload

section

variable {x : Accessors} {w : World} {stored : Option Payload} {t : Ty}

/-- An action that is mapped to a success does not end in a refusal. -/
theorem Run.map_ok_ne_error {α : Type} (act : Run α) (w u : World) (e : AccessError) :
    (Except.ok <$> act : Run (Except AccessError α)) w ≠ .ok (.error e) u := by
  intro h
  rw [map_eq_pure_bind] at h
  obtain ⟨a, v, -, h⟩ := Run.exists_of_bind_ok h
  cases h

theorem Run.bind_congr_left {α β : Type} {act act' : Run α} {f : α → Run β} {w : World}
    (h : act w = act' w) : (act >>= f) w = (act' >>= f) w := by
  cases h' : act' w with
  | ok a u => rw [Run.bind_of_ok (h.trans h'), Run.bind_of_ok h']
  | error e u => rw [Run.bind_of_error (h.trans h'), Run.bind_of_error h']

/-- What goes on after an access only if it finds something is refused exactly if the access is. -/
theorem Run.refused_iff {α : Type} {access : Run (Except AccessError Value)}
    {r : Except AccessError Value} {f : Except AccessError Value → Run (Except AccessError α)}
    (act : Value → Run α) (ha : access w = .ok r w) (hf : ∀ e, f (.error e) = pure (.error e))
    (hf' : ∀ v, f (.ok v) = .ok <$> act v) (e : AccessError) (u : World) :
    (access >>= f) w = .ok (.error e) u ↔ r = .error e ∧ u = w := by
  rw [Run.bind_of_ok ha]
  cases r with
  | error e' =>
    rw [hf]
    constructor
    · rintro ⟨⟩
      exact ⟨rfl, rfl⟩
    · rintro ⟨⟨⟩, rfl⟩
      rfl
  | ok v =>
    rw [hf']
    constructor
    · intro h
      exact absurd h (Run.map_ok_ne_error (act v) w u e)
    · rintro ⟨⟨⟩, -⟩

/-- Accessors that go through one access agree with it. -/
theorem Accessors.agree_of_access {access : Run (Except AccessError Value)}
    {f : Except AccessError Value → Run (Except AccessError Value)}
    {g : Except AccessError Value → Run Value}
    (ha : access w = .ok (Payload.accessed stored t) w)
    (hi : x.isType t w = .ok (stored.any (·.type = t)) w)
    (hd : x.downcast? t w = .ok (stored.bind (·.as? t)) w)
    (ht : x.tryExtract t = access >>= f) (he : x.extract t = x.tryExtract t >>= g)
    (hf : ∀ e, f (.error e) = pure (.error e)) (hf' : ∀ v, f (.ok v) = .ok <$> v.clone)
    (hg : ∀ e, g (.error e) = Run.fatal e) (hg' : ∀ v, g (.ok v) = pure v)
    (hv : ∀ p, stored = some p → ∀ h ∈ p.value.handles, w.store.Alive h) :
    x.Agree w stored t := by
  have hrefused : ∀ e u, x.tryExtract t w = .ok (.error e) u ↔
      Payload.accessed stored t = .error e ∧ u = w := by
    rw [ht]
    exact Run.refused_iff Value.clone ha hf hf'
  refine ⟨⟨_, hi, Payload.any_type_iff⟩, hd, ?_, fun expected found => ?_, fun v hs => ?_,
    fun e u h => ?_⟩
  · rw [hrefused, Payload.accessed_eq_invalid, and_iff_left rfl]
  · rw [hrefused, Payload.accessed_eq_incompatible, and_iff_left rfl]
  · have hclone : x.tryExtract t w = (.ok <$> v.clone) w := by
      rw [ht, Run.bind_of_ok ha, Payload.accessed_eq_ok.mpr hs, hf']
    refine ⟨hclone, ?_, fun hp => ⟨_, v.clone_eq (hv _ hs) hp⟩⟩
    calc x.extract t w
      _ = ((.ok <$> v.clone) >>= g) w := by rw [he, Run.bind_congr_left hclone]
      _ = v.clone w := by simp only [bind_map_left, hg', bind_pure]
  · obtain ⟨hr, rfl⟩ := (hrefused e u).mp h
    refine ⟨rfl, .fatal e, .fatal e, ?_, rfl, rfl⟩
    rw [he, Run.bind_of_ok h, hg]
    rfl

end

namespace World

/-- The handle is absent or held somewhere. -/
def HoldsTarget (w : World) (kind : HandleKind) (target : Option Nat) : Prop :=
  ∀ id, target = some id → ⟨kind, id⟩ ∈ w.handles

theorem Holds.holdsTarget {w : World} {name : String} {kind : HandleKind} {target : Option Nat}
    (h : w.Holds name kind target) : w.HoldsTarget kind target := by
  rintro id rfl
  obtain ⟨t, h⟩ := h
  refine Value.mem_handlesOf.mpr ⟨.handle kind (some id), ?_, by simp [Value.handles]⟩
  exact List.mem_append_left _ (List.mem_map.mpr ⟨_, mem_of_find? h, rfl⟩)

theorem payload?_of_get? {w : World} {id : Nat} {a : Allocation} (h : w.store.get? id = some a) :
    w.payload? (some id) = some ⟨a.role.content, a.content⟩ := by
  simp [payload?, h]

/-- There are contents behind every handle that is held, unless it is empty. -/
theorem Settled.payload?_eq_none_iff {w : World} (hw : w.Settled) {kind : HandleKind}
    {target : Option Nat} (h : w.HoldsTarget kind target) :
    w.payload? target = none ↔ target = none := by
  cases target with
  | none => exact iff_of_true rfl rfl
  | some id =>
    obtain ⟨a, ha, -⟩ := hw.alive_of_held (h id rfl)
    simp [payload?_of_get? ha]

/-- What live contents hold is alive. -/
theorem Settled.alive_of_payload {w : World} (hw : w.Settled) {target : Option Nat} {p : Payload}
    (hp : w.payload? target = some p) : ∀ h ∈ p.value.handles, w.store.Alive h := by
  obtain ⟨a, ha, rfl⟩ := Option.map_eq_some_iff.mp hp
  obtain ⟨id, rfl, ha⟩ := Option.bind_eq_some_iff.mp ha
  intro h hh
  exact hw.sound.alive_of_stored (by simp [hw.locks]) ha hh

end World

section

variable {w : World} {target : Option Nat}

theorem Erased.withStored_of_access {α : Type} {t : Ty} {v : Value}
    (ha : Erased.access target t w = .ok (.ok v) w) (f : Value → Run α) :
    Erased.withStored target t f w = (.ok <$> f v) w := by
  rw [map_eq_pure_bind]
  exact Run.bind_of_ok ha

theorem Erased.withStored_refused_iff {α : Type} {t : Ty} {r : Except AccessError Value}
    {f : Value → Run α} {e : AccessError} {u : World} (ha : Erased.access target t w = .ok r w) :
    Erased.withStored target t f w = .ok (.error e) u ↔ r = .error e ∧ u = w := by
  unfold Erased.withStored
  apply Run.refused_iff f ha
  · exact fun _ => rfl
  · exact fun v => by rw [map_eq_pure_bind]

/-- An erased value that is held is empty, or leads to a slot with these contents. -/
theorem World.Settled.slot_of_held (hw : w.Settled) (h : w.HoldsTarget .slot target) :
    (target = none ∧ w.payload? target = none) ∨
      ∃ id table type v, target = some id ∧ w.Slot id table type v ∧
        w.payload? target = some ⟨type, v⟩ := by
  cases target with
  | none => exact .inl ⟨rfl, rfl⟩
  | some id =>
    obtain ⟨table, type, v, hs⟩ := hw.sound.slot_of_alive (hw.alive_of_held (h id rfl))
    obtain ⟨n, ha⟩ := hs.alive
    exact .inr ⟨id, table, type, v, rfl, hs, World.payload?_of_get? ha⟩

theorem Erased.access_of_held (hw : w.Settled) (h : w.HoldsTarget .slot target) (t : Ty) :
    Erased.access target t w = .ok (Payload.accessed (w.payload? target) t) w := by
  rcases hw.slot_of_held h with ⟨rfl, hp⟩ | ⟨id, table, type, v, rfl, hs, hp⟩
  · rfl
  · rw [hs.access, hs.table_type, hp, Payload.accessed]
    simp only [eq_comm]

theorem Erased.accessors_agree_of_held (hw : w.Settled) (h : w.HoldsTarget .slot target) (t : Ty) :
    (Erased.accessors target).Agree w (w.payload? target) t := by
  refine Accessors.agree_of_access (access_of_held hw h t) ?_ ?_ rfl rfl (fun _ => rfl)
    (fun v => ?_) (fun _ => rfl) (fun _ => rfl) fun _ => hw.alive_of_payload
  · rcases hw.slot_of_held h with ⟨rfl, hp⟩ | ⟨id, table, type, v, rfl, hs, hp⟩
    · exact isType_none w t
    · rw [hp]
      exact (hs.isType t).trans (by simp [eq_comm])
  · rcases hw.slot_of_held h with ⟨rfl, hp⟩ | ⟨id, table, type, v, rfl, hs, hp⟩
    · exact downcast?_none w t
    · rw [hp]
      exact (hs.downcast? t).trans (by simp [Payload.as?, eq_comm])
  · rw [map_eq_pure_bind]

/-- An object handle that is held is nil, or leads to an object with these contents. -/
theorem World.Settled.object_of_held (hw : w.Settled) (h : w.HoldsTarget .object target) :
    (target = none ∧ w.payload? target = none) ∨
      ∃ id i type v n, target = some id ∧ w.store.get? id = some ⟨.object i type, v, n⟩ ∧
        w.payload? target = some ⟨type, v⟩ := by
  cases target with
  | none => exact .inl ⟨rfl, rfl⟩
  | some id =>
    obtain ⟨⟨role, v, n⟩, ha, hk⟩ := hw.alive_of_held (h id rfl)
    cases role with
    | object i type => exact .inr ⟨id, i, type, v, n, rfl, ha, World.payload?_of_get? ha⟩
    | _ => cases hk

theorem Object.access_of_held (hw : w.Settled) (h : w.HoldsTarget .object target) (t : Ty) :
    Object.access target t w = .ok (Payload.accessed (w.payload? target) t) w := by
  rcases hw.object_of_held h with ⟨rfl, hp⟩ | ⟨id, i, type, v, n, rfl, ha, hp⟩
  · rfl
  · rw [Object.access_of_get? ha, hp, Payload.accessed]

theorem Object.accessors_agree_of_held (hw : w.Settled) (h : w.HoldsTarget .object target) (t : Ty) :
    (Object.accessors target).Agree w (w.payload? target) t := by
  refine Accessors.agree_of_access (access_of_held hw h t) ?_ ?_ rfl rfl (fun _ => rfl)
    (fun v => ?_) (fun _ => rfl) (fun _ => rfl) fun _ => hw.alive_of_payload
  · rcases hw.object_of_held h with ⟨rfl, hp⟩ | ⟨id, i, type, v, n, rfl, ha, hp⟩
    · rfl
    · have htype : Object.type? (some id) w = .ok (some type) w :=
        Run.bind_of_ok (Object.object?_of_get? ha rfl)
      rw [hp]
      refine (Run.bind_of_ok htype).trans ?_
      simp [pure, EStateM.pure, beq_eq_decide]
  · refine (Run.bind_of_ok (access_of_held hw h t)).trans ?_
    rcases hw.object_of_held h with ⟨rfl, hp⟩ | ⟨id, i, type, v, n, rfl, ha, hp⟩
    · rfl
    · rw [hp]
      by_cases e : type = t <;> simp [Payload.accessed, Payload.as?, e, pure, EStateM.pure]
  · rw [map_eq_pure_bind]

end

/-- All ways to get at an erased value or at an object agree. In every state that a run reaches, and
for every type, the contents are of the type for all of them or for none. A copy is made of contents
of the type; otherwise the access is refused, because there are no contents or because their type is
another one, and then nothing changes and nothing is recorded. An action on the contents is refused
with the same error and is not run. The extraction that must not fail copies as well, or records the
error once and panics with its message. -/
theorem accessors_agree (fresh : Bool) (steps : List Step) :
    let w := Machine.after fresh steps
    (∀ kind target, w.HoldsTarget kind target → (w.payload? target = none ↔ target = none)) ∧
    (∀ target, w.HoldsTarget .slot target → ∀ t,
      (Erased.accessors target).Agree w (w.payload? target) t ∧
      ∀ (α : Type) (f : Value → Run α),
        (∀ e u, Erased.withStored target t f w = .ok (.error e) u ↔
          Erased.tryExtract target t w = .ok (.error e) u) ∧
        ∀ v, w.payload? target = some ⟨t, v⟩ →
          Erased.withStored target t f w = (.ok <$> f v) w) ∧
    (∀ target, w.HoldsTarget .object target → ∀ t,
      (Object.accessors target).Agree w (w.payload? target) t) ∧
    ∀ x t,
      (Machine.perform fresh (.erasedWith x t) = do
        Run.require t.renders
        Erased.withStored (← Run.lookupHandle .slot x) t Value.picture) ∧
      (Machine.perform fresh (.isObject x t) = do
        Machine.ok (.bool (← Object.isType (← Run.lookupHandle .object x) t))) ∧
      Machine.perform fresh (.objectDowncast x t) = (do
        let found ← Object.downcast? (← Run.lookupHandle .object x) t
        found.elim Machine.done fun v => do Machine.ok (.record [("some", ← v.picture)])) := by
  intro w
  have hw : w.Settled := Machine.settled_after fresh steps
  refine ⟨fun kind target h => hw.payload?_eq_none_iff h,
    fun target h t => ⟨Erased.accessors_agree_of_held hw h t, fun α f => ?_⟩,
    fun target h t => Object.accessors_agree_of_held hw h t, fun x t => ⟨?_, ?_, ?_⟩⟩
  · have ha := Erased.access_of_held hw h t
    refine ⟨fun e u => ?_, fun v hv => ?_⟩
    · rw [Erased.tryExtract, Erased.withStored_refused_iff ha, Erased.withStored_refused_iff ha]
    · rw [Payload.accessed_eq_ok.mpr hv] at ha
      exact Erased.withStored_of_access ha f
  · rfl
  · rfl
  · rw [Machine.perform, Machine.performObject]
    congr 1
    funext target
    congr 1
    funext found
    cases found <;> rfl

/-- Reading an object whose type is named and accepted by the interface. -/
theorem Reader.read_object {i : Interface} {t : Ty} {d x : Datum} (hvar : d.field? "$var" = none)
    (hv : d.field? "v" = some x) (ht : (d.textField? "impl").bind Ty.ofKey? = some t)
    (ha : i.accepts t) :
    Reader.read (.object i) d = (do
      let v ← Reader.read t x
      let target ← Object.new i t v
      pure (.handle .object target)) := by
  have hnull : ¬d.isNull := by
    intro h
    cases d with
    | null => cases hv
    | _ => cases h
  rw [Reader.read.eq_def, hvar]
  dsimp only
  rw [if_neg hnull]
  split
  next y hy =>
    cases hv.symm.trans hy
    rw [ht]
    simp only [Run.orRefuse, pure_bind, Run.require, ha, if_true]
  next hn => cases hv.symm.trans hn

/-- A list in an erased value is asked for as a list and as an erased value, a text behind an interface
as a text and as a dog, and an empty handle for a dog. -/
theorem accessors_agree_list_and_text :
    let d : Datum := .record [("impl", .text "String"), ("v", .text "hi")]
    let steps : List Step :=
      [.new (some "a") (.list .bool) (.list [.bool true]), .define (some "o") (.object .text) d]
    let w := Machine.after false steps
    let list : Value := .node .sequence [.scalar (.bool true)]
    let e : AccessError := .incompatibleType Ty.erased.name (Ty.list .bool).name
    w.HoldsTarget .slot (some 0) ∧ w.HoldsTarget .object (some 1) ∧ w.HoldsTarget .object none ∧
      (∃ u, Erased.tryExtract (some 0) (.list .bool) w = .ok (.ok list) u) ∧
      Erased.tryExtract (some 0) .erased w = .ok (.error e) w ∧
      (∃ p ev, Erased.extract (some 0) .erased w = .error (.panic p) (w.record ev) ∧
        p.message = e.message) ∧
      Erased.withStored (some 0) .erased (fun _ => Run.refuse) w = .ok (.error e : Except _ Unit) w ∧
      Object.downcast? (some 1) .string w = .ok (some (.text "hi")) w ∧
      Object.tryExtract (some 1) .dog w =
        .ok (.error (.incompatibleType Ty.dog.name Ty.string.name)) w ∧
      Object.tryExtract none .dog w = .ok (.error .invalidMemory) w := by
  intro d steps w list e
  have hkey : (d.textField? "impl").bind Ty.ofKey? = some .string := by decide +kernel
  have hread := Reader.read_object (i := .text) (x := .text "hi") (by cbv) (by cbv) hkey rfl
  have hw : w = Machine.next false
      (Machine.after false [.new (some "a") (.list .bool) (.list [.bool true])])
      (.define (some "o") (.object .text) d) := rfl
  rw [Machine.next, Machine.perform, Machine.performCommon, hread] at hw
  have hb : w.bindings = [("a", ⟨.erased, .handle .slot (some 0)⟩),
      ("o", ⟨.object .text, .handle .object (some 1)⟩)] := by
    rw [hw]
    cbv
  have hslot : w.payload? (some 0) = some ⟨.list .bool, list⟩ := by
    rw [hw]
    simp only [list]
    cbv
  have htext : w.payload? (some 1) = some ⟨.string, .text "hi"⟩ := by
    rw [hw]
    cbv
  have ha : w.Holds "a" .slot (some 0) := ⟨_, by rw [World.find?, hb]; rfl⟩
  have ho : w.Holds "o" .object (some 1) := ⟨_, by rw [World.find?, hb]; rfl⟩
  have h₀ := ha.holdsTarget
  have h₁ := ho.holdsTarget
  have h₂ : w.HoldsTarget .object none := by simp [World.HoldsTarget]
  obtain ⟨-, herased, hobject, -⟩ := accessors_agree false steps
  obtain ⟨hlist, -⟩ := herased (some 0) h₀ (.list .bool)
  obtain ⟨hother, hwith⟩ := herased (some 0) h₀ .erased
  have hrefused : Erased.tryExtract (some 0) .erased w = .ok (.error e) w :=
    (hother.incompatible _ _).mpr ⟨rfl, _, hslot, by decide, rfl⟩
  refine ⟨h₀, h₁, h₂, ?_, hrefused, ?_, ((hwith Unit _).1 e w).mpr hrefused, ?_, ?_, ?_⟩
  · obtain ⟨htry, -, hclone⟩ := hlist.found list hslot
    obtain ⟨u, hu⟩ := hclone (by decide)
    exact ⟨u, htry.trans (by rw [map_eq_pure_bind, Run.bind_of_ok hu]; rfl)⟩
  · obtain ⟨-, p, ev, hfatal, hmessage, -⟩ := hother.refused e w hrefused
    exact ⟨p, ev, hfatal, hmessage⟩
  · have hfound : (w.payload? (some 1)).bind (·.as? .string) = some (.text "hi") := by
      rw [htext]
      rfl
    exact hfound ▸ (hobject (some 1) h₁ .string).downcast
  · exact ((hobject (some 1) h₁ .dog).incompatible _ _).mpr ⟨rfl, _, htext, by decide, rfl⟩
  · exact (hobject none h₂ .dog).invalid.mpr rfl

end SharedValues
