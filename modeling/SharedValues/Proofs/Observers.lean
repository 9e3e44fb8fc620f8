import SharedValues.Inspect
import SharedValues.Picture
import SharedValues.Proofs.Primitives

/-!
Actions that only look: comparing, rendering, inspecting and picturing values change nothing but the
trace, and report nothing but calls of probes and fatal errors.
-/
namespace SharedValues

/-- The state in which an action ends, finished or abandoned. -/
def Run.after {α : Type} (act : Run α) (w : World) : World :=
  match act w with
  | .ok _ v => v
  | .error _ v => v

/-- How an action ends. -/
def Run.outcome {α : Type} (act : Run α) (w : World) : Except Stop α :=
  match act w with
  | .ok a _ => .ok a
  | .error e _ => .error e

/-- The action changes nothing but the trace, to which it appends reports. -/
def Observes {α : Type} (act : Run α) : Prop :=
  ∀ w, ∃ es : List Event, (∀ e ∈ es, e.isReport) ∧ Run.after act w = w.recordAll es

theorem World.recordAll_recordAll (w : World) (es fs : List Event) :
    (w.recordAll es).recordAll fs = w.recordAll (es ++ fs) := by
  simp [World.recordAll]

theorem World.recordAll_nil (w : World) : w.recordAll [] = w := by
  simp [World.recordAll]

theorem World.record_recordAll (w : World) (e : Event) (es : List Event) :
    (w.record e).recordAll es = w.recordAll (e :: es) := by
  simp [World.record, World.recordAll]

/-- Reports are moves that leave the hand as it is. -/
theorem Moves.recordAll {S : Scope} (w : World) (h : Multiset Piece) (es : List Event)
    (he : ∀ e ∈ es, e.isReport) : Moves S ⟨w, h⟩ ⟨w.recordAll es, h⟩ := by
  induction es generalizing w with
  | nil =>
    rw [World.recordAll_nil]
    exact .refl
  | cons e es ih =>
    have h₁ : Move .grow ⟨w, h⟩ ⟨w.record e, h⟩ := .report e (he e (by simp))
    have h₂ := ih (w.record e) fun x hx => he x (by simp [hx])
    rw [World.record_recordAll] at h₂
    exact (Moves.one (Accounts.scope_grow_le S) h₁).trans h₂

/-- In every state with the given store the two actions do the same, which changes nothing but the
trace, to which it appends reports. -/
def Agree {α : Type} (s : Store) (act act' : Run α) : Prop :=
  ∀ w, w.store = s → act w = act' w ∧
    ∃ es : List Event, (∀ e ∈ es, e.isReport) ∧ Run.after act w = w.recordAll es

/-- To only look is to agree with oneself everywhere. -/
theorem observes_iff_agree {α : Type} {act : Run α} : Observes act ↔ ∀ s, Agree s act act :=
  ⟨fun h _ w _ => ⟨rfl, h w⟩, fun h w => (h w.store w rfl).2⟩

namespace Agree

variable {α β : Type} {s : Store}

theorem of_observes {act : Run α} (h : Observes act) : Agree s act act :=
  observes_iff_agree.mp h s

theorem bind {act act' : Run α} {f g : α → Run β} (h : Agree s act act')
    (hf : ∀ a, Agree s (f a) (g a)) : Agree s (act >>= f) (act' >>= g) := by
  intro w hw
  obtain ⟨heq, es, he, hes⟩ := h w hw
  unfold Run.after at hes ⊢
  cases hact : act w with
  | error e v =>
    rw [hact] at hes
    rw [Run.bind_of_error hact, Run.bind_of_error (heq ▸ hact)]
    exact ⟨rfl, es, he, hes⟩
  | ok a v =>
    rw [hact] at hes
    obtain rfl : v = w.recordAll es := hes
    rw [Run.bind_of_ok hact, Run.bind_of_ok (heq ▸ hact)]
    obtain ⟨heq', fs, hf', hv⟩ := hf a (w.recordAll es) hw
    refine ⟨heq', es ++ fs, ?_, ?_⟩
    · intro e hm
      rcases List.mem_append.mp hm with hm | hm
      · exact he e hm
      · exact hf' e hm
    · rw [← World.recordAll_recordAll]
      exact hv

/-- Reading agrees with itself, and yields what is there. -/
theorem read {kind : HandleKind} {id : Nat} {f g : Allocation → Run α}
    (h : ∀ a, s.get? id = some a → Agree s (f a) (g a)) :
    Agree s (Run.read kind id >>= f) (Run.read kind id >>= g) := by
  intro w hw
  rcases Run.read_cases kind id w with ⟨a, ha, -, hr⟩ | hr
  · rw [Run.after, Run.bind_of_ok hr, Run.bind_of_ok hr]
    exact h a (hw ▸ ha) w hw
  · rw [Run.after, Run.bind_of_error hr, Run.bind_of_error hr]
    exact ⟨rfl, [], by simp, w.recordAll_nil.symm⟩

end Agree

namespace Observes

variable {α β : Type}

theorem pure (a : α) : Observes (pure a : Run α) :=
  fun w => ⟨[], by simp, w.recordAll_nil.symm⟩

theorem throw (e : Stop) : Observes (throw e : Run α) :=
  fun w => ⟨[], by simp, w.recordAll_nil.symm⟩

theorem get : Observes (get : Run World) :=
  fun w => ⟨[], by simp, w.recordAll_nil.symm⟩

theorem bind {act : Run α} {f : α → Run β} (h : Observes act) (hf : ∀ a, Observes (f a)) :
    Observes (act >>= f) :=
  observes_iff_agree.mpr fun _ => .bind (.of_observes h) fun a => .of_observes (hf a)

theorem record (e : Event) (he : e.isReport) : Observes (Run.record e) :=
  fun w => ⟨[e], by simpa using he, rfl⟩

theorem map {act : Run α} (f : α → β) (h : Observes act) : Observes (f <$> act) :=
  bind h fun a => pure (f a)

theorem panic (p : Panic) : Observes (Run.panic p : Run α) := throw _

theorem refuse : Observes (Run.refuse : Run α) := throw _

theorem orRefuse (o : Option α) : Observes (Run.orRefuse o) := by
  cases o with
  | none => exact throw _
  | some a => exact pure a

theorem require (b : Bool) : Observes (Run.require b) := by
  cases b with
  | false => exact throw _
  | true => exact pure ()

theorem fatal (e : AccessError) : Observes (Run.fatal e : Run α) :=
  bind (record _ rfl) fun _ => panic _

theorem callHook (k : Hook) (p : Probe) : Observes (Run.callHook k p) := by
  refine bind (record _ rfl) fun _ => ?_
  split
  · exact panic _
  · exact pure _

theorem read (k : HandleKind) (id : Nat) : Observes (Run.read k id) := by
  refine bind get fun w => ?_
  split
  · split
    · exact pure _
    · exact throw _
  · exact throw _

/-- An action that only looks accounts for every piece. -/
theorem accounts {act : Run α} (h : Observes act) {S : Scope} {c : Config} {kept : Multiset Piece}
    (hk : c.hand = kept) :
    Accounts S act c
      (fun _ d => d.hand = kept ∧ d.world.store = c.world.store ∧
        d.world.bindings = c.world.bindings)
      (fun d => d.hand = kept) := by
  intro _
  obtain ⟨es, he, hw⟩ := h c.world
  unfold Run.after at hw
  cases hact : act c.world with
  | ok a v =>
    rw [hact] at hw
    obtain rfl : v = c.world.recordAll es := hw
    exact ⟨c.hand, .recordAll _ _ es he, .of_eq rfl rfl, hk, rfl, rfl⟩
  | error e v =>
    rw [hact] at hw
    obtain rfl : v = c.world.recordAll es := hw
    exact ⟨c.hand, .recordAll _ _ es he, .of_eq rfl rfl, hk⟩

end Observes

/-- Comparing agrees if following handles does. -/
theorem agree_equalsWith {s : Store} {through through' : HandleKind → Nat → Nat → Run Bool}
    (ht : ∀ k a b, Agree s (through k a b) (through' k a b)) (v w : Value) :
    Agree s (v.equalsWith through w) (v.equalsWith through' w) := by
  refine Value.equalsWith.induct
    (fun v w => Agree s (v.equalsWith through w) (v.equalsWith through' w))
    (fun as bs => Agree s (Value.partsEqualWith through as bs) (Value.partsEqualWith through' as bs))
    ?_ ?_ ?_ ?_ ?_ ?_ ?_ ?_ ?_ ?_ v w
  · intro a b
    rw [Value.equalsWith, Value.equalsWith]
    exact .of_observes (.pure _)
  · intro p q
    rw [Value.equalsWith, Value.equalsWith]
    exact .of_observes (.bind (.callHook _ _) fun _ => .pure _)
  · intro k l
    rw [Value.equalsWith, Value.equalsWith]
    exact .of_observes (.pure _)
  · intro k l b
    rw [Value.equalsWith, Value.equalsWith, if_pos rfl, if_pos rfl]
    exact .of_observes (.pure _)
  · intro k a l b hne
    rw [Value.equalsWith, Value.equalsWith, if_neg hne, if_neg hne]
    exact ht k a b
  · intro s as t bs he ih
    rw [Value.equalsWith, Value.equalsWith, if_pos he, if_pos he]
    exact ih
  · intro s as t bs he
    rw [Value.equalsWith, Value.equalsWith, if_neg he, if_neg he]
    exact .of_observes (.pure _)
  · intro v w h₁ h₂ h₃ h₄ h₅
    rw [Value.equalsWith, Value.equalsWith]
    · exact .of_observes (.pure _)
    all_goals assumption
  · intro a as b bs ih ihs
    rw [Value.partsEqualWith, Value.partsEqualWith]
    refine .bind ih fun same => ?_
    split
    · exact ihs
    · exact .of_observes (.pure _)
  · intro as bs h
    rw [Value.partsEqualWith, Value.partsEqualWith]
    · exact .of_observes (.pure _)
    all_goals exact h

section

variable {through : HandleKind → Nat → Nat → Run Bool}

theorem observes_equalsWith (ht : ∀ k a b, Observes (through k a b)) (v w : Value) :
    Observes (v.equalsWith through w) :=
  observes_iff_agree.mpr fun _ => agree_equalsWith (fun k a b => .of_observes (ht k a b)) v w

theorem observes_tableEqualsWith (ht : ∀ k a b, Observes (through k a b)) (table : Table)
    (a b : Payload) : Observes (table.equalsWith through a b) := by
  unfold Table.equalsWith
  split
  · exact observes_equalsWith ht _ _
  · exact .pure _

end

theorem observes_equalThrough (hops : Nat) (k : HandleKind) (a b : Nat) :
    Observes (Value.equalThrough hops k a b) := by
  induction hops generalizing k a b with
  | zero => cases k <;> first | exact .pure _ | exact .throw _
  | succ hops ih =>
    cases k with
    | object | callable => exact .pure _
    | slot | cell =>
      rw [Value.equalThrough]
      · refine .bind (.read _ _) fun x => .bind (.read _ _) fun y => ?_
        split
        · split
          · exact observes_tableEqualsWith ih _ _ _
          · exact .pure _
        · exact observes_equalsWith ih _ _
      · nofun
      · nofun

theorem observes_equals (v w : Value) : Observes (v.equals w) :=
  .bind .get fun _ => observes_equalsWith (observes_equalThrough _) v w

/-- Rendering agrees if following handles does. -/
theorem agree_renderWith {s : Store} {through through' : HandleKind → Nat → String → Run String}
    (ht : ∀ k id out, Agree s (through k id out) (through' k id out)) (v : Value) (out : String) :
    Agree s (v.renderWith through out) (v.renderWith through' out) := by
  refine Value.renderWith.induct
    (fun v out => Agree s (v.renderWith through out) (v.renderWith through' out))
    (fun separator vs out => Agree s (Value.renderParts through separator vs out)
      (Value.renderParts through' separator vs out))
    ?_ ?_ ?_ ?_ ?_ ?_ ?_ ?_ v out
  · intro s out
    rw [Value.renderWith, Value.renderWith]
    exact .of_observes (.pure _)
  · intro p out
    rw [Value.renderWith, Value.renderWith]
    exact .of_observes (.bind (.callHook _ _) fun _ => .pure _)
  · intro k out
    rw [Value.renderWith, Value.renderWith]
    exact .of_observes (.pure _)
  · intro k id out
    rw [Value.renderWith, Value.renderWith]
    exact ht k id out
  · intro shape parts out ih
    rw [Value.renderWith, Value.renderWith]
    exact .bind ih fun _ => .of_observes (.pure _)
  · intro separator out
    rw [Value.renderParts, Value.renderParts]
    exact .of_observes (.pure _)
  · intro separator v out ih
    rw [Value.renderParts, Value.renderParts]
    exact ih
  · intro separator v vs out hne ih ihs
    rw [Value.renderParts, Value.renderParts]
    · exact .bind ih fun out => ihs out
    all_goals exact hne

theorem observes_renderWith {through : HandleKind → Nat → String → Run String}
    (ht : ∀ k id out, Observes (through k id out)) (v : Value) (out : String) :
    Observes (v.renderWith through out) :=
  observes_iff_agree.mpr fun _ => agree_renderWith (fun k id out => .of_observes (ht k id out)) v out

theorem observes_renderThrough (hops : Nat) (k : HandleKind) (id : Nat) (out : String) :
    Observes (Value.renderThrough hops k id out) := by
  induction hops generalizing k id out with
  | zero => cases k <;> first | exact .pure _ | exact .throw _
  | succ hops ih =>
    cases k with
    | object | callable => exact .pure _
    | slot | cell =>
      rw [Value.renderThrough]
      · refine .bind (.read _ _) fun a => ?_
        split
        · unfold Table.renderWith
          split
          · exact observes_renderWith ih _ _
          · exact .pure _
        · exact observes_renderWith ih _ _
      · nofun
      · nofun

theorem observes_render (v : Value) (out : String) : Observes (v.render out) :=
  .bind .get fun _ => observes_renderWith (observes_renderThrough _) v out

theorem observes_toText (v : Value) : Observes v.toText := observes_render v ""

section

variable {layout : Layout} {through : HandleKind → Nat → Run String}

theorem observes_inspectWith (ht : ∀ k id, Observes (through k id)) (v : Value) :
    Observes (v.inspectWith layout through) := by
  refine Value.inspectWith.induct (fun v => Observes (v.inspectWith layout through))
    (fun vs => Observes (Value.inspectParts layout through vs)) ?_ ?_ ?_ ?_ ?_ ?_ ?_ v
  · intro s
    rw [Value.inspectWith]
    exact .pure _
  · intro p
    rw [Value.inspectWith]
    exact .pure _
  · intro k
    rw [Value.inspectWith]
    exact .pure _
  · intro k id
    rw [Value.inspectWith]
    exact ht k id
  · intro shape parts ih
    rw [Value.inspectWith]
    exact .bind ih fun _ => .pure _
  · rw [Value.inspectParts]
    exact .pure _
  · intro v vs ih ihs
    rw [Value.inspectParts]
    exact .bind ih fun _ => .bind ihs fun _ => .pure _

end

theorem observes_inspectThrough (layout : Layout) (hops : Nat) (k : HandleKind) (id : Nat) :
    Observes (Value.inspectThrough layout hops k id) := by
  induction hops generalizing k id with
  | zero => exact .throw _
  | succ hops ih =>
    rw [Value.inspectThrough]
    refine .bind (.read _ _) fun a => ?_
    split
    · exact .bind (observes_renderThrough _ _ _ _) fun _ => .pure _
    · exact .bind (observes_inspectWith ih _) fun _ => .pure _
    · exact .pure _
    · exact .pure _

theorem observes_inspect (layout : Layout) (v : Value) : Observes (v.inspect layout) :=
  .bind .get fun _ => observes_inspectWith (observes_inspectThrough layout _) v

theorem observes_address (target : Option Nat) : Observes (Cell.address target) := by
  cases target with
  | none => exact .fatal _
  | some id =>
    refine .bind .get fun w => ?_
    split
    · exact .bind (.throw _) fun _ => .pure _
    · exact .pure _

theorem observes_peek (target : Option Nat) : Observes (Cell.peek target) :=
  .bind (observes_address target) fun _ => .bind (.read _ _) fun _ => .pure _

theorem observes_view (i : Interface) (v : Value) : Observes (i.view v) := by
  unfold Interface.view
  split
  · exact .pure _
  · exact .pure _
  · exact .pure _
  · exact .bind (.callHook _ _) fun _ => .pure _
  · exact .pure _
  · refine .bind (observes_peek _) fun content => ?_
    split
    · exact .pure _
    · exact .throw _
  · exact .bind (observes_toText _) fun _ => .pure _
  · exact .pure _
  · exact .pure _

theorem observes_stableText (t : Ty) (text : String) : Observes (t.stableText text) := by
  unfold Ty.stableText
  simp only
  split
  · split
    · exact .pure _
    · exact .panic _
  · exact .pure _

section

variable {through : HandleKind → Nat → Run Datum}

theorem observes_pictureWith (ht : ∀ k id, Observes (through k id)) (v : Value) :
    Observes (v.pictureWith through) := by
  refine Value.pictureWith.induct (fun v => Observes (v.pictureWith through))
    (fun vs => Observes (Value.picturesWith through vs)) ?_ ?_ ?_ ?_ ?_ ?_ ?_ v
  · intro s
    rw [Value.pictureWith]
    exact .pure _
  · intro p
    rw [Value.pictureWith]
    exact .pure _
  · intro k
    rw [Value.pictureWith]
    exact .pure _
  · intro k id
    rw [Value.pictureWith]
    exact ht k id
  · intro shape parts ih
    rw [Value.pictureWith]
    exact .bind ih fun _ => .pure _
  · rw [Value.picturesWith]
    exact .pure _
  · intro v vs ih ihs
    rw [Value.picturesWith]
    exact .bind ih fun _ => .bind ihs fun _ => .pure _

end

theorem observes_pictureThrough (hops : Nat) (k : HandleKind) (id : Nat) :
    Observes (Value.pictureThrough hops k id) := by
  induction hops generalizing k id with
  | zero => exact .throw _
  | succ hops ih =>
    rw [Value.pictureThrough]
    refine .bind (.read _ _) fun a => ?_
    split
    · exact .bind (observes_renderThrough _ _ _ _) fun _ =>
        .bind (observes_stableText _ _) fun _ => .pure _
    · exact .bind (observes_pictureWith ih _) fun _ => .pure _
    · exact .bind (observes_view _ _) fun _ => .bind (observes_pictureWith ih _) fun _ => .pure _
    · exact .pure _

theorem observes_picture (v : Value) : Observes v.picture :=
  .bind .get fun _ => observes_pictureWith (observes_pictureThrough _) v

end SharedValues
