import SharedValues.Program.Machine
import SharedValues.Proofs.Observers

/-!
Steps that only look: finding variables, looking behind erased values and objects, and showing what
there is.
-/
namespace SharedValues

open Machine

theorem observes_lookup (name : String) : Observes (Run.lookup name) :=
  .bind .get fun _ => .orRefuse _

theorem observes_lookupHandle (kind : HandleKind) (name : String) :
    Observes (Run.lookupHandle kind name) := by
  refine .bind (observes_lookup name) fun v => ?_
  split
  · split
    · exact .pure _
    · exact .refuse
  · exact .refuse

theorem observes_lookupErased (name : Option String) : Observes (lookupErased name) :=
  .bind (.orRefuse _) fun _ => observes_lookupHandle _ _

theorem observes_slot? (target : Option Nat) : Observes (Erased.slot? target) := by
  cases target with
  | none => exact .pure _
  | some id =>
    refine .bind (.read _ _) fun a => ?_
    split <;> exact .pure _

theorem observes_erasedType? (target : Option Nat) : Observes (Erased.type? target) :=
  .bind (observes_slot? target) fun _ => .pure _

theorem observes_object? (target : Option Nat) : Observes (Object.object? target) := by
  cases target with
  | none => exact .pure _
  | some id =>
    refine .bind (.read _ _) fun a => ?_
    split <;> exact .pure _

theorem observes_objectType? (target : Option Nat) : Observes (Object.type? target) :=
  .bind (observes_object? target) fun _ => .pure _

theorem observes_isType (target : Option Nat) (t : Ty) : Observes (Erased.isType target t) := by
  unfold Erased.isType
  split
  · exact .pure _
  · exact .bind (observes_erasedType? target) fun _ => .pure _

theorem observes_downcast? (target : Option Nat) (t : Ty) :
    Observes (Erased.downcast? target t) := by
  refine .bind (observes_isType target t) fun same => ?_
  split
  · exact .bind (observes_slot? target) fun _ => .pure _
  · exact .pure _

theorem observes_erasedAccess (target : Option Nat) (t : Ty) : Observes (Erased.access target t) := by
  refine .bind (observes_slot? target) fun slot => ?_
  split
  · exact .pure _
  · refine .bind (observes_downcast? target t) fun v => ?_
    split <;> exact .pure _

theorem observes_objectAccess (target : Option Nat) (t : Ty) : Observes (Object.access target t) := by
  refine .bind (observes_object? target) fun object => ?_
  split
  · exact .pure _
  · split <;> exact .pure _

theorem observes_withStored {α : Type} (target : Option Nat) (t : Ty) {f : Value → Run α}
    (hf : ∀ v, Observes (f v)) : Observes (Erased.withStored target t f) := by
  refine .bind (observes_erasedAccess target t) fun r => ?_
  cases r with
  | error e => exact .pure _
  | ok v => exact .bind (hf v) fun _ => .pure _

theorem observes_objectDowncast? (target : Option Nat) (t : Ty) :
    Observes (Object.downcast? target t) := by
  refine .bind (observes_objectAccess target t) fun r => ?_
  cases r <;> exact .pure _

theorem observes_objectGet (target : Option Nat) : Observes (Object.get target) := by
  refine .bind (observes_object? target) fun object => ?_
  split
  · exact .fatal _
  · exact .pure _

theorem observes_tryGet (target : Option Nat) : Observes (Function.tryGet target) := by
  cases target with
  | none => exact .pure _
  | some id =>
    refine .bind (.read _ _) fun a => ?_
    split
    · exact .pure _
    · exact .throw _

theorem observes_functionGet (target : Option Nat) : Observes (Function.get target) := by
  refine .bind (observes_tryGet target) fun r => ?_
  cases r with
  | error e => exact .fatal e
  | ok f => exact .pure f

theorem observes_equalsValue (target : Option Nat) (t : Ty) (v : Value) :
    Observes (Erased.equalsValue target t v) := by
  unfold Erased.equalsValue
  split
  · exact observes_equals _ _
  · refine .bind (observes_downcast? target t) fun stored => ?_
    split
    · exact observes_equals _ _
    · exact .pure _

theorem observes_shareCount (kind : HandleKind) (target : Option Nat) :
    Observes (Run.shareCount kind target) := by
  cases target with
  | none => exact .pure _
  | some id => exact .bind (.read _ _) fun _ => .pure _

theorem observes_shownType (v : Variable) : Observes (shownType v) := by
  unfold shownType
  split
  · exact .bind (observes_erasedType? _) fun _ => .pure _
  · exact .pure _

theorem observes_textOf (name : String) : Observes (textOf name) :=
  .bind (observes_lookup name) fun _ => .bind (.require _) fun _ => observes_toText _

theorem observes_dumpVariables (vs : List (String × Variable)) : Observes (dumpVariables vs) := by
  induction vs with
  | nil => exact .pure _
  | cons x rest ih =>
    obtain ⟨name, v⟩ := x
    refine .bind (observes_picture _) fun picture => ?_
    dsimp only
    split
    · exact .bind (.map _ (.bind (observes_shareCount _ _) fun _ => .pure _)) fun _ =>
        .bind ih fun _ => .pure _
    · exact .bind (.pure _) fun _ => .bind ih fun _ => .pure _

theorem observes_dump : Observes dump :=
  .bind .get fun _ => .bind (observes_dumpVariables _) fun _ => .pure _

section steps

/-- The steps that only look. -/
def Step.looks : Step → Bool
  | .get _ | .text _ | .inspect .. | .equal .. | .sameText .. | .dump | .tables | .isEmpty _
  | .shareCount _ | .typeName _ | .typeToken _ | .equalsNil _ | .display _ | .samePlace ..
  | .isErased .. | .erasedDowncast .. | .erasedWith .. | .isReal _ | .cellWith _ | .isNil _ | .view _
  | .isObject .. | .objectDowncast .. => true
  | _ => false

theorem observes_performCommon (fresh : Bool) {step : Step} (h : step.looks) :
    Observes (performCommon fresh step) := by
  cases step with
  | get var =>
    exact .bind (observes_lookup var) fun v => .bind (observes_picture _) fun _ => .pure _
  | text var =>
    exact .bind (observes_textOf var) fun text => .bind (observes_lookup var) fun v =>
      .bind (observes_shownType v) fun type => .bind (observes_stableText _ _) fun _ => .pure _
  | inspect var indented =>
    exact .bind (observes_lookup var) fun v => .bind (observes_inspect _ _) fun text =>
      .bind (observes_shownType v) fun type => .bind (observes_stableText _ _) fun _ => .pure _
  | equal a b negated =>
    exact .bind (observes_lookup a) fun x => .bind (observes_lookup b) fun y =>
      .bind (.require _) fun _ => .bind (observes_equals _ _) fun _ => .pure _
  | sameText a b =>
    exact .bind (observes_textOf a) fun x => .bind (.orRefuse _) fun b =>
      .bind (observes_textOf b) fun y => .pure _
  | dump => exact observes_dump
  | tables => exact .bind (.require _) fun _ => .bind .get fun _ => .pure _
  | define | default | copy | deep | drop | mutate | race => cases h
  | _ => exact .refuse

theorem observes_display (var : String) : Observes (performErased (.display var)) := by
  refine .bind (observes_lookupHandle _ _) fun target => ?_
  refine .bind (observes_shownType _) fun type => .bind (observes_toText _) fun _ =>
    .bind (observes_toText _) fun _ => .bind (observes_toText _) fun _ => .bind ?_ fun _ => .pure _
  simp only [List.mapM_cons, List.mapM_nil]
  exact .bind (observes_stableText _ _) fun _ => .bind (.bind (observes_stableText _ _) fun _ =>
    .bind (.bind (observes_stableText _ _) fun _ => .bind (.pure _) fun _ => .pure _) fun _ =>
      .pure _) fun _ => .pure _

theorem observes_performErased {step : Step} (h : step.looks) : Observes (performErased step) := by
  cases step with
  | isEmpty var => exact .bind (observes_lookupHandle _ _) fun _ => .pure _
  | typeName var =>
    exact .bind (observes_lookupHandle _ _) fun _ => .bind (observes_erasedType? _) fun _ => .pure _
  | equalsNil var => exact .bind (observes_lookupHandle _ _) fun _ => .pure _
  | display var => exact observes_display var
  | isErased var type =>
    exact .bind (observes_lookupHandle _ _) fun _ => .bind (observes_isType _ _) fun _ => .pure _
  | erasedDowncast var type =>
    refine .bind (.require _) fun _ => .bind (observes_lookupHandle _ _) fun target =>
      .bind (observes_downcast? _ _) fun r => ?_
    cases r with
    | none => exact .pure _
    | some v => exact .bind (observes_picture v) fun _ => .pure _
  | erasedWith var type =>
    exact .bind (.require _) fun _ => .bind (observes_lookupHandle _ _) fun target =>
      observes_withStored target type observes_picture
  | new | newEmpty | set | assign | clear | erasedExtract | erasedEquals | threads | threadDrop =>
    cases h
  | _ => exact .refuse

theorem observes_performCell {step : Step} (h : step.looks) : Observes (performCell step) := by
  cases step with
  | isReal var => exact .bind (observes_lookupHandle _ _) fun _ => .pure _
  | cellWith var =>
    exact .bind (observes_lookupHandle _ _) fun _ => .bind (observes_peek _) fun _ =>
      .bind (observes_picture _) fun _ => .pure _
  | cellGet => cases h
  | _ => exact .refuse

theorem observes_performObject {step : Step} (h : step.looks) : Observes (performObject step) := by
  cases step with
  | view var =>
    exact .bind (observes_lookupHandle _ _) fun _ =>
      .bind (.bind (observes_objectGet _) fun _ => observes_view _ _) fun _ =>
        .bind (observes_picture _) fun _ => .pure _
  | isObject var type =>
    exact .bind (observes_lookupHandle _ _) fun _ =>
      .bind (.bind (observes_objectType? _) fun _ => .pure _) fun _ => .pure _
  | objectDowncast var type =>
    refine .bind (observes_lookupHandle _ _) fun _ =>
      .bind (observes_objectDowncast? _ _) fun r => ?_
    cases r with
    | none => exact .pure _
    | some v => exact .bind (observes_picture v) fun _ => .pure _
  | poke | objectExtract => cases h
  | _ => exact .refuse

theorem observes_performShared (step : Step) : Observes (performShared step) := by
  cases step with
  | shareCount var =>
    refine .bind (observes_lookup var) fun v => ?_
    split
    · exact .bind (observes_shareCount _ _) fun _ => .pure _
    · exact .bind (observes_shareCount _ _) fun _ => .pure _
    · exact .refuse
  | typeToken var =>
    refine .bind (observes_lookup var) fun v => ?_
    split
    · exact .bind (observes_erasedType? _) fun _ => .pure _
    · exact .bind (observes_objectType? _) fun _ => .pure _
    · exact .refuse
  | isNil var =>
    refine .bind (observes_lookup var) fun v => ?_
    split
    · exact .pure _
    · exact .pure _
    · exact .refuse
  | samePlace var other =>
    refine .bind (observes_lookup var) fun x => .bind (observes_lookup other) fun y =>
      .bind (.require _) fun _ => ?_
    split
    · exact .refuse
    · exact .pure _
    · exact .refuse
  | _ => exact .refuse

theorem observes_perform (fresh : Bool) {step : Step} (h : step.looks) :
    Observes (perform fresh step) := by
  unfold perform
  split
  all_goals first
    | exact observes_performCommon fresh h
    | exact observes_performErased h
    | exact observes_performCell h
    | exact observes_performObject h
    | exact observes_performShared _
    | cases h

end steps

end SharedValues
