import SharedValues.Proofs.Calls

/-!
What actions do to any state whatever. Most operations do little more than take and give up shares and
bind variables; a relation of states that allows for this holds between the states before and after
every such operation, finished or abandoned, and no matter what the state is like.
-/
namespace SharedValues

/-- The relation allows for reports, new probes, further shares of what is alive, giving things up,
and changes of the variables, any number of them. -/
structure Lenient (R : World → World → Prop) : Prop where
  refl (w : World) : R w w
  trans {w u v : World} (h : R w u) (h' : R u v) : R w v
  report (w : World) {e : Event} (he : e.isReport) : R w (w.record e)
  create (w : World) (p : Probe) : R w { w with created := w.created ++ [.probe p] }
  retain {w : World} {id : Nat} {a : Allocation} (ha : w.store.get? id = some a) :
    R w { w with store := w.store.put id { a with shares := a.shares + 1 } }
  release (w : World) (vs : List Value) : R w (w.release vs)
  bind (w : World) (bs : List (String × Variable)) : R w { w with bindings := bs }

/-- The action leads from every state to a related one. -/
def Run.Within {α : Type} (R : World → World → Prop) (act : Run α) : Prop :=
  ∀ w, R w (act.after w)

theorem Run.after_of_ok {α : Type} {act : Run α} {a : α} {w v : World} (h : act w = .ok a v) :
    act.after w = v := by
  rw [after, h]

theorem Run.after_of_error {α : Type} {act : Run α} {e : Stop} {w v : World}
    (h : act w = .error e v) : act.after w = v := by
  rw [after, h]

theorem Observes.store_eq {α : Type} {act : Run α} (h : Observes act) {a : α} {w v : World}
    (he : act w = .ok a v) : v.store = w.store := by
  obtain ⟨es, -, hw⟩ := h w
  rw [← Run.after_of_ok he, hw]
  rfl

/-- What comes after an action starts where that has ended. -/
theorem Run.after_bind_of_ok {α β : Type} {act : Run α} {a : α} {w v : World}
    (h : act w = .ok a v) (f : α → Run β) : (act >>= f).after w = (f a).after v := by
  rw [after, Run.bind_of_ok h]
  rfl

theorem Run.after_map {α β : Type} (act : Run α) (f : α → β) (w : World) :
    (act >>= fun a => pure (f a)).after w = act.after w := by
  cases h : act w with
  | ok a v =>
    rw [after_bind_of_ok h, after_of_ok h]
    rfl
  | error e v => rw [after_of_error (Run.bind_of_error h), after_of_error h]

theorem Run.after_unwinding {α : Type} (built : List Value) (act : Run α) (w : World) :
    (Run.unwinding built act).after w = act.after w ∨
      (Run.unwinding built act).after w = (act.after w).release built := by
  unfold after unwinding
  cases act w with
  | ok a v => exact .inl rfl
  | error e v => exact .inr rfl

theorem Run.after_locking {α : Type} (id : Nat) (act : Run α) (w : World) :
    let v := act.after { w with locks := id :: w.locks }
    (Run.locking id act).after w = { v with locks := v.locks.erase id } := by
  unfold after locking
  cases act { w with locks := id :: w.locks } <;> rfl

/-- What is true when the first action has ended stays true in the second one. -/
theorem Run.after_bind_induction {P : World → Prop} {α β : Type} {act : Run α} {f : α → Run β}
    {w : World} (h : P (act.after w)) (hf : ∀ a v, act w = .ok a v → P v → P ((f a).after v)) :
    P ((act >>= f).after w) := by
  cases hact : act w with
  | ok a v =>
    rw [after_of_ok hact] at h
    rw [after_bind_of_ok hact]
    exact hf a v hact h
  | error e v =>
    rw [after_of_error hact] at h
    rw [after_of_error (Run.bind_of_error hact)]
    exact h

/-- One action after the other, from a given state. -/
theorem Lenient.bind_after {R : World → World → Prop} (hR : Lenient R) {α β : Type} {act : Run α}
    {f : α → Run β} {w : World} (h : R w (act.after w))
    (hf : ∀ a v, act w = .ok a v → R v ((f a).after v)) : R w ((act >>= f).after w) :=
  Run.after_bind_induction h fun a v ha hv => hR.trans hv (hf a v ha)

namespace Run.Within

variable {α β : Type} {R : World → World → Prop} {act : Run α}

theorem bind (hR : Lenient R) {f : α → Run β} (h : Within R act) (hf : ∀ a, Within R (f a)) :
    Within R (act >>= f) :=
  fun w => hR.bind_after (h w) fun a v _ => hf a v

theorem of_observes (hR : Lenient R) (h : Observes act) : Within R act := by
  intro w
  obtain ⟨es, he, hes⟩ := h w
  rw [hes]
  clear hes
  induction es generalizing w with
  | nil =>
    rw [World.recordAll_nil]
    exact hR.refl w
  | cons e es ih =>
    have hrest := ih (w.record e) fun x hx => he x (by simp [hx])
    rw [World.record_recordAll] at hrest
    exact hR.trans (hR.report w (he e (by simp))) hrest

theorem choose (hR : Lenient R) {p : Prop} [Decidable p] {other : Run α} {f : α → Run β}
    (h : Within R act) (h' : Within R other) (hf : ∀ a, Within R (f a)) :
    Within R (if p then act >>= f else other >>= f) := by
  split
  · exact h.bind hR hf
  · exact h'.bind hR hf

theorem pure (hR : Lenient R) (a : α) : Within R (Pure.pure a) := of_observes hR (.pure a)

theorem drop (hR : Lenient R) (vs : List Value) : Within R (Run.drop vs) :=
  fun w => hR.release w vs

/-- Giving up what was built is all that is added when an action is abandoned. -/
theorem unwinding (hR : Lenient R) (h : Within R act) (built : List Value) :
    Within R (Run.unwinding built act) := by
  intro w
  rcases after_unwinding built act w with e | e
  · rw [e]
    exact h w
  · rw [e]
    exact hR.trans (h w) (hR.release _ built)

theorem dropping (hR : Lenient R) (h : Within R act) (vs : List Value) :
    Within R (Run.dropping vs act) :=
  .bind hR (h.unwinding hR vs) fun _ => .bind hR (.drop hR vs) fun _ => .pure hR _

theorem retain (hR : Lenient R) (kind : HandleKind) (id : Nat) : Within R (Run.retain kind id) := by
  intro w
  rcases Run.read_cases kind id w with ⟨a, ha, rfl, -⟩ | hr
  · rw [after_of_ok (Run.retain_of_get? ha)]
    exact hR.retain ha
  · rw [Run.retain, after_of_error (Run.bind_of_error hr)]
    exact hR.refl w

theorem bindVariable (hR : Lenient R) (name : String) (type : Ty) (value : Value) :
    Within R (Run.bind name type value) :=
  fun w => hR.bind w _

theorem unbind (hR : Lenient R) (name : String) : Within R (Run.unbind name) :=
  fun w => hR.bind w _

end Run.Within

section library

open Run (Within)

variable {R : World → World → Prop}

theorem within_share (hR : Lenient R) (kind : HandleKind) (id : Nat) : Within R (Value.share kind id) :=
  .bind hR (.retain hR kind id) fun _ => .pure hR _

theorem within_copyParts (hR : Lenient R) {d : Depth} {through : HandleKind → Nat → Run Nat}
    {shape : Shape} {vs : List Value} (h : ∀ v ∈ vs, Within R (v.copyWith d through))
    (done : List Value) : Within R (Value.copyParts d through shape done vs) := by
  induction vs generalizing done with
  | nil =>
    rw [Value.copyParts]
    exact .pure hR _
  | cons v vs ih =>
    rw [Value.copyParts]
    exact .bind hR ((h v (by simp)).unwinding hR _) fun c => ih (fun u hu => h u (by simp [hu])) _

/-- Copying a value does no more than copying handles does. -/
theorem within_copyWith (hR : Lenient R) (d : Depth) {through : HandleKind → Nat → Run Nat}
    (hf : ∀ k id, Within R (through k id)) (v : Value) : Within R (v.copyWith d through) := by
  induction v using Value.induction with
  | scalar x =>
    rw [Value.copyWith]
    exact .pure hR _
  | probe p =>
    rw [Value.copyWith]
    exact .bind hR (.of_observes hR (.callHook _ _)) fun _ w => hR.create w p
  | handle k target =>
    cases target with
    | none =>
      rw [Value.copyWith]
      exact .pure hR _
    | some id =>
      rw [Value.copyWith]
      exact .bind hR (hf k id) fun _ => .pure hR _
  | node shape parts ih =>
    rw [Value.copyWith]
    exact .bind hR (within_copyParts hR ih _) fun _ => .pure hR _

theorem within_clone (hR : Lenient R) (v : Value) : Within R v.clone :=
  within_copyWith hR .shallow (within_share hR) v

theorem within_assign (hR : Lenient R) (current source : Option Nat) :
    Within R (Erased.assign current source) := by
  unfold Erased.assign
  split
  · exact .bind hR (.drop hR _) fun _ => .pure hR _
  · split
    · exact .pure hR _
    · exact .bind hR (.drop hR _) fun _ => .bind hR (.retain hR _ _) fun _ => .pure hR _

/-- Storing an erased value shares its slot. -/
theorem within_adopt (hR : Lenient R) (current source : Option Nat) :
    Within R (Erased.set current .erased (.handle .slot source)) := by
  rw [Erased.set]
  exact .bind hR (within_assign hR _ _) fun _ => .bind hR (.drop hR _) fun _ => .pure hR _

theorem within_erasedTryExtract (hR : Lenient R) (target : Option Nat) (t : Ty) :
    Within R (Erased.tryExtract target t) := by
  refine .bind hR (.of_observes hR (observes_erasedAccess target t)) fun r => ?_
  cases r with
  | error e => exact .pure hR _
  | ok v => exact .bind hR (within_clone hR v) fun _ => .pure hR _

theorem within_erasedExtract (hR : Lenient R) (target : Option Nat) (t : Ty) :
    Within R (Erased.extract target t) := by
  refine .bind hR (within_erasedTryExtract hR target t) fun r => ?_
  cases r with
  | error e => exact .of_observes hR (.fatal e)
  | ok v => exact .pure hR _

theorem within_objectTryExtract (hR : Lenient R) (target : Option Nat) (t : Ty) :
    Within R (Object.tryExtract target t) := by
  refine .bind hR (.of_observes hR (observes_objectAccess target t)) fun r => ?_
  cases r with
  | error e => exact .pure hR _
  | ok v => exact .bind hR (within_clone hR v) fun _ => .pure hR _

theorem within_objectExtract (hR : Lenient R) (target : Option Nat) (t : Ty) :
    Within R (Object.extract target t) := by
  refine .bind hR (within_objectTryExtract hR target t) fun r => ?_
  cases r with
  | error e => exact .of_observes hR (.fatal e)
  | ok v => exact .pure hR _

theorem within_cellGet (hR : Lenient R) (target : Option Nat) : Within R (Cell.get target) :=
  .bind hR (.of_observes hR (observes_peek target)) fun v => within_clone hR v

/-- Giving up what an edit has taken out. -/
theorem within_finish (hR : Lenient R) {α : Type} (c : Edit.Change α) : Within R c.finish := by
  refine .dropping hR (.of_observes hR ?_) c.removed
  split
  · exact .pure _
  · exact observes_picture _

theorem within_readVariable (hR : Lenient R) (t : Ty) (name : String) :
    Within R (Reader.readVariable t name) :=
  .bind hR (.of_observes hR (observes_lookup name)) fun _ =>
    .bind hR (.of_observes hR (.require _)) fun _ => within_clone hR _

theorem within_readInt (hR : Lenient R) (t : IntType) (d : Datum) : Within R (Reader.readInt t d) :=
  .of_observes hR (.bind (.orRefuse _) fun _ => .bind (.require _) fun _ => .pure _)

theorem within_expectInt (hR : Lenient R) (v : Value) : Within R (Reader.expectInt v) := by
  unfold Reader.expectInt
  split
  · exact .pure hR _
  · exact .of_observes hR .refuse

/-- Reading a number at most clones a variable. -/
theorem within_readNumber (hR : Lenient R) (t : IntType) (d : Datum) :
    Within R (Reader.read (.int t) d) := by
  rw [Reader.read.eq_def]
  split
  · exact .bind hR (.of_observes hR (.orRefuse _)) fun name => within_readVariable hR _ name
  · exact .bind hR (within_readInt hR t d) fun _ => .pure hR _

theorem within_readNat (hR : Lenient R) (t : IntType) (d : Option Datum) :
    Within R (Reader.readNat t d) :=
  .bind hR (.of_observes hR (.orRefuse _)) fun x => .bind hR (within_readNumber hR t x) fun v =>
    .bind hR (within_expectInt hR v) fun _ => .pure hR _

end library

section steps

open Machine
open Run (Within)

variable {R : World → World → Prop}

theorem within_deliver (hR : Lenient R) (target : Option String) (type : Ty) (value : Value) :
    Within R (deliver target type value) := by
  cases target with
  | none => exact .bind hR (.drop hR _) fun _ => .of_observes hR .refuse
  | some name =>
    refine .bind hR (.bind hR (.of_observes hR .get) fun w => ?_) fun _ => .pure hR _
    exact .bind hR (.bindVariable hR _ _ _) fun _ => .drop hR _

theorem within_showCopy (hR : Lenient R) (v : Value) : Within R (showCopy v) :=
  .bind hR (.dropping hR (.of_observes hR (observes_picture v)) _) fun _ => .pure hR _

theorem within_cloneAndDrop (hR : Lenient R) (v : Value) (n : Nat) : Within R (cloneAndDrop v n) := by
  induction n with
  | zero => exact .pure hR _
  | succ n ih => exact .bind hR (within_clone hR v) fun _ => .bind hR (.drop hR _) fun _ => ih

theorem within_runThreads (hR : Lenient R) (v : Value) (iterations n : Nat) :
    Within R (runThreads v iterations n) := by
  induction n with
  | zero => exact .pure hR _
  | succ n ih =>
    exact .bind hR (within_clone hR v) fun _ => .bind hR (within_cloneAndDrop hR _ _) fun _ =>
      .bind hR (.drop hR _) fun _ => ih

/-- An edit takes the variable out and puts it back in the end. -/
theorem editVariable_cases (name : String) (path : Datum) (w : World) :
    (editVariable name path).after w = w ∨ ∃ v x, w.find? name = some v ∧
      (editVariable name path).after w =
        ((Edit.edit v.type v.value path).after (w.unbind name)).bind name x := by
  cases hv : w.find? name with
  | none =>
    have hlookup : Run.lookup name w = .error .refused w := by
      rw [Run.lookup, Run.bind_get, hv]
      rfl
    exact .inl (Run.after_of_error (Run.bind_of_error hlookup))
  | some v =>
    have hunbind : Run.unbind name w = .ok () (w.unbind name) := rfl
    cases hx : Edit.edit v.type v.value path (w.unbind name) with
    | ok c u =>
      have he : editVariable name path w =
          .ok (c.map fun _ => ()) (u.bind name ⟨v.type, c.result⟩) := by
        refine (Run.bind_of_ok (Run.lookup_of_find? hv)).trans ((Run.bind_of_ok hunbind).trans ?_)
        rw [hx]
      exact .inr ⟨v, _, rfl, by rw [Run.after_of_ok he, Run.after_of_ok hx]⟩
    | error e u =>
      have he : editVariable name path w = .error e (u.bind name v) := by
        refine (Run.bind_of_ok (Run.lookup_of_find? hv)).trans ((Run.bind_of_ok hunbind).trans ?_)
        rw [hx]
      exact .inr ⟨v, _, rfl, by rw [Run.after_of_error he, Run.after_of_error hx]⟩

/-- The steps that read no values, copy nothing deeply and write into nothing. -/
def Step.plain : Step → Bool
  | .default .. | .copy .. | .drop _ | .newEmpty _ | .assign .. | .clear _ | .erasedExtract ..
  | .threads .. | .threadDrop _ | .cellGet _ | .objectExtract .. => true
  | step => step.looks

theorem within_erasedExtractStep (hR : Lenient R) (var : String) (type : Ty) (into : Option Datum)
    (total : Bool) : Within R (performErased (.erasedExtract var type into total)) := by
  refine .bind hR (.of_observes hR (.require _)) fun _ => ?_
  refine .bind hR (.of_observes hR (observes_lookupHandle _ _)) fun target => ?_
  refine .choose hR (within_erasedTryExtract hR _ _)
    (.bind hR (within_erasedExtract hR _ _) fun _ => .pure hR _) fun r => ?_
  cases r with
  | error e => exact .pure hR _
  | ok v =>
    cases into with
    | none => exact within_showCopy hR v
    | some name => exact within_deliver hR _ _ _

theorem within_objectExtractStep (hR : Lenient R) (var : String) (type : Ty) (total : Bool) :
    Within R (performObject (.objectExtract var type total)) := by
  refine .bind hR (.of_observes hR (observes_lookupHandle _ _)) fun target => ?_
  refine .choose hR (within_objectTryExtract hR _ _)
    (.bind hR (within_objectExtract hR _ _) fun _ => .pure hR _) fun r => ?_
  cases r with
  | error e => exact .pure hR _
  | ok v => exact within_showCopy hR v

theorem within_assignStep (hR : Lenient R) (var source : String) :
    Within R (performErased (.assign var source)) := by
  refine .bind hR (.of_observes hR (observes_lookupHandle _ _)) fun current => ?_
  refine .bind hR (.of_observes hR (observes_lookupHandle _ _)) fun other => ?_
  dsimp only
  split
  · exact .bind hR (within_clone hR _) fun _ => .bind hR (within_assign hR _ _) fun _ =>
      .bind hR (.drop hR _) fun _ => .bind hR (.bindVariable hR _ _ _) fun _ => .pure hR _
  · exact .bind hR (within_assign hR _ _) fun _ => .bind hR (.bindVariable hR _ _ _) fun _ =>
      .pure hR _

/-- Plain steps do no more than what is allowed for. -/
theorem within_plain (hR : Lenient R) (fresh : Bool) {step : Step} (h : step.plain) :
    Within R (perform fresh step) := by
  cases step with
  | default target type =>
    refine .bind hR (.of_observes hR (.require _)) fun _ => ?_
    refine .bind hR (.of_observes hR ?_) fun v => within_deliver hR _ _ v
    unfold emptyValue
    split
    all_goals first
      | exact .pure _
      | exact .refuse
  | copy target source =>
    exact .bind hR (.of_observes hR (observes_lookup _)) fun v => .bind hR (within_clone hR _) fun _ =>
      within_deliver hR _ _ _
  | drop var =>
    exact .bind hR (.of_observes hR (observes_lookup _)) fun v => .bind hR (.unbind hR _) fun _ =>
      .bind hR (.drop hR _) fun _ => .pure hR _
  | newEmpty target => exact within_deliver hR _ _ _
  | assign var source => exact within_assignStep hR var source
  | clear var =>
    exact .bind hR (.of_observes hR (observes_lookupHandle _ _)) fun _ => .bind hR (.drop hR _) fun _ =>
      .bind hR (.bindVariable hR _ _ _) fun _ => .pure hR _
  | erasedExtract var type into total => exact within_erasedExtractStep hR var type into total
  | threads var count iterations =>
    exact .bind hR (.of_observes hR (observes_lookupHandle _ _)) fun _ =>
      .bind hR (within_readNat hR _ _) fun _ => .bind hR (within_readNat hR _ _) fun _ =>
        .bind hR (within_runThreads hR _ _ _) fun _ =>
          .of_observes hR (.bind (observes_shareCount _ _) fun _ => .pure _)
  | threadDrop var =>
    exact .bind hR (.of_observes hR (observes_lookupHandle _ _)) fun _ => .bind hR (.unbind hR _)
      fun _ => .bind hR (.drop hR _) fun _ => .pure hR _
  | cellGet var =>
    exact .bind hR (.of_observes hR (observes_lookupHandle _ _)) fun _ =>
      .bind hR (within_cellGet hR _) fun _ => within_showCopy hR _
  | objectExtract var type total => exact within_objectExtractStep hR var type total
  | _ => exact .of_observes hR (observes_perform fresh h)

theorem within_pokeStep (hR : Lenient R) (hpoke : ∀ target n, Within R (Object.poke target n))
    (var : String) (n : Option Datum) : Within R (performObject (.poke var n)) :=
  .bind hR (.of_observes hR (observes_lookupHandle _ _)) fun target =>
    .bind hR (.of_observes hR (observes_objectGet target)) fun _ =>
      .bind hR (within_readNat hR _ _) fun n => .bind hR (hpoke target n) fun _ => .pure hR _

theorem within_readArgument (hR : Lenient R) (type : Ty) (argument : Option Datum) :
    Within R (readArgument type argument) := by
  refine .bind hR (.of_observes hR (.orRefuse _)) fun d => ?_
  split
  · exact .of_observes hR (.bind (.orRefuse _) fun _ => .pure _)
  · exact within_readNumber hR _ _
  · exact .of_observes hR .refuse

theorem within_call (hR : Lenient R)
    (happly : ∀ code captured x, Within R (Function.apply code captured x)) (target : Option Nat)
    (x : Value) : Within R (Function.call target x) :=
  .bind hR (.of_observes hR (observes_functionGet target)) fun f => happly f.1 f.2 x

theorem within_callStep (hR : Lenient R)
    (hcall : ∀ target x, Within R (Function.call target x)) (var : String)
    (argument : Option Datum) (total : Bool) :
    Within R (performFunction (.call var argument total)) := by
  refine .bind hR (.of_observes hR (observes_lookupHandle _ _)) fun target => ?_
  refine .choose hR (.of_observes hR (observes_tryGet target))
    (.of_observes hR (.bind (observes_functionGet target) fun _ => .pure _)) fun r => ?_
  cases r with
  | error e => exact .pure hR _
  | ok f =>
    exact .bind hR (.of_observes hR (observes_lookup var)) fun v =>
      .bind hR (within_readArgument hR _ _) fun x => .bind hR (hcall target x) fun y =>
        .of_observes hR (.bind (observes_picture y) fun _ => .pure _)

end steps

section edits

open Edit (Change)

/-- What carries over from the parts of an edit to the whole: a property of the actions that may be
taken while a value is in hand. -/
structure EditRules (C : (α : Type) → Value → Run α → Prop) : Prop where
  pure {α : Type} (v : Value) (a : α) : C α v (pure a)
  throw {α : Type} (v : Value) (e : Stop) : C α v (throw e)
  map {α β : Type} {v : Value} {act : Run α} (h : C α v act) (f : α → β) :
    C β v (act >>= fun a => Pure.pure (f a))
  read {α : Type} {v : Value} (t : Ty) (d : Datum) {f : Value → Run α} (hf : ∀ x, C α v (f x)) :
    C α v (Reader.read t d >>= f)
  unwinding {α : Type} {v : Value} {act : Run α} (h : C α v act) (built : List Value) :
    C α v (Run.unwinding built act)
  part {α : Type} {u v : Value} {act : Run α} (h : C α u act) (hu : u.pieces ≤ v.pieces) : C α v act
  put (kind : HandleKind) (target : Option Nat) (content : Value) :
    C Unit (.handle kind target) (Cell.put target content)
  update {α : Type} {change : Value → Run (Value × α)} (h : ∀ content, C _ content (change content))
    (kind : HandleKind) (target : Option Nat) :
    C α (.handle kind target) (Cell.update target change)

theorem Value.pieces_le_node {v : Value} {parts : List Value} (h : v ∈ parts) (shape : Shape) :
    v.pieces ≤ (Value.node shape parts).pieces := by
  obtain ⟨before, rest, rfl⟩ := List.append_of_mem h
  rw [Value.pieces_node, Value.piecesOf_append, Value.piecesOf_cons, add_left_comm]
  exact Multiset.le_add_right _ _

namespace EditRules

variable {C : (α : Type) → Value → Run α → Prop} {α β : Type} {v : Value}

theorem orRefuse (hC : EditRules C) {o : Option α} {f : α → Run β} (hf : ∀ a, C β v (f a)) :
    C β v (Run.orRefuse o >>= f) := by
  cases o with
  | none => exact hC.throw v _
  | some a => exact hf a

theorem expectInt (hC : EditRules C) (x : Value) {f : Int → Run β} (hf : ∀ n, C β v (f n)) :
    C β v (Reader.expectInt x >>= f) := by
  unfold Reader.expectInt
  split
  · exact hf _
  · exact hC.throw v _

theorem readNat (hC : EditRules C) {t : IntType} {d : Option Datum} {f : Nat → Run β}
    (hf : ∀ n, C β v (f n)) : C β v (Reader.readNat t d >>= f) := by
  unfold Reader.readNat
  simp only [bind_assoc, pure_bind]
  exact hC.orRefuse fun x => hC.read _ _ fun y => hC.expectInt y fun n => hf n.toNat

theorem reading (hC : EditRules C) (t : Ty) (d : Datum) : C Value v (Reader.read t d) := by
  have h := hC.read (v := v) t d fun x => hC.pure v x
  rwa [bind_pure] at h

/-- An edit of a part is an edit of the whole. -/
theorem inside (hC : EditRules C) {p : Value} {act : Run α} (h : C α p act) {parts : List Value}
    (hp : p ∈ parts) (shape : Shape) (f : α → β) :
    C β (.node shape parts) (act >>= fun a => Pure.pure (f a)) :=
  hC.part (hC.map h f) (Value.pieces_le_node hp shape)

theorem editList (hC : EditRules C) (elem : Ty) (parts : List Value) (m : Datum) :
    C _ v (Edit.editList elem parts m) := by
  unfold Edit.editList
  split
  · exact hC.map (hC.reading _ _) _
  · exact hC.pure v _
  · split
    · exact hC.pure v _
    · exact hC.pure v _
  · exact hC.throw v _

theorem editMap (hC : EditRules C) (key value : Ty) (entries : Entries) (m : Datum) :
    C _ v (Edit.editMap key value entries m) := by
  unfold Edit.editMap
  split
  · exact hC.read _ _ fun k => hC.map (hC.unwinding (hC.reading _ _) [k]) _
  · exact hC.map (hC.reading _ _) _
  · exact hC.pure v _
  · exact hC.throw v _

theorem editPart (hC : EditRules C) {shape : Shape} {parts : List Value} {i : Nat}
    {change : Value → Run (Change Value)} (h : ∀ p ∈ parts, C _ p (change p)) :
    C _ (.node shape parts) (Edit.editPart i parts change) := by
  unfold Edit.editPart
  split
  next p hp =>
    have hp := List.mem_of_getElem? hp
    exact hC.inside (h p hp) hp shape _
  next => exact hC.throw _ _

theorem editEntry (hC : EditRules C) {shape : Shape} {entries : List Value} {key : Value}
    {change : Value → Run (Change Value)} (h : ∀ p, C _ p (change p)) :
    C _ (.node shape entries) (Edit.editEntry key entries change) := by
  unfold Edit.editEntry
  split
  · refine hC.editPart fun entry _ => ?_
    split
    · exact hC.inside (h _) (by simp) _ _
    · exact hC.throw _ _
  · exact hC.throw _ _

/-- An edit along any path of any value. -/
theorem edit (hC : EditRules C) (t : Ty) (v : Value) (m : Datum) : C _ v (Edit.edit t v m) := by
  have below : ∀ path : Datum, sizeOf path < sizeOf m → ∀ t v, C _ v (Edit.edit t v path) :=
    fun path _ t v => hC.edit t v path
  have inner : ∀ u, sizeOf u < sizeOf v → ∀ t, C _ u (Edit.edit t u m) := fun u _ t => hC.edit t u m
  cases hs : m.field? "set" with
  | some x =>
    rw [Edit.edit.eq_def, hs]
    exact hC.map (hC.reading _ _) _
  | none =>
  cases hp : m.field? "panic" with
  | some text =>
    rw [Edit.edit.eq_def, hs, hp]
    exact hC.orRefuse fun _ => hC.throw v _
  | none =>
  rcases editable_or_refused (t := t) (v := v) hs hp with h | h
  · rw [Edit.edit.eq_def, hs, hp]
    cases h with
    | int it n => exact hC.orRefuse fun x => hC.read _ _ fun y => hC.expectInt y fun _ => hC.pure _ _
    | string text => exact hC.orRefuse fun _ => hC.pure _ _
    | list elem shape parts =>
      dsimp only
      split
      · exact hC.map (hC.editList _ _ _) _
      · split
        next path hpath =>
          exact hC.readNat fun i => hC.map
            (hC.editPart fun p _ => below path (Datum.sizeOf_field hpath) elem p) _
        next => exact hC.throw _ _
    | array elem size shape parts =>
      dsimp only
      split
      next path hpath =>
        exact hC.readNat fun i => hC.map
          (hC.editPart fun p _ => below path (Datum.sizeOf_field hpath) elem p) _
      next => exact hC.throw _ _
    | tuple first rest shape parts =>
      dsimp only
      split
      next path hpath =>
        exact hC.orRefuse fun i => hC.orRefuse fun component => hC.map
          (hC.editPart fun p _ => below path (Datum.sizeOf_field hpath) component p) _
      next => exact hC.throw _ _
    | map t key value levels parts ht =>
      simp only [List.mem_cons, List.not_mem_nil, or_false] at ht
      obtain rfl | rfl | rfl := ht
      all_goals
        dsimp only
        split
        · exact hC.map (hC.editMap _ _ _ _) _
        · split
          next path hpath =>
            exact hC.orRefuse fun x => hC.read _ _ fun k => hC.map (hC.unwinding
              (hC.editEntry fun p => below path (Datum.sizeOf_field hpath) value p) [k]) _
          next => exact hC.throw _ _
    | option elem p =>
      dsimp only
      split
      next path hpath =>
        exact hC.inside (below path (Datum.sizeOf_field hpath) elem p) (by simp) _ _
      next => exact hC.throw _ _
    | boxed elem p =>
      dsimp only
      split
      next path hpath =>
        exact hC.inside (below path (Datum.sizeOf_field hpath) elem p) (by simp) _ _
      next => exact hC.throw _ _
    | cell elem kind target =>
      dsimp only
      split
      next x _ => exact hC.read _ _ fun content => hC.map (hC.put kind target content) _
      next path _ hpath =>
        exact hC.map (hC.update (fun content =>
          hC.map (below path (Datum.sizeOf_field hpath) elem content) _) kind target) _
      next => exact hC.throw _ _
    | dog shape name tricks =>
      dsimp only
      split
      next path hpath =>
        exact hC.inside (below path (Datum.sizeOf_field hpath) _ tricks) (by simp) _ _
      next => exact hC.throw _ _
    | inventory shape owner items stock =>
      dsimp only
      split
      next path hpath =>
        exact hC.inside (below path (Datum.sizeOf_field hpath) _ items) (by simp) _ _
      next path _ hpath =>
        exact hC.inside (below path (Datum.sizeOf_field hpath) _ stock) (by simp) _ _
      next => exact hC.throw _ _
    | dyn shape parts =>
      dsimp only
      split
      all_goals try contradiction
      next p _ hv =>
        cases hv
        exact hC.part (hC.map (inner p (by simp; omega) .dyn) _) (by simp)
      next p _ hv =>
        cases hv
        exact hC.part (hC.map (inner p (by simp; omega) (.array .dyn 2)) _) (by simp)
      next variant p _ _ _ hv =>
        cases hv
        exact hC.part (hC.map (inner p (by simp; omega) variant.content) _) (by simp)
      next => exact hC.throw _ _
  · rw [h]
    exact hC.throw v _
termination_by (sizeOf m, sizeOf v)

end EditRules

end edits

end SharedValues
