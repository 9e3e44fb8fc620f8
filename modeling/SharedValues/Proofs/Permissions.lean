import SharedValues.Proofs.Effects
import SharedValues.Proofs.Separation

/-!
What all steps do to any state whatever, if stores and locks may change at will: reading, deep
copies and edits included. Storing a value behind a handle and the competition of threads for a
table are left to whoever asks, because these are the only places where tables are published.
-/
namespace SharedValues

/-- The relation allows for whatever happens to the store and the locks, as long as no slot is
allocated. -/
structure Permissive (R : World → World → Prop) : Prop extends Lenient R where
  store (w : World) (s : Store) : R w { w with store := s }
  locks (w : World) (ids : List Nat) : R w { w with locks := ids }
  allocate (w : World) {role : Role} (hk : role.kind ≠ .slot) (content : Value) :
    R w (w.allocate role content)

/-- The relation also allows for values to be stored. -/
structure Receptive (R : World → World → Prop) : Prop extends Permissive R where
  set (current : Option Nat) (t : Ty) (v : Value) : Run.Within R (Erased.set current t v)

open Run (Within)

variable {R : World → World → Prop}

section library

theorem within_allocate (hR : Permissive R) {role : Role} (hk : role.kind ≠ .slot) (content : Value) :
    Within R (Run.allocate role content) :=
  fun w => hR.allocate w hk content

/-- An allocation whose handle is all that is wanted. -/
theorem within_allocateHandle (hR : Permissive R) {role : Role} (hk : role.kind ≠ .slot)
    (content : Value) : Within R (do
      let id ← Run.allocate role content
      pure (some id)) :=
  .bind hR.toLenient (within_allocate hR hk content) fun _ => .pure hR.toLenient _

theorem within_deepThrough (hR : Permissive R) (hops : Nat) (k : HandleKind) (id : Nat) :
    Within R (Value.deepThrough hops k id) := by
  have hL := hR.toLenient
  induction hops generalizing k id with
  | zero =>
    cases k with
    | slot | callable =>
      rw [Value.deepThrough]
      exact within_share hL _ _
    | cell | object => exact .of_observes hL (.throw _)
  | succ hops ih =>
    have hcontent : ∀ (a : Allocation), a.role.kind ≠ .slot → Within R (do
        let content ← a.content.copyWith .deep (Value.deepThrough hops)
        Run.allocate a.role content) := fun a hk =>
      .bind hL (within_copyWith hL .deep ih a.content) fun content => within_allocate hR hk content
    cases k with
    | slot | callable =>
      rw [Value.deepThrough]
      exact within_share hL _ _
    | cell | object =>
      intro w
      rw [Value.deepThrough]
      · refine hL.bind_after (Within.of_observes hL (.read _ _) w) fun a v ha => ?_
        refine hcontent a ?_ v
        rw [(Run.read_inv ha).2.1]
        decide
      · rintro ⟨⟩
      · rintro ⟨⟩

theorem within_deepCopy (hR : Permissive R) (v : Value) : Within R v.deepCopy :=
  .bind hR.toLenient (.of_observes hR.toLenient .get) fun w =>
    within_copyWith hR.toLenient .deep (within_deepThrough hR w.hops) v

theorem within_write (hR : Permissive R) (id : Nat) (a : Allocation) : Within R (Run.write id a) :=
  fun w => hR.store w _

theorem within_cellWrite (hR : Permissive R) (id : Nat) (content : Value) :
    Within R (Cell.write id content) :=
  .bind hR.toLenient (.of_observes hR.toLenient (.read _ _)) fun _ => within_write hR _ _

theorem within_locking (hR : Permissive R) {α : Type} {act : Run α} (h : Within R act) (id : Nat) :
    Within R (Run.locking id act) := by
  intro w
  rw [Run.after_locking]
  exact hR.trans (hR.trans (hR.locks w (id :: w.locks)) (h _)) (hR.locks _ _)

theorem within_put (hR : Permissive R) (target : Option Nat) (content : Value) :
    Within R (Cell.put target content) := by
  have hL := hR.toLenient
  refine .bind hL ((Within.of_observes hL (observes_address target)).unwinding hL _) fun id => ?_
  exact .bind hL (.of_observes hL (.read _ _)) fun a => .bind hL (within_write hR _ _) fun _ =>
    .drop hL _

theorem within_update (hR : Permissive R) {α : Type} {change : Value → Run (Value × α)}
    (h : ∀ content, Within R (change content)) (target : Option Nat) :
    Within R (Cell.update target change) := by
  have hL := hR.toLenient
  refine .bind hL (.of_observes hL (observes_address target)) fun id => ?_
  refine .bind hL (.of_observes hL (.read _ _)) fun a => within_locking hR ?_ id
  exact .bind hL (h a.content) fun x => .bind hL (within_cellWrite hR _ _) fun _ => .pure hL _

theorem within_poke (hR : Permissive R) (target : Option Nat) (n : Nat) :
    Within R (Object.poke target n) := by
  have hL := hR.toLenient
  cases target with
  | none => exact .of_observes hL (.fatal _)
  | some id =>
    refine .bind hL (.of_observes hL (.read _ _)) fun a => ?_
    split
    · unfold Object.pokeValue
      split
      · refine within_update hR (fun content => .of_observes hL ?_) _
        unfold Object.addTrick
        split
        · exact .pure _
        · exact .throw _
      · exact .pure hL _
      · exact .bind hL (.of_observes hL (.read _ _)) fun _ => .bind hL (within_write hR _ _)
          fun _ => .pure hL _
      · exact .of_observes hL (.bind (.callHook _ _) fun _ => .pure _)
      · exact .of_observes hL .refuse
    · exact .of_observes hL .refuse

theorem within_apply (hR : Permissive R) (code : Code) (captured x : Value) :
    Within R (Function.apply code captured x) := by
  have hL := hR.toLenient
  rcases Function.apply_cases code captured x with ⟨v, he⟩ | ⟨e, he⟩ | ⟨total, n, -, -, he⟩
  · rw [he]
    exact .pure hL v
  · rw [he]
    exact .of_observes hL (.throw e)
  · rw [he]
    refine within_update hR (fun content => .of_observes hL ?_) total
    unfold Function.addTo
    split
    · exact .pure _
    · exact .throw _

end library

section reading

theorem within_collect (hR : Lenient R) {acts : List (Run Value)} (h : ∀ act ∈ acts, Within R act)
    (shape : Shape) (done : List Value) : Within R (Run.collect shape done acts) := by
  induction acts generalizing done with
  | nil => exact .pure hR _
  | cons act acts ih =>
    exact .bind hR ((h act (by simp)).unwinding hR _) fun v => ih (fun a ha => h a (by simp [ha])) _

theorem within_collectEntries (hR : Lenient R) {acts : List (Run (Value × Value))}
    (h : ∀ act ∈ acts, Within R act) (entries : Entries) :
    Within R (Run.collectEntries entries acts) := by
  induction acts generalizing entries with
  | nil => exact .pure hR _
  | cons act acts ih =>
    exact .bind hR ((h act (by simp)).unwinding hR _) fun x => .bind hR (.drop hR _) fun _ =>
      ih (fun a ha => h a (by simp [ha])) _

theorem within_replicate (hR : Lenient R) (n : Nat) (v : Value) : Within R (Run.replicate n v) := by
  cases n with
  | zero => exact .bind hR (.drop hR _) fun _ => .pure hR _
  | succ n =>
    refine .bind hR (.unwinding hR (within_collect hR (fun act ha => ?_) _ _) _) fun _ => .pure hR _
    rw [List.eq_of_mem_replicate ha]
    exact within_clone hR v

theorem within_function (hR : Permissive R) (code : Code) (captured : Value) :
    Within R (Reader.function code captured) :=
  .bind hR.toLenient (within_allocateHandle hR (by simp [Role.kind]) _) fun _ =>
    .pure hR.toLenient _

theorem within_readFunction (hR : Permissive R) (signature : Signature) (name : String) (d : Datum) :
    Within R (Reader.readFunction signature name d) := by
  have hL := hR.toLenient
  unfold Reader.readFunction
  dsimp only
  split
  · exact .bind hL (.of_observes hL (.bind (.orRefuse _) fun _ => .pure _)) fun code =>
      within_function hR code _
  · exact .bind hL (.of_observes hL (.orRefuse _)) fun code => within_function hR code _

theorem within_cellNew (hR : Permissive R) (elem : Ty) (content : Value) :
    Within R (Cell.new elem content) :=
  within_allocateHandle hR (by simp [Role.kind]) content

theorem within_nestDyn (hR : Permissive R) (kind : String) (n : Nat) (v : Value) :
    Within R (Reader.nestDyn kind n v) := by
  have hL := hR.toLenient
  induction n generalizing v with
  | zero => exact .pure hL v
  | succ n ih =>
    refine .bind hL ?_ fun v => ih v
    unfold Reader.wrapDyn
    split
    · exact .pure hL _
    · exact .pure hL _
    · exact .pure hL _
    · exact .bind hL (within_cellNew hR _ _) fun _ => .pure hL _
    · exact .unwinding hL (.of_observes hL .refuse) _

/-- Data smaller than the given one is read within the relation, whatever the type. -/
def ReadsWithin (R : World → World → Prop) (d : Datum) : Prop :=
  ∀ x : Datum, sizeOf x < sizeOf d → ∀ t, Within R (Reader.read t x)

variable {d : Datum}

theorem within_readItems (hR : Lenient R) {ds : List Datum} (ih : ReadsWithin R (.list ds)) (elem : Ty)
    (shape : Shape) :
    Within R (Run.collect shape [] (ds.attach.map fun x => Reader.read elem x.1)) := by
  refine within_collect hR (fun act ha => ?_) _ _
  obtain ⟨⟨x, hx⟩, -, rfl⟩ := List.mem_map.mp ha
  exact ih x (Datum.sizeOf_item hx) elem

theorem within_readList (hR : Lenient R) (hd : d.field? "$var" = none) (ih : ReadsWithin R d)
    (elem : Ty) : Within R (Reader.read (.list elem) d) := by
  rw [Reader.read.eq_def, hd]
  dsimp only
  split
  · exact .bind hR (within_readItems hR ih elem _) fun _ => .pure hR _
  · exact .of_observes hR .refuse

theorem within_readArray (hR : Lenient R) (hd : d.field? "$var" = none) (ih : ReadsWithin R d)
    (elem : Ty) (size : Nat) : Within R (Reader.read (.array elem size) d) := by
  rw [Reader.read.eq_def, hd]
  dsimp only
  split
  · exact .bind hR (within_readItems hR ih elem _) fun _ =>
      .bind hR (.unwinding hR (.of_observes hR (.require _)) _) fun _ => .pure hR _
  · exact .of_observes hR .refuse

theorem within_readTuple (hR : Lenient R) (hd : d.field? "$var" = none) (ih : ReadsWithin R d)
    (first rest : Ty) : Within R (Reader.read (.tuple first rest) d) := by
  rw [Reader.read.eq_def, hd]
  dsimp only
  split
  · refine .bind hR (.of_observes hR (.require _)) fun _ =>
      .bind hR (within_collect hR (fun act ha => ?_) _ _) fun _ => .pure hR _
    obtain ⟨⟨t, x, hx⟩, -, rfl⟩ := List.mem_map.mp ha
    exact ih x (Datum.sizeOf_item hx) t
  · exact .of_observes hR .refuse

theorem within_readMap (hR : Lenient R) {t : Ty} (key value : Ty)
    (ht : t ∈ [Ty.sortedMap key value, .hashedMap key value, .fixedMap key value])
    (hd : d.field? "$var" = none) (ih : ReadsWithin R d) : Within R (Reader.read t d) := by
  simp only [List.mem_cons, List.not_mem_nil, or_false] at ht
  obtain rfl | rfl | rfl := ht
  all_goals
    rw [Reader.read.eq_def, hd]
    dsimp only
    split
    next ds =>
      refine .bind hR (within_collectEntries hR (fun act ha => ?_) _) fun _ => .pure hR _
      obtain ⟨⟨x, hx⟩, -, rfl⟩ := List.mem_map.mp ha
      dsimp only
      split
      next k v hx =>
        exact .bind hR (ih k (Datum.sizeOf_key hx) key) fun _ =>
          .bind hR ((ih v (Datum.sizeOf_value hx) value).unwinding hR _) fun _ => .pure hR _
      next => exact .of_observes hR .refuse
    next => exact .of_observes hR .refuse

theorem within_readCell (hR : Permissive R) (hd : d.field? "$var" = none) (ih : ReadsWithin R d)
    (elem : Ty) : Within R (Reader.read (.cell elem) d) := by
  have hL := hR.toLenient
  rw [Reader.read.eq_def, hd]
  dsimp only
  split
  · exact .pure hL _
  · split
    next x hx =>
      exact .bind hL (ih x (Datum.sizeOf_field hx) elem) fun v =>
        .bind hL (within_cellNew hR elem v) fun _ => .pure hL _
    next => exact .of_observes hL .refuse

/-- Erased values are the only ones that are stored while they are read. -/
theorem within_readErased (hR : Receptive R) (hd : d.field? "$var" = none) (ih : ReadsWithin R d) :
    Within R (Reader.read .erased d) := by
  have hL := hR.toLenient
  rw [Reader.read.eq_def, hd]
  dsimp only
  split
  · exact .pure hL _
  · split
    next x hx =>
      exact .bind hL (.of_observes hL (.orRefuse _)) fun type =>
        .bind hL (.of_observes hL (.require _)) fun _ =>
          .bind hL (ih x (Datum.sizeOf_field hx) type) fun v =>
            .bind hL (hR.set none type v) fun _ => .pure hL _
    next => exact .of_observes hL .refuse

theorem within_readObject (hR : Permissive R) (hd : d.field? "$var" = none) (ih : ReadsWithin R d)
    (i : Interface) : Within R (Reader.read (.object i) d) := by
  have hL := hR.toLenient
  rw [Reader.read.eq_def, hd]
  dsimp only
  split
  · exact .pure hL _
  · split
    next x hx =>
      exact .bind hL (.of_observes hL (.orRefuse _)) fun type =>
        .bind hL (.of_observes hL (.require _)) fun _ =>
          .bind hL (ih x (Datum.sizeOf_field hx) type) fun v =>
            .bind hL (within_allocateHandle hR (by simp [Role.kind]) v) fun _ => .pure hL _
    next => exact .of_observes hL .refuse

theorem within_readClosure (hR : Permissive R) (hd : d.field? "$var" = none) (ih : ReadsWithin R d)
    (signature : Signature) : Within R (Reader.read (.function signature) d) := by
  have hL := hR.toLenient
  rw [Reader.read.eq_def, hd]
  dsimp only
  split
  next => exact .pure hL _
  next =>
    refine .bind hL (.of_observes hL (.orRefuse _)) fun name => ?_
    split
    next =>
      split
      next x hx =>
        exact .bind hL (ih x (Datum.sizeOf_field hx) _) fun v => within_function hR .tally v
      next => exact .of_observes hL .refuse
    next =>
      split
      next x hx =>
        refine .bind hL (ih x (Datum.sizeOf_field hx) .probe) fun v => ?_
        split
        · exact .bind hL (within_function hR _ _) fun _ => .bind hL (.drop hL _) fun _ => .pure hL _
        · exact .unwinding hL (.of_observes hL .refuse) _
      next => exact .of_observes hL .refuse
    next =>
      split
      next x _ hx =>
        exact .bind hL (ih x (Datum.sizeOf_field hx) _) fun v =>
          .bind hL (within_expectInt hL v) fun n => within_function hR _ _
      next => exact .of_observes hL .refuse
      next => exact within_readFunction hR _ _ d
    next => exact within_readFunction hR _ _ d

theorem within_readProbe (hR : Lenient R) (hd : d.field? "$var" = none) (ih : ReadsWithin R d) :
    Within R (Reader.read .probe d) := by
  have hcreate : ∀ p, Within R (Run.create p) := fun p w => hR.create w p
  rw [Reader.read.eq_def, hd]
  dsimp only
  split
  · split
    next x hx =>
      exact .bind hR (ih x (Datum.sizeOf_field hx) _) fun v =>
        .bind hR (within_expectInt hR v) fun _ =>
          .bind hR (.of_observes hR (.orRefuse _)) fun _ => hcreate _
    next => exact .of_observes hR .refuse
  · exact .bind hR (within_readInt hR _ _) fun _ => hcreate _

theorem within_readDog (hR : Lenient R) (hd : d.field? "$var" = none) (ih : ReadsWithin R d) :
    Within R (Reader.read .dog d) := by
  rw [Reader.read.eq_def, hd]
  dsimp only
  split
  next x y hx hy =>
    exact .bind hR (ih x (Datum.sizeOf_field hx) _) fun _ =>
      .bind hR ((ih y (Datum.sizeOf_field hy) _).unwinding hR _) fun _ => .pure hR _
  next => exact .of_observes hR .refuse

theorem within_readInventory (hR : Lenient R) (hd : d.field? "$var" = none)
    (ih : ReadsWithin R d) : Within R (Reader.read .inventory d) := by
  rw [Reader.read.eq_def, hd]
  dsimp only
  split
  next x y z hx hy hz =>
    exact .bind hR (ih x (Datum.sizeOf_field hx) _) fun _ =>
      .bind hR ((ih y (Datum.sizeOf_field hy) _).unwinding hR _) fun _ =>
        .bind hR ((ih z (Datum.sizeOf_field hz) _).unwinding hR _) fun _ => .pure hR _
  next => exact .of_observes hR .refuse

theorem within_readCount (hR : Lenient R) {r : Datum} (ih : ReadsWithin R r) (v : Value) :
    Within R (Run.unwinding [v] <|
      match _h : r.field? "n" with
      | some n => do Reader.expectInt (← Reader.read (.int .usize) n)
      | none => Run.refuse) := by
  refine .unwinding hR ?_ _
  split
  next n hn => exact .bind hR (ih n (Datum.sizeOf_field hn) _) fun v => within_expectInt hR v
  next => exact .of_observes hR .refuse

theorem within_readDyn (hR : Permissive R) (hd : d.field? "$var" = none) (ih : ReadsWithin R d) :
    Within R (Reader.read .dyn d) := by
  have hL := hR.toLenient
  have ih' : ∀ {key : String} {r : Datum}, d = .record [(key, r)] → ReadsWithin R r := by
    rintro key r rfl x hx
    refine ih x ?_
    simp only [Datum.record.sizeOf_spec, List.cons.sizeOf_spec, Prod.mk.sizeOf_spec]
    omega
  rw [Reader.read.eq_def, hd]
  dsimp only
  split
  next r =>
    split
    next x hx =>
      exact .bind hL (ih' rfl x (Datum.sizeOf_field hx) .dyn) fun v =>
        .bind hL (within_readCount hL (ih' rfl) v) fun count =>
          .bind hL (within_replicate hL _ v) fun _ => .pure hL _
    next => exact .of_observes hL .refuse
  next r =>
    split
    next x hx =>
      exact .bind hL (ih' rfl x (Datum.sizeOf_field hx) .dyn) fun v =>
        .bind hL (within_readCount hL (ih' rfl) v) fun count =>
          .bind hL (.unwinding hL (.of_observes hL (.orRefuse _)) _) fun kind =>
            within_nestDyn hR kind _ v
    next => exact .of_observes hL .refuse
  next key x _ _ =>
    have hx : sizeOf x < sizeOf (Datum.record [(key, x)]) := by
      simp only [Datum.record.sizeOf_spec, List.cons.sizeOf_spec, Prod.mk.sizeOf_spec]
      omega
    exact .bind hL (.of_observes hL (.orRefuse _)) fun variant =>
      .bind hL (ih x hx variant.content) fun _ => .pure hL _
  next => exact .of_observes hL .refuse

/-- Reading any value. -/
theorem within_read (hR : Receptive R) (t : Ty) (d : Datum) : Within R (Reader.read t d) := by
  have hL := hR.toLenient
  have below : ReadsWithin R d := fun x _ t => within_read hR t x
  cases hv : d.field? "$var" with
  | some name =>
    rw [Reader.read.eq_def, hv]
    exact .bind hL (.of_observes hL (.orRefuse _)) fun name => within_readVariable hL t name
  | none =>
    induction t with
    | boxed elem ihe =>
      rw [Reader.read.eq_def, hv]
      exact .bind hL ihe fun _ => .pure hL _
    | list elem => exact within_readList hL hv below elem
    | array elem size => exact within_readArray hL hv below elem size
    | tuple first rest => exact within_readTuple hL hv below first rest
    | option elem =>
      rw [Reader.read.eq_def, hv]
      dsimp only
      split
      · exact .pure hL _
      · split
        next x hx => exact .bind hL (below x (Datum.sizeOf_field hx) elem) fun _ => .pure hL _
        next => exact .of_observes hL .refuse
    | sortedMap k v | hashedMap k v | fixedMap k v => exact within_readMap hL k v (by simp) hv below
    | cell elem => exact within_readCell hR.toPermissive hv below elem
    | erased => exact within_readErased hR hv below
    | object i => exact within_readObject hR.toPermissive hv below i
    | function signature => exact within_readClosure hR.toPermissive hv below signature
    | probe => exact within_readProbe hL hv below
    | dog => exact within_readDog hL hv below
    | inventory => exact within_readInventory hL hv below
    | dyn => exact within_readDyn hR.toPermissive hv below
    | int | meters | feet | cat | counter =>
      rw [Reader.read.eq_def, hv]
      exact .bind hL (within_readInt hL _ d) fun _ => .pure hL _
    | float32 | float64 | string | borrowed =>
      rw [Reader.read.eq_def, hv]
      exact .of_observes hL (.bind (.orRefuse _) fun _ => .pure _)
    | char =>
      rw [Reader.read.eq_def, hv]
      refine .of_observes hL (.bind (.bind (.orRefuse _) fun s => ?_) fun _ => .pure _)
      split
      · exact .pure _
      · exact .refuse
    | bool | unit =>
      rw [Reader.read.eq_def, hv]
      dsimp only
      split
      · exact .pure hL _
      · exact .of_observes hL .refuse
    | nil | textSlice | intSlice | interface =>
      rw [Reader.read.eq_def, hv]
      exact .of_observes hL .refuse
termination_by sizeOf d

end reading

section steps

open Machine

theorem editRules_within (hR : Receptive R) : EditRules fun _ _ act => Within R act where
  pure _ a := .pure hR.toLenient a
  throw _ e := .of_observes hR.toLenient (.throw e)
  map h _ := .bind hR.toLenient h fun _ => .pure hR.toLenient _
  read t d _ hf := .bind hR.toLenient (within_read hR t d) hf
  unwinding h built := .unwinding hR.toLenient h built
  part h _ := h
  put _ target content := within_put hR.toPermissive target content
  update h _ target := within_update hR.toPermissive h target

theorem within_mutate (hR : Receptive R) (name : String) (path : Datum) :
    Within R (mutate name path) := by
  have hL := hR.toLenient
  refine .bind hL (fun w => ?_) fun c => .bind hL (within_finish hL c) fun _ => .pure hL _
  rcases editVariable_cases name path w with e | ⟨v, x, -, e⟩
  · rw [e]
    exact hR.refl w
  · rw [e]
    have hedit := (editRules_within hR).edit v.type v.value path (w.unbind name)
    exact hR.trans (hR.trans (hR.bind w _) hedit) (hR.bind _ _)

/-- All steps except those in which threads compete for a table. -/
theorem within_perform (hR : Receptive R) (fresh : Bool) {step : Step}
    (hstep : ∀ type count, step ≠ .race type count) : Within R (perform fresh step) := by
  have hL := hR.toLenient
  by_cases hplain : step.plain
  · exact within_plain hL fresh hplain
  cases step with
  | define target type value =>
    exact .bind hL (within_read hR type value) fun v => within_deliver hL target type v
  | deep target source =>
    exact .bind hL (.of_observes hL (observes_lookup source)) fun v =>
      .bind hL (.of_observes hL (.require _)) fun _ =>
        .bind hL (within_deepCopy hR.toPermissive _) fun copy => within_deliver hL target _ copy
  | mutate var path => exact within_mutate hR var path
  | race type count => exact absurd rfl (hstep type count)
  | new target type value =>
    exact .bind hL (.of_observes hL (.require _)) fun _ => .bind hL (within_read hR type value) fun v =>
      .bind hL (hR.set none type v) fun _ => within_deliver hL target _ _
  | set var type value =>
    exact .bind hL (.of_observes hL (.require _)) fun _ => .bind hL (within_read hR type value) fun v =>
      .bind hL (.unwinding hL (.of_observes hL (observes_lookupErased var)) _) fun current =>
        .bind hL (hR.set current type v) fun _ => .bind hL (.of_observes hL (.orRefuse var)) fun _ =>
          .bind hL (.bindVariable hL _ _ _) fun _ => .pure hL _
  | erasedEquals var type value =>
    refine .bind hL (.of_observes hL (.require _)) fun _ =>
      .bind hL (within_read hR type value) fun v =>
        .bind hL (.dropping hL (.of_observes hL ?_) _) fun _ => .pure hL _
    exact .bind (observes_lookupErased var) fun target => observes_equalsValue target type v
  | poke var n => exact within_pokeStep hL (within_poke hR.toPermissive) var n
  | call var argument total =>
    exact within_callStep hL (within_call hL (within_apply hR.toPermissive)) var argument total
  | _ => exact absurd rfl hplain

end steps

end SharedValues
