import SharedValues.Proofs.Building

/-!
Reading makes values of the type that is asked for out of nothing. One statement per group of types
says so on the assumption that smaller data is read well; the data itself carries the induction,
and the type only where a box hands its own datum on.
-/
namespace SharedValues

/-- Data smaller than the given one is read well, whatever the type. -/
def ReadsBelow (d : Datum) : Prop :=
  ∀ x : Datum, sizeOf x < sizeOf d → ∀ t, Supplies t (Reader.read t x)

section plain

theorem yields_readInt (t : IntType) (d : Datum) :
    Yields (fun n => t.holds n) (Reader.readInt t d) :=
  (yields_orRefuse _).bind fun _ _ =>
    (yields_require _).bind fun _ hn => Turns.pure rfl fun _ _ => hn

theorem yields_readChar (d : Datum) : Yields (fun _ => True) (Reader.readChar d) := by
  refine (yields_orRefuse _).bind fun s _ => ?_
  split
  · exact Turns.pure rfl fun _ _ => trivial
  · exact Turns.refuse rfl

/-- A number that is read as a value owns nothing. -/
theorem yields_expectInt {t : IntType} {act : Run Value} (h : Supplies (.int t) act) :
    Yields (fun n => t.holds n) (do Reader.expectInt (← act)) := by
  refine Turns.bind h fun v frame c hh _ hv => ?_
  obtain ⟨n, rfl, hn⟩ := hv.int_inv
  exact .pure ⟨by simpa using hh, rfl, hn⟩

/-- The types that wrap one number. -/
theorem supplies_wrapped {t : Ty} {it : IntType} {shape : Shape} (d : Datum)
    (hp : Place.parts (.value t) shape 1 = some [.value (.int it)]) :
    Supplies t (do return .node shape [.int (← Reader.readInt it d)]) :=
  (yields_readInt it d).supplies (f := fun n => .node shape [.int n]) (by simp)
    fun _ _ hn => ⟨_, hp, hasType_int hn, trivial⟩

/-- The types whose values are single scalars. -/
theorem supplies_scalar {t : Ty} {α : Type} {act : Run α} {Q : α → Prop} {f : α → Scalar}
    (h : Yields Q act) (ht : ∀ a, Q a → t.hasScalar (f a)) :
    Supplies t (do return .scalar (f (← act))) :=
  h.supplies (f := fun a => .scalar (f a)) (by simp) fun a _ ha => ⟨_, rfl, ht a ha⟩

end plain

/-- A clone of a variable of the right type. -/
theorem supplies_variable (t : Ty) (name : String) : Supplies t (Reader.readVariable t name) := by
  intro frame c hh ho _
  refine .ofSound fun hs => ?_
  refine .bind (Q := fun v d => d = c ∧ c.world.find? name = some v) ?_ ?_
  · refine .bind (Q := fun w d => d = c ∧ w = c.world) (.get ⟨rfl, rfl⟩) ?_
    rintro w _ - - - ⟨rfl, rfl⟩
    exact .orRefuse (fun v hv => ⟨rfl, hv⟩) hh
  · rintro v _ - - - ⟨rfl, hv⟩
    refine .bind (Q := fun _ d => d = _ ∧ v.type = t)
      (.require (fun h => ⟨rfl, by simpa using h⟩) hh) ?_
    rintro _ e - - - ⟨rfl, ht⟩
    have hm := World.mem_of_find? hv
    have hf : Fits e.world.store (.value t) v.value := by
      rw [← ht]
      exact hs.bound _ hm
    have hle := (World.pieces_le_owned hm).trans ho
    refine ((accounts_clone hf fun h hmem => hs.alive_of_hand ?_).mono ?_ ?_).widen
      (Accounts.scope_grow_le _)
    · rw [hh, zero_add]
      exact Multiset.mem_of_le hle (Value.handle_mem_pieces.mpr hmem)
    · rintro v' d hmv - - ⟨hd, hv'⟩
      exact ⟨by rw [hd, hh, zero_add], hmv.bindings_eq (by decide), hv'⟩
    · rintro d - - hd
      rw [hd, hh]

section types

variable {d : Datum}

theorem forall₂_reads {ds : List Datum} (ih : ReadsBelow (.list ds)) (elem : Ty) :
    List.Forall₂ Supplies (List.replicate ds.length elem)
      (ds.attach.map fun x => Reader.read elem x.1) := by
  rw [List.forall₂_iff_get]
  refine ⟨by simp, fun i _ _ => ?_⟩
  simpa using ih _ (Datum.sizeOf_item (List.getElem_mem _)) elem

theorem forall₂_readsZip {ds : List Datum} (ih : ReadsBelow (.list ds)) {ts : List Ty}
    (hl : ds.length = ts.length) :
    List.Forall₂ Supplies ts ((ts.zip ds.attach).map fun x => Reader.read x.1 x.2.1) := by
  rw [List.forall₂_iff_get]
  refine ⟨by simp [hl], fun i _ _ => ?_⟩
  simpa using ih _ (Datum.sizeOf_item (List.getElem_mem _)) _

/-- The parts of a list or an array. -/
theorem turns_readParts {ds : List Datum} (ih : ReadsBelow (.list ds)) (elem : Ty) :
    Turns .shrink 0 (fun _ => True)
      (Run.collect .sequence [] (ds.attach.map fun x => Reader.read elem x.1)) Value.piecesOf
      (fun vs s => ∀ v ∈ vs, HasType s elem v) 0 := by
  refine (turns_collect .sequence (forall₂_reads ih elem)).mono (fun _ h => h) fun vs s hs => ?_
  rw [List.map_replicate] at hs
  exact (fitAll_replicate.mp hs).2

theorem supplies_list (elem : Ty) (hd : d.field? "$var" = none) (ih : ReadsBelow d) :
    Supplies (.list elem) (Reader.read (.list elem) d) := by
  rw [Reader.read.eq_def, hd]
  dsimp only
  split
  next ds =>
    exact (turns_readParts ih elem).bind fun vs =>
      Turns.pure (by simp) fun s hs => hasType_list hs
  next => exact .refuse

theorem supplies_array (elem : Ty) (size : Nat) (hd : d.field? "$var" = none)
    (ih : ReadsBelow d) : Supplies (.array elem size) (Reader.read (.array elem size) d) := by
  rw [Reader.read.eq_def, hd]
  dsimp only
  split
  next ds =>
    refine (turns_readParts ih elem).bind fun vs => ?_
    have hr := Turns.beside (F := fun s => ∀ v ∈ vs, HasType s elem v)
      (yields_require (vs.length == size)) vs fun s s' e h v hv => (h v hv).evolve e
    refine hr.bind fun _ => Turns.pure (by simp) ?_
    rintro s ⟨hl, hs⟩
    have hl : vs.length = size := by simpa using hl
    exact ⟨_, by simp [Place.parts, hl], fitAll_replicate.mpr ⟨hl, hs⟩⟩
  next => exact .refuse

theorem supplies_tuple (first rest : Ty) (hd : d.field? "$var" = none) (ih : ReadsBelow d) :
    Supplies (.tuple first rest) (Reader.read (.tuple first rest) d) := by
  rw [Reader.read.eq_def, hd]
  dsimp only
  split
  next ds =>
    refine (yields_require _).then fun _ hl => ?_
    have hl : ds.length = (first :: rest.components).length := by simpa using hl
    refine (turns_collect .tuple (forall₂_readsZip ih hl)).bind fun vs => ?_
    exact Turns.pure (by simp) fun s hs => ⟨_, rfl, hs⟩
  next => exact .refuse

theorem supplies_option (elem : Ty) (hd : d.field? "$var" = none) (ih : ReadsBelow d) :
    Supplies (.option elem) (Reader.read (.option elem) d) := by
  rw [Reader.read.eq_def, hd]
  dsimp only
  split
  next => exact .pure (by simp) fun s => ⟨_, rfl, trivial⟩
  next =>
    split
    next x hx =>
      exact (ih x (Datum.sizeOf_field hx) elem).map (f := fun v => .node .some [v]) (by simp)
        fun s v hv => ⟨_, rfl, hv, trivial⟩
    next => exact .refuse

theorem turns_readEntry {key value : Ty} {k v : Run Value} (hk : Supplies key k)
    (hv : Supplies value v) :
    Turns .shrink 0 (fun _ => True)
      (do let a ← k
          let b ← Run.unwinding [a] v
          pure (a, b))
      (fun x => x.1.pieces + x.2.pieces) (fun x s => HasType s key x.1 ∧ HasType s value x.2) 0 := by
  refine Turns.bind hk fun a => ?_
  have h₁ := hv.beside [a] (stable_fits (.value key) a)
  rw [Value.piecesOf_cons, Value.piecesOf_nil, add_zero] at h₁
  exact h₁.bind fun b => Turns.pure (add_comm _ _) fun s hs => ⟨hs.2, hs.1⟩

theorem hasType_entries {s : Store} {t key value : Ty} {es : Entries}
    (ht : t ∈ [Ty.sortedMap key value, .hashedMap key value, .fixedMap key value])
    (h : es.Fit s key value) : HasType s t es.toValue := by
  refine ⟨List.replicate es.list.length (.entry key value), ?_, fitAll_replicate.mpr ⟨rfl, h.2⟩⟩
  simp only [List.mem_cons, List.not_mem_nil, or_false] at ht
  obtain rfl | rfl | rfl := ht <;> simp [Place.parts, h.1]

theorem supplies_entries {t key value : Ty} {acts : List (Run (Value × Value))}
    (ht : t ∈ [Ty.sortedMap key value, .hashedMap key value, .fixedMap key value])
    (h : ∀ act ∈ acts, Turns .shrink 0 (fun _ => True) act (fun x => x.1.pieces + x.2.pieces)
      (fun x s => HasType s key x.1 ∧ HasType s value x.2) 0) :
    Supplies t (do
      let entries ← Run.collectEntries .empty acts
      pure entries.toValue) := by
  have h₁ : Turns .shrink 0 (fun _ => True) (Run.collectEntries .empty acts)
      (fun es => Value.piecesOf es.list) (fun es s => es.Fit s key value) 0 :=
    (turns_collectEntries h .empty).mono (fun s _ => ⟨rfl, nofun⟩) fun _ _ hs => hs
  exact h₁.bind fun es =>
    Turns.pure (by simp [Entries.toValue]) fun s hs => hasType_entries ht hs

/-- The three kinds of maps are read alike. -/
theorem supplies_map {t : Ty} (key value : Ty)
    (ht : t ∈ [Ty.sortedMap key value, .hashedMap key value, .fixedMap key value])
    (hd : d.field? "$var" = none) (ih : ReadsBelow d) : Supplies t (Reader.read t d) := by
  have ht' := ht
  simp only [List.mem_cons, List.not_mem_nil, or_false] at ht'
  obtain rfl | rfl | rfl := ht'
  all_goals
    rw [Reader.read.eq_def, hd]
    dsimp only
    split
    next ds =>
      refine supplies_entries ht fun act ha => ?_
      obtain ⟨⟨x, hx⟩, -, rfl⟩ := List.mem_map.mp ha
      dsimp only
      split
      next k v hx =>
        exact turns_readEntry (ih k (Datum.sizeOf_key hx) key) (ih v (Datum.sizeOf_value hx) value)
      next => exact Turns.refuse rfl
    next => exact .refuse

theorem supplies_cell (elem : Ty) (hd : d.field? "$var" = none) (ih : ReadsBelow d) :
    Supplies (.cell elem) (Reader.read (.cell elem) d) := by
  rw [Reader.read.eq_def, hd]
  dsimp only
  split
  next => exact .pure rfl (hasType_nothing rfl)
  next =>
    split
    next x hx =>
      refine Turns.bind (ih x (Datum.sizeOf_field hx) elem) fun v => ?_
      exact (turns_cell elem v).bind fun target => Turns.pure rfl fun s hs => hs
    next => exact .refuse

theorem supplies_erased (hd : d.field? "$var" = none) (ih : ReadsBelow d) :
    Supplies .erased (Reader.read .erased d) := by
  rw [Reader.read.eq_def, hd]
  dsimp only
  split
  next => exact .pure rfl (hasType_nothing rfl)
  next =>
    split
    next x hx =>
      refine (yields_orRefuse _).then fun type _ => (yields_require _).then fun _ _ => ?_
      refine Turns.bind (ih x (Datum.sizeOf_field hx) type) fun v => ?_
      exact (turns_erase type v).bind fun target => Turns.pure rfl fun s hs => hs
    next => exact .refuse

theorem supplies_object (i : Interface) (hd : d.field? "$var" = none) (ih : ReadsBelow d) :
    Supplies (.object i) (Reader.read (.object i) d) := by
  rw [Reader.read.eq_def, hd]
  dsimp only
  split
  next => exact .pure rfl (hasType_nothing rfl)
  next =>
    split
    next x hx =>
      refine (yields_orRefuse _).then fun type _ => (yields_require _).then fun _ ha => ?_
      refine Turns.bind (ih x (Datum.sizeOf_field hx) type) fun v => ?_
      exact (turns_object ha v).bind fun target => Turns.pure rfl fun s hs => hs
    next => exact .refuse

theorem supplies_code {code : Code} {signature : Signature} (hs : code.signature = signature)
    (hc : code.captured = .unit) :
    Supplies (.function signature) (Reader.function code .unit) := by
  rw [← hs]
  refine (turns_function code .unit).mono (fun s _ => ?_) fun _ _ h => h
  rw [hc]
  exact ⟨_, rfl, rfl⟩

theorem Reader.plainCode?_spec {signature : Signature} {name : String} {code : Code}
    (h : Reader.plainCode? signature name = some code) :
    code.signature = signature ∧ code.captured = .unit := by
  unfold Reader.plainCode? at h
  split at h
  all_goals cases h
  all_goals exact ⟨rfl, rfl⟩

theorem Reader.numberCode?_spec {name : String} {code : Int → Code}
    (h : Reader.numberCode? name = some code) (n : Int) :
    (code n).signature = .closure ∧ (code n).captured = .unit := by
  unfold Reader.numberCode? at h
  split at h
  all_goals cases h
  all_goals exact ⟨rfl, rfl⟩

theorem supplies_readFunction (signature : Signature) (name : String) (d : Datum) :
    Supplies (.function signature) (Reader.readFunction signature name d) := by
  unfold Reader.readFunction
  dsimp only
  split
  · refine Yields.then (Q := fun code => code.signature = .closure ∧ code.captured = .unit) ?_
      fun code hc => supplies_code hc.1 hc.2
    exact Turns.bind (yields_orRefuse _) fun text => Turns.pure rfl fun _ _ => ⟨rfl, rfl⟩
  · exact (yields_orRefuse _).then fun code hc =>
      supplies_code (Reader.plainCode?_spec hc).1 (Reader.plainCode?_spec hc).2

/-- A closure that only takes the number of a probe. -/
theorem supplies_probeCode {act : Run Value} (h : Supplies .probe act) :
    Supplies (.function .closure) (do
      match ← act with
      | .probe p =>
        let f ← Reader.function (.add p.id) .unit
        Run.drop [.probe p]
        pure f
      | v => Run.unwinding [v] Run.refuse) := by
  refine Turns.bind h fun v frame c hh ho hv => ?_
  obtain ⟨p, rfl⟩ := hv.probe_inv
  have h₁ : Turns .shrink {.probe p} (fun _ => True)
      (do let f ← Reader.function (.add p.id) .unit
          Run.drop [.probe p]
          pure f) Value.pieces (fun v s => HasType s (.function .closure) v) 0 := by
    have h₂ := supplies_code (show (Code.add p.id).signature = .closure from rfl) rfl
    have h₃ := ((h₂.adds {.probe p} stable_true).sure (fun _ => ⟨_, _, rfl⟩) 0).mono
      (fun s hs => hs) fun _ _ hs => hs.1
    refine h₃.bind fun f => ?_
    exact (Turns.drop (Scope.le_refl _) (stable_fits _ f) (by simp [add_comm])).bind fun _ =>
      Turns.pure rfl fun s hs => hs
  exact h₁ frame c hh ho trivial

theorem supplies_function (signature : Signature) (hd : d.field? "$var" = none)
    (ih : ReadsBelow d) :
    Supplies (.function signature) (Reader.read (.function signature) d) := by
  rw [Reader.read.eq_def, hd]
  dsimp only
  split
  next => exact .pure rfl (hasType_nothing rfl)
  next =>
    refine (yields_orRefuse _).then fun name _ => ?_
    split
    next =>
      split
      next x hx =>
        exact Turns.bind (ih x (Datum.sizeOf_field hx) _) fun v => turns_function .tally v
      next => exact .refuse
    next =>
      split
      next x hx => exact supplies_probeCode (ih x (Datum.sizeOf_field hx) .probe)
      next => exact .refuse
    next =>
      split
      next code x hcode hx =>
        rw [← bind_assoc]
        refine (yields_expectInt (ih x (Datum.sizeOf_field hx) (.int .i64))).then fun n _ => ?_
        have hc := Reader.numberCode?_spec hcode n
        exact supplies_code hc.1 hc.2
      next => exact .refuse
      next => exact supplies_readFunction .closure _ d
    next => exact supplies_readFunction signature name d

theorem supplies_probe (hd : d.field? "$var" = none) (ih : ReadsBelow d) :
    Supplies .probe (Reader.read .probe d) := by
  have hc : ∀ p, Supplies .probe (Run.create p) := fun p =>
    Turns.of_accounts (by decide) fun kept c hh _ => by
      refine (Accounts.create (by simpa using hh)).mono ?_ fun _ _ _ h => h
      rintro _ e - - - ⟨rfl, he⟩
      exact ⟨he, rfl⟩
  rw [Reader.read.eq_def, hd]
  dsimp only
  split
  next fields =>
    split
    next x hx =>
      rw [← bind_assoc]
      refine (yields_expectInt (ih x (Datum.sizeOf_field hx) (.int .i64))).then fun id _ => ?_
      exact (yields_orRefuse _).then fun refused _ => hc _
    next => exact .refuse
  next => exact (yields_readInt _ _).then fun _ _ => hc _

theorem supplies_dog (hd : d.field? "$var" = none) (ih : ReadsBelow d) :
    Supplies .dog (Reader.read .dog d) := by
  rw [Reader.read.eq_def, hd]
  dsimp only
  split
  next x y hx hy =>
    refine Turns.bind (ih x (Datum.sizeOf_field hx) .string) fun name => ?_
    have h₁ := (ih y (Datum.sizeOf_field hy) (.cell (.list .string))).beside [name]
      (stable_fits (.value .string) name)
    rw [Value.piecesOf_cons, Value.piecesOf_nil, add_zero] at h₁
    refine h₁.bind fun tricks => Turns.pure (by simp [add_comm]) ?_
    rintro s ⟨ht, hn⟩
    exact ⟨_, rfl, hn, ht, trivial⟩
  next => exact .refuse

theorem supplies_inventory (hd : d.field? "$var" = none) (ih : ReadsBelow d) :
    Supplies .inventory (Reader.read .inventory d) := by
  rw [Reader.read.eq_def, hd]
  dsimp only
  split
  next x y z hx hy hz =>
    refine Turns.bind (ih x (Datum.sizeOf_field hx) .string) fun owner => ?_
    have h₁ := (ih y (Datum.sizeOf_field hy) (.list .string)).beside [owner]
      (stable_fits (.value .string) owner)
    rw [Value.piecesOf_cons, Value.piecesOf_nil, add_zero] at h₁
    refine h₁.bind fun items => ?_
    have h₂ := (ih z (Datum.sizeOf_field hz) (.cell (.sortedMap .string (.int .u32)))).beside
      [items, owner] ((stable_fits (.value (.list .string)) items).and
        (stable_fits (.value .string) owner))
    rw [Value.piecesOf_cons, Value.piecesOf_cons, Value.piecesOf_nil, add_zero] at h₂
    refine h₂.bind fun stock => Turns.pure ?_ ?_
    · simp only [Value.pieces_node, Value.piecesOf_cons, Value.piecesOf_nil]
      abel
    · rintro s ⟨hs, hi, ho⟩
      exact ⟨_, rfl, ho, hi, hs, trivial⟩
  next => exact .refuse

theorem hasType_variant {s : Store} {variant : Variant} {v : Value}
    (h : HasType s variant.content v) : HasType s .dyn (.node (.variant variant) [v]) :=
  ⟨_, rfl, h, trivial⟩

theorem turns_wrapDyn (kind : String) (v : Value) :
    Turns .shrink v.pieces (fun s => HasType s .dyn v) (Reader.wrapDyn kind v) Value.pieces
      (fun v s => HasType s .dyn v) 0 := by
  unfold Reader.wrapDyn
  split
  next =>
    exact Turns.pure (by simp) fun s hs =>
      hasType_variant (hasType_list (by simpa using hs))
  next =>
    have hp := Entries.insert_pieces (.text "k") v .empty
    have hl : (Entries.empty.insert (.text "k") v).2 = [] := rfl
    have h0 : Value.piecesOf Entries.empty.list = 0 := rfl
    rw [hl, h0] at hp
    refine Turns.pure (by simpa [Entries.toValue] using hp.symm) fun s hs => ?_
    have he : Entries.empty.Fit s .string .dyn := ⟨rfl, nofun⟩
    exact hasType_variant (hasType_entries (by simp [Variant.content]) (he.insert ⟨_, rfl, rfl⟩ hs))
  next =>
    exact Turns.pure (by simp) fun s hs =>
      hasType_variant ⟨_, rfl, ⟨_, rfl, hs, trivial⟩, trivial⟩
  next =>
    exact (turns_cell .dyn v).bind fun target =>
      Turns.pure (by simp) fun s hs => hasType_variant hs
  next =>
    refine Turns.unwinding (Turns.refuse (by simp))

theorem turns_nestDyn (kind : String) (n : Nat) (v : Value) :
    Turns .shrink v.pieces (fun s => HasType s .dyn v) (Reader.nestDyn kind n v) Value.pieces
      (fun v s => HasType s .dyn v) 0 := by
  induction n generalizing v with
  | zero => exact Turns.pure rfl fun s hs => hs
  | succ n ih => exact (turns_wrapDyn kind v).bind fun v' => ih v'

/-- A count that stands next to a value which is given up if there is no count. -/
theorem turns_readCount {r : Datum} (ih : ReadsBelow r) (v : Value) :
    Turns .shrink v.pieces (fun s => HasType s .dyn v)
      (Run.unwinding [v] <|
        match _h : r.field? "n" with
        | some n => do Reader.expectInt (← Reader.read (.int .usize) n)
        | none => Run.refuse)
      (fun _ => v.pieces) (fun _ s => HasType s .dyn v) 0 := by
  have h : Yields (fun _ => True) (match _h : r.field? "n" with
      | some n => do Reader.expectInt (← Reader.read (.int .usize) n)
      | none => Run.refuse) := by
    split
    next n hn =>
      exact (yields_expectInt (ih n (Datum.sizeOf_field hn) (.int .usize))).mono (fun _ h => h)
        fun _ _ _ => trivial
    next => exact Turns.refuse rfl
  have h₁ := h.beside [v] (stable_fits (.value .dyn) v)
  simp only [Value.piecesOf_cons, Value.piecesOf_nil, add_zero, zero_add] at h₁
  exact h₁.mono (fun _ h => h) fun _ _ h => h.2

theorem supplies_dyn (hd : d.field? "$var" = none) (ih : ReadsBelow d) :
    Supplies .dyn (Reader.read .dyn d) := by
  rw [Reader.read.eq_def, hd]
  dsimp only
  split
  next r =>
    have ih' : ReadsBelow r := fun x hx => ih x (by
      simp only [Datum.record.sizeOf_spec, List.cons.sizeOf_spec, Prod.mk.sizeOf_spec]
      omega)
    split
    next x hx =>
      refine Turns.bind (ih' x (Datum.sizeOf_field hx) .dyn) fun v => ?_
      refine (turns_readCount ih' v).bind fun count => ?_
      refine (turns_replicate .dyn count.toNat v).bind fun vs => Turns.pure (by simp) fun s hs => ?_
      exact hasType_variant (hasType_list hs)
    next => exact .refuse
  next r =>
    have ih' : ReadsBelow r := fun x hx => ih x (by
      simp only [Datum.record.sizeOf_spec, List.cons.sizeOf_spec, Prod.mk.sizeOf_spec]
      omega)
    split
    next x hx =>
      refine Turns.bind (ih' x (Datum.sizeOf_field hx) .dyn) fun v => ?_
      refine (turns_readCount ih' v).bind fun count => ?_
      have h₁ := (yields_orRefuse (r.textField? "kind")).beside [v] (stable_fits (.value .dyn) v)
      simp only [Value.piecesOf_cons, Value.piecesOf_nil, add_zero, zero_add] at h₁
      exact h₁.bind fun kind =>
        (turns_nestDyn kind count.toNat v).mono (fun _ hs => hs.2) fun _ _ hs => hs
    next => exact .refuse
  next key x _ _ =>
    refine (yields_orRefuse _).then fun variant _ => ?_
    have hx : sizeOf x < sizeOf (Datum.record [(key, x)]) := by
      simp only [Datum.record.sizeOf_spec, List.cons.sizeOf_spec, Prod.mk.sizeOf_spec]
      omega
    exact (ih x hx variant.content).map (f := fun v => .node (.variant variant) [v]) (by simp)
      fun s v hv => hasType_variant hv
  next => exact .refuse

end types

/-- Reading makes a value of the type that is asked for. -/
theorem supplies_read (t : Ty) (d : Datum) : Supplies t (Reader.read t d) := by
  have below : ReadsBelow d := fun x _ t => supplies_read t x
  cases hv : d.field? "$var" with
  | some name =>
    rw [Reader.read.eq_def, hv]
    exact (yields_orRefuse _).then fun name _ => supplies_variable t name
  | none =>
    induction t with
    | boxed elem ihe =>
      rw [Reader.read.eq_def, hv]
      exact Supplies.map (f := fun v => .node .box [v]) ihe (by simp)
        fun s v hs => ⟨_, rfl, hs, trivial⟩
    | list elem => exact supplies_list elem hv below
    | array elem size => exact supplies_array elem size hv below
    | tuple first rest => exact supplies_tuple first rest hv below
    | option elem => exact supplies_option elem hv below
    | sortedMap k v | hashedMap k v | fixedMap k v =>
      exact supplies_map k v (by simp) hv below
    | cell elem => exact supplies_cell elem hv below
    | erased => exact supplies_erased hv below
    | object i => exact supplies_object i hv below
    | function signature => exact supplies_function signature hv below
    | probe => exact supplies_probe hv below
    | dog => exact supplies_dog hv below
    | inventory => exact supplies_inventory hv below
    | dyn => exact supplies_dyn hv below
    | int | meters | feet | cat | counter =>
      rw [Reader.read.eq_def, hv]
      first
        | exact supplies_wrapped d rfl
        | exact supplies_scalar (yields_readInt _ d) fun _ hn => hn
    | float32 | float64 | string | borrowed =>
      rw [Reader.read.eq_def, hv]
      exact supplies_scalar (yields_orRefuse _) fun _ _ => rfl
    | char =>
      rw [Reader.read.eq_def, hv]
      exact supplies_scalar (yields_readChar d) fun _ _ => rfl
    | bool | unit =>
      rw [Reader.read.eq_def, hv]
      dsimp only
      split
      · exact .pure rfl fun s => ⟨_, rfl, rfl⟩
      · exact .refuse
    | nil | textSlice | intSlice | interface =>
      rw [Reader.read.eq_def, hv]
      exact .refuse
termination_by sizeOf d

theorem yields_readNat (t : IntType) (d : Option Datum) :
    Yields (fun _ => True) (Reader.readNat t d) := by
  refine (yields_orRefuse d).bind fun x _ => ?_
  rw [← bind_assoc]
  exact (yields_expectInt (supplies_read (.int t) x)).bind fun n _ =>
    Turns.pure rfl fun _ _ => trivial

end SharedValues
