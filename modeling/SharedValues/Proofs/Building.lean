import SharedValues.Proofs.Copies
import SharedValues.Proofs.Turns

/-!
Building values from parts: allocations, slots, sequences and maps. What is built is in hand in the
end and has its type, and nothing is left in hand of what is abandoned on the way.
-/
namespace SharedValues

/-- The action makes a value of the type. -/
def Supplies (t : Ty) (act : Run Value) : Prop :=
  Turns .shrink 0 (fun _ => True) act Value.pieces (fun v s => HasType s t v) 0

/-- The action makes plain data, which owns nothing. -/
def Yields {α : Type} (Q : α → Prop) (act : Run α) : Prop :=
  Turns .shrink 0 (fun _ => True) act (fun _ => 0) (fun a _ => Q a) 0

theorem yields_orRefuse {α : Type} (o : Option α) : Yields (o = some ·) (Run.orRefuse o) :=
  (Turns.orRefuse rfl).mono (fun _ h => h) fun _ _ h => h.1

theorem yields_require (b : Bool) : Yields (fun _ => b) (Run.require b) :=
  (Turns.require rfl).mono (fun _ h => h) fun _ _ h => h.1

/-- Plain data is turned into a value that owns nothing. -/
theorem Yields.supplies {α : Type} {Q : α → Prop} {act : Run α} {t : Ty} {f : α → Value}
    (h : Yields Q act) (hp : ∀ a, (f a).pieces = 0) (ht : ∀ a s, Q a → HasType s t (f a)) :
    Supplies t (do return f (← act)) :=
  Turns.bind h fun a => Turns.pure (hp a).symm fun s hs => ht a s hs

theorem Yields.bind {α β : Type} {Q : α → Prop} {R : β → Prop} {act : Run α} {f : α → Run β}
    (h : Yields Q act) (hf : ∀ a, Q a → Yields R (f a)) : Yields R (act >>= f) := by
  refine Turns.bind h fun a frame c hh ho hq => ?_
  exact hf a hq frame c hh ho trivial

theorem Yields.then {α : Type} {Q : α → Prop} {act : Run α} {t : Ty} {f : α → Run Value}
    (h : Yields Q act) (hf : ∀ a, Q a → Supplies t (f a)) : Supplies t (act >>= f) := by
  refine Turns.bind h fun a frame c hh ho hq => ?_
  exact hf a hq frame c hh ho trivial

namespace Supplies

variable {t u : Ty} {act : Run Value}

theorem pure {v : Value} (hp : v.pieces = 0) (ht : ∀ s, HasType s t v) : Supplies t (pure v) :=
  Turns.pure hp.symm fun s _ => ht s

theorem refuse : Supplies t Run.refuse := Turns.refuse rfl

/-- A value is put into a larger one. -/
theorem map {f : Value → Value} (h : Supplies t act) (hp : ∀ v, (f v).pieces = v.pieces)
    (ht : ∀ s v, HasType s t v → HasType s u (f v)) : Supplies u (do return f (← act)) :=
  Turns.bind h fun v => Turns.pure (hp v).symm fun s hs => ht s v hs

end Supplies

section allocating

/-- A new allocation is in hand in place of its content. -/
theorem turns_allocate (role : Role) {content : Value} {t : Ty} (hr : ∀ r, role.Allowed r)
    (ht : t.admits role) :
    Turns .shrink content.pieces (fun s => HasType s role.content content)
      (do let id ← Run.allocate role content
          pure (some id))
      (fun target => (Value.handle role.kind target).pieces)
      (fun target s => HasType s t (.handle role.kind target)) 0 := by
  refine Turns.of_accounts (by decide) fun kept c hh hc => ?_
  refine .bind (Accounts.allocate (hr _) hc hh) ?_
  rintro id d - - - ⟨hd, rfl, hs⟩
  refine .pure ⟨by rw [hd, Value.pieces_some], t, rfl, Ty.admits_kind ht, ?_⟩
  rintro _ ⟨⟩
  refine ⟨by simp [hs], fun a ha => ?_⟩
  rw [hs, Store.get?_push_next, Option.some.injEq] at ha
  rw [← ha]
  exact ht

theorem turns_cell (elem : Ty) (content : Value) :
    Turns .shrink content.pieces (fun s => HasType s elem content) (Cell.new elem content)
      (fun target => (Value.handle .cell target).pieces)
      (fun target s => HasType s (.cell elem) (.handle .cell target)) 0 :=
  turns_allocate (.cell elem) (fun _ => trivial) (by simp [Ty.admits])

theorem turns_object {i : Interface} {type : Ty} (ha : i.accepts type) (v : Value) :
    Turns .shrink v.pieces (fun s => HasType s type v) (Object.new i type v)
      (fun target => (Value.handle .object target).pieces)
      (fun target s => HasType s (.object i) (.handle .object target)) 0 :=
  turns_allocate (.object i type) (fun _ => ha) (by simp [Ty.admits])

theorem turns_function (code : Code) (captured : Value) :
    Turns .shrink captured.pieces (fun s => HasType s code.captured captured)
      (Reader.function code captured) Value.pieces
      (fun v s => HasType s (.function code.signature) v) 0 :=
  (turns_allocate (.callable code) (fun _ => trivial) (by simp [Ty.admits])).bind
    fun _ => Turns.pure rfl fun _ hs => hs

end allocating

section erasing

/-- Assigning gives up the old share, and takes a new one of a slot that is held elsewhere. -/
theorem accounts_assign {current source : Option Nat} {kept : Multiset Piece} {c : Config}
    {err : Config → Prop} (hh : c.hand = (Value.handle .slot current).pieces + kept)
    (hk : ∀ id, source = some id → .handle ⟨.slot, id⟩ ∈ kept) :
    Accounts .shrink (Erased.assign current source) c
      (fun target d => target = source ∧ d.hand = (Value.handle .slot source).pieces + kept)
      err := by
  have hh' : c.hand = Value.piecesOf [.handle .slot current] + kept := by simpa using hh
  cases source with
  | none =>
    refine .bind (.drop (Scope.le_refl _) hh') fun _ d _ _ _ hd => ?_
    exact .pure ⟨rfl, by simpa using hd⟩
  | some id =>
    by_cases e : current = some id
    · subst e
      rw [Erased.assign, if_pos rfl]
      exact .pure ⟨rfl, hh⟩
    · rw [Erased.assign, if_neg e]
      refine .bind (.drop (Scope.le_refl _) hh') fun _ d _ hs _ hd => ?_
      have ha : d.world.store.Alive ⟨.slot, id⟩ :=
        hs.alive_of_hand (by rw [hd]; exact hk id rfl)
      refine .bind (Accounts.retain ha hd) fun _ e _ _ _ he => ?_
      exact .pure ⟨rfl, he⟩

/-- Assigning from a handle that is given up afterwards. -/
theorem accounts_assignVia {current source : Option Nat} {kept : Multiset Piece} {c : Config}
    {err : Config → Prop}
    (hh : c.hand = (Value.handle .slot current).pieces +
      ((Value.handle .slot source).pieces + kept)) :
    Accounts .shrink
      (do let target ← Erased.assign current source
          Run.drop [.handle .slot source]
          pure target) c
      (fun target d => target = source ∧ d.hand = (Value.handle .slot source).pieces + kept)
      err := by
  refine .bind (accounts_assign hh ?_) ?_
  · rintro id rfl
    simp
  · rintro _ d - - - ⟨rfl, hd⟩
    refine .bind (.drop (Scope.le_refl _) (by simpa using hd)) fun _ e _ _ _ he => ?_
    exact .pure ⟨rfl, by simpa using he⟩

/-- A value that is no erased one gets a slot of its own. -/
theorem Erased.set_of_ne {type : Ty} (ht : type ≠ .erased) (current : Option Nat) (value : Value) :
    Erased.set current type value = (do
      Run.drop [.handle .slot current]
      let table ← Run.tableFor type
      let id ← Run.allocate (.slot table type) value
      pure (some id)) := by
  unfold Erased.set
  split
  · exact absurd rfl ht
  · rfl

/-- Storing a value turns it and the old share into a share of the slot that holds it now. -/
theorem accounts_set {current : Option Nat} {type : Ty} {value : Value} {kept : Multiset Piece}
    {c : Config} {err : Config → Prop}
    (hh : c.hand = (Value.handle .slot current).pieces + (value.pieces + kept))
    (hv : HasType c.world.store type value) :
    Accounts .shrink (Erased.set current type value) c
      (fun target d => d.hand = (Value.handle .slot target).pieces + kept ∧
        HasType d.world.store .erased (.handle .slot target)) err := by
  by_cases he : type = .erased
  · subst he
    obtain ⟨source, rfl⟩ := hv.erased_inv
    refine (accounts_assignVia hh).mono ?_ fun _ _ _ h => h
    rintro _ d hm - - ⟨rfl, hd⟩
    exact ⟨hd, hv.evolve hm.evolves⟩
  · rw [Erased.set_of_ne he]
    refine .bind (.drop (Scope.le_refl _) (by simpa using hh)) fun _ d hm _ _ hd => ?_
    refine .bind (Accounts.tableFor hd) ?_
    rintro table e - - - ⟨hd', hf, hst⟩
    have hv' : HasType e.world.store type value := by
      rw [hst]
      exact hv.evolve hm.evolves
    refine .bind (.allocate (show Role.Allowed _ (.slot table type) from ⟨hf, he⟩) hv' hd') ?_
    rintro id f - - - ⟨hf', rfl, hst'⟩
    refine .pure ⟨by rw [hf', Value.pieces_some]; rfl, _, rfl, rfl, ?_⟩
    rintro _ ⟨⟩
    refine ⟨by simp [hst'], fun a ha => ?_⟩
    rw [hst', Store.get?_push_next, Option.some.injEq] at ha
    rw [← ha]
    rfl

theorem turns_erase (type : Ty) (v : Value) :
    Turns .shrink v.pieces (fun s => HasType s type v) (Erased.new type v)
      (fun target => (Value.handle .slot target).pieces)
      (fun target s => HasType s .erased (.handle .slot target)) 0 :=
  Turns.of_accounts (by decide) fun kept c hh hc => accounts_set (by simpa using hh) hc

end erasing

section collecting

/-- The action makes a value of the type while other things are in hand. -/
def Adds (r : Multiset Piece) (F : Store → Prop) (t : Ty) (act : Run Value) : Prop :=
  Turns .shrink r F act (fun v => v.pieces + r) (fun v s => HasType s t v ∧ F s) r

theorem Supplies.adds {t : Ty} {act : Run Value} (h : Supplies t act) (r : Multiset Piece)
    {F : Store → Prop} (hF : Stable F) : Adds r F t act := by
  have h₁ := (h.frame r).keep hF
  rw [zero_add] at h₁
  exact h₁.mono (fun _ hs => ⟨trivial, hs⟩) fun _ _ hs => hs

/-- Parts that are built one after the other are all in hand in the end. -/
theorem Adds.collect {r : Multiset Piece} {F : Store → Prop} (shape : Shape)
    {ts : List Ty} {acts : List (Run Value)} (h : List.Forall₂ (Adds r F) ts acts)
    (done : List Value) (qs : List Place) :
    Turns .shrink (Value.piecesOf done + r) (fun s => FitAll s qs done ∧ F s)
      (Run.collect shape done acts) (fun vs => Value.piecesOf vs + r)
      (fun vs s => FitAll s (qs ++ ts.map .value) vs ∧ F s) r := by
  induction h generalizing done qs with
  | nil => exact Turns.pure rfl fun s hs => by simpa using hs
  | @cons t act ts acts ht _ ih =>
    have h₁ := (Turns.frame ht (Value.piecesOf done)).keep (stable_fitAll qs done)
    have h₂ : Turns .shrink (Value.piecesOf done + r) (fun s => FitAll s qs done ∧ F s)
        (Run.unwinding (shape.giveUp done) act) (fun v => v.pieces + r + Value.piecesOf done)
        (fun v s => (HasType s t v ∧ F s) ∧ FitAll s qs done) r := by
      refine Turns.unwinding ?_
      rw [Value.piecesOf_perm (shape.perm_giveUp done), add_comm]
      exact h₁.mono (fun s hs => ⟨hs.2, hs.1⟩) fun _ _ hs => hs
    refine h₂.bind fun v => ?_
    have h₃ := ih (done ++ [v]) (qs ++ [.value t])
    have e : Value.piecesOf (done ++ [v]) + r = v.pieces + r + Value.piecesOf done := by
      simp only [Value.piecesOf_append, Value.piecesOf_cons, Value.piecesOf_nil]
      abel
    rw [e] at h₃
    refine h₃.mono ?_ ?_
    · rintro s ⟨⟨hv, hs⟩, hd⟩
      exact ⟨fitAll_append hd ⟨hv, trivial⟩, hs⟩
    · intro vs s hs
      simpa using hs

theorem turns_collect (shape : Shape) {ts : List Ty} {acts : List (Run Value)}
    (h : List.Forall₂ Supplies ts acts) :
    Turns .shrink 0 (fun _ => True) (Run.collect shape [] acts) Value.piecesOf
      (fun vs s => FitAll s (ts.map .value) vs) 0 := by
  have h₁ := Adds.collect (r := 0) shape (h.imp fun _ _ ha => ha.adds 0 stable_true) [] []
  simp only [add_zero, Value.piecesOf_nil] at h₁
  exact h₁.mono (fun _ _ => ⟨trivial, trivial⟩) fun _ _ hs => hs.1

/-- A clone of a value in hand. -/
theorem adds_clone (t : Ty) (v : Value) : Adds v.pieces (fun s => HasType s t v) t v.clone := by
  refine Turns.of_accounts (by decide) fun kept c hh hc => .ofSound fun hs => ?_
  have ha : ∀ h ∈ v.handles, c.world.store.Alive h := by
    intro h hm
    refine hs.alive_of_hand ?_
    rw [hh]
    exact Multiset.mem_add.mpr (.inl (Value.handle_mem_pieces.mpr hm))
  refine ((accounts_clone (p := .value t) hc ha).mono ?_ ?_).widen (Accounts.scope_grow_le _)
  · rintro v' d hm - - ⟨hd, ht⟩
    exact ⟨by rw [hd, hh, add_assoc], ht, Fits.evolve hm.evolves hc⟩
  · rintro d - - hd
    rw [hd, hh]

/-- As many copies of a value as given. -/
theorem turns_replicate (t : Ty) (n : Nat) (v : Value) :
    Turns .shrink v.pieces (fun s => HasType s t v) (Run.replicate n v) Value.piecesOf
      (fun vs s => ∀ x ∈ vs, HasType s t x) 0 := by
  cases n with
  | zero =>
    refine Turns.bind (Q := fun _ _ => True) ((Turns.drop (r := 0) (Scope.le_refl _)
      (stable_fits _ _) (by simp)).mono (fun _ h => h) fun _ _ _ => trivial) fun _ => ?_
    exact Turns.pure rfl fun _ _ => nofun
  | succ n =>
    have h₁ : List.Forall₂ (Adds v.pieces fun s => HasType s t v) (List.replicate n t)
        (List.replicate n v.clone) := by
      rw [List.forall₂_iff_get]
      exact ⟨by simp, fun i _ _ => by simpa using adds_clone t v⟩
    have h₂ := Adds.collect .sequence h₁ [] []
    simp only [Value.piecesOf_nil, zero_add] at h₂
    have h₃ : Turns .shrink v.pieces (fun s => HasType s t v)
        (Run.unwinding [v] (Run.collect .sequence [] (List.replicate n v.clone)))
        (fun vs => Value.piecesOf vs + v.pieces)
        (fun vs s => (∀ x ∈ vs, HasType s t x) ∧ HasType s t v) 0 := by
      refine Turns.unwinding ?_
      simp only [Value.piecesOf_cons, Value.piecesOf_nil, add_zero]
      refine h₂.mono (fun s hs => ⟨trivial, hs⟩) ?_
      rintro vs s ⟨hvs, hv⟩
      rw [List.nil_append, List.map_replicate] at hvs
      exact ⟨(fitAll_replicate.mp hvs).2, hv⟩
    refine h₃.bind fun vs => Turns.pure (by simp) ?_
    rintro s ⟨hvs, hv⟩
    exact List.forall_mem_append.mpr ⟨hvs, by simpa using hv⟩

/-- The entries of a map, with as many levels. -/
def Entries.Fit (s : Store) (key value : Ty) (es : Entries) : Prop :=
  es.levels.length = es.list.length ∧ ∀ e ∈ es.list, Fits s (.entry key value) e

theorem stable_entries (key value : Ty) (es : Entries) : Stable fun s => es.Fit s key value :=
  fun _ _ e h => ⟨h.1, fun x hx => Fits.evolve e (h.2 x hx)⟩

/-- What stands in a map after an insertion, and what is left over. -/
theorem Value.insertEntry_pieces (k v : Value) (es : List Value) :
    piecesOf (insertEntry k v es).1 +
        ((insertEntry k v es).2.elim 0 fun old => k.pieces + old.pieces) =
      k.pieces + v.pieces + piecesOf es := by
  fun_induction insertEntry k v es with
  | case1 => simp [entry]
  | case2 k' old rest h => simp [entry]
  | case3 k' old rest h => simp [entry]; abel
  | case4 k' old rest h rest' before e ih =>
    rw [e] at ih
    simp only [entry, piecesOf_cons, pieces_node, piecesOf_nil] at ih ⊢
    rw [add_assoc, ih]
    abel
  | case5 other rest _ rest' before e ih =>
    rw [e] at ih
    simp only [piecesOf_cons] at ih ⊢
    rw [add_assoc, ih]
    abel

theorem Value.insertEntry_length (k v : Value) (es : List Value) :
    (insertEntry k v es).1.length = es.length + if (insertEntry k v es).2.isNone then 1 else 0 := by
  fun_induction insertEntry k v es with
  | case1 => rfl
  | case2 k' old rest h => rfl
  | case3 k' old rest h => rfl
  | case4 k' old rest h rest' before e ih =>
    rw [e] at ih
    simp only [List.length_cons] at ih ⊢
    omega
  | case5 other rest _ rest' before e ih =>
    rw [e] at ih
    simp only [List.length_cons] at ih ⊢
    omega

theorem Value.insertEntry_fits {s : Store} {key value : Ty} {k v : Value} {es : List Value}
    (hk : HasType s key k) (hv : HasType s value v) (hes : ∀ e ∈ es, Fits s (.entry key value) e) :
    ∀ e ∈ (insertEntry k v es).1, Fits s (.entry key value) e := by
  have hnew : ∀ a, HasType s key a → Fits s (.entry key value) (entry a v) :=
    fun a ha => fits_entry.mpr ⟨a, v, rfl, ha, hv⟩
  fun_induction insertEntry k v es with
  | case1 => simpa using hnew k hk
  | case2 k' old rest h => simpa [entry] using ⟨hnew k hk, by simpa using hes⟩
  | case3 k' old rest h =>
    obtain ⟨ho, hr⟩ := List.forall_mem_cons.mp hes
    obtain ⟨a, b, hab, ha, -⟩ := fits_entry.mp ho
    cases hab
    exact List.forall_mem_cons.mpr ⟨hnew _ ha, hr⟩
  | case4 k' old rest h rest' before e ih =>
    rw [e] at ih
    obtain ⟨ho, hr⟩ := List.forall_mem_cons.mp hes
    exact List.forall_mem_cons.mpr ⟨ho, ih hr⟩
  | case5 other rest _ rest' before e ih =>
    rw [e] at ih
    obtain ⟨ho, hr⟩ := List.forall_mem_cons.mp hes
    exact List.forall_mem_cons.mpr ⟨ho, ih hr⟩

theorem Entries.insert_pieces (k v : Value) (es : Entries) :
    Value.piecesOf (es.insert k v).1.list + Value.piecesOf (es.insert k v).2 =
      k.pieces + v.pieces + Value.piecesOf es.list := by
  have h := Value.insertEntry_pieces k v es.list
  unfold Entries.insert
  split
  next list old e => simpa [e] using h
  next list e => simpa [e] using h

theorem Entries.Fit.insert {s : Store} {key value : Ty} {k v : Value} {es : Entries}
    (h : es.Fit s key value) (hk : HasType s key k) (hv : HasType s value v) :
    (es.insert k v).1.Fit s key value := by
  have hf := Value.insertEntry_fits hk hv h.2
  have hl := Value.insertEntry_length k v es.list
  unfold Entries.insert
  split
  next list old e =>
    rw [e] at hf hl
    exact ⟨h.1.trans hl.symm, hf⟩
  next list e =>
    rw [e] at hf hl
    have hp : (es.list.takeWhile (Value.isEntryBefore k)).length ≤ es.levels.length := by
      rw [h.1]
      exact (List.takeWhile_sublist _).length_le
    exact ⟨by rw [Levels.length_insert hp, h.1]; exact hl.symm, hf⟩

/-- Reading entries one by one and inserting them. -/
theorem turns_collectEntries {key value : Ty} {acts : List (Run (Value × Value))}
    (h : ∀ act ∈ acts, Turns .shrink 0 (fun _ => True) act (fun x => x.1.pieces + x.2.pieces)
      (fun x s => HasType s key x.1 ∧ HasType s value x.2) 0) (es : Entries) :
    Turns .shrink (Value.piecesOf es.list) (es.Fit · key value) (Run.collectEntries es acts)
      (fun es => Value.piecesOf es.list) (fun es s => es.Fit s key value) 0 := by
  induction acts generalizing es with
  | nil => exact Turns.pure rfl fun s hs => hs
  | cons act acts ih =>
    have h₁ := (h act (by simp)).beside es.list (stable_entries key value es)
    refine h₁.bind fun x => ?_
    obtain ⟨k, v⟩ := x
    refine Turns.bind (Q := fun _ s => (es.insert k v).1.Fit s key value) ?_
      fun _ => ih (fun act' ha => h act' (by simp [ha])) (es.insert k v).1
    refine (Turns.drop (F := fun s => (es.insert k v).1.Fit s key value) (Scope.le_refl _)
      (stable_entries key value _) ?_).mono ?_ fun _ _ h => h
    · exact (Entries.insert_pieces k v es).symm.trans (add_comm _ _)
    · rintro s ⟨⟨hk, hv⟩, hes⟩
      exact hes.insert hk hv

end collecting

end SharedValues
