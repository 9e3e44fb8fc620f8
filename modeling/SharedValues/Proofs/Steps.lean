import SharedValues.Proofs.Extraction
import SharedValues.Proofs.Publishing

/-!
Every step of the machine leads from what the variables own to what they own then, by moves that
account for every piece. Most steps only look; the others read, copy, edit or bind.
-/
namespace SharedValues

open Machine

section common

theorem Performs.done {given : Multiset Piece} {pre : World → Prop} {act : Run Unit}
    (h : Performs given pre act (fun _ => 0) (fun _ _ => True) 0) :
    Performs given pre (act >>= fun _ => Machine.done) (fun _ => 0) (fun _ _ => True) 0 :=
  h.bind fun _ => .pure rfl fun _ h => h

theorem performs_clone {name : String} {v : Variable} :
    Performs 0 (fun w => w.find? name = some v) v.value.clone Value.pieces
      (fun x w => HasType w.store v.type x) 0 := by
  refine .of_accounts (S := .grow) (by decide) fun c hs hh _ hv => ?_
  refine (accounts_clone (hs.variable hv) fun h hm => hs.alive_of_variable hh hv hm).mono ?_ ?_
  · rintro x d - - - ⟨hd, hx⟩
    exact ⟨by rw [hd, hh, zero_add], hx⟩
  · rintro d - - hd
    rw [hd, hh]

theorem performs_deepCopy {name : String} {v : Variable} :
    Performs 0 (fun w => w.find? name = some v) v.value.deepCopy Value.pieces
      (fun x w => HasType w.store v.type x) 0 := by
  refine .of_accounts (S := .grow) (by decide) fun c hs hh hl hv => ?_
  refine (accounts_deepCopy hl (hs.variable hv) fun h hm =>
    hs.alive_of_variable hh hv hm).mono ?_ ?_
  · rintro x d - - - ⟨hd, hx⟩
    exact ⟨by rw [hd, hh, zero_add], hx⟩
  · rintro d - - hd
    rw [hd, hh]

theorem supplies_emptyValue (t : Ty) : Supplies t (emptyValue t) := by
  cases t with
  | cell | erased | object | function => exact .pure rfl (hasType_nothing rfl)
  | _ => exact .refuse

theorem World.owned_bind_unbind {w u : World} {name : String} (hb : w.bindings = (u.unbind name).bindings)
    (ha : World.Ascending w.bindings) (v : Variable) :
    (w.bind name v).owned = v.value.pieces + (u.unbind name).owned := by
  rw [World.owned_bind ha]
  simp [World.owned, World.unbind, hb]

/-- A variable that was taken away for an action comes back with the outcome. -/
theorem accounts_rebind {S : Scope} {w : World} {h : Multiset Piece} {name : String} {v : Variable}
    {c : Config} {r : Multiset Piece} {u : World} (hm : Moves S c ⟨w, h⟩) (hs : c.Sound)
    (hk : c.Keeps ⟨w, h⟩) (ha : World.Ascending w.bindings)
    (hb : w.bindings = (u.unbind name).bindings) (hv : HasType w.store v.type v.value)
    (hh : h = v.value.pieces + r + (u.unbind name).owned) :
    Moves .bind c ⟨w.bind name v, h⟩ ∧ c.Keeps ⟨w.bind name v, h⟩ ∧
      h = r + (w.bind name v).owned ∧ World.Ascending (w.bind name v).bindings := by
  have hmove : Move .bind ⟨w, h⟩ ⟨w.bind name v, h⟩ := .bind fun x hx => by
    rcases World.mem_bind ha hx with rfl | hx
    · exact hv
    · exact (hs.moves hm).bound x hx
  refine ⟨(hm.widen (Scope.le_bind _)).trans (.one (Scope.le_refl _) hmove),
    hk.trans (.of_eq rfl rfl), ?_, World.insertVariable_ascending _ _ ha⟩
  rw [World.owned_bind_unbind hb ha, hh]
  abel

/-- A change of a variable leaves in hand what it takes out. -/
theorem performs_editVariable (name : String) (path : Datum) :
    Performs 0 (fun _ => True) (editVariable name path) (fun c => Value.piecesOf c.removed)
      (fun _ _ => True) 0 := by
  refine (performs_lookup name).bind fun v => .ofSound fun c hs hh _ ha ⟨hv, _⟩ => ?_
  refine .bind (accounts_unbind hs) ?_
  rintro _ d - hsd - rfl
  have ht : HasType c.world.store v.type v.value := hs.variable hv
  have hc : c.hand = v.value.pieces + (c.world.unbind name).owned := by
    rw [hh, World.owned_of_find? ha hv, zero_add]
  have h₁ := edits_edit v.type v.value path _ ⟨c.world.unbind name, c.hand⟩ hc le_rfl ht hsd
  have ha' : World.Ascending (c.world.unbind name).bindings := ha.filter _
  intro _
  dsimp only
  cases hx : Edit.edit v.type v.value path (c.world.unbind name) with
  | ok r w =>
    rw [hx] at h₁
    obtain ⟨h, hm, hk, hd, hb, hr⟩ := h₁
    obtain ⟨hm', hk', hh', ha''⟩ := accounts_rebind (v := ⟨v.type, r.result⟩) hm hsd hk
      (by rw [hb]; exact ha') hb hr hd
    exact ⟨h, hm', hk', hh', ha'', trivial⟩
  | error e w =>
    rw [hx] at h₁
    obtain ⟨h, hm, hk, hd⟩ := h₁
    have hb : w.bindings = (c.world.unbind name).bindings := hm.bindings_eq (by decide)
    have ht' : HasType w.store v.type v.value := ht.evolve hm.evolves
    obtain ⟨hm', hk', hh', ha''⟩ := accounts_rebind (v := v) (r := 0) hm hsd hk
      (by rw [hb]; exact ha') hb ht' (by rw [add_zero]; exact hd)
    exact ⟨h, hm', hk', hh', ha''⟩

theorem settles_mutate (name : String) (path : Datum) : Settles (mutate name path) := by
  refine (performs_editVariable name path).bind fun c => ?_
  refine Performs.bind (Observes.dropping ?_ c.removed) fun _ => .pure rfl fun _ h => h
  split
  · exact .pure _
  · exact observes_picture _

theorem settles_race (type : Ty) (threads : Nat) : Settles (race type threads) := by
  refine .of_accounts (S := .grow) (by decide) fun c _ hh _ _ => ?_
  refine .bind (Q := fun _ d => d = c) (.require (fun _ => rfl) hh) ?_
  rintro _ c - - - rfl
  refine .bind (Q := fun w d => d = c ∧ w = c.world) (.get ⟨rfl, rfl⟩) ?_
  rintro w c - - - ⟨rfl, rfl⟩
  refine .bind (Q := fun _ d => d.hand = c.hand) ?_ fun _ d _ _ _ hd => .pure ⟨by rw [hd, hh], trivial⟩
  rcases (Registry.asks_race c.world.registry type threads).published with ⟨er, ep⟩ | ⟨hn, er, ep⟩
  · intro _
    refine ⟨c.hand, ?_, .of_eq rfl rfl, rfl⟩
    simp only [er, ep, List.map_nil, World.recordAll_nil]
    exact .refl
  · intro _
    refine ⟨c.hand, ?_, .of_eq rfl rfl, rfl⟩
    simp only [er, ep, List.map_cons, List.map_nil]
    exact .one (Scope.le_refl _) (.publish type hn)

theorem settles_performCommon (fresh : Bool) (step : Step) :
    Settles (performCommon fresh step) := by
  cases step with
  | define target type value =>
    exact (supplies_read type value).performs.bind fun v => performs_deliver target type v
  | default target type =>
    exact (Observes.require _).settles.bind fun _ =>
      (supplies_emptyValue type).performs.bind fun v => performs_deliver target type v
  | copy target source =>
    refine (performs_lookup source).bind fun v => ?_
    exact (performs_clone.mono (fun _ h => h.1) fun _ _ h => h).bind fun x =>
      performs_deliver target v.type x
  | deep target source =>
    refine (performs_lookup source).bind fun v => ?_
    refine ((Observes.require _).performs 0 (fun vs => vs.lookup source = some v)).mono
      (fun _ h => h.1) (fun _ _ h => h) |>.bind fun _ => ?_
    exact performs_deepCopy.bind fun x => performs_deliver target v.type x
  | drop var =>
    refine (performs_lookup var).bind fun v => ?_
    show Performs _ _ (Run.unbind var >>= fun _ => Run.drop [v.value] >>= fun _ => done) _ _ _
    rw [← bind_assoc]
    exact (performs_discard.mono (fun _ h => ⟨v.type, h.1⟩) fun _ _ h => h).done
  | mutate var path => exact settles_mutate var path
  | race type count =>
    exact ((yields_readNat .usize count).settles (by decide)).bind fun n => settles_race type n
  | get | text | inspect | equal | sameText | dump | tables =>
    exact (observes_performCommon fresh rfl).settles
  | _ => exact Observes.refuse.settles

end common

section erased

theorem performs_lookupErased {given : Multiset Piece} {pre : World → Prop} (var : Option String) :
    Performs given pre (lookupErased var) (fun _ => given)
      (fun current w => (∃ name, var = some name ∧ w.Holds name .slot current) ∧ pre w) given := by
  cases var with
  | none => exact .refuse rfl
  | some name =>
    exact (performs_lookupHandle .slot name).mono (fun _ h => h) fun _ _ h => ⟨⟨name, rfl, h.1⟩, h.2⟩

theorem settles_set (var : Option String) (type : Ty) (value : Datum) :
    Settles (performErased (.set var type value)) := by
  refine (Observes.require _).settles.bind fun _ => ?_
  refine (supplies_read type value).performs.bind fun v => ?_
  have hl : Performs v.pieces (fun w => HasType w.store type v)
      (Run.unwinding [v] (lookupErased var)) (fun _ => v.pieces)
      (fun current w => (∃ name, var = some name ∧ w.Holds name .slot current) ∧
        HasType w.store type v) 0 :=
    .unwinding (by simpa using performs_lookupErased var)
  refine hl.bind fun current => .assume (P := ∃ name, var = some name) ?_ ?_
  · rintro w ⟨⟨name, hn, -⟩, -⟩
    exact ⟨name, hn⟩
  rintro ⟨name, rfl⟩
  simp only [Run.orRefuse, pure_bind]
  rw [← bind_assoc]
  refine ((performs_reassign _ current (fun w => HasType w.store type v)
    fun kept c _ hh hv _ => accounts_set hh hv).mono ?_ fun _ _ h => h).done
  rintro w ⟨⟨_, hn, hw⟩, hv⟩
  cases hn
  exact ⟨hw, hv⟩

/-- Copying a handle cannot fail. -/
theorem accounts_cloneHandle {S : Scope} {k : HandleKind} {target : Option Nat} {c : Config}
    {kept : Multiset Piece} {err : Config → Prop} (hh : c.hand = kept)
    (ha : ∀ id, target = some id → c.world.store.Alive ⟨k, id⟩) :
    Accounts S (Value.handle k target).clone c
      (fun v d => v = .handle k target ∧ d.hand = (Value.handle k target).pieces + kept) err := by
  cases target with
  | none => exact .pure ⟨rfl, by simpa using hh⟩
  | some id =>
    refine .bind (Accounts.share (ha id rfl) hh) ?_
    rintro _ d - - - ⟨rfl, hd⟩
    exact .pure ⟨rfl, hd⟩

theorem World.mem_unbind {w : World} {name source : String} {v : Variable} (hne : source ≠ name)
    (hv : w.find? source = some v) : (source, v) ∈ (w.unbind name).bindings :=
  List.mem_filter.mpr ⟨mem_of_find? hv, by simpa using hne⟩

/-- A handle that another variable holds stays where it is. -/
theorem World.Holds.mem_rest {w : World} {name source : String} {k : HandleKind} {id : Nat}
    (hne : source ≠ name) (hv : w.Holds source k (some id)) :
    .handle ⟨k, id⟩ ∈ (w.unbind name).owned := by
  obtain ⟨t, hv⟩ := hv
  refine Multiset.mem_of_le (pieces_le_owned (mem_unbind hne hv)) ?_
  simp

/-- Only variables of the erased type hold handles to slots. -/
theorem Config.Sound.find?_of_holds {c : Config} (hs : c.Sound) {name : String}
    {target : Option Nat} (hv : c.world.Holds name .slot target) :
    c.world.find? name = some ⟨.erased, .handle .slot target⟩ := by
  obtain ⟨t, hv⟩ := hv
  obtain ⟨t', ht, hk, -⟩ := hs.variable hv
  cases ht
  have e : t = .erased := by cases t <;> simp_all [Ty.handleKind?]
  rw [hv, e]

theorem Config.Sound.holds {c : Config} (hs : c.Sound) {name : String} {target : Option Nat}
    (hv : c.world.Holds name .slot target) :
    HasType c.world.store .erased (.handle .slot target) :=
  hs.variable (hs.find?_of_holds hv)

/-- Assigning from another variable. -/
theorem performs_assignOther {var source : String} {current other : Option Nat}
    (hne : source ≠ var) :
    Performs 0 (fun w => w.Holds var .slot current ∧ w.Holds source .slot other)
      (do let target ← Erased.assign current other
          Run.bind var .erased (.handle .slot target)) (fun _ => 0) (fun _ _ => True) 0 := by
  refine performs_reassign _ current (fun w => w.Holds source .slot other)
    fun kept c hs hh hv hk => ?_
  rw [zero_add] at hh
  refine (accounts_assign hh fun id hid => ?_).mono ?_ fun _ _ _ h => h
  · subst hid hk
    exact hv.mem_rest hne
  · rintro _ d hm - - ⟨rfl, hd⟩
    exact ⟨hd, (hs.holds hv).evolve hm.evolves⟩

theorem performs_cloneHandle (name : String) (k : HandleKind) (target : Option Nat)
    (F : List (String × Variable) → Prop) :
    Performs 0 (fun w => w.Holds name k target ∧ F w.bindings) (Value.handle k target).clone
      (fun _ => (Value.handle k target).pieces)
      (fun v w => v = .handle k target ∧ F w.bindings) 0 := by
  refine .of_accounts (S := .grow) (by decide) fun c hs hh _ hv => ?_
  refine (accounts_cloneHandle hh (hs.alive_of_holds hh hv.1)).mono ?_ fun _ _ _ h => h
  rintro v d hm - - ⟨hv', hd⟩
  exact ⟨by rw [hd, zero_add], hv', by rw [hm.bindings_eq (by decide)]; exact hv.2⟩

/-- Assigning a variable to itself goes through a copy of its handle. -/
theorem performs_assignSelf (var : String) (current other : Option Nat) :
    Performs 0 (fun w => w.Holds var .slot current ∧ w.Holds var .slot other)
      (do let temporary ← (Value.handle .slot other).clone
          let target ← Erased.assign current other
          Run.drop [temporary]
          Run.bind var .erased (.handle .slot target)) (fun _ => 0) (fun _ _ => True) 0 := by
  have hc := performs_cloneHandle var .slot other
    fun vs => (∃ t, vs.lookup var = some ⟨t, .handle .slot current⟩) ∧
      ∃ t, vs.lookup var = some ⟨t, .handle .slot other⟩
  refine (hc.mono (fun w h => ⟨h.2, h⟩) fun _ _ h => h).bind fun temporary => ?_
  refine .assume (P := temporary = .handle .slot other) (fun w h => h.1) ?_
  rintro rfl
  have h := performs_reassign var current (fun w => w.Holds var .slot other)
    fun kept c hs hh hv _ => (accounts_assignVia hh).mono
      (fun _ _ hm _ _ h => ⟨by rw [h.1, h.2], by rw [h.1]; exact (hs.holds hv).evolve hm.evolves⟩)
      fun _ _ _ h => h
  simp only [bind_assoc, pure_bind] at h
  exact h.mono (fun _ h => h.2) fun _ _ h => h

theorem settles_assign (var source : String) : Settles (performErased (.assign var source)) := by
  refine (performs_lookupHandle .slot var).bind fun current => ?_
  refine (performs_lookupHandle .slot source).bind fun other => ?_
  dsimp only
  split
  next e =>
    subst e
    have h := (performs_assignSelf var current other).done
    simp only [bind_assoc] at h
    exact h.mono (fun w h => ⟨h.2.1, h.1⟩) fun _ _ h => h
  next hne =>
    rw [← bind_assoc]
    exact ((performs_assignOther fun e => hne e.symm).mono (fun w h => ⟨h.2.1, h.1⟩)
      fun _ _ h => h).done

theorem settles_clear (var : String) : Settles (performErased (.clear var)) := by
  refine (performs_lookupHandle .slot var).bind fun current => ?_
  have h : Performs 0 (fun w => w.Holds var .slot current ∧ True)
      (do let target ← (do Erased.clear current; pure none)
          Run.bind var .erased (.handle .slot target)) (fun _ => 0) (fun _ _ => True) 0 := by
    refine performs_reassign var current (fun _ => True) fun kept c _ hh _ _ => ?_
    have hk : c.hand = Value.piecesOf [.handle .slot current] + kept := by simpa using hh
    refine .bind (.drop (Scope.le_refl _) hk) fun _ d _ _ _ hd => ?_
    exact .pure ⟨by simpa using hd, hasType_nothing rfl _⟩
  simp only [bind_assoc, pure_bind] at h
  have h' := h.done
  rw [bind_assoc] at h'
  exact h'

theorem settles_threadDrop (var : String) : Settles (performErased (.threadDrop var)) := by
  refine (performs_lookupHandle .slot var).bind fun target => ?_
  show Performs _ _ (Run.unbind var >>= fun _ => Run.drop [.handle .slot target] >>= fun _ => done)
    _ _ _
  rw [← bind_assoc]
  exact (performs_discard.mono (fun _ h => h.1) fun _ _ h => h).done

theorem accounts_cloneAndDrop {k : HandleKind} {target : Option Nat} {kept : Multiset Piece}
    {err : Config → Prop} (hk : ∀ id, target = some id → .handle ⟨k, id⟩ ∈ kept) (n : Nat) :
    ∀ c : Config, c.hand = kept →
      Accounts .shrink (cloneAndDrop (.handle k target) n) c (fun _ d => d.hand = kept) err := by
  induction n with
  | zero => exact fun c hh => .pure hh
  | succ n ih =>
    refine fun c hh => .ofSound fun hs => ?_
    refine .bind (accounts_cloneHandle hh fun id hid => hs.alive_of_hand (hh ▸ hk id hid)) ?_
    rintro v d - - - ⟨rfl, hd⟩
    exact .bind (.drop (Scope.le_refl _) (by simpa using hd)) fun _ e _ _ _ he => ih e he

theorem accounts_runThreads {k : HandleKind} {target : Option Nat} {kept : Multiset Piece}
    {err : Config → Prop} (hk : ∀ id, target = some id → .handle ⟨k, id⟩ ∈ kept)
    (iterations n : Nat) :
    ∀ c : Config, c.hand = kept →
      Accounts .shrink (runThreads (.handle k target) iterations n) c (fun _ d => d.hand = kept)
        err := by
  induction n with
  | zero => exact fun c hh => .pure hh
  | succ n ih =>
    refine fun c hh => .ofSound fun hs => ?_
    refine .bind (accounts_cloneHandle hh fun id hid => hs.alive_of_hand (hh ▸ hk id hid)) ?_
    rintro v d - - - ⟨rfl, hd⟩
    have hk' : ∀ id, target = some id →
        .handle ⟨k, id⟩ ∈ (Value.handle k target).pieces + kept := fun id hid =>
      Multiset.mem_add.mpr (.inr (hk id hid))
    refine .bind (accounts_cloneAndDrop hk' iterations d hd) fun _ e _ _ _ he => ?_
    exact .bind (.drop (Scope.le_refl _) (by simpa using he)) fun _ f _ _ _ hf => ih f hf

theorem settles_threads (var : String) (count iterations : Option Datum) :
    Settles (performErased (.threads var count iterations)) := by
  refine (performs_lookupHandle .slot var).bind fun target => ?_
  let F : List (String × Variable) → Prop := fun vs => ∃ t, vs.lookup var = some ⟨t, .handle .slot target⟩
  refine (((yields_readNat .usize count).performs F).mono (fun _ h => h.1)
    fun _ _ h => h.2).bind fun n => ?_
  refine (((yields_readNat .usize iterations).performs F).mono (fun _ h => h)
    fun _ _ h => h.2).bind fun m => ?_
  refine Performs.bind (G := fun _ => 0) (Q := fun _ _ => True) ?_ fun _ =>
    Observes.settles (.bind (observes_shareCount _ _) fun _ => .pure _)
  refine .of_accounts (S := .shrink) (by decide) fun c _ hh _ hv => ?_
  refine (accounts_runThreads ?_ m n c hh).mono (fun _ _ _ _ _ h => ⟨h, trivial⟩) fun _ _ _ h => h
  rintro id rfl
  obtain ⟨t, hv⟩ := hv
  have hle := World.find?_le_owned (show c.world.find? var = _ from hv)
  rw [zero_add]
  exact Multiset.mem_of_le hle (by simp)

theorem settles_erasedExtract (var : String) (type : Ty) (into : Option Datum) (total : Bool) :
    Settles (performErased (.erasedExtract var type into total)) := by
  refine (Observes.require _).settles.bind fun _ => ?_
  refine (performs_lookupHandle .slot var).bind fun target => ?_
  have hx : ExtractsFrom .slot target type (Erased.tryExtract target type) :=
    fun c hs hl hal => extracts_erased hs hl hal
  cases into with
  | none =>
    refine (performs_extraction hx (fun _ => rfl) (fun _ => rfl) (fun _ => rfl) (fun v => ?_)
      total).mono (fun _ h => h.1) fun _ _ h => h
    exact (performs_showCopy v).mono (fun _ _ => trivial) fun _ _ h => h
  | some name =>
    exact (performs_extraction hx (fun _ => rfl) (fun _ => rfl) (fun _ => rfl)
      (performs_deliver name.text? type) total).mono (fun _ h => h.1) fun _ _ h => h

theorem settles_performErased (step : Step) : Settles (performErased step) := by
  cases step with
  | new target type value =>
    refine (Observes.require _).settles.bind fun _ => ?_
    refine (supplies_read type value).performs.bind fun v => ?_
    have h := Performs.turns (F := fun _ => True) (turns_erase type v) (by decide)
    exact (h.mono (fun _ h => ⟨h, trivial⟩) fun _ _ h => h.1).bind fun slot =>
      performs_deliver target .erased (.handle .slot slot)
  | newEmpty target =>
    exact (performs_deliver target .erased (.handle .slot none)).mono
      (fun w _ => hasType_nothing rfl w.store) fun _ _ h => h
  | set var type value => exact settles_set var type value
  | assign var source => exact settles_assign var source
  | clear var => exact settles_clear var
  | erasedExtract var type into total => exact settles_erasedExtract var type into total
  | erasedEquals var type value =>
    refine (Observes.require _).settles.bind fun _ => ?_
    refine (supplies_read type value).performs.bind fun v => ?_
    have ho : Observes (do
        let target ← lookupErased var
        Erased.equalsValue target type v) :=
      .bind (observes_lookupErased _) fun _ => observes_equalsValue _ _ _
    have h := ho.dropping [v]
    rw [Value.piecesOf_cons, Value.piecesOf_nil, add_zero] at h
    exact (h.mono (fun _ _ => trivial) fun _ _ h => h).bind fun _ => .pure rfl fun _ h => h
  | threads var count iterations => exact settles_threads var count iterations
  | threadDrop var => exact settles_threadDrop var
  | isEmpty | typeName | equalsNil | display | isErased | erasedDowncast | erasedWith =>
    exact (observes_performErased rfl).settles
  | _ => exact Observes.refuse.settles

theorem accounts_cellGet {c : Config} {target : Option Nat} (hs : c.Sound)
    (hl : c.world.locks = []) (hal : ∀ id, target = some id → c.world.store.Alive ⟨.cell, id⟩) :
    Accounts .grow (Cell.get target) c (fun v d => d.hand = v.pieces + c.hand)
      (fun d => d.hand = c.hand) := by
  refine .bind (Q := fun v d => d = c ∧ ∃ id a, c.world.store.get? id = some a ∧ v = a.content) ?_ ?_
  · refine .bind (accounts_address rfl) ?_
    rintro id c - - - ⟨rfl, rfl, -⟩
    refine .bind (Q := fun a d => d = c ∧ c.world.store.get? id = some a)
      (.read (hal id rfl) fun a ha _ => ⟨rfl, ha⟩) ?_
    rintro a c - - - ⟨rfl, ha⟩
    exact .pure ⟨rfl, id, a, ha, rfl⟩
  · rintro v c - - - ⟨rfl, id, a, ha, rfl⟩
    exact (accounts_cloneStored hs hl ha).mono (fun _ _ _ _ _ hd => hd.1) fun _ _ _ hd => hd

theorem performs_cellGet (var : String) (target : Option Nat) :
    Performs 0 (fun w => w.Holds var .cell target) (Cell.get target) Value.pieces
      (fun _ _ => True) 0 := by
  refine .of_accounts (S := .grow) (by decide) fun c hs hh hl hv => ?_
  refine (accounts_cellGet hs hl (hs.alive_of_holds hh hv)).mono ?_ fun d _ _ hd => by rw [hd, hh]
  rintro x d - - - hd
  exact ⟨by rw [hd, hh, zero_add], trivial⟩

theorem settles_performCell (step : Step) : Settles (performCell step) := by
  cases step with
  | cellGet var =>
    refine (performs_lookupHandle .cell var).bind fun target => ?_
    exact ((performs_cellGet var target).mono (fun _ h => h.1) fun _ _ h => h).bind fun v =>
      performs_showCopy v
  | isReal | cellWith => exact (observes_performCell rfl).settles
  | _ => exact Observes.refuse.settles

end erased

end SharedValues
