import SharedValues.Program.Machine
import SharedValues.Proofs.Bindings
import SharedValues.Proofs.Edits

/-!
Triples for the steps of the machine. Between steps nothing is in hand but what the variables own;
within a step there are further pieces in hand, and variables may be bound and unbound.
-/
namespace SharedValues

/-- The action turns what is given, beside what the variables own, into what `got` says, beside what
they own then. -/
def Performs {α : Type} (given : Multiset Piece) (pre : World → Prop) (act : Run α)
    (got : α → Multiset Piece) (post : α → World → Prop) (lost : Multiset Piece) : Prop :=
  ∀ c : Config, c.hand = given + c.world.owned → c.world.locks = [] →
    World.Ascending c.world.bindings → pre c.world →
    Accounts .bind act c
      (fun a d => d.hand = got a + d.world.owned ∧ World.Ascending d.world.bindings ∧
        post a d.world)
      (fun d => d.hand = lost + d.world.owned ∧ World.Ascending d.world.bindings)

theorem Scope.le_bind (S : Scope) : S ≤ .bind := by cases S <;> decide

namespace Performs

variable {α β : Type} {given lost : Multiset Piece} {pre : World → Prop}

theorem pure {a : α} {got : α → Multiset Piece} {post : α → World → Prop} (hg : given = got a)
    (hp : ∀ w, pre w → post a w) : Performs given pre (pure a) got post lost :=
  fun _ hh _ ha hc => .pure ⟨by rw [hh, hg], ha, hp _ hc⟩

theorem refuse {got : α → Multiset Piece} {post : α → World → Prop} (hg : given = lost) :
    Performs given pre Run.refuse got post lost :=
  fun _ hh _ ha _ => .throw ⟨by rw [hh, hg], ha⟩

theorem bind {act : Run α} {f : α → Run β} {G : α → Multiset Piece} {Q : α → World → Prop}
    {got : β → Multiset Piece} {post : β → World → Prop}
    (h : Performs given pre act G Q lost) (hf : ∀ a, Performs (G a) (Q a) (f a) got post lost) :
    Performs given pre (act >>= f) got post lost := by
  intro c hh hl ha hc
  refine .bind (h c hh hl ha hc) ?_
  rintro a d - - hk ⟨hd, ha', hq⟩
  exact hf a d hd (hk.locks.trans hl) ha' hq

theorem mono {act : Run α} {got : α → Multiset Piece} {post : α → World → Prop}
    {pre' : World → Prop} {post' : α → World → Prop} (h : Performs given pre act got post lost)
    (hpre : ∀ w, pre' w → pre w) (hpost : ∀ a w, post a w → post' a w) :
    Performs given pre' act got post' lost := by
  intro c hh hl ha hc
  refine (h c hh hl ha (hpre _ hc)).mono ?_ fun _ _ _ h => h
  rintro a d - - - ⟨hd, ha', hp⟩
  exact ⟨hd, ha', hpost a _ hp⟩

theorem ofSound {act : Run α} {got : α → Multiset Piece} {post : α → World → Prop}
    (h : ∀ c : Config, c.Sound → c.hand = given + c.world.owned → c.world.locks = [] →
      World.Ascending c.world.bindings → pre c.world →
      Accounts .bind act c
        (fun a d => d.hand = got a + d.world.owned ∧ World.Ascending d.world.bindings ∧
          post a d.world)
        (fun d => d.hand = lost + d.world.owned ∧ World.Ascending d.world.bindings)) :
    Performs given pre act got post lost :=
  fun c hh hl ha hc => .ofSound fun hs => h c hs hh hl ha hc

theorem assume {act : Run α} {got : α → Multiset Piece} {post : α → World → Prop} {P : Prop}
    (hP : ∀ w, pre w → P) (h : P → Performs given pre act got post lost) :
    Performs given pre act got post lost :=
  fun c hh hl ha hc => h (hP _ hc) c hh hl ha hc

theorem unwinding {act : Run α} {vs : List Value} {got : α → Multiset Piece}
    {post : α → World → Prop}
    (h : Performs given pre act got post (Value.piecesOf vs + lost)) :
    Performs given pre (Run.unwinding vs act) got post lost := by
  intro c hh hl ha hc
  refine .unwindingTo ((h c hh hl ha hc).mono (fun _ _ _ _ _ h => h) ?_)
  rintro d - - ⟨hd, ha'⟩
  have hb := (World.sameBut_release vs d.world).bindings
  refine ⟨lost + d.world.owned, by rw [hd, add_assoc], ?_, ?_⟩
  · simp only [World.owned, hb]
  · rw [hb]
    exact ha'

/-- An action that changes no variable. -/
theorem of_accounts {S : Scope} {act : Run α} {got : α → Multiset Piece}
    {post : α → World → Prop} (hS : S ≤ .write)
    (h : ∀ c : Config, c.Sound → c.hand = given + c.world.owned → c.world.locks = [] →
      pre c.world →
      Accounts S act c (fun a d => d.hand = got a + c.world.owned ∧ post a d.world)
        (fun d => d.hand = lost + c.world.owned)) :
    Performs given pre act got post lost := by
  refine ofSound fun c hs hh hl ha hc => ?_
  refine (((h c hs hh hl hc).mono ?_ ?_).widen (Scope.le_bind S))
  · rintro a d hm - - ⟨hd, hp⟩
    have hb := hm.bindings_eq hS
    exact ⟨by rw [hd, World.owned, World.owned, hb], by rwa [hb], hp⟩
  · rintro d hm - hd
    have hb := hm.bindings_eq (by revert hS; cases S <;> decide)
    exact ⟨by rw [hd, World.owned, World.owned, hb], by rwa [hb]⟩

/-- What is said of the store holds beside what is said of the variables, which stay. -/
theorem turns {S : Scope} {act : Run α} {got : α → Multiset Piece} {P : Store → Prop}
    {Q : α → Store → Prop} {F : List (String × Variable) → Prop}
    (h : Turns S given P act got Q lost) (hS : S ≤ .write) :
    Performs given (fun w => P w.store ∧ F w.bindings) act got
      (fun a w => Q a w.store ∧ F w.bindings) lost := by
  refine of_accounts hS fun c _ hh _ hc => ?_
  refine (h c.world.owned c hh le_rfl hc.1).mono ?_ fun _ _ _ h => h
  rintro a d - - - ⟨hd, hb, hq⟩
  exact ⟨hd, hq, by rw [hb]; exact hc.2⟩

end Performs

/-- The action leads from what the variables own to what they own then. -/
def Settles {α : Type} (act : Run α) : Prop :=
  Performs 0 (fun _ => True) act (fun _ => 0) (fun _ _ => True) 0

theorem Observes.settles {α : Type} {act : Run α} (h : Observes act) : Settles act :=
  .of_accounts (S := .grow) (by decide) fun c _ hh _ _ =>
    (h.accounts hh).mono (fun _ _ _ _ _ h => ⟨h.1, trivial⟩) fun _ _ _ h => h

theorem Turns.settles {α : Type} {S : Scope} {act : Run α} {Q : α → Store → Prop}
    (h : Turns S 0 (fun _ => True) act (fun _ => 0) Q 0) (hS : S ≤ .write) : Settles act :=
  (Performs.turns (F := fun _ => True) h hS).mono (fun _ _ => ⟨trivial, trivial⟩)
    fun _ _ _ => trivial

section bindings

variable {given : Multiset Piece} {pre : World → Prop}

theorem performs_lookup (name : String) :
    Performs given pre (Run.lookup name) (fun _ => given)
      (fun v w => w.find? name = some v ∧ pre w) given := by
  refine .of_accounts (S := .grow) (by decide) fun c _ hh _ hc => ?_
  refine .bind (Q := fun w d => d = c ∧ w = c.world) (.get ⟨rfl, rfl⟩) ?_
  rintro w _ - - - ⟨rfl, rfl⟩
  exact .orRefuse (fun v hv => ⟨hh, hv, hc⟩) hh

/-- The variable holds a handle of the kind. -/
def World.Holds (w : World) (name : String) (kind : HandleKind) (target : Option Nat) : Prop :=
  ∃ t, w.find? name = some ⟨t, .handle kind target⟩

theorem Run.lookup_of_find? {w : World} {name : String} {v : Variable} (h : w.find? name = some v) :
    Run.lookup name w = .ok v w := by
  rw [Run.lookup, Run.bind_get, h]
  rfl

theorem World.Holds.lookupHandle {w : World} {name : String} {kind : HandleKind}
    {target : Option Nat} (h : w.Holds name kind target) :
    Run.lookupHandle kind name w = .ok target w := by
  obtain ⟨t, h⟩ := h
  rw [Run.lookupHandle, Run.bind_of_ok (Run.lookup_of_find? h)]
  dsimp only
  rw [if_pos rfl]
  rfl

theorem performs_lookupHandle (kind : HandleKind) (name : String) :
    Performs given pre (Run.lookupHandle kind name) (fun _ => given)
      (fun target w => w.Holds name kind target ∧ pre w) given := by
  refine (performs_lookup name).bind fun v => ?_
  obtain ⟨t, x⟩ := v
  cases x with
  | handle k target =>
    dsimp only
    split
    next e =>
      subst e
      exact .pure rfl fun w hw => ⟨⟨t, hw.1⟩, hw.2⟩
    next => exact .refuse rfl
  | scalar | probe | node => exact .refuse rfl

/-- What a variable holds is typed, and part of what the variables own. -/
theorem Config.Sound.variable {c : Config} (hs : c.Sound) {name : String} {v : Variable}
    (hv : c.world.find? name = some v) : HasType c.world.store v.type v.value :=
  hs.bound _ (World.mem_of_find? hv)

theorem World.find?_le_owned {w : World} {name : String} {v : Variable}
    (hv : w.find? name = some v) : v.value.pieces ≤ w.owned :=
  pieces_le_owned (mem_of_find? hv)

/-- Everything that a variable points at is alive. -/
theorem Config.Sound.alive_of_variable {c : Config} (hs : c.Sound)
    (hh : c.hand = given + c.world.owned) {name : String} {v : Variable}
    (hv : c.world.find? name = some v) {h : Handle} (hm : h ∈ v.value.handles) :
    c.world.store.Alive h := by
  refine hs.alive_of_hand ?_
  rw [hh]
  exact Multiset.mem_add.mpr (.inr (Multiset.mem_of_le (World.find?_le_owned hv)
    (Value.handle_mem_pieces.mpr hm)))

theorem Config.Sound.alive_of_holds {c : Config} (hs : c.Sound) {given : Multiset Piece}
    (hh : c.hand = given + c.world.owned) {name : String} {k : HandleKind} {target : Option Nat}
    (hv : c.world.Holds name k target) (id : Nat) (hid : target = some id) :
    c.world.store.Alive ⟨k, id⟩ := by
  obtain ⟨t, hv⟩ := hv
  subst hid
  exact hs.alive_of_variable hh hv (by simp [Value.handles])

/-- Binding changes the variables only. -/
theorem accounts_bind {c : Config} {name : String} {type : Ty} {value : Value}
    {err : Config → Prop} (ha : World.Ascending c.world.bindings) (hs : c.Sound)
    (hv : HasType c.world.store type value) :
    Accounts .bind (Run.bind name type value) c
      (fun _ d => d = ⟨c.world.bind name ⟨type, value⟩, c.hand⟩) err := by
  intro _
  refine ⟨c.hand, .one (Scope.le_refl _) (.bind fun x hx => ?_), .of_eq rfl rfl, rfl⟩
  rcases World.mem_bind ha hx with rfl | hx
  · exact hv
  · exact hs.bound x hx

theorem accounts_unbind {c : Config} {name : String} {err : Config → Prop} (hs : c.Sound) :
    Accounts .bind (Run.unbind name) c (fun _ d => d = ⟨c.world.unbind name, c.hand⟩) err := by
  intro _
  refine ⟨c.hand, .one (Scope.le_refl _) (.bind fun x hx => ?_), .of_eq rfl rfl, rfl⟩
  exact hs.bound x (List.mem_filter.mp hx).1

/-- Giving up values leaves the variables alone. -/
theorem accounts_dropBeside {vs : List Value} {r : Multiset Piece} {c : Config}
    {err : Config → Prop} (ha : World.Ascending c.world.bindings)
    (hh : c.hand = Value.piecesOf vs + (r + c.world.owned)) :
    Accounts .bind (Run.drop vs) c
      (fun _ d => d.hand = r + d.world.owned ∧ World.Ascending d.world.bindings) err := by
  have h : Accounts .shrink (Run.drop vs) c (fun _ d => d.hand = r + c.world.owned) err :=
    .drop (Scope.le_refl _) hh
  refine (h.mono ?_ fun _ _ _ h => h).widen (Scope.le_bind _)
  rintro _ d hm - - hd
  have hb := hm.bindings_eq (by decide)
  exact ⟨by rw [hd, World.owned, World.owned, hb], by rwa [hb]⟩

/-- A value in hand becomes the value of a variable, and what that held before is given up. -/
theorem performs_replace (name : String) (type : Ty) (value : Value) :
    Performs value.pieces (fun w => HasType w.store type value) (Machine.replace name type value)
      (fun _ => 0) (fun _ _ => True) 0 := by
  refine .ofSound fun c hs hh _ ha hv => ?_
  refine .bind (Q := fun w d => d = c ∧ w = c.world) (.get ⟨rfl, rfl⟩) ?_
  rintro w c - - - ⟨rfl, rfl⟩
  refine .bind (accounts_bind ha hs hv) ?_
  rintro _ d - - - rfl
  refine (accounts_dropBeside (World.insertVariable_ascending _ _ ha) ?_).mono
    (fun _ _ _ _ _ h => ⟨h.1, h.2, trivial⟩) fun _ _ _ h => h
  rw [World.owned_bind ha, hh, World.owned_eq ha name]
  cases c.world.find? name <;> simp only [Option.elim, Option.toList, List.map_nil, List.map_cons,
    Value.piecesOf_nil, Value.piecesOf_cons] <;> abel

theorem performs_deliver (target : Option String) (type : Ty) (value : Value) :
    Performs value.pieces (fun w => HasType w.store type value)
      (Machine.deliver target type value) (fun _ => 0) (fun _ _ => True) 0 := by
  cases target with
  | some name => exact (performs_replace name type value).bind fun _ => .pure rfl fun _ h => h
  | none =>
    have h : Turns .shrink value.pieces (fun s => HasType s type value)
        (Machine.deliver none type value) (fun _ => 0) (fun _ _ => True) 0 :=
      Turns.bind (Turns.drop (r := 0) (Scope.le_refl _) (stable_fits _ _) (by simp)) fun _ =>
        Turns.refuse rfl
    exact (Performs.turns (F := fun _ => True) h (by decide)).mono (fun _ h => ⟨h, trivial⟩)
      fun _ _ _ => trivial

/-- A variable goes and what it held is given up. -/
theorem performs_discard {name : String} {v : Value} :
    Performs 0 (fun w => ∃ t, w.find? name = some ⟨t, v⟩)
      (do Run.unbind name
          Run.drop [v]) (fun _ => 0) (fun _ _ => True) 0 := by
  refine .ofSound fun c hs hh _ ha hv => ?_
  obtain ⟨t, hv⟩ := hv
  refine .bind (accounts_unbind hs) ?_
  rintro _ d - - - rfl
  refine (accounts_dropBeside (World.Ascending.filter ha _) ?_).mono
    (fun _ _ _ _ _ h => ⟨h.1, h.2, trivial⟩) fun _ _ _ h => h
  rw [hh, World.owned_of_find? ha hv]
  simp

/-- An action that works on the share of a variable, which is then bound to the outcome. -/
theorem performs_reassign {act : Run (Option Nat)} (name : String) (current : Option Nat)
    (P : World → Prop)
    (h : ∀ (kept : Multiset Piece) (c : Config), c.Sound →
      c.hand = (Value.handle .slot current).pieces + (given + kept) → P c.world →
      kept = (c.world.unbind name).owned →
      Accounts .shrink act c
        (fun target d => d.hand = (Value.handle .slot target).pieces + kept ∧
          HasType d.world.store .erased (.handle .slot target)) fun _ => False) :
    Performs given (fun w => w.Holds name .slot current ∧ P w)
      (do let target ← act
          Run.bind name .erased (.handle .slot target)) (fun _ => 0) (fun _ _ => True) 0 := by
  refine .ofSound fun c hs hh _ ha ⟨⟨t, hv⟩, hp⟩ => ?_
  have hc : c.hand = (Value.handle .slot current).pieces +
      (given + (c.world.unbind name).owned) := by
    rw [hh, World.owned_of_find? ha hv]
    abel
  have h₁ := (h _ c hs hc hp rfl).mono (P := fun target d =>
      d.hand = (Value.handle .slot target).pieces + (c.world.unbind name).owned ∧
        HasType d.world.store .erased (.handle .slot target) ∧
        d.world.bindings = c.world.bindings)
    (E := fun d => d.hand = 0 + d.world.owned ∧ World.Ascending d.world.bindings)
    (fun target d hm _ _ ⟨hd, ht⟩ => ⟨hd, ht, hm.bindings_eq (by decide)⟩) nofun
  refine .bind (h₁.widen (Scope.le_bind _)) ?_
  rintro target d - hsd - ⟨hd, ht, hb⟩
  have ha' : World.Ascending d.world.bindings := by rwa [hb]
  refine (accounts_bind ha' hsd ht).mono ?_ fun _ _ _ h => h
  rintro _ e - - - rfl
  refine ⟨?_, World.insertVariable_ascending _ _ ha', trivial⟩
  rw [World.owned_bind ha', hd, zero_add]
  simp only [World.owned, World.unbind, hb]

end bindings

/-- A value is built beside what the variables own. -/
theorem Supplies.performs {t : Ty} {act : Run Value} (h : Supplies t act) :
    Performs 0 (fun _ => True) act Value.pieces (fun v w => HasType w.store t v) 0 :=
  (Performs.turns (F := fun _ => True) h (by decide)).mono (fun _ _ => ⟨trivial, trivial⟩)
    fun _ _ h => h.1

/-- Plain data is read while the variables stay as they are. -/
theorem Yields.performs {α : Type} {Q : α → Prop} {act : Run α} (h : Yields Q act)
    (F : List (String × Variable) → Prop) :
    Performs 0 (fun w => F w.bindings) act (fun _ => 0) (fun a w => Q a ∧ F w.bindings) 0 :=
  (Performs.turns (F := F) h (by decide)).mono (fun _ h => ⟨trivial, h⟩) fun _ _ h => h

/-- An action that only looks while something is in hand. -/
theorem Observes.performs {α : Type} {act : Run α} (h : Observes act) (r : Multiset Piece)
    (F : List (String × Variable) → Prop) :
    Performs r (fun w => F w.bindings) act (fun _ => r) (fun _ w => F w.bindings) r := by
  refine .of_accounts (S := .grow) (by decide) fun c _ hh _ hc => ?_
  refine (h.accounts hh).mono ?_ fun _ _ _ h => h
  rintro a d - - - ⟨hd, -, hb⟩
  exact ⟨hd, by rw [hb]; exact hc⟩

/-- Values are looked at and then given up. -/
theorem Observes.dropping {α : Type} {act : Run α} (h : Observes act) (vs : List Value) :
    Performs (Value.piecesOf vs) (fun _ => True) (Run.dropping vs act) (fun _ => 0)
      (fun _ _ => True) 0 := by
  refine .of_accounts (S := .shrink) (by decide) fun c _ hh _ _ => ?_
  have hk : c.hand = Value.piecesOf vs + (0 + c.world.owned) := by rw [hh, zero_add]
  refine (Accounts.dropping (Scope.le_refl _) ((h.accounts hk).mono (fun _ _ _ _ _ h => h.1)
    fun _ _ _ h => h)).mono (fun _ _ _ _ _ h => ⟨h, trivial⟩) fun _ _ _ h => h

/-- After an attempt that may fail, a failure is the answer as it stands. -/
theorem performs_onOk {α : Type} {given : Except AccessError α → Multiset Piece}
    {pre : Except AccessError α → World → Prop} {k : Except AccessError α → Run Machine.Result}
    (hg : ∀ e, given (.error e) = 0) (he : ∀ e, k (.error e) = pure (.error e))
    (hk : ∀ a, Performs (given (.ok a)) (pre (.ok a)) (k (.ok a)) (fun _ => 0) (fun _ _ => True) 0)
    (r : Except AccessError α) :
    Performs (given r) (pre r) (k r) (fun _ => 0) (fun _ _ => True) 0 := by
  cases r with
  | error e =>
    rw [he]
    exact .pure (hg e) fun _ _ => trivial
  | ok a => exact hk a

end SharedValues
