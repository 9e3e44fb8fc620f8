import SharedValues.Proofs.Steps

/-!
Calls through handles: poking an object and calling a function may change a cell that the object or
the function owns, or the object itself. Nothing is in hand meanwhile, because such a change moves
nothing in or out.
-/
namespace SharedValues

open Machine

section poking

/-- The new trick joins the others. -/
theorem addTrick_spec {s : Store} {n : Nat} {content : Value}
    (h : HasType s (.list .string) content) :
    ∃ new y, Object.addTrick n content = pure (new, y) ∧ new.pieces = content.pieces ∧
      HasType s (.list .string) new := by
  obtain ⟨tricks, rfl, ht⟩ := h.list_inv
  refine ⟨_, _, rfl, by simp, hasType_list ?_⟩
  refine List.forall_mem_append.mpr ⟨ht, fun v hv => ?_⟩
  rw [List.mem_singleton.mp hv]
  exact ⟨_, rfl, rfl⟩

theorem HasType.dog_inv {s : Store} {t : Ty} {x y : Value}
    (h : HasType s t (.node .dog [x, y])) : HasType s (.cell (.list .string)) y := by
  obtain ⟨ps, hp, hf⟩ := h
  cases t <;> simp only [Place.parts, reduceCtorEq, Option.some.injEq] at hp
  subst hp
  exact hf.2.1

theorem HasType.counter_inv {s : Store} {t : Ty} {parts : List Value}
    (h : HasType s t (.node .counter parts)) : t = .counter := by
  obtain ⟨ps, hp, -⟩ := h
  cases t <;> simp only [Place.parts, reduceCtorEq] at hp
  rfl

theorem accounts_pokeValue {c : Config} (hs : c.Sound) {id n : Nat} (hu : id ∉ c.world.locks)
    {a : Allocation} {i : Interface} {type : Ty} (ha : c.world.store.get? id = some a)
    (hr : a.role = .object i type) :
    Accounts .write (Object.pokeValue id n a.content) c (fun _ d => d.hand = c.hand)
      (fun d => d.hand = c.hand) := by
  have ht := hs.typed id a ha
  rw [hr] at ht
  unfold Object.pokeValue
  split
  next x tricks hv =>
    rw [hv] at ht
    refine accounts_update_same ht.dog_inv ?_ fun content => addTrick_spec
    rintro cell rfl
    refine hs.alive_of_stored hu ha ?_
    rw [hv]
    simp [Value.handles, Value.handlesOf]
  next => exact .pure rfl
  next count hv =>
    rw [hv] at ht
    refine .bind (Q := fun b d => d = c ∧ b = a) ?_ ?_
    · exact .read ⟨a, ha, by rw [hr]; rfl⟩ fun b hb _ => ⟨rfl, Option.some.inj (hb.symm.trans ha)⟩
    · rintro b c - - - ⟨rfl, rfl⟩
      have hc : HasType c.world.store b.role.content
          (.node .counter [.int (IntType.u32.wrap (count + n))]) := by
        rw [hr, ht.counter_inv]
        exact ⟨_, rfl, hasType_int (IntType.holds_wrap _ _), trivial⟩
      refine .bind (accounts_exchange (r := c.hand) (Scope.le_refl _) ha (by simp [hr, Role.kind]) hu
        hc ?_) fun _ _ _ _ _ hd => .pure hd
      simp [hv]
  next => exact .bind (.callHook rfl) fun _ _ _ _ _ hd => .pure hd
  next => exact .refuse rfl

theorem accounts_poke {c : Config} (hs : c.Sound) {id n : Nat} (hu : id ∉ c.world.locks)
    (hal : c.world.store.Alive ⟨.object, id⟩) :
    Accounts .write (Object.poke (some id) n) c (fun _ d => d.hand = c.hand)
      (fun d => d.hand = c.hand) := by
  refine .bind (Q := fun a d => d = c ∧ c.world.store.get? id = some a)
    (.read hal fun a ha _ => ⟨rfl, ha⟩) ?_
  rintro a c - - - ⟨rfl, ha⟩
  split
  next type hr => exact accounts_pokeValue hs hu ha hr
  next => exact .refuse rfl

theorem performs_poke {var : String} (target : Option Nat) (n : Nat) :
    Performs 0 (fun w => w.Holds var .object target) (Object.poke target n) (fun _ => 0)
      (fun _ _ => True) 0 := by
  refine .of_accounts (S := .write) (by decide) fun c hs hh hl hv => ?_
  cases target with
  | none => exact .fatal hh
  | some id =>
    refine (accounts_poke hs (by simp [hl]) (hs.alive_of_holds hh hv id rfl)).mono ?_
      fun _ _ _ hd => by rw [hd, hh]
    exact fun _ _ _ _ _ hd => ⟨by rw [hd, hh], trivial⟩

theorem settles_performObject (step : Step) : Settles (performObject step) := by
  cases step with
  | poke var n =>
    refine (performs_lookupHandle .object var).bind fun target => ?_
    let F : List (String × Variable) → Prop :=
      fun vs => ∃ t, vs.lookup var = some ⟨t, .handle .object target⟩
    refine (((observes_objectGet target).performs 0 F).mono (fun _ h => h.1)
      fun _ _ h => h).bind fun _ => ?_
    refine ((yields_readNat .u32 n).performs F).bind fun k => ?_
    exact ((performs_poke target k).mono (fun _ h => h.2) fun _ _ h => h).bind fun _ =>
      .pure rfl fun _ h => h
  | objectExtract var type total =>
    refine (performs_lookupHandle .object var).bind fun target => ?_
    have hx : ExtractsFrom .object target type (Object.tryExtract target type) :=
      fun c hs hl hal => extracts_object hs hl hal
    refine (performs_extraction hx (fun _ => rfl) (fun _ => rfl) (fun _ => rfl) (fun v => ?_)
      total).mono (fun _ h => h.1) fun _ _ h => h
    exact (performs_showCopy v).mono (fun _ _ => trivial) fun _ _ h => h
  | view | isObject | objectDowncast => exact (observes_performObject rfl).settles
  | _ => exact Observes.refuse.settles

end poking

section calling

/-- Code runs by itself, except that a tally changes the cell that it has captured. -/
theorem Function.apply_cases (code : Code) (captured x : Value) :
    (∃ v, apply code captured x = pure v) ∨ (∃ e, apply code captured x = throw e) ∨
      ∃ total n, code = .tally ∧ captured = .handle .cell total ∧
        apply code captured x = Cell.update total (addTo n) := by
  unfold apply
  split
  case h_3 total n => exact .inr (.inr ⟨total, n, rfl, rfl, rfl⟩)
  case h_4 => exact .inr (.inl ⟨_, rfl⟩)
  case h_9 => exact .inr (.inl ⟨_, rfl⟩)
  all_goals exact .inl ⟨_, rfl⟩

theorem addTo_spec {s : Store} {x : Int} {content : Value} (h : HasType s (.int .i64) content) :
    ∃ new y, Function.addTo x content = pure (new, y) ∧ new.pieces = content.pieces ∧
      HasType s (.int .i64) new := by
  obtain ⟨n, rfl, -⟩ := h.int_inv
  exact ⟨_, _, rfl, rfl, hasType_int (IntType.holds_wrap _ _)⟩

theorem accounts_apply {c : Config} (hs : c.Sound) (hl : c.world.locks = []) {id : Nat}
    {a : Allocation} {code : Code} {argument : Value} (ha : c.world.store.get? id = some a)
    (hr : a.role = .callable code) :
    Accounts .write (Function.apply code a.content argument) c (fun _ d => d.hand = c.hand)
      (fun d => d.hand = c.hand) := by
  have ht := hs.typed id a ha
  rw [hr] at ht
  unfold Function.apply
  split
  case h_3 total x hv =>
    rw [hv] at ht
    refine accounts_update_same ht ?_ fun content => addTo_spec
    rintro cell rfl
    refine hs.alive_of_stored (by simp [hl]) ha ?_
    rw [hv]
    simp [Value.handles]
  case h_4 => exact .panic rfl
  case h_9 => exact .throw rfl
  all_goals exact .pure rfl

/-- The address holds nothing but this role with this content, if it is alive at all. -/
def Store.Fixed (s : Store) (id : Nat) (role : Role) (content : Value) : Prop :=
  id < s.next ∧ ∀ a, s.get? id = some a → a.role = role ∧ a.content = content

theorem Store.fixed_of_get? {s : Store} {id : Nat} {a : Allocation} (ha : s.get? id = some a) :
    s.Fixed id a.role a.content := by
  refine ⟨lt_next_of_get? ha, fun b hb => ?_⟩
  obtain rfl := Option.some.inj (ha.symm.trans hb)
  exact ⟨rfl, rfl⟩

theorem Move.fixed {s : Scope} {c d : Config} (h : Move s c d) (hs : s ≤ .shrink) {id : Nat}
    {role : Role} {content : Value} (hf : c.world.store.Fixed id role content) :
    d.world.store.Fixed id role content := by
  refine ⟨Nat.lt_of_lt_of_le hf.1 h.evolves.next_le, fun b hb => ?_⟩
  obtain ⟨a, ha, er⟩ := h.evolves.role_eq id hf.1 b hb
  obtain ⟨hr, hc⟩ := hf.2 a ha
  refine ⟨er ▸ hr, ?_⟩
  by_cases hg : s ≤ .grow
  · obtain ⟨b', hb', -, e⟩ := h.get?_of_grow hg ha
    obtain rfl : b' = b := Option.some.inj (hb'.symm.trans hb)
    rw [e, hc]
  · cases h with
    | @release w _ _ vs =>
      obtain ⟨a', ha', e⟩ := (World.sameBut_release vs w).content id b hb
      rw [e, Option.some.inj (ha'.symm.trans ha), hc]
    | exchange | lock | rewrite | unlock | bind => exact absurd hs (by decide)
    | _ => exact absurd (Scope.le_refl _) hg

theorem Moves.fixed {c d : Config} (h : Moves .shrink c d) {id : Nat} {role : Role}
    {content : Value} (hf : c.world.store.Fixed id role content) :
    d.world.store.Fixed id role content :=
  h.invariant (P := fun e => e.world.store.Fixed id role content)
    (fun _ _ _ hs hm he => hm.fixed hs he) hf

/-- The function is alive, with this code and this captured state. -/
def World.Callable (w : World) (id : Nat) (code : Code) (captured : Value) : Prop :=
  ∃ a, w.store.get? id = some a ∧ a.role = .callable code ∧ a.content = captured

theorem World.Callable.call_eq {w : World} {id : Nat} {code : Code} {captured : Value}
    (h : w.Callable id code captured) (x : Value) :
    Function.call (some id) x w = Function.apply code captured x w := by
  obtain ⟨a, ha, hr, rfl⟩ := h
  have hread : Run.read .callable id w = .ok a w := by
    have h := Run.read_of_get? ha
    rwa [hr] at h
  have htry : Function.tryGet (some id) w = .ok (.ok (code, a.content)) w := by
    rw [Function.tryGet, Run.bind_of_ok hread, hr]
    rfl
  have hget : Function.get (some id) w = .ok (code, a.content) w := Run.bind_of_ok htry
  exact Run.bind_of_ok hget

theorem accounts_call {c : Config} (hs : c.Sound) (hl : c.world.locks = []) {target : Option Nat}
    (ht : ∀ id, target = some id → c.world.store.Alive ⟨.callable, id⟩) (x : Value) :
    Accounts .write (Function.call target x) c (fun _ d => d.hand = c.hand)
      (fun d => d.hand = c.hand) := by
  cases target with
  | none => exact .bind (Q := fun _ _ => False) (.fatal rfl) fun _ _ _ _ _ h => h.elim
  | some id =>
    obtain ⟨a, ha, hk⟩ := ht id rfl
    cases hr : a.role with
    | callable code =>
      have hcall : c.world.Callable id code a.content := ⟨a, ha, hr, rfl⟩
      unfold Accounts
      rw [hcall.call_eq]
      exact accounts_apply hs hl ha hr
    | _ => simp [hr, Role.kind] at hk

theorem performs_call {var : String} (target : Option Nat) (x : Value) :
    Performs 0 (fun w => w.Holds var .callable target) (Function.call target x) (fun _ => 0)
      (fun _ _ => True) 0 := by
  refine .of_accounts (S := .write) (by decide) fun c hs hh hl hv => ?_
  refine (accounts_call hs hl (hs.alive_of_holds hh hv) x).mono ?_ fun _ _ _ hd => by rw [hd, hh]
  exact fun _ _ _ _ _ hd => ⟨by rw [hd, hh], trivial⟩

theorem yields_readArgument (type : Ty) (argument : Option Datum) :
    Yields (fun _ => True) (readArgument type argument) := by
  refine (yields_orRefuse _).bind (R := fun _ => True) fun d _ => ?_
  split
  next => exact (yields_orRefuse _).bind fun _ _ => Turns.pure rfl fun _ _ => trivial
  next =>
    intro frame c hh ho hc
    refine (supplies_read (.int .i64) d frame c hh ho hc).mono ?_ fun _ _ _ h => h
    rintro v d' - - - ⟨hd, hb, hv⟩
    obtain ⟨n, rfl, -⟩ := hv.int_inv
    exact ⟨hd, hb, trivial⟩
  next => exact Turns.refuse rfl

theorem settles_performFunction (step : Step) : Settles (performFunction step) := by
  cases step with
  | call var argument total =>
    refine (performs_lookupHandle .callable var).bind fun target => ?_
    let F : List (String × Variable) → Prop :=
      fun vs => ∃ t, vs.lookup var = some ⟨t, .handle .callable target⟩
    have hcall : Performs 0 (fun w => F w.bindings)
        (do let argument ← readArgument (← Run.lookup var).type argument
            let v ← Function.call target argument
            let picture ← v.picture
            ok picture) (fun _ => 0) (fun _ _ => True) 0 := by
      refine ((observes_lookup var).performs 0 F).bind fun v => ?_
      refine ((yields_readArgument v.type argument).performs F).bind fun x => ?_
      refine ((performs_call target x).mono (fun _ h => h.2) fun _ _ h => h).bind fun y => ?_
      exact Observes.settles (.bind (observes_picture y) fun _ => .pure _)
    have hfetch : ∀ act : Run (Except AccessError (Code × Value)), Observes act →
        Performs 0 (fun w => w.Holds var .callable target ∧ True) act (fun _ => 0)
          (fun _ w => F w.bindings) 0 :=
      fun act h => (h.performs 0 F).mono (fun _ hw => hw.1) fun _ _ hw => hw
    dsimp only
    split
    next =>
      exact (hfetch _ (observes_tryGet target)).bind
        (performs_onOk (fun _ => rfl) (fun _ => rfl) fun _ => hcall)
    next =>
      exact (hfetch _ (.bind (observes_functionGet target) fun _ => .pure _)).bind
        (performs_onOk (fun _ => rfl) (fun _ => rfl) fun _ => hcall)
  | _ => exact Observes.refuse.settles

end calling

/-- Every step of the machine. -/
theorem settles_perform (fresh : Bool) (step : Step) : Settles (perform fresh step) := by
  unfold perform
  split
  all_goals first
    | exact settles_performCommon fresh _
    | exact settles_performErased _
    | exact settles_performCell _
    | exact settles_performObject _
    | exact settles_performFunction _
    | exact (observes_performShared _).settles

end SharedValues
