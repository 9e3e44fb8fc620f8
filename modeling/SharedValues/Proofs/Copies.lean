import SharedValues.Proofs.Primitives

/-!
Copies account for every piece: a finished copy is in hand beside the source and has the source's
type, and of an abandoned one nothing is left. Copying only adds, so what the source points at stays
alive all the way.
-/
namespace SharedValues

theorem Place.parts_map (p : Place) {levels levels' : List Nat} (n : Nat)
    (h : levels.length = levels'.length) : p.parts (.map levels) n = p.parts (.map levels') n := by
  cases p with
  | entry k v => rfl
  | value t => cases t <;> simp [Place.parts, h]

/-- A copy has the same places as its source. -/
theorem Place.parts_shape (p : Place) (d : Depth) (shape : Shape) (n : Nat) :
    p.parts (d.shape shape) n = p.parts shape n := by
  cases d with
  | shallow => rfl
  | deep =>
    cases shape with
    | map levels => exact p.parts_map n (Levels.length_packed levels.length)
    | _ => rfl

/-- Handles are copied so that the copy is in hand and points at the same role, as long as the
locks are as required. -/
def Forwards (locked : List Nat → Prop) (through : HandleKind → Nat → Run Nat) : Prop :=
  ∀ kind id (c : Config), locked c.world.locks → c.world.store.Alive ⟨kind, id⟩ →
    Accounts .grow (through kind id) c
      (fun i d => d.hand = {.handle ⟨kind, i⟩} + c.hand ∧
        ∀ t, c.world.store.Points t id → d.world.store.Points t i)
      (fun d => d.hand = c.hand)

/-- The copy of a value is in hand and stands where the value stands. -/
def CopyOf (p : Place) (c : Config) (v : Value) (d : Config) : Prop :=
  d.hand = v.pieces + c.hand ∧ Fits d.world.store p v

section

variable {locked : List Nat → Prop} {through : HandleKind → Nat → Run Nat}

mutual

theorem accounts_copyWith (d : Depth) (hf : Forwards locked through) :
    (v : Value) → ∀ (p : Place) (c : Config), locked c.world.locks → Fits c.world.store p v →
      (∀ h ∈ v.handles, c.world.store.Alive h) →
      Accounts .grow (v.copyWith d through) c (CopyOf p c) (fun e => e.hand = c.hand)
  | .scalar s, p, c, _, hv, _ => by
    rw [Value.copyWith]
    exact .pure ⟨by simp, hv⟩
  | .probe q, p, c, _, hv, _ => by
    rw [Value.copyWith]
    refine .bind (.callHook rfl) fun _ e _ _ _ he => ?_
    refine (Accounts.create he).mono ?_ fun _ _ _ h => h
    rintro _ e' - - - ⟨rfl, h⟩
    exact ⟨h, hv⟩
  | .handle kind none, p, c, _, hv, _ => by
    rw [Value.copyWith]
    exact .pure ⟨by simp, hv⟩
  | .handle kind (some id), p, c, hl, ⟨t, ht, hk, hp⟩, ha => by
    rw [Value.copyWith]
    refine .bind (hf kind id c hl (ha ⟨kind, id⟩ (by simp [Value.handles]))) ?_
    rintro i e - - - ⟨hh, hpt⟩
    refine .pure ⟨by simpa using hh, t, ht, hk, ?_⟩
    rintro j hj
    obtain rfl : i = j := Option.some.inj hj
    exact hpt t (hp id rfl)
  | .node shape parts, p, c, hl, ⟨ps, hps, hv⟩, ha => by
    rw [Value.copyWith]
    refine .bind (accounts_copyParts d hf shape parts [] ps [] c.hand c (by simp) hl trivial hv
      (by simpa [Value.handles] using ha)) ?_
    rintro parts' e - - - ⟨hh, hv'⟩
    refine .pure ⟨by simpa using hh, ps, ?_, hv'⟩
    rw [p.parts_shape, ← fitAll_length hv', List.nil_append, fitAll_length hv, hps]

theorem accounts_copyParts (d : Depth) (hf : Forwards locked through) (shape : Shape) :
    (vs : List Value) → ∀ (done : List Value) (ps qs : List Place) (kept : Multiset Piece)
      (c : Config), c.hand = Value.piecesOf done + kept → locked c.world.locks →
      FitAll c.world.store qs done → FitAll c.world.store ps vs →
      (∀ h ∈ Value.handlesOf vs, c.world.store.Alive h) →
      Accounts .grow (Value.copyParts d through shape done vs) c
        (fun parts e => e.hand = Value.piecesOf parts + kept ∧ FitAll e.world.store (qs ++ ps) parts)
        (fun e => e.hand = kept)
  | [], done, [], qs, kept, c, hh, _, hd, _, _ => by
    rw [Value.copyParts]
    exact .pure ⟨hh, by simpa using hd⟩
  | v :: vs, done, p :: ps, qs, kept, c, hh, hl, hd, hv, ha => by
    rw [Value.copyParts]
    have hg : Value.piecesOf (d.giveUp shape done) + kept = c.hand := by
      rw [hh, Value.piecesOf_perm (d.perm_giveUp shape done)]
    refine .bind (Q := CopyOf p c) ?_ ?_
    · refine .unwinding ((accounts_copyWith d hf v p c hl hv.1 ?_).mono (fun _ _ _ _ _ h => h) ?_)
      · intro h hm
        exact ha h (by simp [Value.handlesOf, hm])
      · intro e _ _ he
        rw [he, hg]
    · rintro v' e hm _ hle ⟨he, hv'⟩
      have hd' : FitAll e.world.store (qs ++ [p]) (done ++ [v']) :=
        fitAll_append (FitAll.evolve hm.evolves hd) ⟨hv', trivial⟩
      have := accounts_copyParts d hf shape vs (done ++ [v']) ps (qs ++ [p]) kept e
        (by rw [he, hh]; simp only [Value.piecesOf_append, Value.piecesOf_cons, Value.piecesOf_nil];
            abel) (by rwa [hle.locks]) hd' (FitAll.evolve hm.evolves hv.2)
        fun h hmem => hm.alive_of_grow (ha h (by simp [Value.handlesOf, hmem]))
      simpa using this

end

end

theorem forwards_share : Forwards (fun _ => True) Value.share := by
  intro kind id c _ ha
  refine (Accounts.share ha rfl).mono ?_ fun _ _ _ h => h
  rintro _ d hm - - ⟨rfl, hd⟩
  exact ⟨hd, fun t ht => ht.evolve hm.evolves⟩

/-- A clone. -/
theorem accounts_clone {v : Value} {p : Place} {c : Config} (hv : Fits c.world.store p v)
    (ha : ∀ h ∈ v.handles, c.world.store.Alive h) :
    Accounts .grow v.clone c (CopyOf p c) (fun e => e.hand = c.hand) :=
  accounts_copyWith .shallow forwards_share v p c trivial hv ha

/-- A copy of what an allocation owns goes into a new allocation of the same role. -/
theorem accounts_deepContent {hops : Nat} (ih : Forwards (· = []) (Value.deepThrough hops))
    {kind : HandleKind} {id : Nat} {a : Allocation} {c : Config} (hl : c.world.locks = [])
    (hs : c.Sound) (hg : c.world.store.get? id = some a) (hk : a.role.kind = kind) :
    Accounts .grow
      (do let content ← a.content.copyWith .deep (Value.deepThrough hops)
          Run.allocate a.role content) c
      (fun i d => d.hand = {.handle ⟨kind, i⟩} + c.hand ∧
        ∀ t, c.world.store.Points t id → d.world.store.Points t i)
      (fun d => d.hand = c.hand) := by
  have hu : id ∉ c.world.locks := by simp [hl]
  refine .bind (accounts_copyWith .deep ih a.content _ c hl (hs.typed id a hg)
    fun h hh => hs.alive_of_stored hu hg hh) ?_
  rintro content e hm he - ⟨hh, hv⟩
  obtain ⟨b, hb, hr, -⟩ := hm.get?_of_grow hg
  have hr' : a.role.Allowed e.world.registry := by
    rw [← hr]
    exact he.allowed id b hb
  refine (Accounts.allocate hr' hv hh).mono ?_ fun _ _ _ h => h
  rintro i d - - - ⟨hd, rfl, hst⟩
  refine ⟨by rw [hd, hk], fun t ht => ?_⟩
  rw [hst]
  refine ⟨by simp, fun b hb => ?_⟩
  rw [Store.get?_push_next, Option.some.injEq] at hb
  rw [← hb]
  exact ht.2 a hg

/-- What a handle points at is copied deeply while nothing is locked. -/
theorem forwards_deepThrough (hops : Nat) : Forwards (· = []) (Value.deepThrough hops) := by
  induction hops with
  | zero =>
    intro kind id c hl ha
    cases kind with
    | slot | callable =>
      rw [Value.deepThrough]
      exact forwards_share _ _ c trivial ha
    | cell | object => exact .throw rfl
  | succ hops ih =>
    intro kind id c hl ha
    cases kind with
    | slot | callable =>
      rw [Value.deepThrough]
      exact forwards_share _ _ c trivial ha
    | cell | object =>
      rw [Value.deepThrough]
      · refine .bind (Q := fun a d => d = c ∧ c.world.store.get? id = some a ∧ a.role.kind = _)
          (.read ha fun a hg hk => ⟨rfl, hg, hk⟩) ?_
        rintro a _ - hs - ⟨rfl, hg, hk⟩
        exact accounts_deepContent ih hl hs hg hk
      · nofun
      · nofun

theorem accounts_deepCopy {v : Value} {p : Place} {c : Config} (hl : c.world.locks = [])
    (hv : Fits c.world.store p v) (ha : ∀ h ∈ v.handles, c.world.store.Alive h) :
    Accounts .grow v.deepCopy c (CopyOf p c) (fun e => e.hand = c.hand) := by
  refine .bind (Q := fun _ d => d = c) (.get rfl) ?_
  rintro w _ - - - rfl
  exact accounts_copyWith .deep (forwards_deepThrough w.hops) v p _ hl hv ha

/-- The action yields a result and keeps alive what is alive, unless one of the probes refuses to be
cloned. -/
def Run.Clones {α : Type} (probes : List Probe) (act : Run α) (w : World) : Prop :=
  match act w with
  | .ok _ v => ∀ h, w.store.Alive h → v.store.Alive h
  | .error e _ => ∃ p ∈ probes, p.boom = some .clone ∧ e = .panic (.refused .clone p)

namespace Run.Clones

variable {α β : Type} {probes more : List Probe} {w : World}

theorem pure (a : α) : Clones probes (pure a) w := fun _ h => h

theorem mono {act : Run α} (h : Clones probes act w) (hs : probes ⊆ more) : Clones more act w := by
  unfold Clones at h ⊢
  cases hact : act w with
  | ok a v =>
    rw [hact] at h
    exact h
  | error e v =>
    rw [hact] at h
    obtain ⟨p, hp, he⟩ := h
    exact ⟨p, hs hp, he⟩

theorem bind {act : Run α} {f : α → Run β} (h : Clones probes act w)
    (hf : ∀ a v, (∀ x, w.store.Alive x → v.store.Alive x) → Clones probes (f a) v) :
    Clones probes (act >>= f) w := by
  unfold Clones at h ⊢
  cases hact : act w with
  | error e v =>
    rw [hact] at h
    rw [Run.bind_of_error hact]
    exact h
  | ok a v =>
    rw [hact] at h
    have h₁ := hf a v h
    unfold Clones at h₁
    rw [Run.bind_of_ok hact]
    cases hfa : f a v with
    | ok b u =>
      rw [hfa] at h₁
      exact fun x hx => h₁ x (h x hx)
    | error e u =>
      rw [hfa] at h₁
      exact h₁

theorem unwinding {act : Run α} (h : Clones probes act w) (built : List Value) :
    Clones probes (Run.unwinding built act) w := by
  unfold Clones at h ⊢
  unfold Run.unwinding
  cases hact : act w <;> rw [hact] at h <;> exact h

theorem callHook (p : Probe) : Clones [p] (Run.callHook .clone p) w := by
  have hr : Clones [p] (Run.record (.hook .clone p)) w := fun _ h => h
  refine hr.bind fun _ v _ => ?_
  split
  next hp => exact ⟨p, by simp, hp, rfl⟩
  next => exact .pure _

theorem create (p : Probe) : Clones probes (Run.create p) w := fun _ h => h

theorem share {kind : HandleKind} {id : Nat} (ha : w.store.Alive ⟨kind, id⟩) :
    Clones probes (Value.share kind id) w := by
  obtain ⟨a, hg, rfl⟩ := ha
  have hm : Move .grow ⟨w, 0⟩ _ := .retain hg
  refine .bind ?_ fun _ _ _ => .pure _
  unfold Clones
  rw [Run.retain_of_get? hg]
  exact fun x hx => (Moves.one (Scope.le_refl _) hm).alive_of_grow hx

end Run.Clones

mutual

/-- Cloning a value ends, unless one of its probes refuses. -/
theorem Value.clones : (v : Value) → ∀ w : World, (∀ h ∈ v.handles, w.store.Alive h) →
    Run.Clones v.probes (v.copyWith .shallow share) w
  | .scalar s, w, _ => by
    rw [copyWith]
    exact .pure _
  | .probe p, w, _ => by
    rw [copyWith]
    exact .bind (.callHook p) fun _ _ _ => .create p
  | .handle kind none, w, _ => by
    rw [copyWith]
    exact .pure _
  | .handle kind (some id), w, ha => by
    rw [copyWith]
    exact .bind (.share (ha ⟨kind, id⟩ (by simp [handles]))) fun _ _ _ => .pure _
  | .node shape parts, w, ha => by
    rw [copyWith]
    exact .bind (partsClones shape parts [] w (by simpa [handles] using ha)) fun _ _ _ => .pure _

theorem Value.partsClones (shape : Shape) : (vs : List Value) → ∀ (done : List Value) (w : World),
    (∀ h ∈ handlesOf vs, w.store.Alive h) →
    Run.Clones (probesOf vs) (copyParts .shallow share shape done vs) w
  | [], done, w, _ => by
    rw [copyParts]
    exact .pure _
  | v :: vs, done, w, ha => by
    rw [copyParts]
    have hv : ∀ h ∈ v.handles, w.store.Alive h := fun h hm => ha h (by simp [handlesOf, hm])
    refine .bind (((Value.clones v w hv).unwinding _).mono (by simp [probesOf])) fun v' u hu => ?_
    refine (partsClones shape vs (done ++ [v']) u ?_).mono (by simp [probesOf])
    exact fun h hm => hu h (ha h (by simp [handlesOf, hm]))

end

end SharedValues
