import SharedValues.Proofs.Sound

/-!
Actions that account for every piece. Such an action goes by moves from one configuration to the
next, finished or abandoned, and says what is in hand then. Rules for the ways in which actions are
put together carry this over from the parts to the whole, so no later proof looks at single moves.
-/
namespace SharedValues

namespace World

/-- Giving values up touches the store and the trace only, and what is left of the store is as
before, up to the numbers of shares. -/
structure SameBut (w v : World) : Prop where
  evolves : w.store.Evolves v.store
  content : ∀ id b, v.store.get? id = some b → ∃ a, w.store.get? id = some a ∧ b.content = a.content
  locks : v.locks = w.locks
  bindings : v.bindings = w.bindings
  registry : v.registry = w.registry
  created : v.created = w.created

theorem SameBut.trans {w v u : World} (h : w.SameBut v) (h' : v.SameBut u) : w.SameBut u := by
  refine ⟨h.evolves.trans h'.evolves, fun id c hc => ?_, h'.locks.trans h.locks,
    h'.bindings.trans h.bindings, h'.registry.trans h.registry, h'.created.trans h.created⟩
  obtain ⟨b, hb, e⟩ := h'.content id c hc
  obtain ⟨a, ha, e'⟩ := h.content id b hb
  exact ⟨a, ha, e.trans e'⟩

theorem sameBut_of_store {w v : World} (hs : v.store = w.store) (hl : v.locks = w.locks)
    (hb : v.bindings = w.bindings) (hr : v.registry = w.registry) (hc : v.created = w.created) :
    w.SameBut v :=
  ⟨by rw [hs]; exact .refl _, fun id b h => ⟨b, by rwa [← hs], rfl⟩, hl, hb, hr, hc⟩

theorem sameBut_destroy (w : World) (id : Nat) (a : Allocation) : w.SameBut (w.destroy id a) := by
  have h : w.SameBut { w with store := w.store.erase id } :=
    ⟨.erase _ _, fun other b hb => ⟨b, (Store.get?_erase_cases hb).2, rfl⟩, rfl, rfl, rfl, rfl⟩
  refine h.trans (sameBut_of_store (destroy_store w id a) ?_ ?_ ?_ ?_) <;>
    · unfold destroy
      split <;> rfl

theorem sameBut_putShares {w : World} {id n : Nat} {a : Allocation}
    (ha : w.store.get? id = some a) :
    w.SameBut { w with store := w.store.put id { a with shares := n } } := by
  refine ⟨.put ha rfl, fun other b hb => ?_, rfl, rfl, rfl, rfl⟩
  rcases Store.get?_put_cases hb with ⟨rfl, rfl⟩ | ⟨-, h⟩
  · exact ⟨a, ha, rfl⟩
  · exact ⟨b, h, rfl⟩

theorem sameBut_release (vs : List Value) (w : World) : w.SameBut (w.release vs) := by
  fun_induction World.release vs w with
  | case1 w => exact sameBut_of_store rfl rfl rfl rfl rfl
  | case2 s rest w ih => exact ih
  | case3 p rest w ih =>
    have h : w.SameBut (w.record (.dropped p)) := sameBut_of_store rfl rfl rfl rfl rfl
    exact h.trans ih
  | case4 k rest w ih => exact ih
  | case5 k id rest w hg ih => exact ih
  | case6 k id rest w a ha h1 ih => exact (sameBut_destroy w id a).trans ih
  | case7 k id rest w a ha h1 ih => exact (sameBut_putShares ha).trans ih
  | case8 shape parts rest w ih => exact ih

end World

/-- What is locked stays locked and keeps its content. -/
structure Config.Keeps (c d : Config) : Prop where
  locks : d.world.locks = c.world.locks
  content : ∀ id ∈ c.world.locks, ∀ a, c.world.store.get? id = some a →
    ∃ b, d.world.store.get? id = some b ∧ b.content = a.content

theorem Config.Keeps.of_eq {c d : Config} (hs : d.world.store = c.world.store)
    (hl : d.world.locks = c.world.locks) : c.Keeps d :=
  ⟨hl, fun _ _ a ha => ⟨a, by rwa [hs], rfl⟩⟩

theorem Config.Keeps.trans {c d e : Config} (h : c.Keeps d) (h' : d.Keeps e) : c.Keeps e := by
  refine ⟨h'.locks.trans h.locks, fun id hid a ha => ?_⟩
  obtain ⟨b, hb, e⟩ := h.content id hid a ha
  obtain ⟨b', hb', e'⟩ := h'.content id (by rwa [h.locks]) b hb
  exact ⟨b', hb', e'.trans e⟩

namespace Move

variable {s : Scope} {c d : Config}

theorem evolves (h : Move s c d) : c.world.store.Evolves d.world.store := by
  cases h with
  | retain ha => exact .put ha rfl
  | allocate => exact .push _ _
  | @release w _ _ vs => exact (World.sameBut_release vs w).evolves
  | exchange ha => exact .put ha rfl
  | rewrite ha => exact .put ha rfl
  | _ => exact .refl _

/-- Only binding changes variables. -/
theorem bindings_eq (h : Move s c d) (hs : s ≤ .write) : d.world.bindings = c.world.bindings := by
  cases h with
  | @release w _ _ vs => exact (World.sameBut_release vs w).bindings
  | bind => exact absurd hs (by decide)
  | _ => rfl

theorem locks_eq (h : Move s c d) (hs : s ≤ .shrink) : d.world.locks = c.world.locks := by
  cases h with
  | @release w _ _ vs => exact (World.sameBut_release vs w).locks
  | exchange | lock | rewrite | unlock | bind => exact absurd hs (by decide)
  | _ => rfl

/-- A growing move leaves every allocation alive, with its role and content. -/
theorem get?_of_grow (h : Move s c d) (hs : s ≤ .grow) {id : Nat} {a : Allocation}
    (ha : c.world.store.get? id = some a) :
    ∃ b, d.world.store.get? id = some b ∧ b.role = a.role ∧ b.content = a.content := by
  cases h with
  | @retain w h other b hb =>
    by_cases e : id = other
    · subst e
      obtain rfl : b = a := Option.some.inj (hb.symm.trans ha)
      exact ⟨_, Store.get?_put_same _ (Store.lt_next_of_get? hb), rfl, rfl⟩
    · exact ⟨a, by rw [← ha]; exact Store.get?_put_other _ _ e, rfl, rfl⟩
  | @allocate w h h' role content hr hc hh =>
    have hlt := Nat.ne_of_lt (Store.lt_next_of_get? ha)
    exact ⟨a, by rw [← ha]; exact Store.get?_push_of_ne _ _ hlt, rfl, rfl⟩
  | release | exchange | lock | rewrite | unlock | bind => exact absurd hs (by decide)
  | _ => exact ⟨a, ha, rfl, rfl⟩

/-- Short of changing contents, a move keeps what is locked: the lock is a share of its own. -/
theorem keeps (h : Move s c d) (hc : c.Sound) (hs : s ≤ .shrink) : c.Keeps d := by
  refine ⟨h.locks_eq hs, fun id hid a ha => ?_⟩
  by_cases hg : s ≤ .grow
  · obtain ⟨b, hb, -, e⟩ := h.get?_of_grow hg ha
    exact ⟨b, hb, e⟩
  · have hd := hc.move h
    have hp : Piece.handle ⟨.cell, id⟩ ∈ d.total := by
      have : Piece.handle ⟨.cell, id⟩ ∈ d.world.pins := by
        rw [World.pins, h.locks_eq hs]
        simpa using hid
      simp [Config.total, this]
    obtain ⟨b, hb, -⟩ := hd.counted.alive _ hp
    refine ⟨b, hb, ?_⟩
    cases h with
    | @release w _ _ vs =>
      obtain ⟨a', ha', e⟩ := (World.sameBut_release vs w).content id b hb
      rw [e, Option.some.inj (ha'.symm.trans ha)]
    | exchange | lock | rewrite | unlock | bind => exact absurd hs (by decide)
    | _ => exact absurd (Scope.le_refl _) hg

end Move

namespace Moves

variable {S : Scope} {c d : Config}

theorem evolves (h : Moves S c d) : c.world.store.Evolves d.world.store :=
  h.invariant (P := fun e => c.world.store.Evolves e.world.store)
    (fun _ _ _ _ hm he => he.trans hm.evolves) (.refl _)

theorem bindings_eq (h : Moves S c d) (hs : S ≤ .write) : d.world.bindings = c.world.bindings :=
  h.invariant (P := fun e => e.world.bindings = c.world.bindings)
    (fun _ _ _ hle hm he => (hm.bindings_eq (Scope.le_trans hle hs)).trans he) rfl

theorem get?_of_grow (h : Moves .grow c d) {id : Nat} {a : Allocation}
    (ha : c.world.store.get? id = some a) :
    ∃ b, d.world.store.get? id = some b ∧ b.role = a.role ∧ b.content = a.content := by
  refine h.invariant (P := fun e => ∃ b, e.world.store.get? id = some b ∧ b.role = a.role ∧
    b.content = a.content) ?_ ⟨a, ha, rfl, rfl⟩
  rintro s e f hs hm ⟨b, hb, hr, hc⟩
  obtain ⟨b', hb', hr', hc'⟩ := hm.get?_of_grow hs hb
  exact ⟨b', hb', hr'.trans hr, hc'.trans hc⟩

end Moves

theorem Run.bind_of_ok {α β : Type} {act : Run α} {f : α → Run β} {w v : World} {a : α}
    (h : act w = .ok a v) : (act >>= f) w = f a v := by
  show EStateM.bind act f w = f a v
  rw [EStateM.bind, h]

theorem Run.bind_of_error {α β : Type} {act : Run α} {f : α → Run β} {w v : World} {e : Stop}
    (h : act w = .error e v) : (act >>= f) w = .error e v := by
  show EStateM.bind act f w = .error e v
  rw [EStateM.bind, h]

theorem Run.bind_get {α : Type} (f : World → Run α) (w : World) : (get >>= f) w = f w w := rfl

/-- The action, started in a sound configuration, goes by moves to one in which `ok` or, if it is
abandoned, `err` holds. What it locks it unlocks, and what others have locked it keeps. -/
def Accounts {α : Type} (S : Scope) (act : Run α) (c : Config) (ok : α → Config → Prop)
    (err : Config → Prop) : Prop :=
  c.Sound →
    match act c.world with
    | .ok a w => ∃ h, Moves S c ⟨w, h⟩ ∧ c.Keeps ⟨w, h⟩ ∧ ok a ⟨w, h⟩
    | .error _ w => ∃ h, Moves S.failing c ⟨w, h⟩ ∧ c.Keeps ⟨w, h⟩ ∧ err ⟨w, h⟩

namespace Accounts

variable {α β : Type} {S : Scope} {c : Config} {err : Config → Prop}

theorem of_ok {act : Run α} {ok : α → Config → Prop} (h : Accounts S act c ok err) (hs : c.Sound)
    {a : α} {w : World} (he : act c.world = .ok a w) :
    ∃ hand, Moves S c ⟨w, hand⟩ ∧ ok a ⟨w, hand⟩ := by
  have hrun := h hs
  rw [he] at hrun
  obtain ⟨hand, hm, -, ha⟩ := hrun
  exact ⟨hand, hm, ha⟩

/-- An action that cannot be abandoned has an outcome. -/
theorem exists_ok {act : Run α} {ok : α → Config → Prop}
    (h : Accounts S act c ok fun _ => False) (hs : c.Sound) :
    ∃ a w hand, act c.world = .ok a w ∧ Moves S c ⟨w, hand⟩ ∧ ok a ⟨w, hand⟩ := by
  cases he : act c.world with
  | ok a w =>
    obtain ⟨hand, hm, ha⟩ := h.of_ok hs he
    exact ⟨a, w, hand, rfl, hm, ha⟩
  | error e w =>
    have hrun := h hs
    rw [he] at hrun
    obtain ⟨_, -, -, hf⟩ := hrun
    exact hf.elim

theorem pure {a : α} {ok : α → Config → Prop} (h : ok a c) : Accounts S (pure a) c ok err :=
  fun _ => ⟨c.hand, .refl, .of_eq rfl rfl, h⟩

theorem throw {e : Stop} {ok : α → Config → Prop} (h : err c) :
    Accounts S (throw e : Run α) c ok err :=
  fun _ => ⟨c.hand, .refl, .of_eq rfl rfl, h⟩

theorem get {ok : World → Config → Prop} (h : ok c.world c) : Accounts S get c ok err :=
  fun _ => ⟨c.hand, .refl, .of_eq rfl rfl, h⟩

theorem bind {act : Run α} {f : α → Run β} {Q : α → Config → Prop} {ok : β → Config → Prop}
    (h : Accounts S act c Q err)
    (hf : ∀ a d, Moves S c d → d.Sound → c.Keeps d → Q a d →
      Accounts S (f a) d ok err) : Accounts S (act >>= f) c ok err := by
  intro hs
  have h₁ := h hs
  cases he : act c.world with
  | error e w =>
    rw [he] at h₁
    rw [Run.bind_of_error he]
    exact h₁
  | ok a w =>
    rw [he] at h₁
    obtain ⟨h, hm, hl, ha⟩ := h₁
    have h₂ := hf a ⟨w, h⟩ hm (hs.moves hm) hl ha (hs.moves hm)
    rw [Run.bind_of_ok he]
    simp only at h₂ ⊢
    cases hb : f a w with
    | ok b v =>
      rw [hb] at h₂
      obtain ⟨h', hm', hl', hb'⟩ := h₂
      exact ⟨h', hm.trans hm', hl.trans hl', hb'⟩
    | error e v =>
      rw [hb] at h₂
      obtain ⟨h', hm', hl', hb'⟩ := h₂
      exact ⟨h', (hm.widen S.le_failing).trans hm', hl.trans hl', hb'⟩

theorem ofSound {act : Run α} {ok : α → Config → Prop} (h : c.Sound → Accounts S act c ok err) :
    Accounts S act c ok err :=
  fun hs => h hs hs

theorem mono {act : Run α} {ok P : α → Config → Prop} {E : Config → Prop}
    (h : Accounts S act c ok err)
    (hok : ∀ a d, Moves S c d → d.Sound → c.Keeps d → ok a d → P a d)
    (herr : ∀ d, Moves S.failing c d → d.Sound → err d → E d) : Accounts S act c P E := by
  intro hs
  have h₁ := h hs
  cases he : act c.world with
  | ok a w =>
    rw [he] at h₁
    obtain ⟨h, hm, hl, ha⟩ := h₁
    exact ⟨h, hm, hl, hok a _ hm (hs.moves hm) hl ha⟩
  | error e w =>
    rw [he] at h₁
    obtain ⟨h, hm, hl, ha⟩ := h₁
    exact ⟨h, hm, hl, herr _ hm (hs.moves hm) ha⟩

theorem of_eq {act act' : Run α} {ok : α → Config → Prop} (h : Accounts S act c ok err)
    (he : act' c.world = act c.world) : Accounts S act' c ok err := by
  intro hs
  rw [he]
  exact h hs

theorem widen {T : Scope} {act : Run α} {ok : α → Config → Prop} (h : Accounts S act c ok err)
    (hS : S ≤ T) : Accounts T act c ok err := by
  intro hs
  have h₁ := h hs
  cases he : act c.world with
  | ok a w =>
    rw [he] at h₁
    obtain ⟨h, hm, hl, ha⟩ := h₁
    exact ⟨h, hm.widen hS, hl, ha⟩
  | error e w =>
    rw [he] at h₁
    obtain ⟨h, hm, hl, ha⟩ := h₁
    exact ⟨h, hm.widen (Scope.failing_mono hS), hl, ha⟩

/-- An action that always finishes with one move that changes no content. -/
theorem move {act : Run α} {a : α} {d : Config} {s : Scope} {ok : α → Config → Prop}
    (he : act c.world = .ok a d.world) (hm : Move s c d) (hs : s ≤ S) (hk : s ≤ .shrink)
    (h : ok a d) : Accounts S act c ok err := by
  intro hc
  rw [he]
  exact ⟨d.hand, .one hs hm, hm.keeps hc hk, h⟩

end Accounts

end SharedValues
