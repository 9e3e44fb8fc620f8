import Mathlib
import SharedValues.Proofs.Equality
import SharedValues.Proofs.Texts

/-!
Erasing a value loses nothing. A value that is no erased one gets a new slot with the table of its
type; the slot is of that type and no other, a clone of the value can be had from it, and it has the
text of the value. Two such slots are equal if their types and values are. Erasing an erased value
once more shares its slot.
-/
namespace SharedValues

section storing

theorem Run.tableFor_ok (t : Ty) (w : World) :
    ∃ table w', Run.tableFor t w = .ok table w' ∧ w'.store = w.store ∧ w'.locks = w.locks := by
  cases hf : w.registry.find? t with
  | some table =>
    exact ⟨table, w, Run.tableFor_of_some hf, rfl, rfl⟩
  | none => exact ⟨_, _, Run.tableFor_of_none hf, rfl, rfl⟩

theorem World.release_absent (w : World) (k : HandleKind) : w.release [.handle k none] = w := by
  simp [World.release]

/-- What is stored gets the next address, after the old share has been given up. -/
theorem Erased.set_ok {t : Ty} (ht : t ≠ .erased) (current : Option Nat) (v : Value) (w : World) :
    let u := w.release [.handle .slot current]
    ∃ table w', Erased.set current t v w = .ok (some u.store.next) w' ∧
      w'.store = u.store.push ⟨.slot table t, v, 1⟩ ∧ w'.locks = u.locks := by
  intro u
  obtain ⟨table, w', htable, hs, hl⟩ := Run.tableFor_ok t u
  have hdrop : Run.drop [.handle .slot current] w = .ok () u := rfl
  refine ⟨table, w'.allocate (.slot table t) v, ?_, ?_, hl⟩
  · rw [Erased.set_of_ne ht, Run.bind_of_ok hdrop, Run.bind_of_ok htable, ← hs]
    rfl
  · rw [World.allocate, hs]

/-- A value in hand has moved into a new slot; the rest of the store is as before. -/
structure World.Stores (w : World) (t : Ty) (v : Value) (kept : Multiset Piece) (w' : World) :
    Prop where
  persists : w.store.Persists w'.store
  evolves : w.store.Evolves w'.store
  slot : ∃ table, w'.store.get? w.store.next = some ⟨.slot table t, v, 1⟩
  locks : w'.locks = []
  acyclic : w'.store.Acyclic
  sound : Config.Sound ⟨w', (Value.handle .slot (some w.store.next)).pieces + kept⟩

theorem World.Stores.orderly {w w' : World} {t : Ty} {v : Value} {kept : Multiset Piece}
    (h : w.Stores t v kept w') : w'.store.Orderly :=
  h.sound.orderly h.locks h.acyclic

theorem Erased.new_ok {w : World} {v : Value} {t : Ty} {kept : Multiset Piece}
    (hs : Config.Sound ⟨w, v.pieces + kept⟩) (hl : w.locks = []) (hac : w.store.Acyclic)
    (hv : HasType w.store t v) (ht : t ≠ .erased) :
    ∃ w', Erased.new t v w = .ok (some w.store.next) w' ∧ w.Stores t v kept w' := by
  have ho : w.store.Orderly := hs.orderly hl hac
  have hlive : w.store.Live (.value t) v := hs.live hv (Multiset.le_add_right _ _)
  obtain ⟨table, w', he, hstore, hl'⟩ := Erased.set_ok ht none v w
  rw [w.release_absent] at he hstore hl'
  have hacc : Accounts .shrink (Erased.set none t v) ⟨w, v.pieces + kept⟩
      (fun target d => d.hand = (Value.handle .slot target).pieces + kept ∧
        HasType d.world.store .erased (.handle .slot target)) fun _ => False :=
    accounts_set (by simp) hv
  obtain ⟨_, hm, rfl, -⟩ := hacc.of_ok hs he
  refine ⟨w', he, ?_, hm.evolves, ⟨table, ?_⟩, hl'.trans hl, ?_, hs.moves hm⟩
  · rw [hstore]
    exact Store.persists_push _ _
  · rw [hstore, Store.get?_push_next]
  · rw [hstore]
    exact hac.push ho.closed hlive.alive

end storing

section reading

theorem Erased.slot?_of_get? {w : World} {id : Nat} {a : Allocation} {table : Table} {t : Ty}
    (ha : w.store.get? id = some a) (hr : a.role = .slot table t) :
    Erased.slot? (some id) w = .ok (some (table, ⟨t, a.content⟩)) w := by
  have hread : Run.read .slot id w = .ok a w := by
    have h := Run.read_of_get? ha
    rwa [hr] at h
  refine (Run.bind_of_ok hread).trans ?_
  rw [hr]
  rfl

theorem Erased.type?_of_get? {w : World} {id : Nat} {a : Allocation} {table : Table} {t : Ty}
    (ha : w.store.get? id = some a) (hr : a.role = .slot table t) :
    Erased.type? (some id) w = .ok (some table.type) w :=
  Run.bind_of_ok (Erased.slot?_of_get? ha hr)

/-- Extracting the type that is stored clones the payload. -/
theorem World.Slot.extract {w : World} {id : Nat} {table : Table} {t : Ty} {v : Value}
    (h : w.Slot id table t v) : Erased.extract (some id) t w = v.clone w := by
  have haccess : Erased.access (some id) t w = .ok (.ok v) w := by
    rw [h.access, if_pos rfl]
  have htry : Erased.tryExtract (some id) t w =
      (do let copy ← v.clone; pure (.ok copy) : Run (Except AccessError Value)) w :=
    Run.bind_of_ok haccess
  cases hc : v.clone w with
  | ok c w' =>
    rw [Run.bind_of_ok hc] at htry
    exact Run.bind_of_ok htry
  | error e w' =>
    rw [Run.bind_of_error hc] at htry
    exact Run.bind_of_error htry

/-- A slot has the text of its payload. -/
theorem Machine.display_eq {w : World} {x : String} {id n : Nat} {table : Table} {t : Ty} {v : Value}
    {met : Probe → Prop} {text : String} (fresh : Bool) (hx : w.Holds x .slot (some id))
    (hg : w.store.get? id = some ⟨.slot table t, v, n⟩) (ht : table.type = t)
    (h : Answers w.store .render met (Value.handle .slot (some id)).toText (· = text)) :
    ∃ es : List Event, Machine.perform fresh (.display x) w =
        (do let texts ← [text, "<" ++ text ++ ">", "<" ++ text ++ ">"].mapM t.stableText
            Machine.ok (.list (texts.map .text))) (w.recordAll es) ∨
      ∃ p, met p ∧ p.boom = some .render ∧
        Machine.perform fresh (.display x) w =
          .error (.panic (.refused .render p)) (w.recordAll es) := by
  have htype : Machine.shownType ⟨.erased, .handle .slot (some id)⟩ w = .ok t w := by
    rw [← ht]
    exact Run.bind_of_ok (Erased.type?_of_get? hg rfl)
  have hthrice : Answers w.store .render met (do
      let plain ← (Value.handle .slot (some id)).toText
      let wide ← (Value.handle .slot (some id)).toText
      let precise ← (Value.handle .slot (some id)).toText
      pure (plain, wide, precise)) (· = (text, text, text)) := by
    apply h.bind
    rintro _ rfl
    apply h.bind
    rintro _ rfl
    apply h.bind
    rintro _ rfl
    exact .pure rfl
  have hstep : Machine.perform fresh (.display x) w = ((do
      let plain ← (Value.handle .slot (some id)).toText
      let wide ← (Value.handle .slot (some id)).toText
      let precise ← (Value.handle .slot (some id)).toText
      pure (plain, wide, precise)) >>= fun (plain, wide, precise) => do
        let texts ← [plain, "<" ++ wide ++ ">", "<" ++ precise ++ ">"].mapM t.stableText
        Machine.ok (.list (texts.map .text))) w := by
    rw [Machine.perform, Machine.performErased, Run.bind_of_ok hx.lookupHandle, Run.bind_of_ok htype]
    simp only [bind_assoc, pure_bind]
  rw [hstep]
  exact hthrice.bind_eq rfl

end reading

section retaining

/-- A value in one store and another one in a later store have the same text, both when it is appended
to some text and on its own; only probes of the first one may refuse. -/
def SameText (s s' : Store) (v u : Value) (text : String) : Prop :=
  (∀ out, Answers s .render (s.Meets v) (v.render out) (· = out ++ text) ∧
    Answers s' .render (s.Meets v) (u.render out) (· = out ++ text)) ∧
  Answers s .render (s.Meets v) v.toText (· = text) ∧
    Answers s' .render (s.Meets v) u.toText (· = text)

/-- All of the value can be had back from the slot: its type, a clone of it, and its text, also as it
is displayed. -/
structure Retains (w : World) (t : Ty) (v : Value) (w' : World) (id : Nat) : Prop where
  isType : ∀ type, Erased.isType (some id) type w' = .ok (decide (type = t)) w'
  extract : Erased.extract (some id) t w' = v.clone w'
  clone : ∀ c u, v.clone w' = .ok c u → c = v
  text : ∃ text, SameText w.store w'.store v (.handle .slot (some id)) text ∧
    ∀ fresh x z, z.store = w'.store → z.Holds x .slot (some id) →
      ∃ es : List Event, Machine.perform fresh (.display x) z =
          (do let texts ← [text, "<" ++ text ++ ">", "<" ++ text ++ ">"].mapM t.stableText
              Machine.ok (.list (texts.map .text))) (z.recordAll es) ∨
        ∃ p, w.store.Meets v p ∧ p.boom = some .render ∧
          Machine.perform fresh (.display x) z =
            .error (.panic (.refused .render p)) (z.recordAll es)

variable {s s' : Store} {v u : Value} {i j : Nat} {a b : Allocation}

/-- Whoever looks through a handle meets the probes of what is behind it. -/
theorem Store.Meets.of_persists {k : HandleKind} {p : Probe} (h : s'.Meets (.handle k (some i)) p)
    (ha : s'.get? i = some a) (hp : s.Persists s') (hc : s.Closed)
    (hv : ∀ x ∈ a.content.handles, s.Alive x) : s.Meets a.content p := by
  rcases Store.occurs_handle.mp h with h | ⟨a', -, ha', h⟩
  · cases h
  · cases ha.symm.trans ha'
    exact h.of_persists hp hc hv

theorem sameText_of_shows {text : String} (ho : s.Orderly) (ho' : s'.Orderly)
    (hv : ∀ x ∈ v.handles, s.Alive x) (hu : ∀ x ∈ u.handles, s'.Alive x) (h : s.Shows v text)
    (h' : s'.Shows u text) (hmeets : ∀ p, s'.Meets u p → s.Meets v p) : SameText s s' v u text := by
  refine ⟨fun out => ⟨answers_render ho hv h out, ?_⟩, answers_toText ho hv h, ?_⟩
  · exact (answers_render ho' hu h' out).mono hmeets fun _ h => h
  · exact (answers_toText ho' hu h').mono hmeets fun _ h => h

theorem Store.live_slot {table : Table} {t : Ty} (ha : s.get? i = some a)
    (hr : a.role = .slot table t) : s.Live (.value .erased) (.handle .slot (some i)) := by
  have hk : a.role.kind = .slot := by rw [hr]; rfl
  refine ⟨⟨.erased, rfl, rfl, ?_⟩, ?_⟩
  · rintro _ ⟨⟩
    exact Store.points_of_get? ha (by rw [hr]; rfl)
  · intro h hh
    obtain rfl : h = ⟨.slot, i⟩ := by simpa [Value.handles] using hh
    exact ⟨a, ha, hk⟩

/-- A new slot retains the value. -/
theorem retains_new {w w' : World} {t : Ty} {kept : Multiset Piece} (ho : w.store.Orderly)
    (hv : ∀ x ∈ v.handles, w.store.Alive x) (h : w.Stores t v kept w') :
    Retains w t v w' w.store.next := by
  obtain ⟨table, hg⟩ := h.slot
  have hslot := h.sound.slot hg rfl
  obtain ⟨text, htext⟩ := ho.exists_shows hv
  have htext' : w'.store.Shows (.handle .slot (some w.store.next)) text :=
    .behind rfl hg (htext.persist h.persists)
  have hmeets : ∀ p, w'.store.Meets (.handle .slot (some w.store.next)) p → w.store.Meets v p :=
    fun p hp => hp.of_persists hg h.persists ho.closed hv
  have hsame := sameText_of_shows ho h.orderly hv (Store.live_slot hg rfl).alive htext htext' hmeets
  refine ⟨hslot.isType, hslot.extract, fun c u => Value.eq_of_clone, text, hsame, ?_⟩
  intro fresh x z hz hx
  have htoText := hsame.2.2
  rw [← hz] at hg htoText
  exact Machine.display_eq fresh hx hg hslot.table_type htoText

/-- Two slots are equal if their types and their payloads are. -/
theorem decides_slots {t t' : Ty} {table table' : Table} (hp : s.Persists s') (hc : s.Closed)
    (hv : ∀ x ∈ a.content.handles, s.Alive x) (hu : ∀ x ∈ b.content.handles, s.Alive x)
    (ho : s'.Orderly) (hne : i ≠ j) (hi : s'.get? i = some a) (hj : s'.get? j = some b)
    (ha : a.role = .slot table t) (hb : b.role = .slot table' t') :
    Answers s' .eq (s.Meets a.content) ((Value.handle .slot (some i)).equals (.handle .slot (some j)))
      fun r => r = true ↔ t = t' ∧ s.Equal a.content b.content := by
  apply (decides_equals ho (Store.live_slot hi ha) (Store.live_slot hj hb)).mono
  · exact fun p h => Store.Meets.of_persists h hi hp hc hv
  · intro r hr
    rw [hr, Store.equal_slots hne hi hj, ha, hb]
    apply and_congr Iff.rfl
    exact ⟨fun h => h.of_persists hp hc hv hu, fun h => h.persist hp⟩

end retaining

section sharing

/-- Only the share count of one allocation changes. -/
theorem Store.persists_put {s : Store} {id : Nat} {a b : Allocation} (ha : s.get? id = some a)
    (hr : b.role = a.role) (hc : b.content = a.content) : s.Persists (s.put id b) := by
  intro other x hx
  by_cases e : other = id
  · subst e
    cases ha.symm.trans hx
    exact ⟨b, get?_put_same b (lt_next_of_get? ha), hr, hc⟩
  · exact ⟨x, by rw [get?_put_other s b e, hx], rfl, rfl⟩

theorem Run.retain_ok {w : World} {k : HandleKind} {id : Nat} {a : Allocation}
    (ha : w.store.get? id = some a) (hk : a.role.kind = k) :
    ∃ w', Run.retain k id w = .ok () w' ∧ w.store.Persists w'.store ∧
      w'.store.get? id = some { a with shares := a.shares + 1 } := by
  subst hk
  exact ⟨_, Run.retain_of_get? ha, Store.persists_put ha rfl rfl,
    Store.get?_put_same _ (Store.lt_next_of_get? ha)⟩

/-- What has several shares loses one of them. -/
theorem World.release_shared {w : World} {id : Nat} {a : Allocation}
    (ha : w.store.get? id = some a) (h : 1 < a.shares) (k : HandleKind) :
    w.release [.handle k (some id)] =
      { w with store := w.store.put id { a with shares := a.shares - 1 } } := by
  rw [World.release_share ha h, World.release]

theorem Run.drop_shared {w : World} {k : HandleKind} {id : Nat} {a : Allocation}
    (ha : w.store.get? id = some a) (h : 1 < a.shares) :
    ∃ w', Run.drop [.handle k (some id)] w = .ok () w' ∧ w.store.Persists w'.store ∧
      w'.store.get? id = some { a with shares := a.shares - 1 } := by
  refine ⟨w.release [.handle k (some id)], rfl, ?_⟩
  rw [World.release_shared ha h]
  exact ⟨Store.persists_put ha rfl rfl, Store.get?_put_same _ (Store.lt_next_of_get? ha)⟩

theorem Run.drop_absent (k : HandleKind) (w : World) : Run.drop [.handle k none] w = .ok () w :=
  congrArg (EStateM.Result.ok ()) (w.release_absent k)

theorem Erased.assign_self (current : Option Nat) (w : World) :
    Erased.assign current current w = .ok current w := by
  cases current with
  | none => exact Run.bind_of_ok (Run.drop_absent .slot w)
  | some id =>
    rw [Erased.assign, if_pos rfl]
    rfl

/-- Erasing a clone of an erased value shares its slot once more. -/
theorem Erased.new_clone_some {w : World} {id : Nat} (ha : w.store.Alive ⟨.slot, id⟩) :
    ∃ a w', (do let copy ← (Value.handle .slot (some id)).clone
                Erased.new .erased copy) w = .ok (some id) w' ∧ w.store.Persists w'.store ∧
      w.store.get? id = some a ∧ w'.store.get? id = some { a with shares := a.shares + 1 } := by
  obtain ⟨a, ha, hk⟩ := ha
  -- the clone gets a share, then the new handle gets one, and the clone's is given up
  obtain ⟨w₁, hr₁, hp₁, hg₁⟩ := Run.retain_ok ha hk
  obtain ⟨w₂, hr₂, hp₂, hg₂⟩ := Run.retain_ok hg₁ hk
  obtain ⟨w₃, hd, hp₃, hg₃⟩ := Run.drop_shared (k := .slot) hg₂ (by simp)
  have hshare : Value.share .slot id w = .ok id w₁ := Run.bind_of_ok hr₁
  have hclone : (Value.handle .slot (some id)).clone w = .ok (.handle .slot (some id)) w₁ :=
    Run.bind_of_ok hshare
  have hassign : Erased.assign none (some id) w₁ = .ok (some id) w₂ :=
    (Run.bind_of_ok (Run.drop_absent .slot w₁)).trans (Run.bind_of_ok hr₂)
  have hnew : Erased.new .erased (.handle .slot (some id)) w₁ = .ok (some id) w₃ :=
    (Run.bind_of_ok hassign).trans (Run.bind_of_ok hd)
  exact ⟨a, w₃, (Run.bind_of_ok hclone).trans hnew, (hp₁.trans hp₂).trans hp₃, ha, hg₃⟩

theorem Erased.new_clone_ok {w : World} {target : Option Nat} {kept : Multiset Piece}
    (hs : Config.Sound ⟨w, (Value.handle .slot target).pieces + kept⟩) :
    ∃ w', (do let copy ← (Value.handle .slot target).clone
              Erased.new .erased copy) w = .ok target w' ∧ w.store.Persists w'.store ∧
      (∀ id, target = some id → ∃ a, w.store.get? id = some a ∧
        w'.store.get? id = some { a with shares := a.shares + 1 }) ∧
      ∃ hand, Moves .shrink ⟨w, (Value.handle .slot target).pieces + kept⟩ ⟨w', hand⟩ := by
  have hal : ∀ id, target = some id → w.store.Alive ⟨.slot, id⟩ := by
    rintro id rfl
    exact hs.alive_of_hand (by simp)
  have hacc : Accounts .shrink
      (do let copy ← (Value.handle .slot target).clone
          Erased.new .erased copy) ⟨w, (Value.handle .slot target).pieces + kept⟩
      (fun _ _ => True) fun _ => False := by
    apply Accounts.bind (accounts_cloneHandle rfl hal)
    rintro _ d - - - ⟨rfl, hd⟩
    have hd' : d.hand = (Value.handle .slot none).pieces + ((Value.handle .slot target).pieces +
        ((Value.handle .slot target).pieces + kept)) := by simpa using hd
    exact (accounts_assignVia hd').mono (fun _ _ _ _ _ _ => trivial) fun _ _ _ h => h
  cases target with
  | none =>
    have he : Erased.new .erased (.handle .slot none) w = .ok none w :=
      (Run.bind_of_ok (Erased.assign_self none w)).trans (Run.bind_of_ok (Run.drop_absent .slot w))
    have hclone : (Value.handle .slot none).clone w = .ok (.handle .slot none) w := rfl
    have hnew := (Run.bind_of_ok hclone).trans he
    obtain ⟨hand, hm, -⟩ := hacc.of_ok hs hnew
    refine ⟨w, hnew, .refl _, ?_, hand, hm⟩
    rintro _ ⟨⟩
  | some id =>
    obtain ⟨a, w', he, hp, hg, hg'⟩ := Erased.new_clone_some (hal id rfl)
    obtain ⟨hand, hm, -⟩ := hacc.of_ok hs he
    refine ⟨w', he, hp, ?_, hand, hm⟩
    rintro _ ⟨⟩
    exact ⟨a, hg, hg'⟩

end sharing

/-- Erasing a value loses nothing. A value that is no erased one gets a slot that retains it, and two
such slots are equal if and only if their types and their values are. Erasing a clone of an erased
value shares its slot, or gives nothing if there is none; it has the same text and equals the value. -/
theorem erasing_keeps_value {w : World} (hl : w.locks = []) (hac : w.store.Acyclic) :
    (∀ t t' v u kept, Config.Sound ⟨w, v.pieces + (u.pieces + kept)⟩ → HasType w.store t v →
      HasType w.store t' u → t ≠ .erased → t' ≠ .erased →
      ∃ i w₁, Erased.new t v w = .ok (some i) w₁ ∧ Retains w t v w₁ i ∧
        ∃ j w₂, Erased.new t' u w₁ = .ok (some j) w₂ ∧
          (t = t' → Answers w.store .eq (w.store.Meets v) (v.equals u)
            fun b => b = true ↔ w.store.Equal v u) ∧
          Answers w₂.store .eq (w.store.Meets v)
            ((Value.handle .slot (some i)).equals (.handle .slot (some j)))
            fun b => b = true ↔ t = t' ∧ w.store.Equal v u) ∧
    ∀ target kept, Config.Sound ⟨w, (Value.handle .slot target).pieces + kept⟩ →
      ∃ w', (do let copy ← (Value.handle .slot target).clone
                Erased.new .erased copy) w = .ok target w' ∧
        (∀ id, target = some id → ∃ a, w.store.get? id = some a ∧
          w'.store.get? id = some { a with shares := a.shares + 1 }) ∧
        (∃ text, SameText w.store w'.store (.handle .slot target) (.handle .slot target) text) ∧
        (Value.handle .slot target).equals (.handle .slot target) w' = .ok true w' := by
  constructor
  · intro t t' v u kept hs hv hu ht ht'
    have ho : w.store.Orderly := hs.orderly hl hac
    have hvl : w.store.Live (.value t) v := hs.live hv (Multiset.le_add_right _ _)
    have hul : w.store.Live (.value t') u :=
      hs.live hu ((Multiset.le_add_right _ _).trans (Multiset.le_add_left _ _))
    obtain ⟨w₁, he₁, h₁⟩ := Erased.new_ok hs hl hac hv ht
    have hs₁ : Config.Sound ⟨w₁, u.pieces +
        ((Value.handle .slot (some w.store.next)).pieces + kept)⟩ := by
      rw [add_left_comm]
      exact h₁.sound
    have hu₁ : HasType w₁.store t' u := hu.evolve h₁.evolves
    obtain ⟨w₂, he₂, h₂⟩ := Erased.new_ok hs₁ h₁.locks h₁.acyclic hu₁ ht'
    obtain ⟨table, hi⟩ := h₁.slot
    obtain ⟨a, hi₂, hrole, rfl⟩ := h₂.persists _ _ hi
    obtain ⟨table', hj₂⟩ := h₂.slot
    have hne : w.store.next ≠ w₁.store.next := Nat.ne_of_lt (Store.lt_next_of_get? hi)
    refine ⟨_, w₁, he₁, retains_new ho hvl.alive h₁, _, w₂, he₂, ?_, ?_⟩
    · rintro rfl
      exact decides_equals ho hvl hul
    · exact decides_slots (h₁.persists.trans h₂.persists) ho.closed hvl.alive hul.alive h₂.orderly hne
        hi₂ hj₂ hrole rfl
  · intro target kept hs
    have ho : w.store.Orderly := hs.orderly hl hac
    have halive : ∀ x ∈ (Value.handle .slot target).handles, w.store.Alive x := fun x hx =>
      hs.alive_of_hand (Multiset.mem_add.mpr (.inl (Value.handle_mem_pieces.mpr hx)))
    obtain ⟨w', he, hp, hshares, hand, hm⟩ := Erased.new_clone_ok hs
    have ho' : w'.store.Orderly := (hs.moves hm).orderly ((hm.locks_eq (Scope.le_refl _)).trans hl)
      (hm.acyclic hs hl hac)
    obtain ⟨text, htext⟩ := ho.exists_shows halive
    refine ⟨w', he, hshares, ⟨text, ?_⟩, Value.handle_equals_self _ _ _⟩
    apply sameText_of_shows ho ho' halive (fun x hx => hp.alive (halive x hx)) htext
      (htext.persist hp)
    exact fun p h => Store.Occurs.of_persists h hp ho.closed halive

/-- Two cells with the same number get slots that are equal; the slot of a third value is shared. -/
theorem erasing_keeps_value_cells :
    let t : Ty := .cell (.int .i32)
    let five : Datum := .record [("ref", .int 5)]
    let steps : List Step := [.define (some "v") t five, .define (some "u") t five,
      .new (some "e") .bool (.bool true)]
    let w := Machine.after false steps
    let v : Value := .handle .cell (some 0)
    let u : Value := .handle .cell (some 1)
    let e : Value := .handle .slot (some 2)
    (w.locks = [] ∧ w.store.Acyclic ∧ Config.Sound ⟨w, v.pieces + (u.pieces + e.pieces)⟩ ∧
      HasType w.store t v ∧ HasType w.store t u) ∧
    (∃ i w₁, Erased.new t v w = .ok (some i) w₁ ∧ Erased.isType (some i) t w₁ = .ok true w₁ ∧
      Erased.extract (some i) t w₁ = v.clone w₁ ∧ ∃ j w₂, Erased.new t u w₁ = .ok (some j) w₂ ∧
        Answers w₂.store .eq (w.store.Meets v)
          ((Value.handle .slot (some i)).equals (.handle .slot (some j))) (· = true)) ∧
    ∃ w', (do let copy ← e.clone
              Erased.new .erased copy) w = .ok (some 2) w' ∧ e.equals e w' = .ok true w' := by
  intro t five steps w v u e
  have hstore : w.store = ⟨#[some ⟨.cell (.int .i32), .int 5, 1⟩, some ⟨.cell (.int .i32), .int 5, 1⟩,
      some ⟨.slot ⟨0, .bool⟩ .bool, .scalar (.bool true), 1⟩]⟩ := by
    simp only [w, steps, t, five]
    cbv
  have hb : w.bindings = [("e", ⟨.erased, e⟩), ("u", ⟨t, u⟩), ("v", ⟨t, v⟩)] := by
    simp only [w, steps, t, five, v, u, e]
    cbv
  have hw : w.Settled := Machine.settled_after false steps
  have hac : w.store.Acyclic := Store.acyclic_of_lt (by rw [hstore]; decide)
  have howned : w.owned = v.pieces + (u.pieces + e.pieces) := by
    simp only [World.owned, hb, List.map_cons, List.map_nil, Value.piecesOf_cons,
      Value.piecesOf_nil, add_zero]
    abel
  have hs : Config.Sound ⟨w, v.pieces + (u.pieces + e.pieces)⟩ := howned ▸ hw.sound
  have hs' : Config.Sound ⟨w, e.pieces + (v.pieces + u.pieces)⟩ := by
    rw [add_comm, add_assoc]
    exact hs
  have hv : HasType w.store t v := hw.sound.bound ("v", ⟨t, v⟩) (by simp [hb])
  have hu : HasType w.store t u := hw.sound.bound ("u", ⟨t, u⟩) (by simp [hb])
  have hequal : w.store.Equal v u := by
    rw [hstore]
    exact .cell rfl rfl (.scalar rfl)
  obtain ⟨hnew, hagain⟩ := erasing_keeps_value hw.locks hac
  obtain ⟨i, w₁, he₁, hretains, j, w₂, he₂, -, heq⟩ := hnew t t v u _ hs hv hu (by decide) (by decide)
  obtain ⟨w', he', -, -, hself⟩ := hagain _ _ hs'
  refine ⟨⟨hw.locks, hac, hs, hv, hu⟩, ⟨i, w₁, he₁, hretains.isType t, hretains.extract, j, w₂, he₂,
    ?_⟩, w', he', hself⟩
  apply heq.mono fun _ h => h
  exact fun b hb => hb.mpr ⟨rfl, hequal⟩

end SharedValues
