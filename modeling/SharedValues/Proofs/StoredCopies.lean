import Mathlib
import SharedValues.Proofs.Erasure

/-!
Comparing with a stored copy. An erased value can be asked whether it equals a value of some type, and
it can be compared with a slot that a clone of the value has been stored in. Both ways give one answer:
the first looks at the type and then compares the payloads, the second compares handles, where two
shares of one slot are equal at once. For a value that is itself erased the stored clone is one more
share of its slot.
-/
namespace SharedValues

variable {s s' : Store} {source target : Option Nat} {t : Ty} {v : Value}

/-- The erased value is equal to the given one, or holds one of its type that is. -/
def Store.EqualsStored (s : Store) (source : Option Nat) (t : Ty) (v : Value) : Prop :=
  if t = .erased then s.Equal (.handle .slot source) v
  else ∃ id a, source = some id ∧ s.get? id = some a ∧ a.role.content = t ∧ s.Equal a.content v

section asking

/-- Where every slot has the table of its type, the table decides what a downcast finds. -/
theorem Store.Orderly.downcast? {w : World} (ho : w.store.Orderly) {id : Nat} {a : Allocation}
    {table : Table} {type : Ty} (ha : w.store.get? id = some a) (hr : a.role = .slot table type)
    (t : Ty) :
    Erased.downcast? (some id) t w = .ok (if t = type then some a.content else none) w := by
  have htable : table.type = type := ho.tables id a table type ha hr
  have hnil : type ≠ .nil := by
    rintro rfl
    have htyped := ho.typed id a ha
    rw [hr] at htyped
    exact not_hasType_nil _ htyped
  have hisType : Erased.isType (some id) t w = .ok (decide (t = type)) w := by
    unfold Erased.isType
    by_cases e : t = .nil
    · subst e
      rw [if_pos rfl, decide_eq_false hnil.symm]
      rfl
    · rw [if_neg e, Run.bind_of_ok (Erased.type?_of_get? ha hr), htable]
      simp [pure, EStateM.pure, Bool.beq_eq_decide_eq, eq_comm]
  refine (Run.bind_of_ok hisType).trans ?_
  by_cases e : t = type
  · subst e
    simp only [decide_true, if_true]
    refine (Run.bind_of_ok (Erased.slot?_of_get? ha hr)).trans ?_
    simp [Payload.as?, pure, EStateM.pure]
  · simp [e, pure, EStateM.pure]

/-- Asking an erased value whether it equals a value decides whether it holds an equal one. -/
theorem answers_equalsValue (ho : s.Orderly) (ha : s.Live (.value .erased) (.handle .slot source))
    (hv : s.Live (.value t) v) :
    Answers s .eq (s.Meets (.handle .slot source)) (Erased.equalsValue source t v)
      fun b => b = true ↔ s.EqualsStored source t v := by
  unfold Erased.equalsValue Store.EqualsStored
  by_cases ht : t = .erased
  · subst ht
    simp only [if_true]
    exact decides_equals ho ha hv
  · simp only [if_neg ht]
    cases source with
    | none =>
      intro w hw
      rw [Run.bind_of_ok (Erased.downcast?_none w t)]
      exact Answers.pure (by simp) w hw
    | some id =>
      obtain ⟨a, table, type, hg, hr⟩ := ha.slot
      have hcontent : a.role.content = type := by rw [hr]; rfl
      intro w hw
      subst hw
      rw [Run.bind_of_ok (ho.downcast? hg hr t)]
      by_cases e : t = type
      · subst e
        simp only [if_true]
        have hc := ho.content hg
        rw [hcontent] at hc
        refine (decides_equals ho hc hv).mono (fun p hp => hp.behind rfl hg) ?_ w rfl
        intro b hb
        rw [hb]
        constructor
        · exact fun h => ⟨id, a, rfl, hg, hcontent, h⟩
        · rintro ⟨_, a', ⟨⟩, hg', -, h⟩
          cases hg.symm.trans hg'
          exact h
      · simp only [if_neg e]
        refine Answers.pure ⟨fun h => absurd h Bool.false_ne_true, ?_⟩ w rfl
        rintro ⟨_, a', ⟨⟩, hg', htype, -⟩
        cases hg.symm.trans hg'
        exact absurd (htype.symm.trans hcontent) e

end asking

section storing

/-- Adding keeps what is there. -/
theorem Moves.persists {c d : Config} (hm : Moves .grow c d) :
    c.world.store.Persists d.world.store := by
  intro id a ha
  obtain ⟨b, hb, -⟩ := hm.alive_of_grow (h := ⟨a.role.kind, id⟩) ⟨a, ha, rfl⟩
  exact ⟨b, hb, ((hm.widen (by decide)).fixed (Store.fixed_of_get? ha)).2 b hb⟩

theorem Store.Live.persist_slot (h : s.Live (.value .erased) (.handle .slot source))
    (hp : s.Persists s') : s'.Live (.value .erased) (.handle .slot source) := by
  cases source with
  | none => exact ⟨⟨.erased, rfl, rfl, by rintro _ ⟨⟩⟩, by simp [Value.handles]⟩
  | some id =>
    obtain ⟨a, table, type, hg, hr⟩ := h.slot
    obtain ⟨b, hb, hrole, -⟩ := hp id a hg
    exact Store.live_slot hb (hrole.trans hr)

/-- A clone of the value has been stored: in a slot of its own, or as one more share if the value is
erased itself. -/
structure World.StoresClone (w : World) (t : Ty) (v : Value) (w' : World) (target : Option Nat) :
    Prop where
  persists : w.store.Persists w'.store
  orderly : w'.store.Orderly
  live : w'.store.Live (.value .erased) (.handle .slot target)
  held : t = .erased ∧ v = .handle .slot target ∨
    t ≠ .erased ∧ ∃ id a, target = some id ∧ w.store.get? id = none ∧ w'.store.get? id = some a ∧
      a.role.content = t ∧ a.content = v

/-- Whatever is behind the handle, storing a clone of it shares its slot. -/
theorem Erased.new_clone_persists {w : World} (ha : ∀ h ∈ (Value.handle .slot target).handles,
    w.store.Alive h) :
    ∃ w', (do let copy ← (Value.handle .slot target).clone
              Erased.new .erased copy) w = .ok target w' ∧ w.store.Persists w'.store := by
  cases target with
  | none =>
    have he : Erased.new .erased (.handle .slot none) w = .ok none w :=
      (Run.bind_of_ok (Erased.assign_self none w)).trans (Run.bind_of_ok (Run.drop_absent .slot w))
    exact ⟨w, (Run.bind_of_ok rfl).trans he, .refl _⟩
  | some id =>
    obtain ⟨a, w', he, hp, -⟩ := Erased.new_clone_some (ha ⟨.slot, id⟩ (by simp [Value.handles]))
    exact ⟨w', he, hp⟩

theorem Erased.new_clone_cases {w : World} {kept : Multiset Piece} (hs : Config.Sound ⟨w, kept⟩)
    (hl : w.locks = []) (hac : w.store.Acyclic) (hv : w.store.Live (.value t) v) :
    (∃ target w', (do let copy ← v.clone
                      Erased.new t copy) w = .ok target w' ∧ w.StoresClone t v w' target) ∨
      ∃ p ∈ v.probes, p.boom = some .clone ∧ ∃ w', (do let copy ← v.clone
                                                       Erased.new t copy) w =
        .error (.panic (.refused .clone p)) w' := by
  rcases Value.clone_cases hv.alive with ⟨w₁, hclone⟩ | ⟨p, hp, w', hb, hclone⟩
  · left
    obtain ⟨hand, hm, rfl, htyped⟩ := (accounts_clone hv.fits hv.alive).of_ok hs hclone
    have hs₁ := hs.moves hm
    have hl₁ : w₁.locks = [] := (hm.locks_eq (by decide)).trans hl
    have hac₁ : w₁.store.Acyclic := (hm.widen (by decide)).acyclic hs hl hac
    by_cases ht : t = .erased
    · subst ht
      obtain ⟨target, rfl⟩ := HasType.erased_inv hv.fits
      obtain ⟨w', he, hp⟩ := Erased.new_clone_persists hv.alive
      have hnew : Erased.new .erased (.handle .slot target) w₁ = .ok target w' :=
        (Run.bind_of_ok hclone).symm.trans he
      have hacc : Accounts .shrink (Erased.set none .erased (.handle .slot target))
          ⟨w₁, (Value.handle .slot target).pieces + kept⟩
          (fun target d => d.hand = (Value.handle .slot target).pieces + kept ∧
            HasType d.world.store .erased (.handle .slot target)) fun _ => False :=
        accounts_set (by simp) htyped
      obtain ⟨_, hm', rfl, htyped'⟩ := hacc.of_ok hs₁ hnew
      have hs' := hs₁.moves hm'
      refine ⟨target, w', he, hp, ?_, hs'.live htyped' (Multiset.le_add_right _ _), .inl ⟨rfl, rfl⟩⟩
      exact hs'.orderly ((hm'.locks_eq (by decide)).trans hl₁) (hm'.acyclic hs₁ hl₁ hac₁)
    · obtain ⟨w', he, h⟩ := Erased.new_ok hs₁ hl₁ hac₁ htyped ht
      obtain ⟨table, hg⟩ := h.slot
      have hfresh : w.store.get? w₁.store.next = none := by
        cases hn : w.store.get? w₁.store.next with
        | none => rfl
        | some a =>
          obtain ⟨b, hb, -⟩ := hm.persists _ a hn
          exact absurd (Store.lt_next_of_get? hb) (Nat.lt_irrefl _)
      exact ⟨_, w', (Run.bind_of_ok hclone).trans he, hm.persists.trans h.persists, h.orderly,
        Store.live_slot hg rfl, .inr ⟨ht, _, _, rfl, hfresh, hg, rfl, rfl⟩⟩
  · exact .inr ⟨p, hp, hb, w', Run.bind_of_error hclone⟩

namespace World.StoresClone

variable {w w' : World}

/-- An erased value equals the stored clone if it is equal to the value or holds an equal one. -/
theorem equal_iff (h : w.StoresClone t v w' target) (hc : w.store.Closed)
    (ha : ∀ x ∈ (Value.handle .slot source).handles, w.store.Alive x)
    (hv : ∀ x ∈ v.handles, w.store.Alive x) :
    w'.store.Equal (.handle .slot source) (.handle .slot target) ↔
      w.store.EqualsStored source t v := by
  unfold Store.EqualsStored
  rcases h.held with ⟨rfl, rfl⟩ | ⟨ht, id, b, rfl, hfresh, hb, rfl, rfl⟩
  · rw [if_pos rfl]
    exact ⟨fun e => e.of_persists h.persists hc ha hv, fun e => e.persist h.persists⟩
  · rw [if_neg ht]
    cases source with
    | none =>
      constructor
      · intro e
        cases e
      · rintro ⟨_, _, ⟨⟩, -⟩
    | some i =>
      obtain ⟨a, hg, hk⟩ := ha ⟨.slot, i⟩ (by simp [Value.handles])
      obtain ⟨a', hg', hr, hcontent⟩ := h.persists i a hg
      have hne : i ≠ id := by
        rintro rfl
        cases hfresh.symm.trans hg
      rw [Store.equal_slots hne hg' hb, hr, hcontent]
      constructor
      · rintro ⟨htype, e⟩
        exact ⟨i, a, rfl, hg, htype, e.of_persists h.persists hc (hc i a hg) hv⟩
      · rintro ⟨_, a₁, ⟨⟩, hg₁, htype, e⟩
        cases hg.symm.trans hg₁
        exact ⟨htype, e.persist h.persists⟩

/-- Whoever looks through the stored clone meets the probes of the value. -/
theorem meets (h : w.StoresClone t v w' target) (hc : w.store.Closed)
    (hv : ∀ x ∈ v.handles, w.store.Alive x) {p : Probe}
    (hp : w'.store.Meets (.handle .slot target) p) : w.store.Meets v p := by
  rcases h.held with ⟨-, rfl⟩ | ⟨-, id, b, rfl, -, hb, -, rfl⟩
  · exact Store.Occurs.of_persists hp h.persists hc hv
  · exact Store.Meets.of_persists hp hb h.persists hc hv

end World.StoresClone

end storing

/-- Asking an erased value whether it equals a value gives the same answer as comparing it with a slot
that a clone of the value is stored in, and as comparing that slot with it, whatever the types are and
whether or not there is something behind the handles. Whoever is asked, only probes on the way may
refuse; and there is no stored clone only if a probe of the value refuses to be cloned. -/
theorem equals_value_agrees_with_stored {w : World} {kept : Multiset Piece}
    (hs : Config.Sound ⟨w, kept⟩) (hl : w.locks = []) (hac : w.store.Acyclic)
    {source : Option Nat} {t : Ty} {v : Value}
    (ha : w.store.Live (.value .erased) (.handle .slot source)) (hv : w.store.Live (.value t) v) :
    ∃ r : Bool,
      Answers w.store .eq (w.store.Meets (.handle .slot source)) (Erased.equalsValue source t v)
        (· = r) ∧
      ((∃ target w', (do let copy ← v.clone
                         Erased.new t copy) w = .ok target w' ∧
          Answers w'.store .eq (w.store.Meets (.handle .slot source))
            ((Value.handle .slot source).equals (.handle .slot target)) (· = r) ∧
          Answers w'.store .eq (w.store.Meets v)
            ((Value.handle .slot target).equals (.handle .slot source)) (· = r)) ∨
        ∃ p ∈ v.probes, p.boom = some .clone ∧ ∃ w', (do let copy ← v.clone
                                                         Erased.new t copy) w =
          .error (.panic (.refused .clone p)) w') := by
  have ho : w.store.Orderly := hs.orderly hl hac
  classical
  refine ⟨decide (w.store.EqualsStored source t v), ?_, ?_⟩
  · apply (answers_equalsValue ho ha hv).mono fun _ h => h
    intro b hb
    rw [Bool.eq_iff_iff, hb, decide_eq_true_iff]
  · refine (Erased.new_clone_cases hs hl hac hv).imp_left ?_
    rintro ⟨target, w', he, h⟩
    have ha' := ha.persist_slot h.persists
    have hiff := h.equal_iff ho.closed ha.alive hv.alive
    refine ⟨target, w', he, ?_, ?_⟩
    · apply (decides_equals h.orderly ha' h.live).mono
      · exact fun p hp => Store.Occurs.of_persists hp h.persists ho.closed ha.alive
      · intro b hb
        rw [Bool.eq_iff_iff, hb, hiff, decide_eq_true_iff]
    · apply (decides_equals h.orderly h.live ha').mono
      · exact fun p hp => h.meets ho.closed hv.alive hp
      · intro b hb
        rw [Bool.eq_iff_iff, hb, decide_eq_true_iff, ← hiff]
        exact ⟨.symm, .symm⟩

/-- Two lists of a cell without numbers and a shared cell with a NaN, one of them stored in a slot. The
slot equals the other list and its stored clone, and it equals a share of itself. -/
theorem equals_value_agrees_with_stored_shared_nan :
    let numbers : Ty := .cell (.list .float64)
    let t : Ty := .list numbers
    let cells : Datum := .list [.record [("ref", .list [])], .record [("$var", .text "n")]]
    let steps : List Step :=
      [.define (some "n") numbers (.record [("ref", .list [.text "7ff8000000000000"])]),
        .new (some "e") t cells, .define (some "v") t cells]
    let w := Machine.after false steps
    let e : Value := .handle .slot (some 2)
    let v : Value := .node .sequence [.handle .cell (some 3), .handle .cell (some 0)]
    (Config.Sound ⟨w, w.owned⟩ ∧ w.locks = [] ∧ w.store.Acyclic ∧ w.store.Live (.value .erased) e ∧
      w.store.Live (.value t) v) ∧
    Erased.equalsValue (some 2) t v w = .ok true w ∧
    (∃ target w', (do let copy ← v.clone
                      Erased.new t copy) w = .ok target w' ∧
      Answers w'.store .eq (w.store.Meets v) ((Value.handle .slot target).equals e) (· = true)) ∧
    ∃ target w', (do let copy ← e.clone
                     Erased.new .erased copy) w = .ok target w' ∧
      Answers w'.store .eq (w.store.Meets e) (e.equals (.handle .slot target)) (· = true) := by
  intro numbers t cells steps w e v
  have hstore : w.store =
      ⟨#[some ⟨.cell (.list .float64), .node .sequence [.scalar (.float64 0x7ff8000000000000)], 3⟩,
        some ⟨.cell (.list .float64), .node .sequence [], 1⟩,
        some ⟨.slot ⟨0, t⟩ t, .node .sequence [.handle .cell (some 1), .handle .cell (some 0)], 1⟩,
        some ⟨.cell (.list .float64), .node .sequence [], 1⟩]⟩ := by
    simp only [w, steps, numbers, t, cells]
    cbv
  have hb : w.bindings = [("e", ⟨.erased, e⟩), ("n", ⟨numbers, .handle .cell (some 0)⟩),
      ("v", ⟨t, v⟩)] := by
    simp only [w, steps, numbers, t, cells, e, v]
    cbv
  have hw : w.Settled := Machine.settled_after false steps
  have hac : w.store.Acyclic := Store.acyclic_of_lt (by rw [hstore]; decide)
  have he : w.store.Live (.value .erased) e := hw.live (show w.find? "e" = some ⟨.erased, e⟩ by
    rw [World.find?, hb]
    rfl)
  have hv : w.store.Live (.value t) v := hw.live (show w.find? "v" = some ⟨t, v⟩ by
    rw [World.find?, hb]
    rfl)
  have hasked : Erased.equalsValue (some 2) t v w = .ok true w := by
    simp only [w, steps, numbers, t, cells, v]
    cbv
  have hself : Erased.equalsValue (some 2) .erased e w = .ok true w := by
    simp only [w, steps, numbers, t, cells, e]
    cbv
  obtain ⟨r, hr, hstored⟩ := equals_value_agrees_with_stored hw.sound hw.locks hac he hv
  obtain rfl : true = r := hr.fits_of_ok rfl hasked
  obtain ⟨r, hr, hshared⟩ := equals_value_agrees_with_stored hw.sound hw.locks hac he he
  obtain rfl : true = r := hr.fits_of_ok rfl hself
  refine ⟨⟨hw.sound, hw.locks, hac, he, hv⟩, hasked, ?_, ?_⟩
  · rcases hstored with ⟨target, w', hn, -, h⟩ | ⟨p, hp, -⟩
    · exact ⟨target, w', hn, h⟩
    · simp [v, Value.probes, Value.probesOf] at hp
  · rcases hshared with ⟨target, w', hn, h, -⟩ | ⟨p, hp, -⟩
    · exact ⟨target, w', hn, h⟩
    · simp [e, Value.probes] at hp

end SharedValues
