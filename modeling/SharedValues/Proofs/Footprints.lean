import Mathlib
import SharedValues.Proofs.Holders

/-!
Actions that keep to some places of the store. Whatever is behind a handle, a call through it reads and
writes only what it leads to. Here that is said of any action, with what follows from it: all else stays
as it is, values in hand lead where they led, nothing comes to hand or goes, and two states that have
the same at the places cannot be told apart.
-/
namespace SharedValues

/-- A handle in the value leads to the address. -/
def Value.Targets (v : Value) (id : Nat) : Prop :=
  ∃ h ∈ v.handles, h.target = id

theorem Value.handles_eq_nil {v u : Value} (hv : v.handles = []) (h : u.pieces = v.pieces) :
    u.handles = [] := by
  refine List.eq_nil_iff_forall_not_mem.mpr fun y hy => ?_
  rw [← handle_mem_pieces, h, handle_mem_pieces, hv] at hy
  cases hy

/-- One thing that is done at some places: an event is reported, or one of the places is written.
Neither what was there nor what is there now holds handles. -/
inductive Touch (places : Nat → Prop) (w : World) : World → Prop where
  | report (e : Event) (he : e.isReport) : Touch places w (w.record e)
  | write {place : Nat} {b : Allocation} {content : Value} (hp : places place)
    (hb : w.store.get? place = some b) (hk : b.role.kind ≠ .slot) (hold : b.content.handles = [])
    (ht : HasType w.store b.role.content content) (hnew : content.pieces = b.content.pieces) :
    Touch places w { w with store := w.store.put place { b with content } }

namespace Touch

variable {places : Nat → Prop} {w u : World} {id : Nat}

theorem locks_eq (h : Touch places w u) : u.locks = w.locks := by
  cases h <;> rfl

theorem get?_eq (h : Touch places w u) (hid : ¬places id) :
    u.store.get? id = w.store.get? id := by
  cases h with
  | report => rfl
  | write hp =>
    refine Store.get?_put_other _ _ ?_
    rintro rfl
    exact hid hp

theorem steady (h : Touch places w u) : w.store.Steady u.store := by
  cases h with
  | report => exact .refl _
  | write _ hb _ hold => exact .put hb hold rfl

/-- What holds no handles and what replaces it have the same handles. -/
theorem exists_get? (h : Touch places w u) {a : Allocation} (ha : w.store.get? id = some a) :
    ∃ b, u.store.get? id = some b ∧ b.role = a.role ∧ b.content.handles = a.content.handles := by
  cases h with
  | report => exact ⟨a, ha, rfl, rfl⟩
  | @write place b content _ hb _ hold _ hnew =>
    by_cases e : id = place
    · subst e
      cases ha.symm.trans hb
      refine ⟨_, Store.get?_put_same _ (Store.lt_next_of_get? hb), rfl, ?_⟩
      exact (Value.handles_eq_nil hold hnew).trans hold.symm
    · exact ⟨a, (Store.get?_put_other _ _ e).trans ha, rfl, rfl⟩

/-- The pieces in hand are not concerned. -/
theorem move (h : Touch places w u) (hl : w.locks = []) (hand : Multiset Piece) :
    ∃ S : Scope, S ≠ .shrink ∧ S ≤ .write ∧ Move S ⟨w, hand⟩ ⟨u, hand⟩ := by
  cases h with
  | report e he => exact ⟨.grow, by decide, by decide, .report e he⟩
  | write _ hb hk _ ht hnew =>
    exact ⟨.write, by decide, by decide, .exchange hb hk (by simp [hl]) ht (by rw [hnew, add_comm])⟩

end Touch

/-- What is done at some places, one thing after the other. -/
def Touches (places : Nat → Prop) : World → World → Prop :=
  Relation.ReflTransGen (Touch places)

namespace Touches

variable {places : Nat → Prop} {w u : World} {id : Nat}

theorem of_reports (w : World) {es : List Event} (hes : ∀ e ∈ es, e.isReport) :
    Touches places w (w.recordAll es) := by
  induction es generalizing w with
  | nil =>
    rw [w.recordAll_nil]
    exact .refl
  | cons e es ih =>
    have hrest := ih (w.recordAll [e]) fun e' he => hes e' (by simp [he])
    rw [World.recordAll_recordAll] at hrest
    exact .head (.report e (hes e (by simp))) hrest

theorem of_observes {α : Type} {act : Run α} (h : Observes act) (w : World) :
    Touches places w (act.after w) := by
  obtain ⟨es, hes, he⟩ := h w
  rw [he]
  exact of_reports w hes

theorem locks_eq (h : Touches places w u) : u.locks = w.locks := by
  induction h with
  | refl => rfl
  | tail _ h ih => rw [h.locks_eq, ih]

theorem get?_eq (h : Touches places w u) (hid : ¬places id) :
    u.store.get? id = w.store.get? id := by
  induction h with
  | refl => rfl
  | tail _ h ih => rw [h.get?_eq hid, ih]

theorem steady (h : Touches places w u) : w.store.Steady u.store := by
  induction h with
  | refl => exact .refl _
  | tail _ h ih => exact ih.trans h.steady

theorem exists_get? (h : Touches places w u) {a : Allocation} (ha : w.store.get? id = some a) :
    ∃ b, u.store.get? id = some b ∧ b.role = a.role ∧ b.content.handles = a.content.handles := by
  induction h with
  | refl => exact ⟨a, ha, rfl, rfl⟩
  | tail _ h ih =>
    obtain ⟨b, hb, hr, hh⟩ := ih
    obtain ⟨c, hc, hr', hh'⟩ := h.exists_get? hb
    exact ⟨c, hc, hr'.trans hr, hh'.trans hh⟩

theorem moves (h : Touches places w u) (hl : w.locks = []) (hand : Multiset Piece) :
    Moves .write ⟨w, hand⟩ ⟨u, hand⟩ := by
  induction h with
  | refl => exact .refl
  | tail hrest h ih =>
    obtain ⟨S, -, hS, hm⟩ := h.move ((locks_eq hrest).trans hl) hand
    exact ih.trans (.one hS hm)

/-- What leads to the places is not one of them, or else it holds handles: it stays as it is. -/
theorem get?_owner {a : Allocation} (h : Touches a.content.Targets w u)
    (ha : w.store.get? id = some a) :
    ∃ b, u.store.get? id = some b ∧ b.role = a.role ∧ b.content = a.content := by
  by_cases hv : a.content.handles = []
  · refine ⟨a, (h.get?_eq ?_).trans ha, rfl, rfl⟩
    rintro ⟨y, hy, -⟩
    rw [hv] at hy
    cases hy
  · obtain ⟨b, hb, -⟩ := h.exists_get? ha
    exact ⟨b, hb, (h.steady.fixed id a ha hv).2 b hb⟩

end Touches

theorem Held.touches {places : Nat → Prop} {w u : World} {xs : List Holder} {kept : Multiset Piece}
    (h : Held w xs kept) (ht : Touches places w u) : Held u xs kept where
  sound := h.sound.moves (ht.moves h.locks _)
  locks := ht.locks_eq.trans h.locks
  typed x hx := (h.typed x hx).evolve ht.steady.evolves

/-- A value without handles has its type in every store. -/
theorem Fits.of_bare {s s' : Store} {p : Place} {v : Value} (h : Fits s p v) (hv : v.handles = []) :
    Fits s' p v := by
  induction v using Value.induction generalizing p with
  | scalar x => exact h
  | probe q => exact h
  | handle k target =>
    obtain ⟨t, rfl, hk, -⟩ := h
    refine ⟨t, rfl, hk, fun id hid => ?_⟩
    subst hid
    simp [Value.handles] at hv
  | node shape parts ih =>
    obtain ⟨ps, hps, hf⟩ := h
    refine ⟨ps, hps, fitAll_iff.mpr ?_⟩
    rw [fitAll_iff, List.forall₂_iff_get] at hf
    refine List.forall₂_iff_get.mpr ⟨hf.1, fun i hi hi' => ih _ (List.get_mem _ _) (hf.2 i hi hi') ?_⟩
    refine List.eq_nil_iff_forall_not_mem.mpr fun y hy => ?_
    exact List.ne_nil_of_mem (Value.mem_handles_node (List.get_mem _ _) hy) hv

/-- An action keeps to some places: in this state it writes nothing else, and in every state that has
the same at the places it writes the same there, and nothing else, and has the same outcome. -/
structure Run.KeepsTo {α : Type} (places : Nat → Prop) (act : Run α) (w : World) : Prop where
  writes : Touches places w (act.after w)
  reads : ∀ z : World, z.locks = [] → (∀ id, places id → z.store.SameAt w.store id) →
    act.outcome z = act.outcome w ∧ Touches places z (act.after z) ∧
      ∀ id, places id → (act.after z).store.SameAt (act.after w).store id

namespace Run.KeepsTo

variable {α : Type} {places : Nat → Prop} {act : Run α} {w : World}

/-- An action that ends and reports the same everywhere. -/
theorem of_reports (r : Except Stop α) (es : List Event) (hes : ∀ e ∈ es, e.isReport)
    (h : ∀ z, act.outcome z = r ∧ act.after z = z.recordAll es) : act.KeepsTo places w where
  writes := by
    rw [(h w).2]
    exact .of_reports w hes
  reads z _ hsame := by
    rw [(h z).1, (h z).2, (h w).1, (h w).2]
    exact ⟨rfl, .of_reports z hes, hsame⟩

theorem pure (a : α) : (Pure.pure a : Run α).KeepsTo places w :=
  of_reports (.ok a) [] (by simp) fun z => ⟨rfl, z.recordAll_nil.symm⟩

theorem throw (e : Stop) : (MonadExcept.throw e : Run α).KeepsTo places w :=
  of_reports (.error e) [] (by simp) fun z => ⟨rfl, z.recordAll_nil.symm⟩

/-- A cell at one of the places is changed, by a function of what it holds. -/
theorem update {change : Value → Run (Value × α)} {place : Nat} {b : Allocation} {content : Value}
    {y : α} (hl : w.locks = []) (hp : places place) (hb : w.store.get? place = some b)
    (hk : b.role.kind = .cell) (hold : b.content.handles = [])
    (hc : change b.content = Pure.pure (content, y)) (ht : HasType w.store b.role.content content)
    (hnew : content.pieces = b.content.pieces) :
    (Cell.update (some place) change).KeepsTo places w := by
  have hrun := Cell.update_pure hb hk (by simp [hl]) hc
  constructor
  · rw [Run.after, hrun]
    exact .single (.write hp hb (by simp [hk]) hold ht hnew)
  · intro z hz hsame
    obtain ⟨c, b', hcell, hb', hr, hcontent⟩ := hsame place hp
    cases hb.symm.trans hb'
    have hrun' : Cell.update (some place) change z =
        .ok y { z with store := z.store.put place { c with content } } :=
      Cell.update_pure hcell (by rw [← hr, hk]) (by simp [hz]) (by rw [← hcontent, hc])
    rw [Run.outcome, Run.outcome, Run.after, Run.after, hrun, hrun']
    refine ⟨rfl, .single (.write hp hcell ?_ ?_ ?_ ?_), fun id hid => ?_⟩
    · simp [← hr, hk]
    · rw [← hcontent, hold]
    · rw [← hr]
      exact Fits.of_bare ht (Value.handles_eq_nil hold hnew)
    · rw [← hcontent, hnew]
    · by_cases e : id = place
      · subst e
        exact ⟨_, _, Store.get?_put_same _ (Store.lt_next_of_get? hcell),
          Store.get?_put_same _ (Store.lt_next_of_get? hb), hr, rfl⟩
      · obtain ⟨d, d', hd, hd', hsame'⟩ := hsame id hid
        exact ⟨d, d', (Store.get?_put_other _ _ e).trans hd, (Store.get?_put_other _ _ e).trans hd',
          hsame'⟩

end Run.KeepsTo

end SharedValues
