import Mathlib
import SharedValues.Proofs.ShareCounts

/-!
Liveness is reachability. An allocation that is alive has a holder, which is a variable or another
live allocation; without cycles of ownership the way back through the holders ends at a variable.
So without variables nothing is alive, and every probe has been dropped as often as it has come
into being.
-/
namespace SharedValues

/-- The live allocation at the first address holds a handle to the second. -/
def Store.Owns (s : Store) (id id' : Nat) : Prop :=
  ∃ a, s.get? id = some a ∧ ∃ h ∈ a.content.handles, h.target = id'

/-- No allocation owns itself, directly or through others. -/
def Store.Acyclic (s : Store) : Prop :=
  ∀ id, ¬Relation.TransGen s.Owns id id

/-- Handles lead from a variable to the address. -/
inductive World.Reaches (w : World) : Nat → Prop where
  | root {x : String × Variable} {h : Handle} {id : Nat} (hx : x ∈ w.bindings)
    (hh : h ∈ x.2.value.handles) (ht : h.target = id) : Reaches w id
  | owner {id id' : Nat} (hr : Reaches w id) (ho : w.store.Owns id id') : Reaches w id'

namespace Store

theorem Owns.lt_next {s : Store} {id id' : Nat} (h : s.Owns id id') : id < s.next := by
  obtain ⟨a, ha, -⟩ := h
  exact lt_next_of_get? ha

/-- Handles that all point at older allocations make no cycle. -/
theorem acyclic_of_lt {s : Store}
    (hs : ∀ id < s.next, ∀ a ∈ s.get? id, ∀ h ∈ a.content.handles, h.target < id) :
    s.Acyclic := by
  have ho : ∀ {x y}, s.Owns x y → y < x := by
    rintro x _ ⟨a, ha, h, hh, rfl⟩
    exact hs x (lt_next_of_get? ha) a ha h hh
  have hlt : ∀ {x y}, Relation.TransGen s.Owns x y → y < x := by
    intro x y hxy
    induction hxy with
    | single h => exact ho h
    | tail _ h ih => exact (ho h).trans ih
  exact fun id hc => Nat.lt_irrefl id (hlt hc)

/-- Fewer allocations with the same contents make no new cycle. -/
theorem Acyclic.of_content {s s' : Store} (h : s.Acyclic)
    (hc : ∀ id b, s'.get? id = some b → ∃ a, s.get? id = some a ∧ b.content = a.content) :
    s'.Acyclic := by
  refine fun id hid => h id (Relation.TransGen.mono ?_ id id hid)
  rintro x y ⟨b, hb, h, hh, ht⟩
  obtain ⟨a, ha, e⟩ := hc x b hb
  exact ⟨a, ha, h, e ▸ hh, ht⟩

/-- Without cycles one can argue from the holders of an allocation to the allocation. -/
theorem Acyclic.induction {s : Store} (h : s.Acyclic) {P : Nat → Prop}
    (step : ∀ id, id < s.next → (∀ holder, s.Owns holder id → P holder) → P id) {id : Nat}
    (hid : id < s.next) : P id := by
  have : IsStrictOrder Nat (Relation.TransGen s.Owns) :=
    { irrefl := h, trans := fun _ _ _ => Relation.TransGen.trans }
  have hwf : (Set.Iio s.next).WellFoundedOn (Relation.TransGen s.Owns) :=
    (Set.finite_Iio s.next).wellFoundedOn
  refine hwf.induction hid fun x hx ih => step x hx fun holder ho => ?_
  exact ih holder ho.lt_next (.single ho)

end Store

theorem Value.mem_handlesOf {vs : List Value} {h : Handle} :
    h ∈ handlesOf vs ↔ ∃ v ∈ vs, h ∈ v.handles := by
  induction vs with
  | nil => simp [handlesOf]
  | cons v vs ih => simp [handlesOf, ih]

namespace World

variable {w : World}

/-- Every handle that is held is held by a variable or by a live allocation. -/
theorem mem_handles {h : Handle} :
    h ∈ w.handles ↔ (∃ x ∈ w.bindings, h ∈ x.2.value.handles) ∨
      ∃ id a, w.store.get? id = some a ∧ h ∈ a.content.handles := by
  simp only [handles, values, Value.mem_handlesOf, List.mem_append, List.mem_map, Store.mem_live]
  constructor
  · rintro ⟨_, ⟨x, hx, rfl⟩ | ⟨a, ⟨id, ha⟩, rfl⟩, hh⟩
    · exact .inl ⟨x, hx, hh⟩
    · exact .inr ⟨id, a, ha, hh⟩
  · rintro (⟨x, hx, hh⟩ | ⟨id, a, ha, hh⟩)
    · exact ⟨_, .inl ⟨x, hx, rfl⟩, hh⟩
    · exact ⟨_, .inr ⟨a, ⟨id, ha⟩, rfl⟩, hh⟩

theorem not_reaches_of_nil (hb : w.bindings = []) (id : Nat) : ¬w.Reaches id := by
  intro h
  induction h with
  | root hx => simp [hb] at hx
  | owner _ _ ih => exact ih

namespace Settled

theorem alive_of_reaches (hw : w.Settled) {id : Nat} (h : w.Reaches id) :
    ∃ a, w.store.get? id = some a := by
  cases h with
  | @root x h _ hx hh ht =>
    obtain ⟨a, ha, -⟩ := hw.alive_of_held (mem_handles.mpr (.inl ⟨x, hx, hh⟩))
    exact ⟨a, ht ▸ ha⟩
  | @owner holder _ hr ho =>
    obtain ⟨b, hb, h, hh, ht⟩ := ho
    obtain ⟨a, ha, -⟩ := hw.alive_of_held (mem_handles.mpr (.inr ⟨holder, b, hb, hh⟩))
    exact ⟨a, ht ▸ ha⟩

theorem reaches_of_alive (hw : w.Settled) (hac : w.store.Acyclic) {id : Nat} {a : Allocation}
    (ha : w.store.get? id = some a) : w.Reaches id := by
  refine hac.induction (P := fun id => ∀ a, w.store.get? id = some a → w.Reaches id) ?_
    (Store.lt_next_of_get? ha) a ha
  intro id _ ih a ha
  obtain ⟨h, hh, ht⟩ := hw.counted.exists_handle ha
  rcases mem_handles.mp (Value.handle_mem_piecesOf.mp hh) with ⟨x, hx, hv⟩ | ⟨holder, b, hb, hc⟩
  · exact .root hx hv ht
  · have ho : w.store.Owns holder id := ⟨b, hb, h, hc, ht⟩
    exact .owner (ih holder ho b hb) ho

/-- Without variables and without cycles nothing is alive. -/
theorem nothing_alive (hw : w.Settled) (hac : w.store.Acyclic) (hb : w.bindings = []) (id : Nat) :
    w.store.get? id = none := by
  cases ha : w.store.get? id with
  | none => rfl
  | some a => exact absurd (hw.reaches_of_alive hac ha) (not_reaches_of_nil hb id)

/-- When all variables have been given up, the state is settled again. -/
theorem releaseAll (hw : w.Settled) : (Program.releaseAll w).Settled := by
  have hm := Program.leads_releaseAll w
  have hsame := sameBut_release (w.bindings.map fun x => x.2.value) { w with bindings := [] }
  have hb : (Program.releaseAll w).bindings = [] := hsame.bindings
  have ho : (Program.releaseAll w).owned = 0 := by simp [owned, hb]
  exact ⟨ho ▸ hw.sound.moves hm, hsame.locks.trans hw.locks, by rw [hb]; exact .nil⟩

end Settled

theorem count_values (p : Probe) (vs : List Value) :
    (Value.piecesOf vs).count (.probe p) = (Value.probesOf vs).count p := by
  have hh : ((Value.handlesOf vs).map Piece.handle).count (.probe p) = 0 := by
    simp [List.count_eq_zero]
  have hp : ((Value.probesOf vs).map Piece.probe).count (.probe p) = (Value.probesOf vs).count p :=
    List.count_map_of_injective _ _ (fun _ _ h => Piece.probe.inj h) _
  rw [← Value.coe_handlesOf, Multiset.coe_count, List.count_append, hh, hp, zero_add]

/-- Every probe that has come into being has been dropped or is held, and never both. -/
theorem perm_born (hc : Config.Chronicled ⟨w, w.owned⟩) (hl : w.locks = []) :
    w.born.Perm (w.dropped ++ w.probes) := by
  rw [List.perm_iff_count]
  intro p
  have h : w.born.count p = _ := hc.balanced p
  rw [h, total_eq_values hl, count_values, List.count_append, probes]

theorem probes_of_nothing (hb : w.bindings = []) (ha : ∀ id, w.store.get? id = none) :
    w.probes = [] := by
  have : w.store.live = [] := by
    rw [List.eq_nil_iff_forall_not_mem]
    intro a h
    obtain ⟨id, h⟩ := Store.mem_live.mp h
    simp [ha] at h
  simp [probes, values, hb, this, Value.probesOf]

end World

/-- In every state of a run in which no allocation owns itself, what is alive is what handles lead to
from a variable. Every probe that has come into being is held or has been dropped. Without
variables, and after giving up all of them, nothing is alive, and the dropped probes are those that
have come into being, each as often. -/
theorem alive_iff_reachable (fresh : Bool) (steps : List Step)
    (hac : (Machine.after fresh steps).store.Acyclic) :
    let w := Machine.after fresh steps
    (∀ id, (∃ a, w.store.get? id = some a) ↔ w.Reaches id) ∧
    w.born.Perm (w.dropped ++ w.probes) ∧
    (w.bindings = [] → (∀ id, w.store.get? id = none) ∧ w.born.Perm w.dropped) ∧
    (∀ id, (Program.releaseAll w).store.get? id = none) ∧
    w.born.Perm (Program.releaseAll w).dropped := by
  intro w
  have hw : w.Settled := Machine.settled_after fresh steps
  have hc : Config.Chronicled ⟨w, w.owned⟩ := Machine.chronicled_after fresh steps
  have hr := hw.releaseAll
  have hsame := World.sameBut_release (w.bindings.map fun x => x.2.value) { w with bindings := [] }
  have hb : (Program.releaseAll w).bindings = [] := hsame.bindings
  have hborn : (Program.releaseAll w).born = w.born :=
    congrArg (List.filterMap Birth.probe?) hsame.created
  have hnone := hr.nothing_alive (hac.of_content hsame.content) hb
  refine ⟨fun id => ⟨fun ⟨a, ha⟩ => hw.reaches_of_alive hac ha, hw.alive_of_reaches⟩,
    World.perm_born hc hw.locks, fun hnil => ?_, hnone, ?_⟩
  · have hn := hw.nothing_alive hac hnil
    have hp := World.perm_born hc hw.locks
    rw [World.probes_of_nothing hnil hn, List.append_nil] at hp
    exact ⟨hn, hp⟩
  · have hc' : Config.Chronicled ⟨Program.releaseAll w, (Program.releaseAll w).owned⟩ := by
      simpa [World.owned, hb] using hc.moves (Program.leads_releaseAll w)
    have hp := World.perm_born hc' hr.locks
    rwa [World.probes_of_nothing hb hnone, List.append_nil, hborn] at hp

/-- A probe in a slot that only a shared cell holds. -/
theorem alive_iff_reachable_through_cell :
    let steps : List Step :=
      [.new (some "a") .probe (.int 5),
        .define (some "c") (.cell .erased) (.record [("ref", .record [("$var", .text "a")])]),
        .copy (some "d") "c", .drop "a"]
    let w := Machine.after false steps
    w.store.Acyclic ∧ (∃ a, w.store.get? 0 = some a) ∧ w.Reaches 0 ∧
      w.born.Perm (Program.releaseAll w).dropped := by
  intro steps w
  have hs : w.store =
      ⟨#[some ⟨.slot ⟨0, .probe⟩ .probe, .probe ⟨5, none⟩, 1⟩,
        some ⟨.cell .erased, .handle .slot (some 0), 2⟩]⟩ := by
    simp only [w, steps]
    cbv
  have hac : w.store.Acyclic := Store.acyclic_of_lt (by rw [hs]; decide)
  have h := alive_iff_reachable false steps hac
  have ha : ∃ a, w.store.get? 0 = some a := by rw [hs]; exact ⟨_, rfl⟩
  exact ⟨hac, ha, (h.1 0).mp ha, h.2.2.2.2⟩

end SharedValues
