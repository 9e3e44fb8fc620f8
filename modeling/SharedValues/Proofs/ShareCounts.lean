import SharedValues.Proofs.Runs

/-!
Exact share counts. What a state holds is what its variables and its live allocations hold; between
two steps there is nothing else, so the counts of a settled state are the numbers of handles in it.
-/
namespace SharedValues

/-- The live allocations, in the order of their addresses. -/
def Store.live (s : Store) : List Allocation :=
  (List.range s.next).filterMap s.get?

theorem Store.mem_live {s : Store} {a : Allocation} : a ∈ s.live ↔ ∃ id, s.get? id = some a := by
  simp only [live, List.mem_filterMap, List.mem_range]
  exact ⟨fun ⟨id, _, h⟩ => ⟨id, h⟩, fun ⟨id, h⟩ => ⟨id, lt_next_of_get? h, h⟩⟩

namespace World

/-- What the variables hold, and then what the live allocations hold. -/
def values (w : World) : List Value :=
  w.bindings.map (·.2.value) ++ w.store.live.map (·.content)

/-- The handles held by the variables and inside the live allocations, with repetitions. -/
def handles (w : World) : List Handle :=
  Value.handlesOf w.values

/-- The probes held by the variables and inside the live allocations, with repetitions. -/
def probes (w : World) : List Probe :=
  Value.probesOf w.values

theorem stored_eq_live {w : World} (hl : w.locks = []) :
    w.stored = Value.piecesOf (w.store.live.map (·.content)) := by
  unfold stored Store.live
  induction w.store.next with
  | zero => rfl
  | succ n ih =>
    rw [Finset.sum_range_succ, List.range_succ, ih]
    cases h : w.store.get? n <;> simp [storedAt, hl, h]

/-- Between two steps, what there is is what variables and allocations hold. -/
theorem total_eq_values {w : World} (hl : w.locks = []) :
    Config.total ⟨w, w.owned⟩ = Value.piecesOf w.values := by
  have hp : w.pins = 0 := by simp [pins, hl]
  rw [Config.total, stored_eq_live hl, hp, add_zero, add_comm, values, Value.piecesOf_append, owned]

end World

theorem Value.countP_piecesOf (id : Nat) (vs : List Value) :
    (piecesOf vs).countP (Piece.PointsAt id) = (handlesOf vs).countP (·.target = id) := by
  have hp : ((probesOf vs).map Piece.probe).countP (Piece.PointsAt id ·) = 0 := by
    simp [List.countP_eq_zero]
  have hh : ((handlesOf vs).map Piece.handle).countP (Piece.PointsAt id ·) =
      (handlesOf vs).countP (·.target = id) := by
    simp [List.countP_map, Function.comp_def]
  rw [← coe_handlesOf, Multiset.coe_countP, List.countP_append, hp, hh, add_zero]

theorem Value.handle_mem_piecesOf {vs : List Value} {h : Handle} :
    .handle h ∈ piecesOf vs ↔ h ∈ handlesOf vs := by
  simp [← coe_handlesOf]

namespace World.Settled

variable {w : World}

theorem counted (hw : w.Settled) : Counted w.store (Value.piecesOf w.values) :=
  total_eq_values hw.locks ▸ hw.sound.counted

theorem shares_eq (hw : w.Settled) {id : Nat} {a : Allocation} (ha : w.store.get? id = some a) :
    a.shares = w.handles.countP (·.target = id) := by
  rw [hw.counted.exact id a ha, Value.countP_piecesOf, handles]

/-- Every handle that is held points at a live allocation of its kind. -/
theorem alive_of_held (hw : w.Settled) {h : Handle} (hh : h ∈ w.handles) :
    ∃ a, w.store.get? h.target = some a ∧ a.role.kind = h.kind :=
  hw.counted.alive h (Value.handle_mem_piecesOf.mpr hh)

end World.Settled

theorem Run.shareCount_of_get? {w : World} {id : Nat} {a : Allocation}
    (ha : w.store.get? id = some a) : shareCount a.role.kind (some id) w = .ok a.shares w :=
  bind_of_ok (read_of_get? ha)

/-- In every state that a run reaches, each live allocation has as many shares, and reports as many,
as there are handles to it in variables and in live allocations. There is at least one, and every
handle points at a live allocation of its kind. -/
theorem share_counts_exact (fresh : Bool) (steps : List Step) :
    let w := Machine.after fresh steps
    (∀ id a, w.store.get? id = some a →
      a.shares = w.handles.countP (·.target = id) ∧ 1 ≤ a.shares ∧
        Run.shareCount a.role.kind (some id) w = .ok a.shares w) ∧
    ∀ h ∈ w.handles, ∃ a, w.store.get? h.target = some a ∧ a.role.kind = h.kind := by
  intro w
  have hw : w.Settled := Machine.settled_after fresh steps
  refine ⟨fun id a ha => ⟨hw.shares_eq ha, ?_, Run.shareCount_of_get? ha⟩, fun h hh => ?_⟩
  · exact hw.counted.shared id a ha
  · exact hw.alive_of_held hh

end SharedValues
