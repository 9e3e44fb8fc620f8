import SharedValues.Proofs.Pieces

/-!
Exact share counts of a store, relative to a collection of pieces: every live allocation has as many
shares as there are handles to it, at least one, and no handle is left dangling.
-/
namespace SharedValues

structure Counted (s : Store) (pieces : Multiset Piece) : Prop where
  exact : ∀ id a, s.get? id = some a → a.shares = pieces.countP (Piece.PointsAt id)
  shared : ∀ id a, s.get? id = some a → 1 ≤ a.shares
  alive : ∀ h, Piece.handle h ∈ pieces → ∃ a, s.get? h.target = some a ∧ a.role.kind = h.kind

theorem countP_pointsAt_handle (id : Nat) (h : Handle) (pieces : Multiset Piece) :
    ({.handle h} + pieces : Multiset Piece).countP (Piece.PointsAt id) =
      pieces.countP (Piece.PointsAt id) + if h.target = id then 1 else 0 := by
  rw [Multiset.singleton_add, Multiset.countP_cons]
  simp

theorem countP_pointsAt_probe (id : Nat) (p : Probe) (pieces : Multiset Piece) :
    ({.probe p} + pieces : Multiset Piece).countP (Piece.PointsAt id) =
      pieces.countP (Piece.PointsAt id) := by
  rw [Multiset.singleton_add, Multiset.countP_cons]
  simp

theorem counted_empty : Counted {} 0 :=
  ⟨fun id a h => by simp [Store.get?] at h, fun id a h => by simp [Store.get?] at h, by simp⟩

namespace Counted

variable {s : Store} {P : Multiset Piece}

/-- Handles point below the next address. -/
theorem target_lt (hc : Counted s P) {h : Handle} (hh : .handle h ∈ P) : h.target < s.next := by
  obtain ⟨a, ha, -⟩ := hc.alive h hh
  exact Store.lt_next_of_get? ha

theorem countP_next (hc : Counted s P) : P.countP (Piece.PointsAt s.next) = 0 := by
  rw [Multiset.countP_eq_zero]
  intro p hp ht
  cases p with
  | handle h =>
    have := hc.target_lt hp
    simp at ht
    omega
  | probe p => simp at ht

/-- Some handle points at every live allocation. -/
theorem exists_handle (hc : Counted s P) {id : Nat} {a : Allocation} (ha : s.get? id = some a) :
    ∃ h, .handle h ∈ P ∧ h.target = id := by
  have h₁ : 0 < P.countP (Piece.PointsAt id) := by
    rw [← hc.exact id a ha]
    exact hc.shared id a ha
  obtain ⟨p, hp, ht⟩ := Multiset.countP_pos.mp h₁
  cases p with
  | handle h => exact ⟨h, hp, by simpa using ht⟩
  | probe p => simp at ht

theorem probe_iff {p : Probe} : Counted s ({.probe p} + P) ↔ Counted s P := by
  constructor
  · intro hc
    refine ⟨fun id a ha => ?_, hc.shared, fun h hh => hc.alive h (by simp [hh])⟩
    rw [hc.exact id a ha, countP_pointsAt_probe]
  · intro hc
    refine ⟨fun id a ha => ?_, hc.shared, fun h hh => hc.alive h (by simpa using hh)⟩
    rw [hc.exact id a ha, countP_pointsAt_probe]

/-- Another allocation takes the place of one with the same role. Its count must be exact; the pieces
may differ in the handles to it only. -/
theorem replace (hc : Counted s P) {id : Nat} {a b : Allocation} {Q : Multiset Piece}
    (ha : s.get? id = some a) (hr : b.role = a.role)
    (hb : b.shares = Q.countP (Piece.PointsAt id)) (h1 : 1 ≤ b.shares)
    (hother : ∀ other, other ≠ id →
      Q.countP (Piece.PointsAt other) = P.countP (Piece.PointsAt other))
    (hq : ∀ h, .handle h ∈ Q → .handle h ∈ P ∨ h = ⟨a.role.kind, id⟩) :
    Counted (s.put id b) Q := by
  have hid := Store.lt_next_of_get? ha
  have hsame := Store.get?_put_same b hid
  refine ⟨fun other c hc' => ?_, fun other c hc' => ?_, fun h hh => ?_⟩
  · rcases Store.get?_put_cases hc' with ⟨rfl, rfl⟩ | ⟨e, hc'⟩
    · exact hb
    · rw [hother other e, hc.exact other c hc']
  · rcases Store.get?_put_cases hc' with ⟨rfl, rfl⟩ | ⟨-, hc'⟩
    · exact h1
    · exact hc.shared other c hc'
  · rcases hq h hh with hh | rfl
    · obtain ⟨c, hc', hk⟩ := hc.alive h hh
      by_cases e : h.target = id
      · obtain rfl : a = c := Option.some.inj (ha.symm.trans (e ▸ hc'))
        exact ⟨b, e ▸ hsame, by rw [hr, hk]⟩
      · exact ⟨c, by rw [Store.get?_put_other s b e, hc'], hk⟩
    · exact ⟨b, hsame, by rw [hr]⟩

/-- A change of the content leaves the counts. -/
theorem put (hc : Counted s P) {id : Nat} {a b : Allocation} (ha : s.get? id = some a)
    (hr : b.role = a.role) (hs : b.shares = a.shares) : Counted (s.put id b) P := by
  refine hc.replace ha hr ?_ ?_ (fun _ _ => rfl) fun _ hh => .inl hh
  · rw [hs, hc.exact id a ha]
  · rw [hs]
    exact hc.shared id a ha

/-- One more share for one more handle. -/
theorem retain (hc : Counted s P) {id : Nat} {a : Allocation} (ha : s.get? id = some a) :
    Counted (s.put id { a with shares := a.shares + 1 }) ({.handle ⟨a.role.kind, id⟩} + P) := by
  refine hc.replace ha rfl ?_ (Nat.le_add_left 1 _) ?_ ?_
  · rw [countP_pointsAt_handle, if_pos rfl, hc.exact id a ha]
  · intro other e
    rw [countP_pointsAt_handle, if_neg (Ne.symm e), add_zero]
  · intro h hh
    simpa [or_comm] using hh

/-- A new allocation has one share, and its handle is the only one. -/
theorem push (hc : Counted s P) (role : Role) (content : Value) :
    Counted (s.push ⟨role, content, 1⟩) ({.handle ⟨role.kind, s.next⟩} + P) := by
  refine ⟨fun id c hc' => ?_, fun id c hc' => ?_, fun h hh => ?_⟩
  · rw [countP_pointsAt_handle]
    rcases Store.get?_push_cases hc' with ⟨rfl, rfl⟩ | hc'
    · simp [hc.countP_next]
    · have e := Nat.ne_of_gt (Store.lt_next_of_get? hc')
      rw [hc.exact id c hc', if_neg e, add_zero]
  · rcases Store.get?_push_cases hc' with ⟨rfl, rfl⟩ | hc'
    · exact Nat.le_refl 1
    · exact hc.shared id c hc'
  · rcases Multiset.mem_add.mp hh with hh | hh
    · simp only [Multiset.mem_singleton, Piece.handle.injEq] at hh
      exact ⟨⟨role, content, 1⟩, by rw [hh, Store.get?_push_next], by rw [hh]⟩
    · have := hc.target_lt hh
      obtain ⟨c, hc', hk⟩ := hc.alive h hh
      exact ⟨c, by rw [Store.get?_push_of_ne s _ (by omega), hc'], hk⟩

/-- One share less for one handle less, if it is not the last. -/
theorem letGo {k : HandleKind} {id : Nat} (hc : Counted s ({.handle ⟨k, id⟩} + P))
    {a : Allocation} (ha : s.get? id = some a) (h1 : 1 < a.shares) :
    Counted (s.put id { a with shares := a.shares - 1 }) P := by
  refine hc.replace ha rfl ?_ (Nat.le_sub_one_of_lt h1) ?_ fun h hh => .inl (by simp [hh])
  · have h₁ := hc.exact id a ha
    rw [countP_pointsAt_handle, if_pos rfl] at h₁
    simp [h₁]
  · intro other e
    rw [countP_pointsAt_handle, if_neg (Ne.symm e), add_zero]

/-- The last handle to an allocation is the only one. -/
theorem target_ne_of_last {k : HandleKind} {id : Nat} (hc : Counted s ({.handle ⟨k, id⟩} + P))
    {a : Allocation} (ha : s.get? id = some a) (h1 : a.shares ≤ 1) {h : Handle}
    (hh : .handle h ∈ P) : h.target ≠ id := by
  intro e
  have h₁ := hc.exact id a ha
  rw [countP_pointsAt_handle] at h₁
  have h₂ : 0 < P.countP (Piece.PointsAt id) :=
    Multiset.countP_pos.mpr ⟨.handle h, hh, by simp [e]⟩
  simp only [if_true] at h₁
  omega

/-- The last share goes with the allocation. -/
theorem last {k : HandleKind} {id : Nat} (hc : Counted s ({.handle ⟨k, id⟩} + P))
    {a : Allocation} (ha : s.get? id = some a) (h1 : a.shares ≤ 1) : Counted (s.erase id) P := by
  refine ⟨fun other c hc' => ?_, fun other c hc' => ?_, fun h hh => ?_⟩
  · obtain ⟨e, hc'⟩ := Store.get?_erase_cases hc'
    rw [hc.exact other c hc', countP_pointsAt_handle, if_neg (Ne.symm e), add_zero]
  · exact hc.shared other c (Store.get?_erase_cases hc').2
  · obtain ⟨c, hc', hk⟩ := hc.alive h (by simp [hh])
    exact ⟨c, by rw [Store.get?_erase_other s (hc.target_ne_of_last ha h1 hh), hc'], hk⟩

end Counted

end SharedValues
