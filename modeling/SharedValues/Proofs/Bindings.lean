import SharedValues.Proofs.Pieces

/-!
Variables in the order of their names. As long as the names ascend, binding a variable replaces the
one of that name and leaves the others, and unbinding removes exactly that one.
-/
namespace SharedValues.World

/-- The names of the variables ascend. -/
def Ascending (bindings : List (String × Variable)) : Prop :=
  bindings.Pairwise fun x y => compare x.1 y.1 = .lt

theorem ne_of_compare_lt {a b : String} (h : compare a b = .lt) : a ≠ b := by
  rintro rfl
  simp [Std.ReflCmp.compare_self] at h

theorem filter_of_compare_lt {name : String} {vs : List (String × Variable)}
    (h : ∀ x ∈ vs, compare name x.1 = .lt) : vs.filter (·.1 != name) = vs := by
  rw [List.filter_eq_self]
  intro x hx
  simpa using (ne_of_compare_lt (h x hx)).symm

/-- Inserting a variable replaces the one of its name. -/
theorem insertVariable_perm (name : String) (v : Variable) {vs : List (String × Variable)}
    (h : Ascending vs) :
    (insertVariable name v vs).Perm ((name, v) :: vs.filter (·.1 != name)) := by
  induction vs with
  | nil => exact .refl _
  | cons x rest ih =>
    obtain ⟨other, o⟩ := x
    obtain ⟨hx, hr⟩ := List.pairwise_cons.mp h
    unfold insertVariable
    split
    next hc =>
      rw [filter_of_compare_lt]
      intro y hy
      rcases List.mem_cons.mp hy with rfl | hy
      · exact hc
      · exact Std.TransCmp.lt_trans hc (hx y hy)
    next hc =>
      obtain rfl := Std.LawfulEqCmp.eq_of_compare hc
      rw [List.filter_cons_of_neg (by simp), filter_of_compare_lt hx]
    next hc =>
      have hne : other ≠ name := ne_of_compare_lt (Std.OrientedCmp.lt_of_gt hc)
      rw [List.filter_cons_of_pos (by simpa using hne)]
      exact ((ih hr).cons _).trans (.swap _ _ _)

theorem insertVariable_ascending (name : String) (v : Variable) {vs : List (String × Variable)}
    (h : Ascending vs) : Ascending (insertVariable name v vs) := by
  induction vs with
  | nil => exact List.pairwise_singleton _ _
  | cons x rest ih =>
    obtain ⟨other, o⟩ := x
    obtain ⟨hx, hr⟩ := List.pairwise_cons.mp h
    unfold insertVariable
    split
    next hc =>
      refine List.pairwise_cons.mpr ⟨fun y hy => ?_, h⟩
      rcases List.mem_cons.mp hy with rfl | hy
      · exact hc
      · exact Std.TransCmp.lt_trans hc (hx y hy)
    next hc =>
      obtain rfl := Std.LawfulEqCmp.eq_of_compare hc
      exact List.pairwise_cons.mpr ⟨hx, hr⟩
    next hc =>
      refine List.pairwise_cons.mpr ⟨fun y hy => ?_, ih hr⟩
      rcases List.mem_cons.mp ((insertVariable_perm name v hr).mem_iff.mp hy) with rfl | hy
      · exact Std.OrientedCmp.lt_of_gt hc
      · exact hx y (List.mem_filter.mp hy).1

theorem Ascending.filter {vs : List (String × Variable)} (h : Ascending vs) (p) :
    Ascending (vs.filter p) :=
  List.Pairwise.filter p h

/-- What is bound under a name owns its share of what the variables own. -/
theorem owned_eq {w : World} (h : Ascending w.bindings) (name : String) :
    w.owned = ((w.find? name).elim 0 fun v => v.value.pieces) + (w.unbind name).owned := by
  unfold owned find? unbind
  generalize w.bindings = vs at h
  induction vs with
  | nil => rfl
  | cons x rest ih =>
    obtain ⟨other, o⟩ := x
    obtain ⟨hx, hr⟩ := List.pairwise_cons.mp h
    by_cases e : name = other
    · subst e
      simp [filter_of_compare_lt hx]
    · have e' : (name == other) = false := by simpa using e
      have e'' : other ≠ name := fun h => e h.symm
      have hf : ((other, o) :: rest).filter (·.1 != name) =
          (other, o) :: rest.filter (·.1 != name) := List.filter_cons_of_pos (by simpa using e'')
      simp only [hf, List.lookup_cons, e', List.map_cons, Value.piecesOf_cons]
      rw [ih hr]
      abel

theorem owned_of_find? {w : World} (h : Ascending w.bindings) {name : String} {v : Variable}
    (hv : w.find? name = some v) : w.owned = v.value.pieces + (w.unbind name).owned := by
  rw [owned_eq h name, hv]
  rfl

theorem owned_bind {w : World} (h : Ascending w.bindings) (name : String) (v : Variable) :
    (w.bind name v).owned = v.value.pieces + (w.unbind name).owned := by
  have hp := (insertVariable_perm name v h).map fun x => x.2.value
  simp only [owned, World.bind, unbind, Value.piecesOf_perm hp, List.map_cons, Value.piecesOf_cons]

theorem mem_bind {w : World} (h : Ascending w.bindings) {name : String} {v : Variable}
    {x : String × Variable} (hx : x ∈ (w.bind name v).bindings) :
    x = (name, v) ∨ x ∈ w.bindings := by
  have := (insertVariable_perm name v h).mem_iff.mp hx
  rcases List.mem_cons.mp this with rfl | hm
  · exact .inl rfl
  · exact .inr (List.mem_filter.mp hm).1

/-- A variable holds what it has been bound to. -/
theorem find?_bind_same (w : World) (name : String) (v : Variable) :
    (w.bind name v).find? name = some v := by
  unfold bind find?
  induction w.bindings with
  | nil => simp [insertVariable]
  | cons x rest ih =>
    obtain ⟨other, o⟩ := x
    simp only [insertVariable]
    split
    next => simp
    next => simp
    next hc =>
      have hne : (name == other) = false := by
        simpa using (ne_of_compare_lt (Std.OrientedCmp.lt_of_gt hc)).symm
      simp only [List.lookup_cons, hne, ih]

theorem find?_bind_other (w : World) {name other : String} (v : Variable) (h : other ≠ name) :
    (w.bind name v).find? other = w.find? other := by
  have hne : (other == name) = false := by simpa using h
  unfold bind find?
  induction w.bindings with
  | nil => simp [insertVariable, List.lookup_cons, hne]
  | cons x rest ih =>
    obtain ⟨y, o⟩ := x
    simp only [insertVariable]
    split
    next => simp [List.lookup_cons, hne]
    next hc =>
      obtain rfl := Std.LawfulEqCmp.eq_of_compare hc
      simp [List.lookup_cons, hne]
    next => simp only [List.lookup_cons, ih]

/-- Binding a variable to what it holds changes nothing. -/
theorem bind_of_find? {w : World} (h : Ascending w.bindings) {name : String} {v : Variable}
    (hv : w.find? name = some v) : w.bind name v = w := by
  have hb : insertVariable name v w.bindings = w.bindings := by
    unfold find? at hv
    generalize w.bindings = vs at h hv
    induction vs with
    | nil => cases hv
    | cons x rest ih =>
      obtain ⟨other, o⟩ := x
      obtain ⟨hx, hr⟩ := List.pairwise_cons.mp h
      by_cases e : name = other
      · subst e
        obtain rfl : o = v := by simpa using hv
        simp [insertVariable, Std.ReflCmp.compare_self]
      · have hne : (name == other) = false := by simpa using e
        rw [List.lookup_cons, hne] at hv
        have hlt : compare other name = .lt := hx _ (mem_of_find? (w := { w with bindings := rest }) hv)
        have hgt : compare name other = .gt := Std.OrientedCmp.gt_of_lt hlt
        simp only [insertVariable, hgt, ih hr hv]
  rw [bind, hb]

end SharedValues.World
