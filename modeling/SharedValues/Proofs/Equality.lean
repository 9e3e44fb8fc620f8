import Mathlib
import SharedValues.Proofs.Positions
import SharedValues.Proofs.Separation

/-!
Equality as a relation. Two values of a type are equal if they have the same structure and equal
scalars, where two shares of one allocation are equal at once, two cells are equal if their contents
are, and two slots if in addition their types are. The relation is symmetric and transitive, and
comparing decides it. A value equals its clone unless there is a NaN outside of what its handles
point at.
-/
namespace SharedValues

section scalars

namespace Decimal.FloatFormat

variable (f : FloatFormat)

theorem equal_self (a : Nat) : f.equal a a = !f.isNaN a := by
  unfold equal isNaN
  cases f.magnitude a with
  | nan => rfl
  | infinite => simp
  | finite m e => cases m <;> simp

theorem equal_comm (a b : Nat) : f.equal a b = f.equal b a := by
  unfold equal
  split <;> split <;> simp_all [eq_comm]

theorem equal_trans {a b c : Nat} (h : f.equal a b) (h' : f.equal b c) : f.equal a c := by
  unfold equal at *
  split at h <;> split at h' <;> simp_all

end Decimal.FloatFormat

namespace Scalar

theorem equals_self (x : Scalar) : x.equals x = !x.isNaN := by
  cases x with
  | float32 bits => exact Decimal.FloatFormat.equal_self _ _
  | float64 bits => exact Decimal.FloatFormat.equal_self _ _
  | _ => simp [equals, isNaN]

theorem equals_comm (x y : Scalar) : x.equals y = y.equals x := by
  cases x with
  | float32 bits =>
    cases y with
    | float32 bits' => exact Decimal.FloatFormat.equal_comm _ _ _
    | _ => rfl
  | float64 bits =>
    cases y with
    | float64 bits' => exact Decimal.FloatFormat.equal_comm _ _ _
    | _ => rfl
  | _ => cases y <;> simp [equals, eq_comm]

theorem equals_trans {x y z : Scalar} (h : x.equals y) (h' : y.equals z) : x.equals z := by
  cases x with
  | float32 bits =>
    cases y with
    | float32 bits' =>
      cases z with
      | float32 bits'' => exact Decimal.FloatFormat.equal_trans _ h h'
      | _ => simp [equals] at h'
    | _ => simp [equals] at h
  | float64 bits =>
    cases y with
    | float64 bits' =>
      cases z with
      | float64 bits'' => exact Decimal.FloatFormat.equal_trans _ h h'
      | _ => simp [equals] at h'
    | _ => simp [equals] at h
  | _ => cases y <;> simp_all [equals]

end Scalar

end scalars

namespace Store

/-- Equality of two values of a type. -/
inductive Equal (s : Store) : Value → Value → Prop where
  | scalar {x y : Scalar} (h : x.equals y) : Equal s (.scalar x) (.scalar y)
  | probe {p q : Probe} (h : p.id = q.id) : Equal s (.probe p) (.probe q)
  | absent {k : HandleKind} : Equal s (.handle k none) (.handle k none)
  | shared {k : HandleKind} {id : Nat} : Equal s (.handle k (some id)) (.handle k (some id))
  | cell {i j : Nat} {a b : Allocation} (ha : s.get? i = some a) (hb : s.get? j = some b)
    (h : Equal s a.content b.content) : Equal s (.handle .cell (some i)) (.handle .cell (some j))
  | slot {i j : Nat} {a b : Allocation} (ha : s.get? i = some a) (hb : s.get? j = some b)
    (ht : a.role.content = b.role.content) (h : Equal s a.content b.content) :
    Equal s (.handle .slot (some i)) (.handle .slot (some j))
  | node {shape shape' : Shape} {parts parts' : List Value} (hm : shape.meaning = shape'.meaning)
    (hl : parts.length = parts'.length)
    (h : ∀ (i : Nat) (v u : Value), parts[i]? = some v → parts'[i]? = some u → Equal s v u) :
    Equal s (.node shape parts) (.node shape' parts')

namespace Equal

variable {s : Store} {v u x : Value}

theorem symm (h : s.Equal v u) : s.Equal u v := by
  induction h with
  | scalar h => exact .scalar (Scalar.equals_comm _ _ ▸ h)
  | probe h => exact .probe h.symm
  | absent => exact .absent
  | shared => exact .shared
  | cell ha hb _ ih => exact .cell hb ha ih
  | slot ha hb ht _ ih => exact .slot hb ha ht.symm ih
  | node hm hl _ ih => exact .node hm.symm hl.symm fun i v u hv hu => ih i u v hu hv

theorem trans (h : s.Equal v u) (h' : s.Equal u x) : s.Equal v x := by
  induction h generalizing x with
  | scalar h =>
    cases h' with
    | scalar h' => exact .scalar (Scalar.equals_trans h h')
  | probe h =>
    cases h' with
    | probe h' => exact .probe (h.trans h')
  | absent => exact h'
  | shared => exact h'
  | cell ha hb h ih =>
    cases h' with
    | shared => exact .cell ha hb h
    | cell hb' hc h' =>
      cases hb.symm.trans hb'
      exact .cell ha hc (ih h')
  | slot ha hb ht h ih =>
    cases h' with
    | shared => exact .slot ha hb ht h
    | slot hb' hc ht' h' =>
      cases hb.symm.trans hb'
      exact .slot ha hc (ht.trans ht') (ih h')
  | @node shape _ parts parts' hm hl _ ih =>
    cases h' with
    | @node _ shape'' _ parts'' hm' hl' h' =>
      apply Equal.node (hm.trans hm') (hl.trans hl')
      intro i v x hv hx
      have hi : i < parts'.length := hl ▸ (List.getElem?_eq_some_iff.mp hv).1
      have hu : parts'[i]? = some parts'[i] := List.getElem?_eq_getElem hi
      exact ih i v _ hv hu (h' i _ x hu hx)

/-- Equal values stay equal while the allocations stay. -/
theorem persist {s' : Store} (h : s.Equal v u) (hp : s.Persists s') : s'.Equal v u := by
  induction h with
  | scalar h => exact .scalar h
  | probe h => exact .probe h
  | absent => exact .absent
  | shared => exact .shared
  | cell ha hb _ ih =>
    obtain ⟨a', ha', -, hca⟩ := hp _ _ ha
    obtain ⟨b', hb', -, hcb⟩ := hp _ _ hb
    exact .cell ha' hb' (by rw [hca, hcb]; exact ih)
  | slot ha hb ht _ ih =>
    obtain ⟨a', ha', hra, hca⟩ := hp _ _ ha
    obtain ⟨b', hb', hrb, hcb⟩ := hp _ _ hb
    exact .slot ha' hb' (by rw [hra, hrb, ht]) (by rw [hca, hcb]; exact ih)
  | node hm hl _ ih => exact .node hm hl ih

/-- Values that live in the first store are not equal in the second one only. -/
theorem of_persists {s' : Store} (h : s'.Equal v u) (hp : s.Persists s') (hc : s.Closed)
    (hv : ∀ x ∈ v.handles, s.Alive x) (hu : ∀ x ∈ u.handles, s.Alive x) : s.Equal v u := by
  induction h with
  | scalar h => exact .scalar h
  | probe h => exact .probe h
  | absent => exact .absent
  | shared => exact .shared
  | @cell i j a b ha hb _ ih =>
    have hi := hv ⟨.cell, i⟩ (by simp [Value.handles])
    have hj := hu ⟨.cell, j⟩ (by simp [Value.handles])
    obtain ⟨a', ha', -, hca⟩ := hp.get?_of_alive hi ha
    obtain ⟨b', hb', -, hcb⟩ := hp.get?_of_alive hj hb
    rw [hca, hcb] at ih
    exact .cell ha' hb' (ih (hc i a' ha') (hc j b' hb'))
  | @slot i j a b ha hb ht _ ih =>
    have hi := hv ⟨.slot, i⟩ (by simp [Value.handles])
    have hj := hu ⟨.slot, j⟩ (by simp [Value.handles])
    obtain ⟨a', ha', hra, hca⟩ := hp.get?_of_alive hi ha
    obtain ⟨b', hb', hrb, hcb⟩ := hp.get?_of_alive hj hb
    rw [hca, hcb] at ih
    rw [hra, hrb] at ht
    exact .slot ha' hb' ht (ih (hc i a' ha') (hc j b' hb'))
  | node hm hl _ ih =>
    apply Equal.node hm hl
    intro i x y hx hy
    apply ih i x y hx hy
    · exact fun z hz => hv z (Value.mem_handles_node (List.mem_of_getElem? hx) hz)
    · exact fun z hz => hu z (Value.mem_handles_node (List.mem_of_getElem? hy) hz)

end Equal

/-- Different cells are equal if their contents are. -/
theorem equal_cells {s : Store} {i j : Nat} {a b : Allocation} (hne : i ≠ j)
    (ha : s.get? i = some a) (hb : s.get? j = some b) :
    s.Equal (.handle .cell (some i)) (.handle .cell (some j)) ↔ s.Equal a.content b.content := by
  constructor
  · intro h
    cases h with
    | shared => exact absurd rfl hne
    | cell ha' hb' h =>
      cases ha.symm.trans ha'
      cases hb.symm.trans hb'
      exact h
  · exact .cell ha hb

/-- Different slots are equal if their types and their contents are. -/
theorem equal_slots {s : Store} {i j : Nat} {a b : Allocation} (hne : i ≠ j)
    (ha : s.get? i = some a) (hb : s.get? j = some b) :
    s.Equal (.handle .slot (some i)) (.handle .slot (some j)) ↔
      a.role.content = b.role.content ∧ s.Equal a.content b.content := by
  constructor
  · intro h
    cases h with
    | shared => exact absurd rfl hne
    | slot ha' hb' ht h =>
      cases ha.symm.trans ha'
      cases hb.symm.trans hb'
      exact ⟨ht, h⟩
  · exact fun h => .slot ha hb h.1 h.2

/-- Nodes of one meaning and size are equal if their parts are. -/
theorem equal_nodes {s : Store} {shape shape' : Shape} {parts parts' : List Value}
    (hm : shape.meaning = shape'.meaning) (hl : parts.length = parts'.length) :
    s.Equal (.node shape parts) (.node shape' parts') ↔
      ∀ (i : Nat) (v u : Value), parts[i]? = some v → parts'[i]? = some u → s.Equal v u := by
  constructor
  · intro h
    cases h with
    | node _ _ h => exact h
  · exact .node hm hl

/-- A value equals itself unless there is a NaN outside of what its handles point at. -/
theorem equal_self_iff {s s' : Store} {v : Value} :
    s.Equal v v ↔ ∀ x : Scalar, s'.Occurs (fun _ => false) v (.scalar x) → x.isNaN = false := by
  induction v using Value.induction with
  | scalar x =>
    simp only [occurs_scalar, Value.scalar.injEq, forall_eq]
    constructor
    · intro h
      cases h with
      | scalar h => simpa [Scalar.equals_self] using h
    · intro h
      exact .scalar (by simp [Scalar.equals_self, h])
  | probe p => simp [occurs_probe, Equal.probe]
  | handle k target =>
    cases target with
    | none => simp [occurs_absent, Equal.absent]
    | some id => simp [occurs_handle, Equal.shared]
  | node shape parts ih =>
    simp only [occurs_node, reduceCtorEq, false_or, equal_nodes rfl rfl]
    constructor
    · rintro h x ⟨v, hv, hx⟩
      obtain ⟨i, hi⟩ := List.mem_iff_getElem?.mp hv
      exact (ih v hv).mp (h i v v hi hi) x hx
    · intro h i v u hv hu
      cases hv.symm.trans hu
      have hm : v ∈ parts := List.mem_of_getElem? hv
      exact (ih v hm).mpr fun x hx => h x ⟨v, hm, hx⟩

end Store

section comparing

variable {s : Store} {follow : HandleKind → Bool} {through : HandleKind → Nat → Nat → Run Bool}

/-- Nodes of one meaning and size have the same places. -/
theorem Place.parts_unique {p : Place} {shape shape' : Shape} {n : Nat} {ps ps' : List Place}
    (hm : shape.meaning = shape'.meaning) (h : p.parts shape n = some ps)
    (h' : p.parts shape' n = some ps') : ps = ps' := by
  rcases Shape.eq_or_map hm with rfl | ⟨levels, levels', rfl, rfl⟩
  · exact Option.some.inj (h.symm.trans h')
  · cases p with
    | entry k v => cases h
    | value t => cases t <;> simp_all [Place.parts]

/-- The action answers whether the values are equal, and meets no probes but those of the first one
that are reached through the handles to be followed. -/
def Decides (s : Store) (follow : HandleKind → Bool) (v u : Value) (act : Run Bool) : Prop :=
  Answers s .eq (fun q => s.Occurs follow v (.probe q)) act fun b => b = true ↔ s.Equal v u

namespace Decides

theorem never {v u : Value} (h : ¬s.Equal v u) : Decides s follow v u (pure false) :=
  .pure ⟨fun e => absurd e Bool.false_ne_true, fun e => absurd e h⟩

theorem always {v u : Value} (h : s.Equal v u) : Decides s follow v u (pure true) :=
  .pure ⟨fun _ => h, fun _ => rfl⟩

theorem scalar (x y : Scalar) : Decides s follow (.scalar x) (.scalar y) (pure (x.equals y)) := by
  apply Answers.pure
  constructor
  · exact .scalar
  · intro h
    cases h with
    | scalar h => exact h

theorem probe (p q : Probe) :
    Decides s follow (.probe p) (.probe q) (do Run.callHook .eq p; pure (p.id == q.id)) := by
  apply Answers.bind (Answers.callHook (Store.Occurs.refl _))
  intro _ _
  apply Answers.pure
  rw [beq_iff_eq]
  constructor
  · exact .probe
  · intro h
    cases h with
    | probe h => exact h

end Decides

/-- Comparing part by part. -/
theorem answers_partsEqualWith {vs us : List Value} (hl : vs.length = us.length)
    (h : ∀ (i : Nat) (v u : Value), vs[i]? = some v → us[i]? = some u →
      Decides s follow v u (v.equalsWith through u)) :
    Answers s .eq (fun q => ∃ v ∈ vs, s.Occurs follow v (.probe q)) (Value.partsEqualWith through vs us)
      fun b => b = true ↔
        ∀ (i : Nat) (v u : Value), vs[i]? = some v → us[i]? = some u → s.Equal v u := by
  induction vs generalizing us with
  | nil =>
    cases us with
    | nil =>
      simp only [Value.partsEqualWith]
      exact .pure ⟨fun _ _ _ _ hv _ => by simp at hv, fun _ => rfl⟩
    | cons u us => cases hl
  | cons v vs ih =>
    cases us with
    | nil => cases hl
    | cons u us =>
      rw [Value.partsEqualWith]
      have hhead : Decides s follow v u (v.equalsWith through u) := h 0 v u rfl rfl
      have hl' : vs.length = us.length := by simpa using hl
      have htail := ih hl' fun i v u hv hu => h (i + 1) v u hv hu
      apply Answers.bind (hhead.mono (fun q hq => ⟨v, by simp, hq⟩) fun _ hb => hb)
      intro b hb
      cases b with
      | false =>
        have hne : ¬s.Equal v u := fun he => Bool.false_ne_true (hb.mpr he)
        exact .pure ⟨fun h => absurd h Bool.false_ne_true,
          fun hall => absurd (hall 0 v u rfl rfl) hne⟩
      | true =>
        apply htail.mono
        · rintro q ⟨x, hx, hq⟩
          exact ⟨x, by simp [hx], hq⟩
        · intro b hb'
          rw [hb']
          constructor
          · intro hall i x y hx hy
            cases i with
            | zero =>
              cases hx
              cases hy
              exact hb.mp rfl
            | succ i => exact hall i x y hx hy
          · exact fun hall i x y hx hy => hall (i + 1) x y hx hy

/-- Nodes of one meaning and size are compared part by part. -/
theorem Decides.node {shape shape' : Shape} {parts parts' : List Value}
    (hm : shape.meaning = shape'.meaning) (hl : parts.length = parts'.length)
    (h : ∀ (i : Nat) (v u : Value), parts[i]? = some v → parts'[i]? = some u →
      Decides s follow v u (v.equalsWith through u)) :
    Decides s follow (.node shape parts) (.node shape' parts')
      (Value.partsEqualWith through parts parts') := by
  apply (answers_partsEqualWith hl h).mono
  · rintro q ⟨v, hv, hq⟩
    exact hq.part hv
  · intro b hb
    rw [hb, Store.equal_nodes hm hl]

/-- Comparing values decides their equality if comparing allocations does. -/
theorem decides_equalsWith {p : Place} {v u : Value} (hv : s.Live p v) (hu : s.Live p u)
    (hf : ∀ (p : Place) (k : HandleKind) (i j : Nat), i ≠ j → ⟨k, i⟩ ∈ v.handles →
      s.Live p (.handle k (some i)) → s.Live p (.handle k (some j)) →
      Decides s follow (.handle k (some i)) (.handle k (some j)) (through k i j)) :
    Decides s follow v u (v.equalsWith through u) := by
  induction v using Value.induction generalizing p u with
  | scalar x =>
    cases u with
    | scalar y =>
      rw [Value.equalsWith]
      exact .scalar x y
    | _ =>
      simp only [Value.equalsWith]
      exact .never (by intro h; cases h)
  | probe q =>
    cases u with
    | probe q' =>
      rw [Value.equalsWith]
      exact .probe q q'
    | _ =>
      simp only [Value.equalsWith]
      exact .never (by intro h; cases h)
  | handle k target =>
    obtain ⟨t, rfl, hk, -⟩ := hv.fits
    cases u with
    | handle k' target' =>
      obtain ⟨_, ⟨⟩, hk', -⟩ := hu.fits
      cases hk.symm.trans hk'
      cases target with
      | none =>
        cases target' with
        | none =>
          rw [Value.equalsWith]
          exact .always .absent
        | some j =>
          simp only [Value.equalsWith]
          exact .never (by intro h; cases h)
      | some i =>
        cases target' with
        | none =>
          simp only [Value.equalsWith]
          exact .never (by intro h; cases h)
        | some j =>
          rw [Value.equalsWith]
          by_cases e : i = j
          · subst e
            rw [if_pos rfl]
            exact .always .shared
          · rw [if_neg e]
            exact hf _ k i j e (by simp [Value.handles]) hv hu
    | _ =>
      cases target <;> simp only [Value.equalsWith] <;> exact .never (by intro h; cases h)
  | node shape parts ih =>
    cases u with
    | node shape' parts' =>
      rw [Value.equalsWith]
      by_cases e : shape.meaning = shape'.meaning ∧ parts.length = parts'.length
      · rw [if_pos e]
        apply Decides.node e.1 e.2
        intro i x y hx hy
        obtain ⟨ps, q, hps, hq, hx'⟩ := hv.part hx
        obtain ⟨ps', q', hps', hq', hy'⟩ := hu.part hy
        cases Place.parts_unique e.1 hps (e.2 ▸ hps')
        cases hq.symm.trans hq'
        have hm : x ∈ parts := List.mem_of_getElem? hx
        apply ih x hm hx' hy'
        intro p k a b hne hh
        exact hf p k a b hne (Value.mem_handles_node hm hh)
      · rw [if_neg e]
        apply Decides.never
        intro h
        cases h with
        | node hm hl _ => exact e ⟨hm, hl⟩
    | _ =>
      simp only [Value.equalsWith]
      exact .never (by intro h; cases h)

/-- Two different allocations are compared as they should be, if there are enough hops for the first
one. -/
theorem decides_equalThrough (hs : s.Orderly) {rank : Nat → Nat}
    (hr : ∀ x y, s.Owns x y → y < s.next → rank y < rank x) (hops : Nat) :
    ∀ (p : Place) (k : HandleKind) (i j : Nat), i ≠ j → rank i < hops →
      s.Live p (.handle k (some i)) → s.Live p (.handle k (some j)) →
      Decides s HandleKind.transparent (.handle k (some i)) (.handle k (some j))
        (Value.equalThrough hops k i j) := by
  induction hops with
  | zero => exact fun _ _ _ _ _ h => absurd h (Nat.not_lt_zero _)
  | succ hops ih =>
    intro p k i j hne hlt hi hj
    have hcontent : ∀ a b, s.get? i = some a → s.get? j = some b → a.role.content = b.role.content →
        Decides s HandleKind.transparent a.content b.content
          (a.content.equalsWith (Value.equalThrough hops) b.content) := by
      intro a b ha hb e
      apply decides_equalsWith (hs.content ha) (e ▸ hs.content hb)
      intro p k x y hne hh
      have hdown := hr i x ⟨a, ha, _, hh, rfl⟩ (hs.closed i a ha _ hh).lt_next
      exact ih p k x y hne (by omega)
    cases k with
    | object | callable =>
      simp only [Value.equalThrough]
      apply Decides.never
      intro h
      cases h
      exact hne rfl
    | cell =>
      obtain ⟨elem, a, rfl, ha, hra⟩ := hi.cell
      obtain ⟨_, b, ⟨⟩, hb, hrb⟩ := hj.cell
      simp only [Value.equalThrough]
      apply Answers.read ha (by rw [hra]; rfl)
      apply Answers.read hb (by rw [hrb]; rfl)
      rw [hra, hrb]
      apply (hcontent a b ha hb (by rw [hra, hrb])).mono
      · exact fun q hq => hq.behind rfl ha
      · intro c hc
        rw [hc, Store.equal_cells hne ha hb]
    | slot =>
      obtain ⟨a, table, type, ha, hra⟩ := hi.slot
      obtain ⟨b, table', type', hb, hrb⟩ := hj.slot
      have hta := hs.tables i a table type ha hra
      have htb := hs.tables j b table' type' hb hrb
      simp only [Value.equalThrough]
      apply Answers.read ha (by rw [hra]; rfl)
      apply Answers.read hb (by rw [hrb]; rfl)
      rw [hra, hrb]
      dsimp only [Table.equalsWith]
      rw [hta, htb]
      by_cases e : type = type'
      · subst e
        rw [if_pos rfl, if_pos ⟨rfl, rfl⟩]
        have he : a.role.content = b.role.content := by rw [hra, hrb]; rfl
        apply (hcontent a b ha hb he).mono
        · exact fun q hq => hq.behind rfl ha
        · intro c hc
          rw [hc, Store.equal_slots hne ha hb, and_iff_right he]
      · rw [if_neg e]
        apply Decides.never
        rw [Store.equal_slots hne ha hb, hra, hrb]
        exact fun h => e h.1

/-- Comparing two values of a type decides their equality. -/
theorem decides_equals (hs : s.Orderly) {t : Ty} {v u : Value} (hv : s.Live (.value t) v)
    (hu : s.Live (.value t) u) : Decides s HandleKind.transparent v u (v.equals u) := by
  obtain ⟨rank, hr, hlt⟩ := hs.acyclic.exists_rank
  apply Answers.ofHops (f := fun hops => v.equalsWith (Value.equalThrough hops) u)
  apply decides_equalsWith hv hu
  intro p k i j hne hh
  exact decides_equalThrough hs hr _ p k i j hne (hlt i (hv.alive _ hh).lt_next)

/-- To compare a value with itself, no handle is followed. -/
theorem decides_equals_self (v : Value) : Decides s (fun _ => false) v v (v.equals v) := by
  apply Answers.ofHops (f := fun hops => v.equalsWith (Value.equalThrough hops) v)
  induction v using Value.induction with
  | scalar x =>
    rw [Value.equalsWith]
    exact Decides.scalar x x
  | probe p =>
    rw [Value.equalsWith]
    exact Decides.probe p p
  | handle k target =>
    cases target with
    | none =>
      rw [Value.equalsWith]
      exact Decides.always .absent
    | some id =>
      rw [Value.equalsWith, if_pos rfl]
      exact Decides.always .shared
  | node shape parts ih =>
    rw [Value.equalsWith, if_pos ⟨rfl, rfl⟩]
    apply Decides.node rfl rfl
    intro i v u hv hu
    cases hv.symm.trans hu
    exact ih v (List.mem_of_getElem? hv)

end comparing

section cloning

theorem Value.eq_of_copyParts (shape : Shape) {vs : List Value}
    (h : ∀ v ∈ vs, ∀ (c : Value) (w w' : World), v.copyWith .shallow share w = .ok c w' → c = v)
    {done cs : List Value} {w w' : World}
    (hc : copyParts .shallow share shape done vs w = .ok cs w') : cs = done ++ vs := by
  induction vs generalizing done w with
  | nil =>
    rw [copyParts] at hc
    cases hc
    simp
  | cons v vs ih =>
    rw [copyParts] at hc
    obtain ⟨c, w₁, hv, hrest⟩ := Run.exists_of_bind_ok hc
    have e := h v (by simp) c w w₁ (Run.ok_of_unwinding hv)
    subst e
    have := ih (fun u hu => h u (by simp [hu])) hrest
    simpa using this

/-- A clone is the same value: it holds the same handles. -/
theorem Value.eq_of_clone {v c : Value} {w w' : World} (h : v.clone w = .ok c w') : c = v := by
  rw [clone] at h
  induction v using Value.induction generalizing c w w' with
  | scalar x =>
    rw [copyWith] at h
    cases h
    rfl
  | probe p =>
    rw [copyWith] at h
    obtain ⟨_, w₁, -, h⟩ := Run.exists_of_bind_ok h
    cases h
    rfl
  | handle k target =>
    cases target with
    | none =>
      rw [copyWith] at h
      cases h
      rfl
    | some id =>
      rw [copyWith] at h
      obtain ⟨i, w₁, hs, h⟩ := Run.exists_of_bind_ok h
      obtain ⟨_, w₂, -, hs⟩ := Run.exists_of_bind_ok hs
      cases hs
      cases h
      rfl
  | node shape parts ih =>
    rw [copyWith] at h
    obtain ⟨cs, w₁, hs, h⟩ := Run.exists_of_bind_ok h
    have e := eq_of_copyParts shape (fun v hv c w w' => ih v hv) hs
    cases h
    rw [e]
    rfl

/-- A clone is made unless one of the probes of the value refuses. -/
theorem Value.clone_cases {v : Value} {w : World} (hv : ∀ h ∈ v.handles, w.store.Alive h) :
    (∃ w', v.clone w = .ok v w') ∨
      ∃ p ∈ v.probes, ∃ w', p.boom = some .clone ∧
        v.clone w = .error (.panic (.refused .clone p)) w' := by
  have h := v.clones w hv
  unfold Run.Clones at h
  cases hc : v.copyWith .shallow share w with
  | ok c w' =>
    have e : c = v := eq_of_clone hc
    exact .inl ⟨w', e ▸ hc⟩
  | error e w' =>
    rw [hc] at h
    obtain ⟨p, hp, hb, rfl⟩ := h
    exact .inr ⟨p, hp, w', hb, hc⟩

/-- A handle equals its shares, whatever is behind it. -/
theorem Value.handle_equals_self (k : HandleKind) (target : Option Nat) (w : World) :
    (Value.handle k target).equals (.handle k target) w = .ok true w := by
  cases target with
  | none => rfl
  | some id =>
    rw [Value.equals, Run.bind_get, Value.equalsWith, if_pos rfl]
    rfl

end cloning

/-- Equality is a partial equivalence on the values of a type. In an orderly store comparing decides
the relation, unless a probe on the way refuses; the same answer is given the other way round, and
what equals a value equals what that one equals. A value equals its clone if and only if there is no
NaN outside of what its handles point at, so handles equal their shares whatever is behind them. -/
theorem equality_partial_equivalence {s : Store} (hs : s.Orderly) {t : Ty} {v u x : Value}
    (hv : s.Live (.value t) v) (hu : s.Live (.value t) u) (hx : s.Live (.value t) x) :
    (Answers s .eq (s.Meets v) (v.equals u) fun b => b = true ↔ s.Equal v u) ∧
      (∀ w w' b, w.store = s → v.equals u w = .ok b w' →
        Answers s .eq (s.Meets u) (u.equals v) (· = b)) ∧
      (∀ w w' z z', w.store = s → z.store = s → v.equals u w = .ok true w' →
        u.equals x z = .ok true z' → Answers s .eq (s.Meets v) (v.equals x) (· = true)) ∧
      (∀ w, w.store = s →
        (∃ c w', v.clone w = .ok c w' ∧
          Answers w'.store .eq (· ∈ v.probes) (v.equals c) fun b => b = true ↔
            ∀ y, s.Occurs (fun _ => false) v (.scalar y) → y.isNaN = false) ∨
        ∃ p ∈ v.probes, ∃ w', p.boom = some .clone ∧
          v.clone w = .error (.panic (.refused .clone p)) w') ∧
      ∀ k target w, (Value.handle k target).equals (.handle k target) w = .ok true w := by
  refine ⟨decides_equals hs hv hu, ?_, ?_, ?_, ?_⟩
  · intro w w' b hw hb
    have hvu := (decides_equals hs hv hu).fits_of_ok hw hb
    apply (decides_equals hs hu hv).mono fun _ h => h
    intro c hc
    rw [Bool.eq_iff_iff, hc, hvu]
    exact ⟨.symm, .symm⟩
  · intro w w' z z' hw hz hb hb'
    have hvu := ((decides_equals hs hv hu).fits_of_ok hw hb).mp rfl
    have hux := ((decides_equals hs hu hx).fits_of_ok hz hb').mp rfl
    apply (decides_equals hs hv hx).mono fun _ h => h
    exact fun c hc => hc.mpr (hvu.trans hux)
  · rintro w rfl
    rcases Value.clone_cases hv.alive with ⟨w', hc⟩ | h
    · left
      refine ⟨v, w', hc, ?_⟩
      apply (decides_equals_self v).mono
      · exact fun p hp => Store.occurs_probe_iff.mp hp
      · intro b hb
        rw [hb]
        exact Store.equal_self_iff
    · exact .inr h
  · exact Value.handle_equals_self

/-- Three pairs of a cell with the same number and a shared cell with a NaN. -/
theorem equality_partial_equivalence_shared_nan :
    let t : Ty := .tuple (.cell (.int .i32)) (.tuple (.cell .float64) .unit)
    let five : Datum := .list [.record [("ref", .int 5)], .record [("$var", .text "n")]]
    let steps : List Step :=
      [.define (some "n") (.cell .float64) (.record [("ref", .text "7ff8000000000000")]),
        .define (some "a") t five, .define (some "b") t five, .define (some "c") t five]
    let w := Machine.after false steps
    let pair (i : Nat) : Value := .node .tuple [.handle .cell (some i), .handle .cell (some 0)]
    w.store.get? 0 = some ⟨.cell .float64, .scalar (.float64 0x7ff8000000000000), 4⟩ ∧
      w.store.Orderly ∧ w.store.Live (.value t) (pair 1) ∧ w.store.Live (.value t) (pair 2) ∧
      w.store.Live (.value t) (pair 3) ∧
      (pair 1).equals (pair 2) w = .ok true w ∧ (pair 2).equals (pair 3) w = .ok true w ∧
      Answers w.store .eq (w.store.Meets (pair 2)) ((pair 2).equals (pair 1)) (· = true) ∧
      Answers w.store .eq (w.store.Meets (pair 1)) ((pair 1).equals (pair 3)) (· = true) := by
  intro t five steps w pair
  have hstore : w.store =
      ⟨#[some ⟨.cell .float64, .scalar (.float64 0x7ff8000000000000), 4⟩,
        some ⟨.cell (.int .i32), .int 5, 1⟩, some ⟨.cell (.int .i32), .int 5, 1⟩,
        some ⟨.cell (.int .i32), .int 5, 1⟩]⟩ := by
    simp only [w, steps, t, five]
    cbv
  have hb : w.bindings = [("a", ⟨t, pair 1⟩), ("b", ⟨t, pair 2⟩), ("c", ⟨t, pair 3⟩),
      ("n", ⟨.cell .float64, .handle .cell (some 0)⟩)] := by
    simp only [w, steps, t, five, pair]
    cbv
  have hw : w.Settled := Machine.settled_after false steps
  have hs : w.store.Orderly := hw.orderly (Store.acyclic_of_lt (by rw [hstore]; decide))
  have h₁ : w.store.Live (.value t) (pair 1) := hw.live (show w.find? "a" = some ⟨t, pair 1⟩ by
    rw [World.find?, hb]
    rfl)
  have h₂ : w.store.Live (.value t) (pair 2) := hw.live (show w.find? "b" = some ⟨t, pair 2⟩ by
    rw [World.find?, hb]
    rfl)
  have h₃ : w.store.Live (.value t) (pair 3) := hw.live (show w.find? "c" = some ⟨t, pair 3⟩ by
    rw [World.find?, hb]
    rfl)
  have e₁ : (pair 1).equals (pair 2) w = .ok true w := by
    simp only [w, steps, t, five, pair]
    cbv
  have e₂ : (pair 2).equals (pair 3) w = .ok true w := by
    simp only [w, steps, t, five, pair]
    cbv
  obtain ⟨-, hsymm, htrans, -⟩ := equality_partial_equivalence hs h₁ h₂ h₃
  exact ⟨by rw [hstore]; rfl, hs, h₁, h₂, h₃, e₁, e₂, hsymm w w true rfl e₁,
    htrans w w w w rfl rfl e₁ e₂⟩

end SharedValues
