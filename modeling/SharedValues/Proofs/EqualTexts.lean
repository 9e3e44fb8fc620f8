import Mathlib
import SharedValues.Proofs.Duplicates
import SharedValues.Proofs.Erasure
import SharedValues.Proofs.Rendering

/-!
Equal values have the same text. The two zeros of a float format are the only scalars that are equal
and are written differently, so this holds of all values in which no zero is found.
-/
namespace SharedValues

section scalars

namespace Decimal.FloatFormat

variable (f : FloatFormat)

/-- One of the two zeros. -/
def isZero (bits : Nat) : Bool :=
  match f.magnitude bits with
  | .finite 0 _ => true
  | _ => false

/-- A number has one bit pattern, unless it is zero. -/
theorem eq_of_equal {a b : Nat} (h : f.equal a b) (hz : f.isZero a = false) : a = b := by
  unfold equal at h
  unfold isZero at hz
  split at h
  · cases h
  · cases h
  · next ha _ => simp [ha] at hz
  · simpa using h

end Decimal.FloatFormat

namespace Scalar

/-- A zero of one of the float formats. -/
def isZero : Scalar → Bool
  | .float32 bits => Decimal.FloatFormat.single.isZero bits.toNat
  | .float64 bits => Decimal.FloatFormat.double.isZero bits.toNat
  | _ => false

theorem eq_of_equals {x y : Scalar} (h : x.equals y) (hz : x.isZero = false) : x = y := by
  cases x with
  | float32 a =>
    cases y with
    | float32 b => exact congrArg _ (UInt32.toNat_inj.mp (Decimal.FloatFormat.eq_of_equal _ h hz))
    | _ => simp [equals] at h
  | float64 a =>
    cases y with
    | float64 b => exact congrArg _ (UInt64.toNat_inj.mp (Decimal.FloatFormat.eq_of_equal _ h hz))
    | _ => simp [equals] at h
  | _ => cases y <;> simp_all [equals]

example : (Scalar.float64 0).equals (.float64 0x8000000000000000) ∧
    (Scalar.float64 0).display ≠ (Scalar.float64 0x8000000000000000).display := by
  decide

end Scalar

end scalars

namespace Store

variable {s : Store} {v u : Value}

/-- No zero is found by looking through the value. -/
def FreeOfZeros (s : Store) (v : Value) : Prop :=
  ∀ x : Scalar, s.Occurs HandleKind.transparent v (.scalar x) → x.isZero = false

/-- Equal values have the same text. It is enough that the first one is free of zeros. -/
theorem Equal.shows (h : s.Equal v u) (hz : s.FreeOfZeros v) {text : String}
    (ht : s.Shows v text) : s.Shows u text := by
  induction h generalizing text with
  | scalar h => exact Scalar.eq_of_equals h (hz _ (.refl _)) ▸ ht
  | @probe p q h =>
    cases ht with
    | probe =>
      rw [h]
      exact .probe q
  | absent | shared => exact ht
  | cell ha hb _ ih | slot ha hb _ _ ih =>
    cases ht with
    | behind hk ha' ht =>
      cases ha.symm.trans ha'
      exact .behind hk hb (ih (fun x hx => hz x (hx.behind hk ha)) ht)
  | @node shape shape' parts parts' hm hl _ ih =>
    cases ht with
    | @node _ _ texts hl' ht =>
      rw [Shape.brackets_eq hm]
      apply Shows.node (hl.symm.trans hl')
      intro i y t hy htext
      have hlt : i < parts.length := hl ▸ (List.getElem?_eq_some_iff.mp hy).1
      have hx : parts[i]? = some parts[i] := List.getElem?_eq_getElem hlt
      apply ih i _ y hx hy _ (ht i _ t hx htext)
      exact fun z hz' => hz z (hz'.part (List.mem_of_getElem? hx))

/-- Equal slots hold values of the same type, or nothing. -/
theorem Equal.erasedType (hs : s.Orderly) {p : Place} {target target' : Option Nat}
    (hv : s.Live p (.handle .slot target)) (hu : s.Live p (.handle .slot target'))
    (h : s.Equal (.handle .slot target) (.handle .slot target')) {w : World} (hw : w.store = s) :
    ∃ type, Erased.type? target w = .ok type w ∧ Erased.type? target' w = .ok type w := by
  cases target with
  | none =>
    cases h
    exact ⟨none, rfl, rfl⟩
  | some i =>
    obtain ⟨a, table, type, ha, hra⟩ := hv.slot
    have hi := Erased.type?_of_get? (hw ▸ ha) hra
    cases h with
    | shared => exact ⟨_, hi, hi⟩
    | slot ha' hb ht _ =>
      cases ha.symm.trans ha'
      obtain ⟨b, table', type', hb', hrb⟩ := hu.slot
      cases hb.symm.trans hb'
      have hj := Erased.type?_of_get? (hw ▸ hb) hrb
      have e : table'.type = table.type := by
        rw [hs.tables _ _ _ _ ha hra, hs.tables _ _ _ _ hb hrb]
        rw [hra, hrb] at ht
        exact ht.symm
      exact ⟨_, hi, e ▸ hj⟩

end Store

/-- Equal values have the same text. If no probe refuses, comparing two values of a type comes to an
answer; if they are equal and the first one is free of zeros, both are rendered, and to the same text.
Slots that are equal hold values of the same type. Nothing is said of NaNs: a value that holds one may
equal another through an allocation that they share, and is then written the same way. Hashed maps are
covered because their entries are kept in ascending order of the keys; the order in which such a map
gives them out is otherwise left open. -/
theorem equal_values_same_text {s : Store} (hs : s.Orderly) {t : Ty} {v u : Value}
    (hv : s.Live (.value t) v) (hu : s.Live (.value t) u) (hz : s.FreeOfZeros v)
    (hq : ∀ q, s.Meets v q ∨ s.Meets u q → q.boom ≠ some .eq ∧ q.boom ≠ some .render) {w : World}
    (hw : w.store = s) :
    ∃ (b : Bool) (es : List Event), v.equals u w = .ok b (w.recordAll es) ∧
      (b = true ↔ s.Equal v u) ∧
      (b = true →
        (∃ (text : String) (es₁ es₂ : List Event), v.toText w = .ok text (w.recordAll es₁) ∧
          u.toText w = .ok text (w.recordAll es₂)) ∧
        ∀ target target', v = .handle .slot target → u = .handle .slot target' →
          ∃ type, Erased.type? target w = .ok type w ∧ Erased.type? target' w = .ok type w) := by
  obtain ⟨es, ⟨b, hb, hfits⟩ | ⟨q, hm, hboom, -⟩⟩ := decides_equals hs hv hu w hw
  · refine ⟨b, es, hb, hfits, fun hb' => ⟨?_, ?_⟩⟩
    · have he : s.Equal v u := hfits.mp hb'
      obtain ⟨text, ht⟩ := hs.exists_shows hv.alive
      have hrv : ∀ q, s.Meets v q → q.boom ≠ some .render := fun q h => (hq q (.inl h)).2
      have hru : ∀ q, s.Meets u q → q.boom ≠ some .render := fun q h => (hq q (.inr h)).2
      obtain ⟨es₁, h₁⟩ := (answers_toText hs hv.alive ht).ok_of_consent hrv hw
      obtain ⟨es₂, h₂⟩ := (answers_toText hs hu.alive (he.shows hz ht)).ok_of_consent hru hw
      exact ⟨text, es₁, es₂, h₁, h₂⟩
    · rintro target target' rfl rfl
      exact (hfits.mp hb').erasedType hs hv hu hw
  · exact absurd hboom (hq q (.inl hm)).1

/-- Two slots with a cell of the same number each and a share of one cell with a NaN. -/
theorem equal_values_same_text_shared_nan :
    let t : Ty := .list (.cell .float64)
    let five : Datum :=
      .list [.record [("ref", .text "4014000000000000")], .record [("$var", .text "n")]]
    let steps : List Step :=
      [.define (some "n") (.cell .float64) (.record [("ref", .text "7ff8000000000000")]),
        .new (some "a") t five, .new (some "b") t five]
    let w := Machine.after false steps
    let v : Value := .handle .slot (some 2)
    let u : Value := .handle .slot (some 4)
    (w.store.Orderly ∧ w.store.Live (.value .erased) v ∧ w.store.Live (.value .erased) u ∧
      w.store.FreeOfZeros v ∧
      ∀ q, w.store.Meets v q ∨ w.store.Meets u q → q.boom ≠ some .eq ∧ q.boom ≠ some .render) ∧
    v.equals u w = .ok true w ∧
    (∃ (text : String) (es₁ es₂ : List Event), v.toText w = .ok text (w.recordAll es₁) ∧
      u.toText w = .ok text (w.recordAll es₂)) ∧
    ∃ type, Erased.type? (some 2) w = .ok type w ∧ Erased.type? (some 4) w = .ok type w := by
  intro t five steps w v u
  let content (i : Nat) : Value := .node .sequence [.handle .cell (some i), .handle .cell (some 0)]
  have hstore : w.store =
      ⟨#[some ⟨.cell .float64, .scalar (.float64 0x7ff8000000000000), 3⟩,
        some ⟨.cell .float64, .scalar (.float64 0x4014000000000000), 1⟩,
        some ⟨.slot ⟨0, t⟩ t, content 1, 1⟩,
        some ⟨.cell .float64, .scalar (.float64 0x4014000000000000), 1⟩,
        some ⟨.slot ⟨0, t⟩ t, content 3, 1⟩]⟩ := by
    simp only [w, steps, t, five, content]
    cbv
  have hb : w.bindings = [("a", ⟨.erased, v⟩), ("b", ⟨.erased, u⟩),
      ("n", ⟨.cell .float64, .handle .cell (some 0)⟩)] := by
    simp only [w, steps, t, five, v, u]
    cbv
  have hw : w.Settled := Machine.settled_after false steps
  have hs : w.store.Orderly := hw.orderly (Store.acyclic_of_lt (by rw [hstore]; decide))
  have hv : w.store.Live (.value .erased) v := hw.live (show w.find? "a" = some ⟨.erased, v⟩ by
    rw [World.find?, hb]
    rfl)
  have hu : w.store.Live (.value .erased) u := hw.live (show w.find? "b" = some ⟨.erased, u⟩ by
    rw [World.find?, hb]
    rfl)
  have hz : w.store.FreeOfZeros v := by
    intro x hx
    rw [hstore] at hx
    have hx' : x = .float64 0x4014000000000000 ∨ x = .float64 0x7ff8000000000000 := by
      simpa [v, content, Store.occurs_handle, Store.occurs_node, Store.occurs_scalar, Store.get?,
        HandleKind.transparent] using hx
    rcases hx' with rfl | rfl
    · decide
    · decide
  have hq : ∀ q, w.store.Meets v q ∨ w.store.Meets u q →
      q.boom ≠ some .eq ∧ q.boom ≠ some .render := by
    rintro q (h | h)
    · exact ⟨h.consents (by decide) (by rw [hstore]; decide),
        h.consents (by decide) (by rw [hstore]; decide)⟩
    · exact ⟨h.consents (by decide) (by rw [hstore]; decide),
        h.consents (by decide) (by rw [hstore]; decide)⟩
  have he : v.equals u w = .ok true w := by
    simp only [w, steps, t, five, v, u]
    cbv
  obtain ⟨b, es, hb', -, htext⟩ := equal_values_same_text hs hv hu hz hq rfl
  obtain ⟨rfl, -⟩ := EStateM.Result.ok.inj (he.symm.trans hb')
  obtain ⟨hsame, htypes⟩ := htext rfl
  exact ⟨⟨hs, hv, hu, hz, hq⟩, he, hsame, htypes (some 2) (some 4) rfl rfl⟩

end SharedValues
