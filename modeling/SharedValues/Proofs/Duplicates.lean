import Mathlib
import SharedValues.Proofs.ObjectStates

/-!
A deep copy has the same value as its source. It stands in a relation to its source that says what
is at every owned position: the same scalars and probes, the same slots and functions, and new cells
and objects of the same roles. From the relation alone follow the text of the copy, when it equals
its source, the keys of its maps, and what its objects show.
-/
namespace SharedValues

/-- Nodes of one meaning are written with the same brackets. -/
theorem Shape.brackets_eq {shape shape' : Shape} (h : shape'.meaning = shape.meaning) :
    shape'.brackets = shape.brackets := by
  rcases eq_or_map h with rfl | ⟨levels, levels', rfl, rfl⟩
  · rfl
  · rfl

namespace Store

/-- The second value, in the second store, is a deep copy of the first value in the first store. -/
inductive Duplicates (s s' : Store) : Value → Value → Prop where
  | scalar (x : Scalar) : Duplicates s s' (.scalar x) (.scalar x)
  | probe (p : Probe) : Duplicates s s' (.probe p) (.probe p)
  | absent (k : HandleKind) : Duplicates s s' (.handle k none) (.handle k none)
  | shared {k : HandleKind} (hk : k.owning = false) (id : Nat) :
    Duplicates s s' (.handle k (some id)) (.handle k (some id))
  | owned {k : HandleKind} {i j : Nat} {a b : Allocation} (hk : k.owning = true)
    (ha : s.get? i = some a) (hj : s.next ≤ j) (hb : s'.get? j = some b) (hr : b.role = a.role)
    (h : Duplicates s s' a.content b.content) :
    Duplicates s s' (.handle k (some i)) (.handle k (some j))
  | node {shape shape' : Shape} {parts parts' : List Value}
    (hm : shape'.meaning = shape.meaning) (hl : parts'.length = parts.length)
    (h : ∀ (i : Nat) (v c : Value), parts[i]? = some v → parts'[i]? = some c →
      Duplicates s s' v c) :
    Duplicates s s' (.node shape parts) (.node shape' parts')

theorem Encloses.part {s : Store} {shape : Shape} {parts : List Value} {v : Value} {id : Nat}
    (hv : v ∈ parts) (h : s.Encloses v id) : s.Encloses (.node shape parts) id :=
  h.mono fun _ hx => Value.mem_handles_node hv hx

/-- Values that mirror others are duplicates of them, if all that they own is new. -/
theorem Mirrors.duplicates {s s' : Store} {vs cs : List Value} (h : Mirrors s s' vs cs)
    (hnew : ∀ c ∈ cs, ∀ id, s'.Encloses c id → s.next ≤ id) :
    List.Forall₂ (Duplicates s s') vs cs := by
  induction h with
  | nil => exact .nil
  | @scalar x _ _ _ ih => exact .cons (.scalar x) (ih fun c hc => hnew c (by simp [hc]))
  | @probe p _ _ _ ih => exact .cons (.probe p) (ih fun c hc => hnew c (by simp [hc]))
  | @absent k _ _ _ ih => exact .cons (.absent k) (ih fun c hc => hnew c (by simp [hc]))
  | @shared k id _ _ hk _ ih => exact .cons (.shared hk id) (ih fun c hc => hnew c (by simp [hc]))
  | @owned k i j a b vs cs hk ha hb hr _ ih =>
    have hself : s'.Encloses (.handle k (some j)) j := .handle hk
    have hall : List.Forall₂ (Duplicates s s') (a.content :: vs) (b.content :: cs) := by
      apply ih
      intro c hc id hid
      rcases List.mem_cons.mp hc with rfl | hc
      · exact hnew _ (by simp) id (hself.trans hb hid)
      · exact hnew c (by simp [hc]) id hid
    cases hall with
    | cons hcontent hrest =>
      exact .cons (.owned hk ha (hnew _ (by simp) j hself) hb hr hcontent) hrest
  | @node shape shape' parts parts' vs cs hm hl _ ih =>
    have hall : List.Forall₂ (Duplicates s s') (parts ++ vs) (parts' ++ cs) := by
      apply ih
      intro c hc id hid
      rcases List.mem_append.mp hc with hc | hc
      · exact hnew (.node shape' parts') (by simp) id (hid.part hc)
      · exact hnew c (by simp [hc]) id hid
    have hparts := List.forall₂_take_append _ _ _ hall
    have hrest := List.forall₂_drop_append _ _ _ hall
    rw [hl, List.take_left] at hparts
    rw [hl, List.drop_left] at hrest
    refine .cons (.node hm hl ?_) hrest
    intro i v c hv hc
    obtain ⟨hi, rfl⟩ := List.getElem?_eq_some_iff.mp hv
    obtain ⟨hi', rfl⟩ := List.getElem?_eq_some_iff.mp hc
    exact (List.forall₂_iff_get.mp hparts).2 i hi hi'

namespace Duplicates

variable {s s' : Store} {v c : Value}

/-- What stands at an owned position of the value is duplicated at the same position of the copy. -/
theorem at_path (h : Duplicates s s' v c) {path : List Nat} {x : Value}
    (hx : s.At HandleKind.owning v path x) :
    ∃ y, s'.At HandleKind.owning c path y ∧ Duplicates s s' x y := by
  induction h generalizing path with
  | @owned k i j a b hk ha hj hb hr h ih =>
    cases hx with
    | here => exact ⟨_, .here, .owned hk ha hj hb hr h⟩
    | behind _ ha' hx =>
      cases ha.symm.trans ha'
      obtain ⟨y, hy, hd⟩ := ih hx
      exact ⟨y, .behind hk hb hy, hd⟩
  | @node shape shape' parts parts' hm hl h ih =>
    cases hx with
    | here => exact ⟨_, .here, .node hm hl h⟩
    | @part _ _ i u _ _ hi hx =>
      have hlt : i < parts'.length := hl ▸ (List.getElem?_eq_some_iff.mp hi).1
      have hi' : parts'[i]? = some parts'[i] := List.getElem?_eq_getElem hlt
      obtain ⟨y, hy, hd⟩ := ih i u _ hi hi' hx
      exact ⟨y, .part hi' hy, hd⟩
  | shared hk id =>
    cases hx with
    | here => exact ⟨_, .here, .shared hk id⟩
    | behind hk' => exact absurd hk' (by simp [hk])
  | scalar x =>
    cases hx
    exact ⟨_, .here, .scalar x⟩
  | probe p =>
    cases hx
    exact ⟨_, .here, .probe p⟩
  | absent k =>
    cases hx
    exact ⟨_, .here, .absent k⟩

/-- Without handles, copy and source are the same data. -/
theorem data_eq (h : Duplicates s s' v c) (hv : v.handles = []) : c.data = v.data := by
  induction h with
  | shared _ id => simp [Value.handles] at hv
  | owned => simp [Value.handles] at hv
  | @node shape shape' parts parts' hm hl _ ih =>
    rw [Value.data, Value.data, hm, Value.dataOf_eq_map, Value.dataOf_eq_map]
    congr 1
    apply List.ext_getElem (by simpa using hl)
    intro i hi hi'
    rw [List.getElem_map, List.getElem_map]
    rw [List.length_map] at hi hi'
    apply ih i _ _ (List.getElem?_eq_getElem hi') (List.getElem?_eq_getElem hi)
    apply List.eq_nil_iff_forall_not_mem.mpr
    intro x hx
    have hx' : x ∈ (Value.node shape parts).handles :=
      Value.mem_handles_node (List.getElem_mem hi') hx
    simp [hv] at hx'
  | scalar | probe | absent => rfl

/-- The same is found in a deep copy, if there are only cells in the value, and no handles in them. -/
theorem look_eq (h : Duplicates s s' v c)
    (hv : ∀ y ∈ v.handles, y.kind = .cell ∧
      ∀ a, s.get? y.target = some a → a.content.handles = []) :
    s'.look c = s.look v := by
  induction h with
  | scalar x => rw [look_scalar, look_scalar]
  | probe p => rw [look_probe, look_probe]
  | absent k => rw [look_absent, look_absent]
  | @shared k hk id =>
    obtain ⟨rfl, -⟩ := hv ⟨k, id⟩ (by simp [Value.handles])
    cases hk
  | @owned k i j a b hk ha hj hb hr hc _ =>
    obtain ⟨hcell, hbare⟩ := hv ⟨k, i⟩ (by simp [Value.handles])
    cases hcell
    rw [look_cell ha, look_cell hb, hc.data_eq (hbare a ha)]
  | @node shape shape' parts parts' hm hl _ ih =>
    rw [look_node, look_node, hm]
    congr 1
    refine List.ext_getElem (by simp [hl]) fun i hi hi' => ?_
    rw [List.length_map] at hi hi'
    rw [List.getElem_map, List.getElem_map]
    refine ih i _ _ (List.getElem?_eq_getElem hi') (List.getElem?_eq_getElem hi) fun y hy => hv y ?_
    exact Value.mem_handles_node (List.getElem_mem hi') hy

/-- A copy without objects has the text of its source. -/
theorem shows (h : Duplicates s s' v c) (hp : s.Persists s')
    (ho : ∀ id, ¬s.Occurs HandleKind.owning v (.handle .object (some id))) {text : String}
    (ht : s.Shows v text) : s'.Shows c text := by
  induction h generalizing text with
  | scalar | probe | absent | shared => exact ht.persist hp
  | @owned k i j a b hk ha hj hb hr _ ih =>
    cases ht with
    | object => exact absurd (.refl _) (ho i)
    | callable => cases hk
    | behind hk' ha' ht =>
      cases ha.symm.trans ha'
      exact .behind hk' hb (ih (fun id hid => ho id (hid.behind hk ha)) ht)
  | @node shape shape' parts parts' hm hl _ ih =>
    cases ht with
    | @node _ _ texts hl' ht =>
      rw [← Shape.brackets_eq hm]
      apply Shows.node (hl.trans hl')
      intro i c text hc htext
      have hlt : i < parts.length := hl ▸ (List.getElem?_eq_some_iff.mp hc).1
      have hv : parts[i]? = some parts[i] := List.getElem?_eq_getElem hlt
      apply ih i _ c hv hc _ (ht i _ text hv htext)
      exact fun id hid => ho id (hid.part (List.mem_of_getElem? hv))

/-- A copy equals its source unless there is a NaN or an object on an owned path. -/
theorem equal_iff (h : Duplicates s s' v c) (hp : s.Persists s') :
    s'.Equal c v ↔ (∀ x, s.Occurs HandleKind.owning v (.scalar x) → x.isNaN = false) ∧
      ∀ id, ¬s.Occurs HandleKind.owning v (.handle .object (some id)) := by
  induction h with
  | scalar x =>
    simp only [occurs_scalar, Value.scalar.injEq, forall_eq, reduceCtorEq, not_false_eq_true,
      implies_true, and_true]
    constructor
    · intro h
      cases h with
      | scalar h => simpa [Scalar.equals_self] using h
    · intro h
      exact .scalar (by simp [Scalar.equals_self, h])
  | probe p => simp [occurs_probe, Equal.probe]
  | absent k => simp [occurs_absent, Equal.absent]
  | @shared k hk id =>
    have hne : k ≠ .object := by
      rintro rfl
      cases hk
    simp [occurs_handle, hk, Equal.shared, hne.symm]
  | @owned k i j a b hk ha hj hb hr h ih =>
    have hne : j ≠ i := by
      have := lt_next_of_get? ha
      omega
    cases k with
    | slot | callable => cases hk
    | object =>
      constructor
      · intro h
        cases h
        exact absurd rfl hne
      · exact fun h => absurd (.refl _) (h.2 i)
    | cell =>
      obtain ⟨a', ha', -, hc⟩ := hp i a ha
      rw [equal_cells hne hb ha', hc, ih]
      simp [occurs_handle, hk, ha]
  | @node shape shape' parts parts' hm hl h ih =>
    rw [equal_nodes hm hl]
    simp only [occurs_node, reduceCtorEq, false_or, not_exists, not_and]
    constructor
    · intro hall
      have hpart : ∀ v ∈ parts, (∀ x, s.Occurs HandleKind.owning v (.scalar x) → x.isNaN = false) ∧
          ∀ id, ¬s.Occurs HandleKind.owning v (.handle .object (some id)) := by
        intro v hv
        obtain ⟨i, hi⟩ := List.mem_iff_getElem?.mp hv
        have hlt : i < parts'.length := hl ▸ (List.getElem?_eq_some_iff.mp hi).1
        have hc : parts'[i]? = some parts'[i] := List.getElem?_eq_getElem hlt
        exact (ih i v _ hi hc).mp (hall i _ v hc hi)
      exact ⟨fun x ⟨v, hv, hx⟩ => (hpart v hv).1 x hx, fun id v hv => (hpart v hv).2 id⟩
    · intro ⟨hn, ho⟩ i c v hc hv
      have hm : v ∈ parts := List.mem_of_getElem? hv
      exact (ih i v c hv hc).mpr ⟨fun x hx => hn x ⟨v, hm, hx⟩, fun id => ho id v hm⟩

/-- The copy of a node that is no map is a node of the same shape. -/
theorem node_inv {shape : Shape} {parts : List Value} (h : Duplicates s s' (.node shape parts) c)
    (hm : ∀ levels, shape ≠ .map levels) :
    ∃ parts', c = .node shape parts' ∧ List.Forall₂ (Duplicates s s') parts parts' := by
  cases h with
  | @node _ shape' _ parts' hmeaning hl h =>
    obtain rfl : shape' = shape := by
      rcases Shape.eq_or_map hmeaning with e | ⟨_, levels, -, e⟩
      · exact e
      · exact absurd e (hm levels)
    refine ⟨parts', rfl, List.forall₂_iff_get.mpr ⟨hl.symm, ?_⟩⟩
    intro i hi hi'
    exact h i _ _ (List.getElem?_eq_getElem hi) (List.getElem?_eq_getElem hi')

/-- The copy of a map is a map with copies of the keys in the same order, which are the same keys if
they hold no handles. -/
theorem map_inv {levels : List Nat} {entries : List Value}
    (h : Duplicates s s' (.node (.map levels) entries) c) :
    ∃ levels' entries', c = .node (.map levels') entries' ∧ entries'.length = entries.length ∧
      ∀ (i : Nat) key value, entries[i]? = some (.entry key value) →
        ∃ key' value', entries'[i]? = some (.entry key' value') ∧ Duplicates s s' key key' ∧
          (key.handles = [] → key'.data = key.data) := by
  cases h with
  | @node _ shape' _ entries' hm hl h =>
    cases shape' with
    | map levels' =>
      refine ⟨levels', entries', rfl, hl, ?_⟩
      intro i key value hi
      have hlt : i < entries'.length := hl ▸ (List.getElem?_eq_some_iff.mp hi).1
      have hi' : entries'[i]? = some entries'[i] := List.getElem?_eq_getElem hlt
      obtain ⟨parts, hparts, hall⟩ := (h i _ _ hi hi').node_inv (by simp)
      cases hall with
      | @cons _ key' _ _ hkey hall =>
        cases hall with
        | @cons _ value' _ _ _ hnil =>
          cases hnil
          exact ⟨key', value', by rw [hi', hparts]; rfl, hkey, hkey.data_eq⟩
    | _ => simp [Shape.meaning] at hm

end Duplicates

end Store

/-- The copy of an object is an object of the same interface and type, which shows the same. -/
theorem Store.Duplicates.object {w : World} {hand : Multiset Piece} {s' : Store} {c : Value}
    (hs : Config.Sound ⟨w, hand⟩) (hl : w.locks = []) (ho : s'.Orderly) {id : Nat}
    (ha : w.store.Alive ⟨.object, id⟩) (hp : w.store.Persists s')
    (h : w.store.Duplicates s' (.handle .object (some id)) c) :
    ∃ j, c = .handle .object (some j) ∧ ∀ z : World, z.store = s' → z.locks = [] →
      (∃ i type x y, Object.object? (some id) z = .ok (some (i, ⟨type, x⟩)) z ∧
        Object.object? (some j) z = .ok (some (i, ⟨type, y⟩)) z) ∧
      Object.view (some j) z = Object.view (some id) z := by
  cases h with
  | shared hk => cases hk
  | @owned _ _ j a b _ hg hj hb hr hdup =>
    obtain ⟨a', ha', hk⟩ := ha
    cases hg.symm.trans ha'
    cases hrole : a.role with
    | object i type =>
      refine ⟨j, rfl, ?_⟩
      rintro z rfl hz
      obtain ⟨d, hd, hdr, hdc⟩ := hp id a hg
      have hsource : w.store.IsObject id i type a.content := ⟨a, hg, hrole, rfl⟩
      have hkept : z.store.IsObject id i type a.content := ⟨d, hd, hdr.trans hrole, hdc⟩
      have hcopy : z.store.IsObject j i type b.content := ⟨b, hb, hr.trans hrole, rfl⟩
      have hlook : z.store.look b.content = z.store.look a.content := by
        rw [Store.look_persist hp (hsource.live hs hl).alive]
        refine hdup.look_eq fun y hy => ?_
        obtain ⟨hcell, e, he, -, hbare, -⟩ := hsource.cell hs hl hy
        refine ⟨hcell, fun e' he' => ?_⟩
        cases he.symm.trans he'
        exact hbare
      refine ⟨⟨i, type, _, _, hkept.object?, hcopy.object?⟩, ?_⟩
      rw [hkept.view, hcopy.view]
      exact (Interface.projects (hsource.accepts hs)).run_eq hz
        (hkept.live_of_closed ho.closed ho.typed) (hcopy.live_of_closed ho.closed ho.typed) hlook
    | _ => simp [hrole, Role.kind] at hk

/-- What a deep copy leaves: the copy duplicates its source, beside which it is in hand. -/
theorem Value.deepCopy_duplicates {w : World} {v : Value} {t : Ty} {kept : Multiset Piece}
    (hs : Config.Sound ⟨w, v.pieces + kept⟩) (hl : w.locks = []) (hac : w.store.Acyclic)
    (hv : HasType w.store t v) (hp : w.store.Consents .deep v) :
    ∃ c w', v.deepCopy w = .ok c w' ∧ w'.store.Orderly ∧ w'.store.Live (.value t) c ∧
      w'.store.Live (.value t) v ∧ w.store.Persists w'.store ∧ w.store.Duplicates w'.store v c := by
  have ha : ∀ h ∈ v.handles, w.store.Alive h := hs.alive_of_le (Multiset.le_add_right _ _)
  obtain ⟨c, w', he, hs', hl', hac', hnew, -⟩ := Value.deepCopy_apart hs hl hac hv hp
  obtain ⟨c', w'', he', hadd⟩ := v.adds_deepCopy (hs.closed hl) hac ha hp
  cases he.symm.trans he'
  have hacc := accounts_deepCopy (c := ⟨w, v.pieces + kept⟩) hl hv ha hs
  simp only [he] at hacc
  obtain ⟨_, hm, -, -, hct⟩ := hacc
  have hpersists := hadd.persists
  obtain ⟨-, -, -, hmir⟩ := hadd
  have hdup := hmir.duplicates fun x hx => by
    cases List.mem_singleton.mp hx
    exact hnew
  cases hdup with
  | cons hdup _ =>
    have hle : v.pieces ≤ c.pieces + (v.pieces + kept) :=
      (Multiset.le_add_right _ _).trans (Multiset.le_add_left _ _)
    exact ⟨c, w', he, hs'.orderly hl' hac', hs'.live hct (Multiset.le_add_right _ _),
      hs'.live (hv.evolve hm.evolves) hle, hpersists, hdup⟩

/-- A deep copy has the same value as its source. In a store without cycles, and if no probe on an
owned path refuses, the copy is made. It has the text of the source if there is no object on an owned
path, and its maps have the same keys. It equals the source if and only if there is neither a NaN nor
an object on an owned path. An object on an owned path becomes an object of the same interface and
type, which shows the same. -/
theorem deep_copy_same_value {w : World} {v : Value} {t : Ty} {kept : Multiset Piece}
    (hs : Config.Sound ⟨w, v.pieces + kept⟩) (hl : w.locks = []) (hac : w.store.Acyclic)
    (hv : HasType w.store t v) (hp : w.store.Consents .deep v) :
    ∃ c w', v.deepCopy w = .ok c w' ∧
      ((∀ id, ¬w.store.Occurs HandleKind.owning v (.handle .object (some id))) →
        ∃ text, ∀ out,
          Answers w.store .render (w.store.Meets v) (v.render out) (· = out ++ text) ∧
          Answers w'.store .render (w'.store.Meets c) (c.render out) (· = out ++ text)) ∧
      (∀ path levels entries,
        w.store.At HandleKind.owning v path (.node (.map levels) entries) →
        ∃ levels' entries', w'.store.At HandleKind.owning c path (.node (.map levels') entries') ∧
          entries'.length = entries.length ∧
          ∀ (i : Nat) key value, entries[i]? = some (.entry key value) →
            ∃ key' value', entries'[i]? = some (.entry key' value') ∧
              w.store.Duplicates w'.store key key' ∧
              (key.handles = [] → key'.data = key.data)) ∧
      (Answers w'.store .eq (w'.store.Meets c) (c.equals v) fun b => b = true ↔
        (∀ x, w.store.Occurs HandleKind.owning v (.scalar x) → x.isNaN = false) ∧
          ∀ id, ¬w.store.Occurs HandleKind.owning v (.handle .object (some id))) ∧
      ∀ path id, w.store.At HandleKind.owning v path (.handle .object (some id)) →
        ∃ j, w'.store.At HandleKind.owning c path (.handle .object (some j)) ∧
          ∀ z : World, z.store = w'.store → z.locks = [] →
            (∃ i type x y, Object.object? (some id) z = .ok (some (i, ⟨type, x⟩)) z ∧
              Object.object? (some j) z = .ok (some (i, ⟨type, y⟩)) z) ∧
            Object.view (some j) z = Object.view (some id) z := by
  have ho := hs.orderly hl hac
  have hlive := hs.live hv (Multiset.le_add_right _ _)
  obtain ⟨c, w', he, ho', hc, hv', hper, hdup⟩ := Value.deepCopy_duplicates hs hl hac hv hp
  refine ⟨c, w', he, ?_, ?_, ?_, ?_⟩
  · intro hobj
    obtain ⟨text, htext⟩ := ho.exists_shows hlive.alive
    refine ⟨text, fun out => ⟨answers_render ho hlive.alive htext out, ?_⟩⟩
    exact answers_render ho' hc.alive (hdup.shows hper hobj htext) out
  · intro path levels entries hat
    obtain ⟨y, hy, hmap⟩ := hdup.at_path hat
    obtain ⟨levels', entries', rfl, hkeys⟩ := hmap.map_inv
    exact ⟨levels', entries', hy, hkeys⟩
  · apply (decides_equals ho' hc hv').mono fun _ h => h
    intro b hb
    rw [hb, hdup.equal_iff hper]
  · intro path id hat
    obtain ⟨y, hy, hobj⟩ := hdup.at_path hat
    have ha := hat.alive ho.closed hlive.alive ⟨.object, id⟩ (by simp [Value.handles])
    obtain ⟨j, rfl, hj⟩ := hobj.object hs hl ho' ha hper
    exact ⟨j, hy, hj⟩

/-- A map with a cell under its only key, the same cell again, and a probe that only refuses to be
cloned. -/
theorem deep_copy_same_value_map :
    let t : Ty := .tuple (.sortedMap .string (.cell (.int .i32)))
      (.tuple (.cell (.int .i32)) (.tuple .probe .unit))
    let x : Datum := .record [("$var", .text "x")]
    let steps : List Step :=
      [.define (some "x") (.cell (.int .i32)) (.record [("ref", .int 7)]),
        .define (some "v") t (.list [.list [.list [.text "k", x]], x,
          .record [("id", .int 5), ("boom", .text "clone")]])]
    let w := Machine.after false steps
    let v : Value := .node .tuple
      [.node (.map [0]) [.entry (.text "k") (.handle .cell (some 0))], .handle .cell (some 0),
        .probe ⟨5, some .clone⟩]
    let kept := (Value.handle .cell (some 0)).pieces
    (Config.Sound ⟨w, v.pieces + kept⟩ ∧ w.locks = [] ∧ w.store.Acyclic ∧ HasType w.store t v ∧
      w.store.Consents .deep v) ∧
    ∃ c w', v.deepCopy w = .ok c w' ∧
      (∃ levels entries key value, w'.store.At HandleKind.owning c [0] (.node (.map levels) entries) ∧
        entries[0]? = some (.entry key value) ∧ key.data = .text "k") ∧
      (∃ text, ∀ out,
        Answers w.store .render (w.store.Meets v) (v.render out) (· = out ++ text) ∧
        Answers w'.store .render (w'.store.Meets c) (c.render out) (· = out ++ text)) ∧
      Answers w'.store .eq (w'.store.Meets c) (c.equals v) (· = true) := by
  intro t x steps w v kept
  have hstore : w.store = ⟨#[some ⟨.cell (.int .i32), .int 7, 3⟩]⟩ := by
    simp only [w, steps, t, x]
    cbv
  have hb : w.bindings = [("v", ⟨t, v⟩), ("x", ⟨.cell (.int .i32), .handle .cell (some 0)⟩)] := by
    simp only [w, steps, t, x, v]
    cbv
  have hw : w.Settled := Machine.settled_after false steps
  have howned : w.owned = v.pieces + kept := by
    simp only [World.owned, hb, List.map_cons, List.map_nil, Value.piecesOf_cons,
      Value.piecesOf_nil, add_zero, kept]
  have hs : Config.Sound ⟨w, v.pieces + kept⟩ := howned ▸ hw.sound
  have hac : w.store.Acyclic := Store.acyclic_of_lt (by rw [hstore]; decide)
  have hv : HasType w.store t v := hw.sound.bound ("v", ⟨t, v⟩) (by simp [hb])
  have hp : w.store.Consents .deep v := .of_probes (by decide) (by rw [hstore]; decide)
  have hmap : ∀ s : Store, s.At HandleKind.owning v [0]
      (.node (.map [0]) [.entry (.text "k") (.handle .cell (some 0))]) := fun s => .part rfl .here
  have hobject : ∀ id, ¬w.store.Occurs HandleKind.owning v (.handle .object (some id)) := by
    simp [v, Value.entry, Store.occurs_node, Store.occurs_handle, Store.occurs_probe,
      Store.occurs_scalar, hstore, Store.get?]
  have hnan : ∀ y, w.store.Occurs HandleKind.owning v (.scalar y) → y.isNaN = false := by
    intro y hy
    have hcases : y = .text "k" ∨ y = .int 7 := by
      simpa [v, Value.entry, Store.occurs_node, Store.occurs_handle, Store.occurs_probe,
        Store.occurs_scalar, hstore, Store.get?, HandleKind.owning] using hy
    rcases hcases with rfl | rfl
    · rfl
    · rfl
  obtain ⟨c, w', he, htext, hmaps, heq, -⟩ := deep_copy_same_value hs hw.locks hac hv hp
  refine ⟨⟨hs, hw.locks, hac, hv, hp⟩, c, w', he, ?_, htext hobject, ?_⟩
  · obtain ⟨levels, entries, hat, -, hkeys⟩ := hmaps [0] [0] _ (hmap _)
    obtain ⟨key, value, hi, -, hdata⟩ := hkeys 0 (.text "k") _ rfl
    exact ⟨levels, entries, key, value, hat, hi, hdata (by decide)⟩
  · apply heq.mono fun _ h => h
    exact fun b hb => hb.mpr ⟨hnan, hobject⟩

end SharedValues
