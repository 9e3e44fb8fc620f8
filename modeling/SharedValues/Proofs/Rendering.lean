import Mathlib
import SharedValues.Proofs.Texts

/-!
How values are written. One rule for each kind of value says what its text is, in terms of the texts
of what it holds. By these rules every live value of an orderly store has exactly one text, and
rendering the value onto any text appends it, unless a probe on the way refuses.
-/
namespace SharedValues

/-- The value reads as the text. Tuples, which no type with a text holds, are written without any mark
of their own. -/
inductive Store.Reads (s : Store) : Value → String → Prop where
  | scalar (x : Scalar) : Reads s (.scalar x) x.display
  | string (text : String) : Reads s (.text text) text
  | absent : Reads s (.node .none []) "nil"
  | present {v : Value} {text : String} (h : Reads s v text) : Reads s (.node .some [v]) text
  | boxed {v : Value} {text : String} (h : Reads s v text) : Reads s (.node .box [v]) text
  | nilCell : Reads s (.handle .cell none) "nil"
  | cell {id : Nat} {a : Allocation} {text : String} (ha : s.get? id = some a)
    (h : Reads s a.content text) : Reads s (.handle .cell (some id)) text
  | emptySlot : Reads s (.handle .slot none) "0"
  | slot {id : Nat} {a : Allocation} {text : String} (ha : s.get? id = some a)
    (h : Reads s a.content text) : Reads s (.handle .slot (some id)) text
  | nilObject : Reads s (.handle .object none) "nil"
  | object (id : Nat) : Reads s (.handle .object (some id)) (addressText id)
  | function (target : Option Nat) : Reads s (.handle .callable target) "<fn>"
  | sequence {vs : List Value} {texts : List String} (hl : vs.length = texts.length)
    (h : ∀ (i : Nat) (v : Value) (text : String), vs[i]? = some v → texts[i]? = some text →
      Reads s v text) :
    Reads s (.node .sequence vs) ("[" ++ " ".intercalate texts ++ "]")
  | entry {k v : Value} {key text : String} (hk : Reads s k key) (hv : Reads s v text) :
    Reads s (.entry k v) (key ++ ":" ++ text)
  | map {levels : List Nat} {es : List Value} {texts : List String} (hl : es.length = texts.length)
    (h : ∀ (i : Nat) (e : Value) (text : String), es[i]? = some e → texts[i]? = some text →
      Reads s e text) :
    Reads s (.node (.map levels) es) ("\x7b" ++ ", ".intercalate texts ++ "\x7d")
  | probe (p : Probe) : Reads s (.probe p) ("probe" ++ toString p.id)
  | meters {v : Value} {text : String} (h : Reads s v text) :
    Reads s (.node .meters [v]) (text ++ "m")
  | feet {v : Value} {text : String} (h : Reads s v text) :
    Reads s (.node .feet [v]) (text ++ "ft")
  | cat {v : Value} {text : String} (h : Reads s v text) : Reads s (.node .cat [v]) ("Cat#" ++ text)
  | counter {v : Value} {text : String} (h : Reads s v text) : Reads s (.node .counter [v]) text
  | dog {name tricks : Value} {t t' : String} (h : Reads s name t) (h' : Reads s tricks t') :
    Reads s (.node .dog [name, tricks]) ("Dog(" ++ t ++ " " ++ t' ++ ")")
  | inventory {owner items stock : Value} {t t' t'' : String} (h : Reads s owner t)
    (h' : Reads s items t') (h'' : Reads s stock t'') :
    Reads s (.node .inventory [owner, items, stock]) (t ++ "/" ++ t' ++ "/" ++ t'')
  | variant {x : Variant} {v : Value} {text : String} (h : Reads s v text) :
    Reads s (.node (.variant x) [v]) text
  | tuple {vs : List Value} {texts : List String} (hl : vs.length = texts.length)
    (h : ∀ (i : Nat) (v : Value) (text : String), vs[i]? = some v → texts[i]? = some text →
      Reads s v text) :
    Reads s (.node .tuple vs) ("".intercalate texts)

/-- How many parts the nodes of a shape have, if the shape says it. -/
def Shape.arity? (shape : Shape) : Option Nat :=
  match shape with
  | .none => Option.some 0
  | .some | .box | .meters | .feet | .cat | .counter | .variant _ => Option.some 1
  | .entry | .dog => Option.some 2
  | .inventory => Option.some 3
  | .sequence | .tuple | .map _ => Option.none

theorem Place.length_parts {p : Place} {shape : Shape} {size n : Nat} {ps : List Place}
    (h : p.parts shape size = some ps) (hn : shape.arity? = some n) : ps.length = n := by
  unfold Place.parts at h
  split at h <;> grind [Shape.arity?]

theorem Store.Live.length_eq {s : Store} {p : Place} {shape : Shape} {parts : List Value} {n : Nat}
    (h : s.Live p (.node shape parts)) (hn : shape.arity? = some n) : parts.length = n := by
  obtain ⟨ps, hps, hf⟩ := h.fits
  rw [← fitAll_length hf]
  exact Place.length_parts hps hn

namespace Store

variable {s : Store}

/-- Parts and their texts, one by one. -/
theorem forall₂_of_getElem? {R : Value → String → Prop} {vs : List Value} {texts : List String}
    (hl : vs.length = texts.length)
    (h : ∀ (i : Nat) (v : Value) (text : String), vs[i]? = some v → texts[i]? = some text →
      R v text) : List.Forall₂ R vs texts := by
  refine List.forall₂_iff_get.mpr ⟨hl, fun i hi hi' => ?_⟩
  exact h i _ _ (List.getElem?_eq_getElem hi) (List.getElem?_eq_getElem hi')

theorem Shows.of_parts {shape : Shape} {parts : List Value} {texts : List String} {text : String}
    (h : List.Forall₂ s.Shows parts texts)
    (e : shape.brackets.opening ++ shape.brackets.separator.intercalate texts ++
      shape.brackets.closing = text) : s.Shows (.node shape parts) text := by
  obtain ⟨hl, hget⟩ := List.forall₂_iff_get.mp h
  rw [← e]
  refine .node hl fun i v text hv ht => ?_
  obtain ⟨hi, rfl⟩ := List.getElem?_eq_some_iff.mp hv
  obtain ⟨hi', rfl⟩ := List.getElem?_eq_some_iff.mp ht
  exact hget i hi hi'

/-- The text that a value reads as is the one that it shows. -/
theorem Reads.shows {v : Value} {text : String} (h : s.Reads v text) : s.Shows v text := by
  induction h with
  | scalar x => exact .scalar x
  | string text => exact .scalar (.text text)
  | probe p => exact .probe p
  | nilCell => exact .absent .cell
  | emptySlot => exact .absent .slot
  | nilObject => exact .absent .object
  | object id => exact .object id
  | function target =>
    cases target with
    | none => exact .absent .callable
    | some id => exact .callable id
  | cell ha _ ih | slot ha _ ih => exact .behind rfl ha ih
  | sequence hl _ ih | map hl _ ih => exact .node hl ih
  | tuple hl _ ih => exact .of_parts (forall₂_of_getElem? hl ih) (by simp [Shape.brackets])
  | absent => exact .of_parts .nil (by simp [Shape.brackets])
  | present _ ih | boxed _ ih | meters _ ih | feet _ ih | cat _ ih | counter _ ih | variant _ ih =>
    exact .of_parts (.cons ih .nil) (by simp [Shape.brackets])
  | entry _ _ ih ih' | dog _ _ ih ih' =>
    exact .of_parts (.cons ih (.cons ih' .nil)) (by simp [Shape.brackets, String.append_assoc])
  | inventory _ _ _ ih ih' ih'' =>
    exact .of_parts (.cons ih (.cons ih' (.cons ih'' .nil)))
      (by simp [Shape.brackets, String.append_assoc])

/-- A node with as many parts as its shape asks for reads as the texts of the parts between its
brackets. -/
theorem Reads.of_parts {shape : Shape} {parts : List Value} {texts : List String}
    (hn : ∀ n, shape.arity? = some n → parts.length = n) (hl : parts.length = texts.length)
    (h : ∀ (i : Nat) (v : Value) (text : String), parts[i]? = some v → texts[i]? = some text →
      s.Reads v text) :
    s.Reads (.node shape parts)
      (shape.brackets.opening ++ shape.brackets.separator.intercalate texts ++
        shape.brackets.closing) := by
  have hf := forall₂_of_getElem? hl h
  cases shape with
  | sequence => exact .sequence hl h
  | map levels => exact .map hl h
  | tuple => simpa [Shape.brackets] using Reads.tuple hl h
  | none =>
    obtain rfl := List.length_eq_zero_iff.mp (hn 0 rfl)
    cases hf
    exact .absent
  | some | box | meters | feet | cat | counter | variant x =>
    obtain ⟨v, rfl⟩ := List.length_eq_one_iff.mp (hn 1 rfl)
    obtain _ | ⟨hv, _ | _⟩ := hf
    simp only [Shape.brackets, String.intercalate_singleton, String.empty_append,
      String.append_empty]
    constructor
    exact hv
  | entry | dog =>
    obtain ⟨v, v', rfl⟩ := List.length_eq_two.mp (hn 2 rfl)
    obtain _ | ⟨hv, _ | ⟨hv', _ | _⟩⟩ := hf
    simp only [Shape.brackets, String.intercalate_cons_cons, String.intercalate_singleton,
      String.empty_append, String.append_empty, ← String.append_assoc]
    constructor
    · exact hv
    · exact hv'
  | inventory =>
    obtain ⟨v, v', v'', rfl⟩ := List.length_eq_three.mp (hn 3 rfl)
    obtain _ | ⟨hv, _ | ⟨hv', _ | ⟨hv'', _ | _⟩⟩⟩ := hf
    simp only [Shape.brackets, String.intercalate_cons_cons, String.intercalate_singleton,
      String.empty_append, String.append_empty, ← String.append_assoc]
    exact .inventory hv hv' hv''

/-- The text that a live value shows is the one that it reads as. -/
theorem Shows.reads (hs : s.Orderly) {p : Place} {v : Value} {text : String} (h : s.Shows v text)
    (hv : s.Live p v) : s.Reads v text := by
  induction h generalizing p with
  | scalar x => exact .scalar x
  | probe q => exact .probe q
  | absent k =>
    cases k with
    | slot => exact .emptySlot
    | cell => exact .nilCell
    | object => exact .nilObject
    | callable => exact .function none
  | object id => exact .object id
  | callable id => exact .function (some id)
  | @behind k id a text hk ha _ ih =>
    cases k with
    | slot => exact .slot ha (ih (hs.content ha))
    | cell => exact .cell ha (ih (hs.content ha))
    | object | callable => cases hk
  | node hl _ ih =>
    refine .of_parts (fun n hn => hv.length_eq hn) hl fun i v text hi ht => ?_
    obtain ⟨_, _, -, -, hpart⟩ := hv.part hi
    exact ih i v text hi ht hpart

/-- No probe that is met refuses where no probe does, met or not. -/
theorem Meets.consents {k : Hook} {v : Value} {q : Probe} (h : s.Meets v q)
    (held : ∀ p ∈ v.probes, p.boom ≠ some k)
    (stored : ∀ id < s.next, ∀ a ∈ s.get? id, ∀ p ∈ a.content.probes, p.boom ≠ some k) :
    q.boom ≠ some k := by
  obtain ⟨path, h⟩ := h
  generalize hx : Value.probe q = x at h
  induction h with
  | here =>
    subst hx
    exact held q (by simp [Value.probes])
  | part hi _ ih =>
    refine ih (fun p hp => held p ?_) hx
    rw [Value.probes]
    exact Value.mem_probesOf.mpr ⟨_, List.mem_of_getElem? hi, hp⟩
  | behind _ ha _ ih => exact ih (stored _ (lt_next_of_get? ha) _ ha) hx

end Store

/-- An action that only a refusing probe can stop comes to its answer if none refuses. -/
theorem Answers.ok_of_consent {α : Type} {s : Store} {k : Hook} {met : Probe → Prop} {act : Run α}
    {a : α} (h : Answers s k met act (· = a)) (hc : ∀ q, met q → q.boom ≠ some k) {w : World}
    (hw : w.store = s) : ∃ es : List Event, act w = .ok a (w.recordAll es) := by
  obtain ⟨es, ⟨b, hb, rfl⟩ | ⟨q, hq, hboom, -⟩⟩ := h w hw
  · exact ⟨es, hb⟩
  · exact absurd hboom (hc q hq)

theorem HasType.array_inv {s : Store} {elem : Ty} {size : Nat} {shape : Shape} {parts : List Value}
    (h : HasType s (.array elem size) (.node shape parts)) : shape = .sequence := by
  obtain ⟨ps, hps, -⟩ := h
  cases shape <;> simp only [Place.parts, reduceCtorEq] at hps
  rfl

/-- A box is written as what is in it. -/
theorem Value.render_box (v : Value) : (Value.node .box [v]).render = v.render := by
  funext out
  simp only [render, renderWith, renderParts, Shape.brackets, String.append_empty, bind_pure]

/-- Every live value of an orderly store reads as exactly one text. Rendering the value appends that
text to whatever it is given, unless a probe refuses to be rendered, and nothing changes but the trace.
A list and an array with the same elements are written alike, with a box around them or without. -/
theorem render_appends_reading {s : Store} (hs : s.Orderly) :
    (∀ p v, s.Live p v → ∃ text, s.Reads v text ∧ (∀ text', s.Reads v text' → text' = text) ∧
      ((∀ q, s.Meets v q → q.boom ≠ some .render) → ∀ w : World, w.store = s →
        (∀ out, ∃ es : List Event, v.render out w = .ok (out ++ text) (w.recordAll es)) ∧
        ∃ es : List Event, v.toText w = .ok text (w.recordAll es))) ∧
    ∀ elem size shape shape' parts, HasType s (.list elem) (.node shape parts) →
      HasType s (.array elem size) (.node shape' parts) →
      (Value.node shape' parts).render = (Value.node shape parts).render ∧
      (Value.node .box [.node shape parts]).render = (Value.node shape parts).render ∧
      (Value.node .box [.node shape' parts]).render = (Value.node shape parts).render := by
  refine ⟨fun p v hv => ?_, fun elem size shape shape' parts hlist harray => ?_⟩
  · obtain ⟨text, hshows⟩ := hs.exists_shows hv.alive
    refine ⟨text, hshows.reads hs hv, fun text' h => h.shows.unique hshows, fun hc w hw => ⟨?_, ?_⟩⟩
    · exact fun out => (answers_render hs hv.alive hshows out).ok_of_consent hc hw
    · exact (answers_toText hs hv.alive hshows).ok_of_consent hc hw
  · obtain ⟨rfl, -⟩ := fits_list.mp hlist
    obtain rfl := harray.array_inv
    exact ⟨rfl, Value.render_box _, Value.render_box _⟩

/-- A map of lists of cells: one cell holds a probe in a slot, one an empty slot, and one is missing. -/
theorem render_appends_reading_map :
    let t : Ty := .sortedMap .string (.list (.option (.cell .erased)))
    let var (name : String) : Datum := .record [("$var", .text name)]
    let ref (d : Datum) : Datum := .record [("ref", d)]
    let present (d : Datum) : Datum := .record [("some", d)]
    let steps : List Step :=
      [.new (some "a") .probe (.int 5), .define (some "c") (.cell .erased) (ref (var "a")),
        .define (some "v") t (.list [.list [.text "n", .list []],
          .list [.text "k", .list [present (var "c"), present (ref .null), .null]]])]
    let w := Machine.after false steps
    let cells : Value := .node .sequence [.node .some [.handle .cell (some 1)],
      .node .some [.handle .cell (some 2)], .node .none []]
    let v : Value :=
      .node (.map [0, 0]) [.entry (.text "k") cells, .entry (.text "n") (.node .sequence [])]
    let flags : Value := .node .sequence [.scalar (.bool true)]
    let text := "\x7bk:[probe5 0 nil], n:[]\x7d"
    (w.store.Orderly ∧ w.store.Live (.value t) v ∧
      ∀ q, w.store.Meets v q → q.boom ≠ some .render) ∧
    w.store.Reads v text ∧
    (∀ out, ∃ es : List Event, v.render out w = .ok (out ++ text) (w.recordAll es)) ∧
    HasType w.store (.list .bool) flags ∧ HasType w.store (.array .bool 1) flags ∧
    (Value.node .box [flags]).render = flags.render := by
  intro t var ref present steps w cells v flags text
  have hstore : w.store = ⟨#[some ⟨.slot ⟨0, .probe⟩ .probe, .probe ⟨5, none⟩, 2⟩,
      some ⟨.cell .erased, .handle .slot (some 0), 2⟩,
      some ⟨.cell .erased, .handle .slot none, 1⟩]⟩ := by
    simp only [w, steps, t, var, ref, present]
    cbv
  have hb : w.find? "v" = some ⟨t, v⟩ := by
    simp only [w, steps, t, var, ref, present, v, cells]
    cbv
  have htext : ∃ u, v.toText w = .ok text u := by
    refine ⟨w.recordAll [.hook .render ⟨5, none⟩], ?_⟩
    simp only [w, steps, t, var, ref, present, v, cells, text]
    cbv
  have hw : w.Settled := Machine.settled_after false steps
  have hv : w.store.Live (.value t) v := hw.live hb
  have hs : w.store.Orderly := hw.orderly (Store.acyclic_of_lt (by rw [hstore]; decide))
  have hc : ∀ q, w.store.Meets v q → q.boom ≠ some .render := fun q hq =>
    hq.consents (by decide) (by rw [hstore]; decide)
  obtain ⟨hreads, hlists⟩ := render_appends_reading hs
  obtain ⟨text', hr, -, happend⟩ := hreads _ v hv
  obtain ⟨hrender, es, hes⟩ := happend hc w rfl
  obtain ⟨u, hu⟩ := htext
  cases hu.symm.trans hes
  have hflag : HasType w.store .bool (.scalar (.bool true)) := hasType_scalar.mpr rfl
  have hlist : HasType w.store (.list .bool) flags := ⟨_, rfl, hflag, trivial⟩
  have harray : HasType w.store (.array .bool 1) flags := ⟨_, rfl, hflag, trivial⟩
  obtain ⟨-, hbox, -⟩ := hlists .bool 1 _ _ _ hlist harray
  exact ⟨⟨hs, hv, hc⟩, hr, hrender, hlist, harray, hbox⟩

end SharedValues
