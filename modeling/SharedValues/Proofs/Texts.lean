import Mathlib
import SharedValues.Proofs.Positions

/-!
The text of a value as a relation. A node shows the texts of its parts between its brackets, divided
by its separator; slots and cells show what they hold, objects their address, functions a fixed word.
In an orderly store every value of a type has exactly one text, and rendering appends it, unless a
probe on the way refuses.
-/
namespace SharedValues

namespace Store

/-- The value has the text. -/
inductive Shows (s : Store) : Value → String → Prop where
  | scalar (x : Scalar) : Shows s (.scalar x) x.display
  | probe (p : Probe) : Shows s (.probe p) ("probe" ++ toString p.id)
  | absent (k : HandleKind) : Shows s (.handle k none) k.emptyText
  | object (id : Nat) : Shows s (.handle .object (some id)) (addressText id)
  | callable (id : Nat) : Shows s (.handle .callable (some id)) HandleKind.callable.emptyText
  | behind {k : HandleKind} {id : Nat} {a : Allocation} {text : String} (hk : k.transparent)
    (ha : s.get? id = some a) (h : Shows s a.content text) : Shows s (.handle k (some id)) text
  | node {shape : Shape} {parts : List Value} {texts : List String}
    (hl : parts.length = texts.length)
    (h : ∀ (i : Nat) (v : Value) (text : String), parts[i]? = some v → texts[i]? = some text →
      Shows s v text) :
    Shows s (.node shape parts)
      (shape.brackets.opening ++ shape.brackets.separator.intercalate texts ++ shape.brackets.closing)

/-- A value has at most one text. -/
theorem Shows.unique {s : Store} {v : Value} {text text' : String} (h : s.Shows v text)
    (h' : s.Shows v text') : text = text' := by
  induction h generalizing text' with
  | behind hk ha _ ih =>
    cases h' with
    | behind _ ha' h' =>
      cases ha.symm.trans ha'
      exact ih h'
    | object | callable => cases hk
  | @node shape parts texts hl _ ih =>
    cases h' with
    | @node _ _ texts' hl' h' =>
      have e : texts = texts' := by
        apply List.ext_getElem (hl.symm.trans hl')
        intro i hi hi'
        have hv : parts[i]? = some parts[i] := List.getElem?_eq_getElem (hl ▸ hi)
        have ht : texts[i]? = some texts[i] := List.getElem?_eq_getElem hi
        exact ih i _ _ hv ht (h' i _ _ hv (List.getElem?_eq_getElem hi'))
      rw [e]
  | object | callable =>
    cases h' with
    | behind hk => cases hk
    | _ => rfl
  | _ =>
    cases h'
    rfl

/-- A value keeps its text while the allocations stay. -/
theorem Shows.persist {s s' : Store} {v : Value} {text : String} (h : s.Shows v text)
    (hp : s.Persists s') : s'.Shows v text := by
  induction h with
  | scalar x => exact .scalar x
  | probe p => exact .probe p
  | absent k => exact .absent k
  | object id => exact .object id
  | callable id => exact .callable id
  | behind hk ha _ ih =>
    obtain ⟨b, hb, -, hc⟩ := hp _ _ ha
    exact .behind hk hb (hc ▸ ih)
  | node hl _ ih => exact .node hl ih

/-- A value has a text if what its handles lead to has one. -/
theorem exists_shows_of_contents {s : Store} {v : Value} (hv : ∀ h ∈ v.handles, s.Alive h)
    (h : ∀ x ∈ v.handles, ∀ a, s.get? x.target = some a → ∃ text, s.Shows a.content text) :
    ∃ text, s.Shows v text := by
  induction v using Value.induction with
  | scalar x => exact ⟨_, .scalar x⟩
  | probe p => exact ⟨_, .probe p⟩
  | handle k target =>
    cases target with
    | none => exact ⟨_, .absent k⟩
    | some id =>
      have hm : ⟨k, id⟩ ∈ (Value.handle k (some id)).handles := by simp [Value.handles]
      obtain ⟨a, ha, -⟩ := hv _ hm
      obtain ⟨text, ht⟩ := h _ hm a ha
      cases k with
      | slot | cell => exact ⟨text, .behind rfl ha ht⟩
      | object => exact ⟨_, .object id⟩
      | callable => exact ⟨_, .callable id⟩
  | node shape parts ih =>
    have htext : ∀ v ∈ parts, ∃ text, s.Shows v text := fun v hm =>
      ih v hm (fun x hx => hv x (Value.mem_handles_node hm hx)) fun x hx =>
        h x (Value.mem_handles_node hm hx)
    choose! text htext using htext
    have hl : parts.length = (parts.map text).length := by simp
    refine ⟨_, .node hl ?_⟩
    intro i v t hi ht
    rw [List.getElem?_map, hi, Option.map_some, Option.some.injEq] at ht
    rw [← ht]
    exact htext v (List.mem_of_getElem? hi)

/-- Where nothing owns itself, every value has a text. -/
theorem Orderly.exists_shows {s : Store} (hs : s.Orderly) {v : Value}
    (hv : ∀ h ∈ v.handles, s.Alive h) : ∃ text, s.Shows v text := by
  obtain ⟨rank, hr, -⟩ := hs.acyclic.exists_rank
  have hcontent : ∀ n id a, rank id < n → s.get? id = some a → ∃ text, s.Shows a.content text := by
    intro n
    induction n with
    | zero => exact fun _ _ h => absurd h (Nat.not_lt_zero _)
    | succ n ih =>
      intro id a hlt ha
      apply exists_shows_of_contents (hs.closed id a ha)
      intro x hx b hb
      have hdown := hr id x.target ⟨a, ha, x, hx, rfl⟩ (lt_next_of_get? hb)
      exact ih x.target b (by omega) hb
  apply exists_shows_of_contents hv
  exact fun x _ a ha => hcontent _ x.target a (Nat.lt_succ_self _) ha

end Store

section rendering

variable {s : Store} {through : HandleKind → Nat → String → Run String}

/-- The texts of parts are appended one by one, divided by the separator. -/
theorem answers_renderParts {separator : String} {vs : List Value} {texts : List String}
    (hl : vs.length = texts.length)
    (h : ∀ (i : Nat) (v : Value) (text : String), vs[i]? = some v → texts[i]? = some text →
      ∀ out, Answers s .render (s.Meets v) (v.renderWith through out) (· = out ++ text))
    (out : String) :
    Answers s .render (fun q => ∃ v ∈ vs, s.Meets v q)
      (Value.renderParts through separator vs out) (· = out ++ separator.intercalate texts) := by
  induction vs generalizing texts out with
  | nil =>
    cases texts with
    | nil =>
      rw [Value.renderParts]
      exact .pure (by simp)
    | cons => cases hl
  | cons v vs ih =>
    cases texts with
    | nil => cases hl
    | cons text texts =>
      have hhead : Answers s .render (fun q => ∃ u ∈ v :: vs, s.Meets u q)
          (v.renderWith through out) (· = out ++ text) :=
        (h 0 v text rfl rfl out).mono (fun q hq => ⟨v, by simp, hq⟩) fun _ h => h
      cases vs with
      | nil =>
        cases texts with
        | nil =>
          rw [Value.renderParts, String.intercalate_singleton]
          exact hhead
        | cons => simp at hl
      | cons u vs =>
        cases texts with
        | nil => simp at hl
        | cons text' texts =>
          rw [Value.renderParts, String.intercalate_cons_cons]
          · apply hhead.bind
            rintro _ rfl
            have htail := ih (by simpa using hl) (fun i v t hv ht => h (i + 1) v t hv ht)
              (out ++ text ++ separator)
            apply htail.mono
            · rintro q ⟨x, hx, hq⟩
              exact ⟨x, List.mem_cons_of_mem _ hx, hq⟩
            · rintro _ rfl
              simp only [String.append_assoc]
          · intro h
            cases h

/-- Rendering appends the text of the value if there are enough hops. -/
theorem answers_renderWith (hs : s.Orderly) {rank : Nat → Nat}
    (hr : ∀ x y, s.Owns x y → y < s.next → rank y < rank x) {v : Value} {text : String}
    (h : s.Shows v text) :
    ∀ (hops : Nat) (out : String), (∀ x ∈ v.handles, s.Alive x ∧ rank x.target < hops) →
      Answers s .render (s.Meets v) (v.renderWith (Value.renderThrough hops) out)
        (· = out ++ text) := by
  induction h with
  | scalar x =>
    intro hops out _
    rw [Value.renderWith]
    exact .pure rfl
  | probe p =>
    intro hops out _
    rw [Value.renderWith]
    apply Answers.bind (Answers.callHook (Store.Occurs.refl _))
    intro _ _
    exact .pure (by rw [String.append_assoc])
  | absent k =>
    intro hops out _
    rw [Value.renderWith]
    exact .pure rfl
  | object id =>
    intro hops out _
    rw [Value.renderWith]
    simp only [Value.renderThrough]
    exact .pure rfl
  | callable id =>
    intro hops out _
    rw [Value.renderWith]
    simp only [Value.renderThrough]
    exact .pure rfl
  | @behind k id a text hk ha _ ih =>
    intro hops out hv
    obtain ⟨⟨b, hb, hkind⟩, hlt⟩ := hv ⟨k, id⟩ (by simp [Value.handles])
    cases ha.symm.trans hb
    cases hops with
    | zero => exact absurd hlt (Nat.not_lt_zero _)
    | succ hops =>
      have hcontent : Answers s .render (s.Meets (.handle k (some id)))
          (a.content.renderWith (Value.renderThrough hops) out) (· = out ++ text) := by
        apply (ih hops out ?_).mono (fun q hq => hq.behind hk ha) fun _ h => h
        intro x hx
        have hx' := hs.closed id a ha x hx
        have hdown := hr id x.target ⟨a, ha, x, hx, rfl⟩ hx'.lt_next
        exact ⟨hx', by dsimp only at hlt; omega⟩
      rw [Value.renderWith]
      cases hrole : a.role with
      | slot table type =>
        rw [hrole] at hkind
        cases hkind
        simp only [Value.renderThrough]
        apply Answers.read ha (by rw [hrole]; rfl)
        rw [hrole]
        dsimp only [Table.renderWith]
        rw [if_pos (hs.tables id a table type ha hrole).symm]
        exact hcontent
      | cell elem =>
        rw [hrole] at hkind
        cases hkind
        simp only [Value.renderThrough]
        apply Answers.read ha (by rw [hrole]; rfl)
        rw [hrole]
        exact hcontent
      | object | callable =>
        rw [hrole] at hkind
        cases hkind
        cases hk
  | @node shape parts texts hl _ ih =>
    intro hops out hv
    rw [Value.renderWith]
    have hpart : ∀ (i : Nat) (v : Value) (text : String), parts[i]? = some v →
        texts[i]? = some text → ∀ out, Answers s .render (s.Meets v)
          (v.renderWith (Value.renderThrough hops) out) (· = out ++ text) := by
      intro i v text hi ht out
      apply ih i v text hi ht hops out
      exact fun x hx => hv x (Value.mem_handles_node (List.mem_of_getElem? hi) hx)
    apply Answers.bind
    · apply (answers_renderParts hl hpart _).mono
      · rintro q ⟨v, hv, hq⟩
        exact hq.part hv
      · exact fun _ h => h
    · rintro _ rfl
      exact .pure (by simp only [String.append_assoc])

/-- Rendering appends the text of the value. -/
theorem answers_render (hs : s.Orderly) {v : Value} (hv : ∀ h ∈ v.handles, s.Alive h)
    {text : String} (h : s.Shows v text) (out : String) :
    Answers s .render (s.Meets v) (v.render out) (· = out ++ text) := by
  obtain ⟨rank, hr, hlt⟩ := hs.acyclic.exists_rank
  apply Answers.ofHops (f := fun hops => v.renderWith (Value.renderThrough hops) out)
  exact answers_renderWith hs hr h _ out fun x hx => ⟨hv x hx, hlt _ (hv x hx).lt_next⟩

/-- The text of a value is what its relation to texts says. -/
theorem answers_toText (hs : s.Orderly) {v : Value} (hv : ∀ h ∈ v.handles, s.Alive h)
    {text : String} (h : s.Shows v text) :
    Answers s .render (s.Meets v) v.toText (· = text) := by
  apply (answers_render hs hv h "").mono fun _ h => h
  rintro _ rfl
  rw [String.empty_append]

end rendering

end SharedValues
