import Mathlib
import SharedValues.Proofs.CellWrites

/-!
Traversals come to an end. Comparing, rendering, inspecting and copying deeply go through a value and
on through its handles. Where nothing owns itself a handle leads to something of smaller rank, so as
many hops as there are addresses are enough; with more of them nothing else happens. A deep copy adds
allocations while it goes, but only looks at those that were there before.
-/
namespace SharedValues

/-- The traversal comes to an end, with an answer or with the refusal of a probe that it meets. It
would do just the same with any number of hops that is not less than the number of addresses. -/
structure EndsWithin {α : Type} (k : Hook) (met : Probe → Prop) (traverse : Nat → Run α) (act : Run α)
    (w : World) : Prop where
  ends : (∃ a w', act w = .ok a w') ∨
    ∃ p w', met p ∧ p.boom = some k ∧ act w = .error (.panic (.refused k p)) w'
  enough : ∀ hops, w.store.next ≤ hops → traverse hops w = act w

section looking

/-- In every state with the given store both actions end in the same way, unless one of the probes
that they meet refuses to both. -/
structure EndAlike {α : Type} (s : Store) (k : Hook) (met : Probe → Prop) (act act' : Run α) :
    Prop where
  answers : Answers s k met act fun _ => True
  alike : Alike s s act act'

namespace EndAlike

variable {α β : Type} {s : Store} {k : Hook} {met met' : Probe → Prop}

theorem pure (a : α) : EndAlike s k met (pure a) (pure a) := ⟨.pure trivial, .pure a⟩

theorem bind {act act' : Run α} {f f' : α → Run β} (h : EndAlike s k met act act')
    (hf : ∀ a, EndAlike s k met (f a) (f' a)) : EndAlike s k met (act >>= f) (act' >>= f') :=
  ⟨h.answers.bind fun a _ => (hf a).answers, h.alike.bind fun a => (hf a).alike⟩

theorem mono {act act' : Run α} (h : EndAlike s k met act act') (hm : ∀ p, met p → met' p) :
    EndAlike s k met' act act' :=
  ⟨h.answers.mono hm fun _ h => h, h.alike⟩

theorem read {kind : HandleKind} {id : Nat} {a : Allocation} {f f' : Allocation → Run α}
    (ha : s.get? id = some a) (hk : a.role.kind = kind) (h : EndAlike s k met (f a) (f' a)) :
    EndAlike s k met (Run.read kind id >>= f) (Run.read kind id >>= f') :=
  ⟨.read ha hk h.answers, .read ha ha rfl hk h.alike⟩

/-- What ends in the same way for all sufficient numbers of hops ends within the number of addresses. -/
theorem endsWithin {w : World} {traverse : Nat → Run α}
    (h : ∀ hops, w.store.next ≤ hops → EndAlike w.store k met (traverse w.store.next) (traverse hops)) :
    EndsWithin k met traverse (do traverse (← get).hops) w where
  ends := by
    obtain ⟨es, ⟨a, ha, -⟩ | ⟨p, hp, hb, he⟩⟩ := (h _ (Nat.le_refl _)).answers w rfl
    · exact .inl ⟨a, _, ha⟩
    · exact .inr ⟨p, _, hp, hb, he⟩
  enough hops hn := by
    obtain ⟨es, ⟨a, ha, ha'⟩ | ⟨e, he, he'⟩⟩ := (h hops hn).alike w w rfl rfl
    · exact ha'.trans ha.symm
    · exact he'.trans he.symm

end EndAlike

variable {s : Store} {rank : Nat → Nat} {met : Probe → Prop}

theorem endAlike_renderWith (hs : s.Orderly)
    (hr : ∀ x y, s.Owns x y → y < s.next → rank y < rank x) {v : Value} {hops hops' : Nat}
    (hv : ∀ x ∈ v.handles, s.Alive x ∧ rank x.target < hops) (hh : hops ≤ hops') (out : String) :
    EndAlike s .render (s.Meets v) (v.renderWith (Value.renderThrough hops) out)
      (v.renderWith (Value.renderThrough hops') out) := by
  obtain ⟨text, htext⟩ := hs.exists_shows fun x hx => (hv x hx).1
  constructor
  · exact (answers_renderWith hs hr htext hops out hv).mono (fun _ h => h) fun _ _ => trivial
  · apply alike_renderWith
    intro x hx out
    obtain ⟨ha, hlt⟩ := hv x hx
    exact alike_renderThrough hs.closed hr hops hops' x out ha hlt (by omega) fun id =>
      hs.closed.sameAt ha

theorem endAlike_equalsWith (hs : s.Orderly)
    (hr : ∀ x y, s.Owns x y → y < s.next → rank y < rank x) {p : Place} {v u : Value}
    {hops hops' : Nat} (hv : s.Live p v) (hu : s.Live p u)
    (hlt : ∀ x ∈ v.handles, rank x.target < hops) (hh : hops ≤ hops') :
    EndAlike s .eq (s.Meets v) (v.equalsWith (Value.equalThrough hops) u)
      (v.equalsWith (Value.equalThrough hops') u) := by
  constructor
  · have hd : Decides s HandleKind.transparent v u (v.equalsWith (Value.equalThrough hops) u) := by
      apply decides_equalsWith hv hu
      intro p k i j hne hm
      exact decides_equalThrough hs hr hops p k i j hne (hlt _ hm)
    exact hd.mono (fun _ h => h) fun _ _ => trivial
  · apply alike_equalsWith
    intro x hx y hy
    have hx' := hlt x hx
    apply alike_equalThrough hs.closed hr hops hops' x y hx' (by omega)
    · exact fun id => hs.closed.sameAt (hv.alive x hx)
    · exact fun id => hs.closed.sameAt (hu.alive y hy)

section inspecting

variable {layout : Layout} {through through' : HandleKind → Nat → Run String}

theorem endAlike_inspectParts {vs : List Value}
    (h : ∀ v ∈ vs, EndAlike s .render met (v.inspectWith layout through)
      (v.inspectWith layout through')) :
    EndAlike s .render met (Value.inspectParts layout through vs)
      (Value.inspectParts layout through' vs) := by
  induction vs with
  | nil =>
    rw [Value.inspectParts, Value.inspectParts]
    exact .pure _
  | cons v vs ih =>
    rw [Value.inspectParts, Value.inspectParts]
    apply EndAlike.bind (h v (by simp))
    intro text
    apply EndAlike.bind (ih fun u hu => h u (by simp [hu]))
    exact fun texts => .pure _

/-- Inspecting a value ends if inspecting its handles does. -/
theorem endAlike_inspectWith {v : Value}
    (hf : ∀ k id, ⟨k, id⟩ ∈ v.handles →
      EndAlike s .render (s.Meets (.handle k (some id))) (through k id) (through' k id)) :
    EndAlike s .render (s.Meets v) (v.inspectWith layout through) (v.inspectWith layout through') := by
  induction v using Value.induction with
  | scalar x =>
    rw [Value.inspectWith, Value.inspectWith]
    exact .pure _
  | probe p =>
    rw [Value.inspectWith, Value.inspectWith]
    exact .pure _
  | handle k target =>
    cases target with
    | none =>
      rw [Value.inspectWith, Value.inspectWith]
      exact .pure _
    | some id =>
      rw [Value.inspectWith, Value.inspectWith]
      exact hf k id (by simp [Value.handles])
  | node shape parts ih =>
    rw [Value.inspectWith, Value.inspectWith]
    apply EndAlike.bind
    · apply endAlike_inspectParts
      intro v hv
      apply (ih v hv fun k id hm => hf k id (Value.mem_handles_node hv hm)).mono
      exact fun p hp => hp.part hv
    · exact fun texts => .pure _

/-- Inspecting what a handle points at ends if there are enough hops. -/
theorem endAlike_inspectThrough (hs : s.Orderly)
    (hr : ∀ x y, s.Owns x y → y < s.next → rank y < rank x) (layout : Layout) (hops : Nat) :
    ∀ (hops' : Nat) (k : HandleKind) (id : Nat), hops ≤ hops' → s.Alive ⟨k, id⟩ → rank id < hops →
      EndAlike s .render (s.Meets (.handle k (some id))) (Value.inspectThrough layout hops k id)
        (Value.inspectThrough layout hops' k id) := by
  induction hops with
  | zero => exact fun _ _ _ _ _ h => absurd h (Nat.not_lt_zero _)
  | succ hops ih =>
    rintro (_ | hops') k id hh hal hlt
    · omega
    · obtain ⟨a, ha, rfl⟩ := hal
      have hdown : ∀ x ∈ a.content.handles, s.Alive x ∧ rank x.target < hops := by
        intro x hx
        have hx' := hs.closed id a ha x hx
        have := hr id x.target ⟨a, ha, x, hx, rfl⟩ hx'.lt_next
        exact ⟨hx', by omega⟩
      rw [Value.inspectThrough, Value.inspectThrough]
      apply EndAlike.read ha rfl
      cases hrole : a.role with
      | slot table type =>
        apply EndAlike.bind
        · have hself : ∀ x ∈ (Value.handle .slot (some id)).handles,
              s.Alive x ∧ rank x.target < hops + 1 := by
            intro x hx
            obtain rfl : x = ⟨.slot, id⟩ := by simpa [Value.handles] using hx
            exact ⟨⟨a, ha, by rw [hrole]; rfl⟩, hlt⟩
          have hrender := endAlike_renderWith hs hr hself hh ""
          rw [Value.renderWith, Value.renderWith] at hrender
          exact hrender
        · exact fun text => .pure _
      | cell elem =>
        apply EndAlike.bind
        · apply (endAlike_inspectWith fun k x hm => ?_).mono fun p hp => hp.behind rfl ha
          exact ih hops' k x (by omega) (hdown _ hm).1 (hdown _ hm).2
        · exact fun text => .pure _
      | object | callable => exact .pure _

end inspecting

end looking

section copying

/-- Whatever has been added to the store, both actions have the same outcome: a result, where nothing
but additions have been made, or the refusal of a probe that they meet. -/
def CopyAlike {α : Type} (origin : Store) (d : Depth) (met : Probe → Prop) (act act' : Run α) : Prop :=
  ∀ w : World, origin.Persists w.store → act w = act' w ∧
    ((∃ a w', act w = .ok a w' ∧ origin.Persists w'.store) ∨
      ∃ p w', met p ∧ p.boom = some d.hook ∧ act w = .error (.panic (.refused d.hook p)) w')

namespace CopyAlike

variable {α β : Type} {origin : Store} {d : Depth} {met met' : Probe → Prop}

theorem of_ok {act : Run α} (h : ∀ w : World, origin.Persists w.store →
    ∃ a w', act w = .ok a w' ∧ origin.Persists w'.store) : CopyAlike origin d met act act :=
  fun w hw => ⟨rfl, .inl (h w hw)⟩

theorem pure (a : α) : CopyAlike origin d met (pure a) (pure a) :=
  of_ok fun w hw => ⟨a, w, rfl, hw⟩

theorem bind {act act' : Run α} {f f' : α → Run β} (h : CopyAlike origin d met act act')
    (hf : ∀ a, CopyAlike origin d met (f a) (f' a)) :
    CopyAlike origin d met (act >>= f) (act' >>= f') := by
  intro w hw
  obtain ⟨e, ⟨a, w₁, ha, hw₁⟩ | ⟨p, w₁, hp, hb, he⟩⟩ := h w hw
  · rw [Run.bind_of_ok ha, Run.bind_of_ok (e.symm.trans ha)]
    exact hf a w₁ hw₁
  · rw [Run.bind_of_error he, Run.bind_of_error (e.symm.trans he)]
    exact ⟨rfl, .inr ⟨p, w₁, hp, hb, rfl⟩⟩

theorem mono {act act' : Run α} (h : CopyAlike origin d met act act') (hm : ∀ p, met p → met' p) :
    CopyAlike origin d met' act act' := by
  intro w hw
  obtain ⟨e, h | ⟨p, w₁, hp, hb⟩⟩ := h w hw
  · exact ⟨e, .inl h⟩
  · exact ⟨e, .inr ⟨p, w₁, hm p hp, hb⟩⟩

theorem unwinding {act act' : Run α} (h : CopyAlike origin d met act act') (built : List Value) :
    CopyAlike origin d met (Run.unwinding built act) (Run.unwinding built act') := by
  intro w hw
  obtain ⟨e, ⟨a, w₁, ha, hw₁⟩ | ⟨p, w₁, hp, hb, he⟩⟩ := h w hw
  · rw [Run.unwinding_of_ok ha, Run.unwinding_of_ok (e.symm.trans ha)]
    exact ⟨rfl, .inl ⟨a, w₁, rfl, hw₁⟩⟩
  · simp only [Run.unwinding, ← e, he]
    exact ⟨trivial, .inr ⟨p, _, hp, hb, rfl⟩⟩

theorem probe {p : Probe} (hp : met p) :
    CopyAlike origin d met (do Run.callHook d.hook p; Run.create p)
      (do Run.callHook d.hook p; Run.create p) := by
  apply bind
  · intro w hw
    by_cases e : p.boom = some d.hook
    · refine ⟨rfl, .inr ⟨p, w.record (.hook d.hook p), hp, e, ?_⟩⟩
      rw [Run.callHook, if_pos e]
      rfl
    · exact ⟨rfl, .inl ⟨(), _, Run.callHook_of_ne e w, hw⟩⟩
  · exact fun _ => of_ok fun w hw => ⟨_, _, rfl, hw⟩

theorem share {k : HandleKind} {id : Nat} (ha : origin.Alive ⟨k, id⟩) :
    CopyAlike origin d met (Value.share k id) (Value.share k id) := by
  apply of_ok
  intro w hw
  obtain ⟨a, hg, hk⟩ := hw.alive ha
  obtain ⟨w', hr, hp, -⟩ := Run.retain_ok hg hk
  exact ⟨id, w', Run.bind_of_ok hr, hw.trans hp⟩

theorem allocate (role : Role) (content : Value) :
    CopyAlike origin d met (Run.allocate role content) (Run.allocate role content) :=
  of_ok fun w hw => ⟨w.store.next, w.allocate role content, rfl, hw.trans (Store.persists_push _ _)⟩

/-- What was in the store at first is read as it was then. -/
theorem read {kind : HandleKind} {id : Nat} {a : Allocation} {f f' : Allocation → Run α}
    (ha : origin.get? id = some a) (hk : a.role.kind = kind)
    (h : ∀ b : Allocation, b.role = a.role → b.content = a.content →
      CopyAlike origin d met (f b) (f' b)) :
    CopyAlike origin d met (Run.read kind id >>= f) (Run.read kind id >>= f') := by
  intro w hw
  obtain ⟨b, hb, hr, hc⟩ := hw id a ha
  have hread : Run.read kind id w = .ok b w := by
    rw [← hk, ← hr]
    exact Run.read_of_get? hb
  rw [Run.bind_of_ok hread, Run.bind_of_ok hread]
  exact h b hr hc w hw

end CopyAlike

variable {origin : Store} {d : Depth} {follow : HandleKind → Bool} {met : Probe → Prop}
  {through through' : HandleKind → Nat → Run Nat}

theorem copyAlike_copyParts {shape : Shape} {vs : List Value}
    (h : ∀ v ∈ vs, CopyAlike origin d met (v.copyWith d through) (v.copyWith d through'))
    (done : List Value) :
    CopyAlike origin d met (Value.copyParts d through shape done vs)
      (Value.copyParts d through' shape done vs) := by
  induction vs generalizing done with
  | nil =>
    rw [Value.copyParts, Value.copyParts]
    exact .pure _
  | cons v vs ih =>
    rw [Value.copyParts, Value.copyParts]
    apply CopyAlike.bind ((h v (by simp)).unwinding _)
    exact fun c => ih (fun u hu => h u (by simp [hu])) _

/-- Copying a value ends if copying its handles does. -/
theorem copyAlike_copyWith {v : Value}
    (hf : ∀ k id, ⟨k, id⟩ ∈ v.handles →
      CopyAlike origin d (fun p => origin.Occurs follow (.handle k (some id)) (.probe p)) (through k id)
        (through' k id)) :
    CopyAlike origin d (fun p => origin.Occurs follow v (.probe p)) (v.copyWith d through)
      (v.copyWith d through') := by
  induction v using Value.induction with
  | scalar x =>
    rw [Value.copyWith, Value.copyWith]
    exact .pure _
  | probe p =>
    rw [Value.copyWith, Value.copyWith]
    exact .probe (.refl _)
  | handle k target =>
    cases target with
    | none =>
      rw [Value.copyWith, Value.copyWith]
      exact .pure _
    | some id =>
      rw [Value.copyWith, Value.copyWith]
      exact .bind (hf k id (by simp [Value.handles])) fun _ => .pure _
  | node shape parts ih =>
    rw [Value.copyWith, Value.copyWith]
    apply CopyAlike.bind
    · apply copyAlike_copyParts
      intro v hv
      apply (ih v hv fun k id hm => hf k id (Value.mem_handles_node hv hm)).mono
      exact fun p hp => hp.part hv
    · exact fun _ => .pure _

/-- Copying deeply what a handle points at ends if there are enough hops. -/
theorem copyAlike_deepThrough (hc : origin.Closed) {rank : Nat → Nat}
    (hr : ∀ x y, origin.Owns x y → y < origin.next → rank y < rank x) (hops : Nat) :
    ∀ (hops' : Nat) (k : HandleKind) (id : Nat), hops ≤ hops' → origin.Alive ⟨k, id⟩ →
      rank id < hops →
      CopyAlike origin .deep (fun p => origin.Occurs HandleKind.owning (.handle k (some id)) (.probe p))
        (Value.deepThrough hops k id) (Value.deepThrough hops' k id) := by
  induction hops with
  | zero => exact fun _ _ _ _ _ h => absurd h (Nat.not_lt_zero _)
  | succ hops ih =>
    rintro (_ | hops') k id hh hal hlt
    · omega
    · cases k with
      | slot | callable =>
        rw [Value.deepThrough, Value.deepThrough]
        exact .share hal
      | cell | object =>
        obtain ⟨a, ha, hk⟩ := hal
        rw [Value.deepThrough, Value.deepThrough]
        · apply CopyAlike.read ha hk
          intro b hrole hcontent
          rw [hrole, hcontent]
          apply CopyAlike.bind
          · apply CopyAlike.mono (copyAlike_copyWith fun k x hm => ?_) fun p hp => hp.behind rfl ha
            have hx := hc id a ha ⟨k, x⟩ hm
            have hdown := hr id x ⟨a, ha, ⟨k, x⟩, hm, rfl⟩ hx.lt_next
            exact ih hops' k x (by omega) hx (by omega)
          · exact fun content => .allocate _ _
        all_goals simp

end copying

/-- Where nothing owns itself, traversals come to an end, however deep the values are nested and however
much they share. Copying deeply, comparing, rendering and inspecting in either layout give an answer,
unless a probe on the way refuses, and as many hops as there are addresses are enough for them. This
holds for deep copies too, although the store grows meanwhile. -/
theorem traversals_end {w : World} (hs : w.store.Orderly) {t : Ty} {v u : Value}
    (hv : w.store.Live (.value t) v) (hu : w.store.Live (.value t) u) :
    EndsWithin .deep (fun p => w.store.Occurs HandleKind.owning v (.probe p))
        (fun hops => v.copyWith .deep (Value.deepThrough hops)) v.deepCopy w ∧
      EndsWithin .eq (w.store.Meets v) (fun hops => v.equalsWith (Value.equalThrough hops) u)
        (v.equals u) w ∧
      (∀ out, EndsWithin .render (w.store.Meets v)
        (fun hops => v.renderWith (Value.renderThrough hops) out) (v.render out) w) ∧
      ∀ layout, EndsWithin .render (w.store.Meets v)
        (fun hops => v.inspectWith layout (Value.inspectThrough layout hops)) (v.inspect layout) w := by
  obtain ⟨rank, hr, hlt⟩ := hs.acyclic.exists_rank
  have hnear : ∀ x ∈ v.handles, rank x.target < w.store.next := fun x hx =>
    hlt _ (hv.alive x hx).lt_next
  refine ⟨?_, EndAlike.endsWithin fun hops hn => ?_, fun out => EndAlike.endsWithin fun hops hn => ?_,
    fun layout => EndAlike.endsWithin fun hops hn => ?_⟩
  · have hcopy : ∀ hops, w.store.next ≤ hops → CopyAlike w.store .deep
        (fun p => w.store.Occurs HandleKind.owning v (.probe p))
        (v.copyWith .deep (Value.deepThrough w.store.next))
        (v.copyWith .deep (Value.deepThrough hops)) := by
      intro hops hn
      apply copyAlike_copyWith
      intro k id hm
      exact copyAlike_deepThrough hs.closed hr _ hops k id hn (hv.alive _ hm) (hnear _ hm)
    constructor
    · refine (hcopy _ (Nat.le_refl _) w (.refl _)).2.imp_left ?_
      rintro ⟨c, w', hc, -⟩
      exact ⟨c, w', hc⟩
    · exact fun hops hn => (hcopy hops hn w (.refl _)).1.symm
  · exact endAlike_equalsWith hs hr hv hu hnear hn
  · exact endAlike_renderWith hs hr (fun x hx => ⟨hv.alive x hx, hnear x hx⟩) hn out
  · apply endAlike_inspectWith
    intro k id hm
    exact endAlike_inspectThrough hs hr layout _ hops k id hn (hv.alive _ hm) (hnear _ hm)

-- a cell that holds itself has no end, however many hops there are
example (hops : Nat) :
    let w : World := { store := ⟨#[some ⟨.cell .dyn, .handle .cell (some 0), 1⟩]⟩ }
    (Value.handle .cell (some 0)).renderWith (Value.renderThrough hops) "" w = .error .endless w := by
  intro w
  induction hops with
  | zero => rfl
  | succ hops ih => exact ih

/-- Two lists of shared cells that hold lists of shared cells. -/
theorem traversals_end_shared_cells :
    let number : Ty := .cell (.int .i32)
    let row : Ty := .cell (.list number)
    let var (x : String) : Datum := .record [("$var", .text x)]
    let steps : List Step :=
      [.define (some "n") number (.record [("ref", .int 7)]),
        .define (some "r") row (.record [("ref", .list [var "n", var "n"])]),
        .define (some "v") (.list row) (.list [var "r", var "r"]),
        .define (some "u") (.list row) (.list [var "r", .record [("ref", .list [var "n"])]])]
    let w := Machine.after false steps
    let v : Value := .node .sequence [.handle .cell (some 1), .handle .cell (some 1)]
    let u : Value := .node .sequence [.handle .cell (some 1), .handle .cell (some 2)]
    (w.store.Orderly ∧ w.store.Live (.value (.list row)) v ∧ w.store.Live (.value (.list row)) u) ∧
      (∃ c w', v.copyWith .deep (Value.deepThrough 1000) w = .ok c w') ∧
      v.equalsWith (Value.equalThrough 1000) u w = v.equals u w ∧
      v.renderWith (Value.renderThrough 1000) "" w = v.render "" w ∧
      v.inspectWith .indented (Value.inspectThrough .indented 1000) w = v.inspect .indented w := by
  intro number row var steps w v u
  have hstore : w.store =
      ⟨#[some ⟨.cell (.int .i32), .int 7, 4⟩,
        some ⟨.cell (.list number),
          .node .sequence [.handle .cell (some 0), .handle .cell (some 0)], 4⟩,
        some ⟨.cell (.list number), .node .sequence [.handle .cell (some 0)], 1⟩]⟩ := by
    simp only [w, steps, number, row, var]
    cbv
  have hb : w.bindings = [("n", ⟨number, .handle .cell (some 0)⟩), ("r", ⟨row, .handle .cell (some 1)⟩),
      ("u", ⟨.list row, u⟩), ("v", ⟨.list row, v⟩)] := by
    simp only [w, steps, number, row, var, v, u]
    cbv
  have hw : w.Settled := Machine.settled_after false steps
  have hs : w.store.Orderly := hw.orderly (Store.acyclic_of_lt (by rw [hstore]; decide))
  have hv : w.store.Live (.value (.list row)) v := hw.live (show w.find? "v" = some ⟨.list row, v⟩ by
    rw [World.find?, hb]
    rfl)
  have hu : w.store.Live (.value (.list row)) u := hw.live (show w.find? "u" = some ⟨.list row, u⟩ by
    rw [World.find?, hb]
    rfl)
  have hn : w.store.next ≤ 1000 := by
    rw [hstore]
    decide
  obtain ⟨hcopy, hequal, hrender, hinspect⟩ := traversals_end hs hv hu
  refine ⟨⟨hs, hv, hu⟩, ?_, hequal.enough 1000 hn, (hrender "").enough 1000 hn,
    (hinspect .indented).enough 1000 hn⟩
  rw [hcopy.enough 1000 hn]
  rcases hcopy.ends with h | ⟨p, _, hp, -⟩
  · exact h
  · simp [v, hstore, Store.occurs_node, Store.occurs_handle, Store.get?, Value.int,
      Store.occurs_scalar] at hp

end SharedValues
