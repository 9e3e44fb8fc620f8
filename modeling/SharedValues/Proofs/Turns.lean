import SharedValues.Proofs.Observers

/-!
Triples for actions: what an action takes in hand, what it has in hand afterwards, and what holds
of the store before and after. Everything else in hand is left alone, among it what the variables
own, so that variables can be read meanwhile.
-/
namespace SharedValues

/-- A fact about the store that survives whatever becomes of it. -/
def Stable (F : Store → Prop) : Prop :=
  ∀ s s' : Store, s.Evolves s' → F s → F s'

theorem stable_true : Stable fun _ => True := fun _ _ _ h => h

theorem stable_fits (p : Place) (v : Value) : Stable fun s => Fits s p v :=
  fun _ _ e h => Fits.evolve e h

theorem stable_fitAll (ps : List Place) (vs : List Value) : Stable fun s => FitAll s ps vs :=
  fun _ _ e h => FitAll.evolve e h

theorem Stable.and {F G : Store → Prop} (hF : Stable F) (hG : Stable G) :
    Stable fun s => F s ∧ G s :=
  fun s s' e h => ⟨hF s s' e h.1, hG s s' e h.2⟩

/-- The action turns the pieces `given` into those that `got` says, or into `lost` if it is
abandoned. -/
def Turns {α : Type} (S : Scope) (given : Multiset Piece) (pre : Store → Prop) (act : Run α)
    (got : α → Multiset Piece) (post : α → Store → Prop) (lost : Multiset Piece) : Prop :=
  ∀ (frame : Multiset Piece) (c : Config), c.hand = given + frame → c.world.owned ≤ frame →
    pre c.world.store →
    Accounts S act c
      (fun a d => d.hand = got a + frame ∧ d.world.bindings = c.world.bindings ∧
        post a d.world.store)
      (fun d => d.hand = lost + frame)

namespace Turns

variable {α β : Type} {S : Scope} {given lost : Multiset Piece} {pre : Store → Prop}

/-- An action that looks at no variable. -/
theorem of_accounts {act : Run α} {got : α → Multiset Piece} {post : α → Store → Prop}
    (hS : S ≤ .write)
    (h : ∀ (kept : Multiset Piece) (c : Config), c.hand = given + kept → pre c.world.store →
      Accounts S act c (fun a d => d.hand = got a + kept ∧ post a d.world.store)
        (fun d => d.hand = lost + kept)) : Turns S given pre act got post lost := by
  intro frame c hh _ hc
  refine (h frame c hh hc).mono ?_ fun _ _ _ h => h
  rintro a d hm - - ⟨hd, hp⟩
  exact ⟨hd, hm.bindings_eq hS, hp⟩

theorem pure {a : α} {got : α → Multiset Piece} {post : α → Store → Prop} (hg : given = got a)
    (hp : ∀ s, pre s → post a s) : Turns S given pre (pure a) got post lost :=
  fun _ _ hh _ hc => .pure ⟨by rw [hh, hg], rfl, hp _ hc⟩

theorem throw {e : Stop} {got : α → Multiset Piece} {post : α → Store → Prop}
    (hg : given = lost) : Turns S given pre (throw e : Run α) got post lost :=
  fun _ _ hh _ _ => .throw (by rw [hh, hg])

theorem refuse {got : α → Multiset Piece} {post : α → Store → Prop} (hg : given = lost) :
    Turns S given pre Run.refuse got post lost :=
  throw hg

theorem bind {act : Run α} {f : α → Run β} {G : α → Multiset Piece} {Q : α → Store → Prop}
    {got : β → Multiset Piece} {post : β → Store → Prop}
    (h : Turns S given pre act G Q lost) (hf : ∀ a, Turns S (G a) (Q a) (f a) got post lost) :
    Turns S given pre (act >>= f) got post lost := by
  intro frame c hh ho hc
  refine .bind (h frame c hh ho hc) ?_
  rintro a d - - - ⟨hd, hb, hq⟩
  have ho' : d.world.owned ≤ frame := by
    rw [World.owned, hb]
    exact ho
  refine (hf a frame d hd ho' hq).mono ?_ fun _ _ _ h => h
  rintro b e - - - ⟨he, hb', hp⟩
  exact ⟨he, hb'.trans hb, hp⟩

theorem mono {act : Run α} {got : α → Multiset Piece} {post : α → Store → Prop}
    {pre' : Store → Prop} {post' : α → Store → Prop} (h : Turns S given pre act got post lost)
    (hpre : ∀ s, pre' s → pre s) (hpost : ∀ a s, post a s → post' a s) :
    Turns S given pre' act got post' lost := by
  intro frame c hh ho hc
  refine (h frame c hh ho (hpre _ hc)).mono ?_ fun _ _ _ h => h
  rintro a d - - - ⟨hd, hb, hp⟩
  exact ⟨hd, hb, hpost a _ hp⟩

theorem widen {T : Scope} {act : Run α} {got : α → Multiset Piece} {post : α → Store → Prop}
    (h : Turns S given pre act got post lost) (hS : S ≤ T) : Turns T given pre act got post lost :=
  fun frame c hh ho hc => (h frame c hh ho hc).widen hS

/-- What the store tells about the values may be assumed from the start. -/
theorem assume {act : Run α} {got : α → Multiset Piece} {post : α → Store → Prop} {P : Prop}
    (hP : ∀ s, pre s → P) (h : P → Turns S given pre act got post lost) :
    Turns S given pre act got post lost :=
  fun frame c hh ho hc => h (hP _ hc) frame c hh ho hc

/-- An action that is never abandoned loses nothing. -/
theorem sure {act : Run α} {got : α → Multiset Piece} {post : α → Store → Prop}
    (h : Turns S given pre act got post lost) (ha : ∀ w, ∃ a v, act w = .ok a v)
    (r : Multiset Piece) : Turns S given pre act got post r := by
  intro frame c hh ho hc hs
  have h₁ := h frame c hh ho hc hs
  obtain ⟨a, v, he⟩ := ha c.world
  rw [he] at h₁ ⊢
  exact h₁

/-- What the action does not touch stays in hand. -/
theorem frame {act : Run α} {got : α → Multiset Piece} {post : α → Store → Prop}
    (h : Turns S given pre act got post lost) (r : Multiset Piece) :
    Turns S (given + r) pre act (fun a => got a + r) post (lost + r) := by
  intro frame c hh ho hc
  refine (h (r + frame) c (by rw [hh, add_assoc]) (ho.trans (Multiset.le_add_left _ _)) hc).mono
    ?_ ?_
  · rintro a d - - - ⟨hd, hb, hp⟩
    exact ⟨by rw [hd, add_assoc], hb, hp⟩
  · intro d _ _ hd
    rw [hd, add_assoc]

/-- What holds whatever becomes of the store still holds afterwards. -/
theorem keep {act : Run α} {got : α → Multiset Piece} {post : α → Store → Prop}
    {F : Store → Prop} (h : Turns S given pre act got post lost) (hF : Stable F) :
    Turns S given (fun s => pre s ∧ F s) act got (fun a s => post a s ∧ F s) lost := by
  intro frame c hh ho hc
  refine (h frame c hh ho hc.1).mono ?_ fun _ _ _ h => h
  rintro a d hm - - ⟨hd, hb, hp⟩
  exact ⟨hd, hb, hp, hF _ _ hm.evolves hc.2⟩

theorem unwinding {act : Run α} {vs : List Value} {got : α → Multiset Piece}
    {post : α → Store → Prop}
    (h : Turns S given pre act got post (Value.piecesOf vs + lost)) :
    Turns S given pre (Run.unwinding vs act) got post lost := by
  intro frame c hh ho hc
  refine .unwinding ((h frame c hh ho hc).mono (fun _ _ _ _ _ h => h) ?_)
  intro d _ _ hd
  rw [hd, add_assoc]

/-- A further value is built while others are held, which are given up if that fails. -/
theorem beside {act : Run α} {got : α → Multiset Piece} {post : α → Store → Prop}
    {F : Store → Prop} (h : Turns S 0 (fun _ => True) act got post 0) (vs : List Value)
    (hF : Stable F) :
    Turns S (Value.piecesOf vs) F (Run.unwinding vs act) (fun a => got a + Value.piecesOf vs)
      (fun a s => post a s ∧ F s) 0 := by
  have h₁ := (h.frame (Value.piecesOf vs)).keep hF
  rw [zero_add] at h₁
  refine unwinding ?_
  rw [add_zero]
  exact h₁.mono (fun _ hs => ⟨trivial, hs⟩) fun _ _ hs => hs

theorem drop {vs : List Value} {r : Multiset Piece} {F : Store → Prop} (hS : Scope.shrink ≤ S)
    (hF : Stable F) (hg : given = Value.piecesOf vs + r) :
    Turns S given F (Run.drop vs) (fun _ => r) (fun _ => F) lost := by
  have h : Turns .shrink given F (Run.drop vs) (fun _ => r) (fun _ => F) lost := by
    refine of_accounts (by decide) fun kept c hh hc => ?_
    refine (Accounts.drop (Scope.le_refl _) (by rw [hh, hg, add_assoc])).mono ?_ fun _ _ _ h => h
    rintro _ d hm - - hd
    exact ⟨hd, hF _ _ hm.evolves hc⟩
  exact h.widen hS

theorem orRefuse {o : Option α} (hg : given = lost) :
    Turns S given pre (Run.orRefuse o) (fun _ => given) (fun a s => o = some a ∧ pre s) lost := by
  cases o with
  | none => exact throw hg
  | some a => exact pure rfl fun _ hs => ⟨rfl, hs⟩

theorem require {b : Bool} (hg : given = lost) :
    Turns S given pre (Run.require b) (fun _ => given) (fun _ s => b ∧ pre s) lost := by
  cases b with
  | false => exact throw hg
  | true => exact pure rfl fun _ hs => ⟨rfl, hs⟩

end Turns

end SharedValues
