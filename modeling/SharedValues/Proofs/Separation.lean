import Mathlib
import SharedValues.Proofs.Unwinding

/-!
Two parties at one store. What a party writes it writes through handles that it holds, along owned
paths, and it builds what it writes from pieces in its hand. A guarded allocation that no owned path
of the hand leads to stays out of reach, whatever is written, so it keeps its content. A deep copy
and its source are two such parties.
-/
namespace SharedValues

namespace Run

variable {α β : Type} {w v : World}

theorem exists_of_bind_ok {act : Run α} {f : α → Run β} {b : β} (h : (act >>= f) w = .ok b v) :
    ∃ a u, act w = .ok a u ∧ f a u = .ok b v := by
  cases hact : act w with
  | ok a u =>
    rw [bind_of_ok hact] at h
    exact ⟨a, u, rfl, h⟩
  | error e u =>
    rw [bind_of_error hact] at h
    cases h

theorem ok_of_unwinding {act : Run α} {built : List Value} {a : α}
    (h : unwinding built act w = .ok a v) : act w = .ok a v := by
  unfold unwinding at h
  cases hact : act w <;> rw [hact] at h
  · exact h
  · cases h

theorem read_inv {kind : HandleKind} {id : Nat} {a : Allocation} (h : read kind id w = .ok a v) :
    w.store.get? id = some a ∧ a.role.kind = kind ∧ v = w := by
  rcases read_cases kind id w with ⟨b, hb, hk, hr⟩ | hr
  · rw [hr] at h
    cases h
    exact ⟨hb, hk, rfl⟩
  · rw [hr] at h
    cases h

theorem lookup_inv {name : String} {x : Variable} (h : lookup name w = .ok x v) :
    w.find? name = some x ∧ v = w := by
  cases hx : w.find? name with
  | none =>
    rw [lookup, bind_get, hx] at h
    cases h
  | some y =>
    rw [lookup_of_find? hx] at h
    cases h
    exact ⟨rfl, rfl⟩

theorem require_inv {b : Bool} (h : require b w = .ok () v) : v = w := by
  unfold require at h
  split at h
  · cases h
    rfl
  · cases h

theorem locking_inv {act : Run α} {id : Nat} {a : α} (h : locking id act w = .ok a v) :
    ∃ u, act { w with locks := id :: w.locks } = .ok a u ∧
      v = { u with locks := u.locks.erase id } := by
  unfold locking at h
  cases hact : act { w with locks := id :: w.locks } <;> rw [hact] at h <;> cases h
  exact ⟨_, rfl, rfl⟩

end Run

namespace Cell

theorem write_inv {id : Nat} {content : Value} {w v : World} (h : write id content w = .ok () v) :
    ∃ b, w.store.get? id = some b ∧ v = { w with store := w.store.put id { b with content } } := by
  obtain ⟨b, u, hread, hwrite⟩ := Run.exists_of_bind_ok h
  obtain ⟨hb, -, rfl⟩ := Run.read_inv hread
  cases hwrite
  exact ⟨b, hb, rfl⟩

theorem address_inv {target : Option Nat} {id : Nat} {w v : World}
    (h : address target w = .ok id v) : target = some id ∧ id ∉ w.locks ∧ v = w := by
  cases target with
  | none => cases h
  | some other =>
    obtain ⟨u, u', hg, hr⟩ := Run.exists_of_bind_ok h
    cases hg
    split at hr
    next => cases hr
    next hl =>
      cases hr
      exact ⟨rfl, hl, rfl⟩

/-- What a finished put has done. -/
theorem put_inv {id : Nat} {content : Value} {w v : World}
    (h : put (some id) content w = .ok () v) :
    ∃ a, w.store.get? id = some a ∧ a.role.kind = .cell ∧ id ∉ w.locks ∧
      v = { w with store := w.store.put id { a with content } }.release [a.content] := by
  obtain ⟨id', u, haddress, hrest⟩ := Run.exists_of_bind_ok h
  obtain ⟨hid, hl, rfl⟩ := address_inv (Run.ok_of_unwinding haddress)
  cases hid
  obtain ⟨a, u, hread, -⟩ := Run.exists_of_bind_ok hrest
  obtain ⟨ha, hk, -⟩ := Run.read_inv hread
  rw [put_of_get? ha hk hl] at h
  cases h
  exact ⟨a, ha, hk, hl, rfl⟩

/-- What a finished update has done, given what the change has done. -/
theorem update_inv {α : Type} {id : Nat} {change : Value → Run (Value × α)} {y z : α} {a : Allocation}
    {content : Value} {w u v : World} (ha : w.store.get? id = some a)
    (hc : change a.content { w with locks := id :: w.locks } = .ok (content, z) u)
    (h : update (some id) change w = .ok y v) :
    ∃ b, u.store.get? id = some b ∧ a.role.kind = .cell ∧ id ∉ w.locks ∧
      v = { u with store := u.store.put id { b with content }, locks := u.locks.erase id } := by
  obtain ⟨id', w', haddress, hrest⟩ := Run.exists_of_bind_ok h
  obtain ⟨hid, hl, rfl⟩ := address_inv haddress
  cases hid
  obtain ⟨a', w', hread, hlock⟩ := Run.exists_of_bind_ok hrest
  obtain ⟨ha', hk, rfl⟩ := Run.read_inv hread
  obtain rfl := Option.some.inj (ha'.symm.trans ha)
  obtain ⟨u', hbody, rfl⟩ := Run.locking_inv hlock
  obtain ⟨x, u₁, hx, hrest⟩ := Run.exists_of_bind_ok hbody
  rw [hc] at hx
  cases hx
  obtain ⟨_, u₂, hwrite, hpure⟩ := Run.exists_of_bind_ok hrest
  obtain ⟨b, hb, rfl⟩ := write_inv hwrite
  cases hpure
  exact ⟨b, hb, hk, hl, rfl⟩

end Cell

/-- What an action changes at one of the given addresses: nothing, or the content of an allocation,
which then holds no other handles than before. -/
def Run.ChangesAt {α : Type} (act : Run α) (w : World) (places : Nat → Prop) : Prop :=
  (act.after w).locks = w.locks ∧ ((act.after w).store = w.store ∨
    ∃ place b content, places place ∧ w.store.get? place = some b ∧
      (∀ h ∈ content.handles, h ∈ b.content.handles) ∧
      (act.after w).store = w.store.put place { b with content })

theorem Run.ChangesAt.of_observes {α : Type} {act : Run α} (h : Observes act) (w : World)
    (places : Nat → Prop) : act.ChangesAt w places := by
  obtain ⟨es, -, hw⟩ := h w
  rw [ChangesAt, hw]
  exact ⟨rfl, .inl rfl⟩

theorem Run.ChangesAt.of_eq {α : Type} {act act' : Run α} {w : World} {places : Nat → Prop}
    (h : act'.ChangesAt w places) (he : act w = act' w) : act.ChangesAt w places := by
  unfold ChangesAt Run.after at h ⊢
  rw [he]
  exact h

/-- An update whose change leaves the state as it is and gets no handles from elsewhere. -/
theorem Cell.update_changes {α : Type} {change : Value → Run (Value × α)}
    (hch : ∀ x w, (∃ y, change x w = .ok y w ∧ ∀ h ∈ y.1.handles, h ∈ x.handles) ∨
      ∃ e, change x w = .error e w) (target : Option Nat) (w : World) :
    (Cell.update target change).ChangesAt w fun place => target = some place := by
  cases hid : Cell.address target w with
  | error e v =>
    obtain ⟨es, -, hv⟩ := observes_address target w
    rw [Run.after, hid] at hv
    subst hv
    have hu : Cell.update target change w = .error e (w.recordAll es) := Run.bind_of_error hid
    rw [Run.ChangesAt, Run.after, hu]
    exact ⟨rfl, .inl rfl⟩
  | ok id v =>
    obtain ⟨rfl, -, hv⟩ := Cell.address_inv hid
    rw [hv] at hid
    rcases Run.read_cases .cell id w with ⟨a, ha, hk, hr⟩ | hr
    · rcases hch a.content { w with locks := id :: w.locks } with ⟨y, hy, hh⟩ | ⟨e, hy⟩
      · have hu : Cell.update (some id) change w = .ok y.2 { w with
            store := w.store.put id { a with content := y.1 },
            locks := (id :: w.locks).erase id } := by
          rw [Cell.update, Run.bind_of_ok hid, Run.bind_of_ok hr]
          exact locking_ok hy ha hk
        rw [Run.ChangesAt, Run.after, hu]
        exact ⟨List.erase_cons_head .., .inr ⟨id, a, y.1, rfl, ha, hh, rfl⟩⟩
      · have hu : Cell.update (some id) change w = .error e { w with
            locks := (id :: w.locks).erase id } := by
          rw [Cell.update, Run.bind_of_ok hid, Run.bind_of_ok hr]
          exact locking_error hy
        rw [Run.ChangesAt, Run.after, hu]
        exact ⟨List.erase_cons_head .., .inl rfl⟩
    · have hu : Cell.update (some id) change w = .error .dangling w :=
        (Run.bind_of_ok hid).trans (Run.bind_of_error hr)
      rw [Run.ChangesAt, Run.after, hu]
      exact ⟨rfl, .inl rfl⟩

/-- A change that leaves the state alone goes through. -/
theorem Cell.update_pure {α : Type} {change : Value → Run (Value × α)} {w : World} {id : Nat}
    {a : Allocation} (ha : w.store.get? id = some a) (hk : a.role.kind = .cell) (hl : id ∉ w.locks)
    {content : Value} {y : α} (hc : change a.content = pure (content, y)) :
    Cell.update (some id) change w =
      .ok y { w with store := w.store.put id { a with content } } := by
  have hread : Run.read .cell id w = .ok a w := hk ▸ Run.read_of_get? ha
  have hrun : change a.content { w with locks := id :: w.locks } =
      .ok (content, y) { w with locks := id :: w.locks } := by
    rw [hc]
    rfl
  rw [Cell.update, Run.bind_of_ok (Cell.address_of_not_mem hl), Run.bind_of_ok hread]
  refine (locking_ok hrun ha hk).trans ?_
  rw [List.erase_cons_head]

theorem Object.addTrick_changes (n : Nat) (x : Value) (w : World) :
    (∃ y, addTrick n x w = .ok y w ∧ ∀ h ∈ y.1.handles, h ∈ x.handles) ∨
      ∃ e, addTrick n x w = .error e w := by
  unfold addTrick
  split
  next tricks =>
    refine .inl ⟨_, rfl, fun h hh => ?_⟩
    simpa [Value.handles, Value.mem_handlesOf] using hh
  next => exact .inr ⟨_, rfl⟩

theorem Object.pokeValue_changes {w : World} {id n : Nat} {a : Allocation}
    (ha : w.store.get? id = some a) (hk : a.role.kind = .object) :
    (Object.pokeValue id n a.content).ChangesAt w fun place => place = id ∨
      ∃ a, w.store.get? id = some a ∧ ⟨.cell, place⟩ ∈ a.content.handles := by
  unfold Object.pokeValue
  split
  next x tricks hv =>
    obtain ⟨hl, h⟩ := Cell.update_changes (Object.addTrick_changes n) tricks w
    refine ⟨hl, h.imp_right ?_⟩
    rintro ⟨place, b, content, rfl, h⟩
    exact ⟨place, b, content, .inr ⟨a, ha, by simp [hv, Value.handles, Value.handlesOf]⟩, h⟩
  next => exact ⟨rfl, .inl rfl⟩
  next count hv =>
    have hread : Run.read .object id w = .ok a w := hk ▸ Run.read_of_get? ha
    unfold Run.ChangesAt Run.after
    rw [Run.bind_of_ok hread]
    exact ⟨rfl, .inr ⟨id, a, _, .inl rfl, ha, by simp [Value.handles, Value.handlesOf], rfl⟩⟩
  next p _ => exact .of_observes (.bind (.callHook _ _) fun _ => .pure _) w _
  next => exact .of_observes .refuse w _

/-- Poking changes nothing but the object or a cell that it holds. -/
theorem Object.poke_changes (id n : Nat) (w : World) :
    (Object.poke (some id) n).ChangesAt w fun place => place = id ∨
      ∃ a, w.store.get? id = some a ∧ ⟨.cell, place⟩ ∈ a.content.handles := by
  rcases Run.read_cases .object id w with ⟨a, ha, hk, hr⟩ | hr
  · refine .of_eq ?_ (Run.bind_of_ok hr)
    split
    next => exact Object.pokeValue_changes ha hk
    next => exact .of_observes .refuse w _
  · exact .of_eq (.of_observes (.throw _) w _) (Run.bind_of_error hr)

mutual

theorem Fits.target_lt {s : Store} {p : Place} :
    {v : Value} → Fits s p v → ∀ h ∈ v.handles, h.target < s.next
  | .scalar _, _, h, hh => by simp [Value.handles] at hh
  | .probe _, _, h, hh => by simp [Value.handles] at hh
  | .handle _ none, _, h, hh => by simp [Value.handles] at hh
  | .handle k (some id), ⟨t, _, _, hp⟩, h, hh => by
    obtain rfl : h = ⟨k, id⟩ := by simpa [Value.handles] using hh
    exact (hp id rfl).1
  | .node _ _, ⟨_, _, hf⟩, h, hh => hf.target_lt h (by simpa [Value.handles] using hh)

theorem FitAll.target_lt {s : Store} : {ps : List Place} → {vs : List Value} → FitAll s ps vs →
    ∀ h ∈ Value.handlesOf vs, h.target < s.next
  | [], [], _, h, hh => by simp [Value.handlesOf] at hh
  | _ :: _, v :: vs, hf, h, hh => by
    rcases List.mem_append.mp (by simpa only [Value.handlesOf] using hh) with hh | hh
    · exact hf.1.target_lt h hh
    · exact FitAll.target_lt hf.2 h hh

end

namespace Store

/-- An owned path of the pieces leads to the cell or object. -/
abbrev OwnedBy (s : Store) (pieces : Multiset Piece) (id : Nat) : Prop :=
  s.Leads HandleKind.owning (fun h => .handle h ∈ pieces) id

namespace Leads

variable {s : Store} {follow : HandleKind → Bool} {start more : Handle → Prop} {id : Nat}

theorem lt_next (h : s.Leads follow start id)
    (hc : ∀ id a, s.get? id = some a → ∀ x ∈ a.content.handles, x.target < s.next)
    (hs : ∀ x, start x → x.target < s.next) : id < s.next := by
  cases h with
  | held hh hf ht => exact ht ▸ hs _ hh
  | through _ ha hh hf ht => exact ht ▸ hc _ _ ha _ hh

/-- A change at one address makes no path but those through the new content. -/
theorem of_put {place : Nat} {a : Allocation} {content : Value} (ha : s.get? place = some a)
    (hs : ∀ x, start x → follow x.kind → x.target = place ∨ s.Leads follow more x.target)
    (hc : ∀ x ∈ content.handles, follow x.kind → s.Leads follow more x.target)
    (h : (s.put place { a with content }).Leads follow start id) :
    id = place ∨ s.Leads follow more id := by
  induction h with
  | held hh hf ht => exact ht ▸ hs _ hh hf
  | @through j id' b x _ hb hh hf ht ih =>
    subst ht
    rcases get?_put_cases hb with ⟨rfl, rfl⟩ | ⟨hne, hb⟩
    · exact .inr (hc x hh hf)
    · rcases ih with rfl | hl
      · exact absurd rfl hne
      · exact .inr (.through hl hb hh hf rfl)

end Leads

end Store

/-- Adding and giving up make no path from what was there before. -/
theorem Moves.leads_of_leads {c d : Config} (hm : Moves .shrink c d) (hs : c.Sound)
    {follow : HandleKind → Bool} {start : Handle → Prop}
    (hstart : ∀ x, start x → x.target < c.world.store.next) {id : Nat}
    (h : d.world.store.Leads follow start id) : c.world.store.Leads follow start id := by
  induction h with
  | held hh hf ht => exact .held hh hf ht
  | @through j id' b x _ hb hh hf ht ih =>
    have hlt : j < c.world.store.next :=
      ih.lt_next (fun i a ha => (hs.typed i a ha).target_lt) hstart
    obtain ⟨a, ha, -⟩ := hm.evolves.role_eq j hlt b hb
    have he := ((hm.fixed (Store.fixed_of_get? ha)).2 b hb).2
    exact .through ih ha (he ▸ hh) hf ht

/-- Only cells are locked. -/
theorem Config.Sound.not_locked_of_object {c : Config} (hs : c.Sound) {id : Nat}
    (ha : c.world.store.Alive ⟨.object, id⟩) : id ∉ c.world.locks := by
  intro hl
  have hm : Piece.handle ⟨.cell, id⟩ ∈ c.total := by
    have hp : Piece.handle ⟨.cell, id⟩ ∈ c.world.pins := by simpa [World.pins] using hl
    simp [Config.total, hp]
  obtain ⟨a, ha, hk⟩ := ha
  obtain ⟨b, hb, hk'⟩ := hs.counted.alive _ hm
  obtain rfl := Option.some.inj (ha.symm.trans hb)
  rw [hk] at hk'
  cases hk'

/-- Poking an object brings nothing to hand and gives nothing up, however it ends. -/
theorem Object.moves_poke {w : World} {hand : Multiset Piece} (hs : Config.Sound ⟨w, hand⟩) {id : Nat}
    (ha : w.store.Alive ⟨.object, id⟩) (n : Nat) :
    Moves .write ⟨w, hand⟩ ⟨(Object.poke (some id) n).after w, hand⟩ := by
  have hacc := accounts_poke (n := n) hs (hs.not_locked_of_object ha) ha hs
  unfold Run.after
  simp only at hacc
  cases hrun : Object.poke (some id) n w with
  | ok y v =>
    rw [hrun] at hacc
    obtain ⟨_, hm, -, rfl⟩ := hacc
    exact hm
  | error e v =>
    rw [hrun] at hacc
    obtain ⟨_, hm, -, rfl⟩ := hacc
    exact hm

/-- What a party does that holds some pieces in hand, while others keep the rest. It may add and give
up, put values into cells, change the content of cells and poke objects, as long as it gets there on
owned paths of what it holds. A handle that is new in its hand leads to nothing guarded. -/
inductive Writes (guarded : Nat → Prop) (kept : Multiset Piece) : Config → Config → Prop where
  | quiet {w w' : World} {hand hand' : Multiset Piece}
    (hm : Moves .shrink ⟨w, hand + kept⟩ ⟨w', hand' + kept⟩)
    (hnew : ∀ h, .handle h ∈ hand' → .handle h ∉ hand →
      ∀ id, w'.store.Leads HandleKind.owning (· = h) id → ¬guarded id) :
    Writes guarded kept ⟨w, hand⟩ ⟨w', hand'⟩
  | put {w w' : World} {hand : Multiset Piece} {id : Nat} {content : Value}
    (hp : w.store.OwnedBy (content.pieces + hand) id)
    (ht : ∀ a, w.store.get? id = some a → HasType w.store a.role.content content)
    (hr : Cell.put (some id) content w = .ok () w') :
    Writes guarded kept ⟨w, content.pieces + hand⟩ ⟨w', hand⟩
  /-- While the cell is locked, its content is in hand. A change that is abandoned is one that ends
  with the content it began with. -/
  | update {α : Type} {w w₁ w' : World} {hand hand' : Multiset Piece} {id : Nat} {a : Allocation}
    {content : Value} {y : α} {change : Value → Run (Value × α)} (ha : w.store.get? id = some a)
    (hc : change a.content { w with locks := id :: w.locks } = .ok (content, y) w₁)
    (hw : Writes guarded kept ⟨{ w with locks := id :: w.locks }, a.content.pieces + hand⟩
      ⟨w₁, content.pieces + hand'⟩)
    (ht : HasType w₁.store a.role.content content)
    (hr : Cell.update (some id) change w = .ok y w') :
    Writes guarded kept ⟨w, {.handle ⟨.cell, id⟩} + hand⟩ ⟨w', {.handle ⟨.cell, id⟩} + hand'⟩
  | poke {w : World} {hand : Multiset Piece} {id n : Nat} (hp : w.store.OwnedBy hand id)
    (ha : w.store.Alive ⟨.object, id⟩) :
    Writes guarded kept ⟨w, hand⟩ ⟨(Object.poke (some id) n).after w, hand⟩
  | trans {c d e : Config} (h : Writes guarded kept c d) (h' : Writes guarded kept d e) :
    Writes guarded kept c e

/-- What the party holds leads to nothing guarded. -/
structure Apart (guarded : Nat → Prop) (kept : Multiset Piece) (c : Config) : Prop where
  sound : Config.Sound ⟨c.world, c.hand + kept⟩
  apart : ∀ id, c.world.store.OwnedBy c.hand id → ¬guarded id
  locks : ∀ id ∈ c.world.locks, ¬guarded id

/-- What is guarded keeps its role and its content. -/
structure Leaves (guarded : Nat → Prop) (c d : Config) : Prop where
  evolves : c.world.store.Evolves d.world.store
  locks : d.world.locks = c.world.locks
  fixed : ∀ id, guarded id → ∀ role content, c.world.store.Fixed id role content →
    d.world.store.Fixed id role content

theorem Store.Fixed.put {s : Store} {id place : Nat} {role : Role} {content : Value}
    (h : s.Fixed id role content) (hne : id ≠ place) (b : Allocation) :
    (s.put place b).Fixed id role content := by
  refine ⟨by simpa using h.1, fun a ha => h.2 a ?_⟩
  rwa [Store.get?_put_other s b hne] at ha

namespace Leaves

variable {guarded : Nat → Prop} {c d e : Config}

theorem trans (h : Leaves guarded c d) (h' : Leaves guarded d e) : Leaves guarded c e where
  evolves := h.evolves.trans h'.evolves
  locks := h'.locks.trans h.locks
  fixed id hid role content hf := h'.fixed id hid role content (h.fixed id hid role content hf)

theorem of_moves {kept : Multiset Piece} {w w' : World} {hand hand' : Multiset Piece}
    (hm : Moves .shrink ⟨w, hand + kept⟩ ⟨w', hand' + kept⟩) :
    Leaves guarded ⟨w, hand⟩ ⟨w', hand'⟩ where
  evolves := hm.evolves
  locks := hm.locks_eq (Scope.le_refl _)
  fixed _ _ _ _ hf := hm.fixed hf

/-- A change at an address that is not guarded. -/
theorem put {w v : World} {hand hand' : Multiset Piece} {place : Nat} {a b : Allocation}
    (ha : w.store.get? place = some a) (hr : b.role = a.role) (hg : ¬guarded place)
    (hs : v.store = w.store.put place b) (hl : v.locks = w.locks) :
    Leaves guarded ⟨w, hand⟩ ⟨v, hand'⟩ where
  evolves := by
    rw [hs]
    exact .put ha hr
  locks := hl
  fixed id hid role content hf := by
    rw [hs]
    exact hf.put (by rintro rfl; exact hg hid) b

end Leaves

namespace Apart

variable {guarded : Nat → Prop} {kept hand hand' : Multiset Piece} {w w' : World} {id : Nat}

theorem quiet (h : Apart guarded kept ⟨w, hand⟩)
    (hm : Moves .shrink ⟨w, hand + kept⟩ ⟨w', hand' + kept⟩)
    (hnew : ∀ h, .handle h ∈ hand' → .handle h ∉ hand →
      ∀ id, w'.store.Leads HandleKind.owning (· = h) id → ¬guarded id) :
    Apart guarded kept ⟨w', hand'⟩ where
  sound := h.sound.moves hm
  apart id hid := by
    obtain ⟨x, hx, hl⟩ := Store.Leads.exists_start hid
    by_cases hmem : .handle x ∈ hand
    · have hlt : x.target < w.store.next :=
        (h.sound.alive_of_hand (Multiset.mem_add.mpr (.inl hmem))).lt_next
      have hold : w.store.Leads HandleKind.owning (· = x) id :=
        hm.leads_of_leads h.sound (by rintro _ rfl; exact hlt) hl
      exact h.apart id (hold.mono (by rintro _ rfl; exact hmem))
    · exact hnew x hx hmem id hl
  locks id hid := h.locks id ((hm.locks_eq (Scope.le_refl _)) ▸ hid)

theorem put {content : Value} (h : Apart guarded kept ⟨w, content.pieces + hand⟩)
    (hp : w.store.OwnedBy (content.pieces + hand) id)
    (ht : ∀ a, w.store.get? id = some a → HasType w.store a.role.content content)
    (hr : Cell.put (some id) content w = .ok () w') :
    Apart guarded kept ⟨w', hand⟩ ∧ Leaves guarded ⟨w, content.pieces + hand⟩ ⟨w', hand⟩ := by
  obtain ⟨a, ha, hk, hl, rfl⟩ := Cell.put_inv hr
  have hg : ¬guarded id := h.apart id hp
  have hexchange : Move .write ⟨w, content.pieces + hand + kept⟩
      ⟨{ w with store := w.store.put id { a with content } }, a.content.pieces + hand + kept⟩ :=
    .exchange ha (by rw [hk]; decide) hl (ht a ha) (by abel)
  have hrelease : Move .shrink
      ⟨{ w with store := w.store.put id { a with content } }, a.content.pieces + hand + kept⟩
      ⟨{ w with store := w.store.put id { a with content } }.release [a.content], hand + kept⟩ :=
    .release (by simp [add_assoc])
  have hleaves : Leaves guarded ⟨w, content.pieces + hand⟩
      ⟨{ w with store := w.store.put id { a with content } }, a.content.pieces + hand⟩ :=
    .put (b := { a with content }) ha rfl hg rfl rfl
  have hsame := World.sameBut_release [a.content]
    { w with store := w.store.put id { a with content } }
  refine ⟨⟨(h.sound.move hexchange).move hrelease, fun p hop => ?_, fun p hpl => ?_⟩,
    hleaves.trans (.of_moves (.one (Scope.le_refl _) hrelease))⟩
  · have hback : p = id ∨ w.store.OwnedBy (content.pieces + hand) p := Store.Leads.of_put ha
      (fun x hx hf => .inr (.held (Multiset.mem_add.mpr (.inr hx)) hf rfl))
      (fun x hx hf => .held (Multiset.mem_add.mpr (.inl (Value.handle_mem_pieces.mpr hx))) hf rfl)
      (hop.reflect hsame.content)
    rcases hback with rfl | hback
    · exact hg
    · exact h.apart p hback
  · exact h.locks p (hsame.locks ▸ hpl)

/-- The content of a cell in hand is as far from what is guarded as the cell. -/
theorem lock {a : Allocation} (h : Apart guarded kept ⟨w, {.handle ⟨.cell, id⟩} + hand⟩)
    (ha : w.store.get? id = some a) (hl : id ∉ w.locks) :
    Apart guarded kept ⟨{ w with locks := id :: w.locks }, a.content.pieces + hand⟩ := by
  have hid : w.store.OwnedBy ({.handle ⟨.cell, id⟩} + hand) id :=
    .held (h := ⟨.cell, id⟩) (by simp) rfl rfl
  have hlock : Move .write ⟨w, {.handle ⟨.cell, id⟩} + hand + kept⟩
      ⟨{ w with locks := id :: w.locks }, a.content.pieces + (hand + kept)⟩ :=
    .lock ha hl (add_assoc _ _ _)
  rw [← add_assoc] at hlock
  refine ⟨h.sound.move hlock, fun p hp => h.apart p (hp.of_start fun x hx hf => ?_), fun p hp => ?_⟩
  · rcases Multiset.mem_add.mp hx with hx | hx
    · exact .through hid ha (Value.handle_mem_pieces.mp hx) hf rfl
    · exact .held (Multiset.mem_add.mpr (.inr hx)) hf rfl
  · rcases List.mem_cons.mp hp with rfl | hp
    · exact h.apart _ hid
    · exact h.locks p hp

/-- New content goes into the locked cell, which is unlocked. -/
theorem unlock {b : Allocation} {content : Value}
    (h : Apart guarded kept ⟨w, content.pieces + hand⟩) (hb : w.store.get? id = some b)
    (hl : id ∈ w.locks) (ht : HasType w.store b.role.content content) :
    Apart guarded kept
      ⟨{ w with store := w.store.put id { b with content }, locks := w.locks.erase id },
        {.handle ⟨.cell, id⟩} + hand⟩ := by
  have hrewrite : Move .write ⟨w, content.pieces + hand + kept⟩
      ⟨{ w with store := w.store.put id { b with content } }, content.pieces + hand + kept⟩ :=
    .rewrite hb hl ht
  have hunlock : Move .write
      ⟨{ w with store := w.store.put id { b with content } }, content.pieces + hand + kept⟩
      ⟨{ w with store := w.store.put id { b with content }, locks := w.locks.erase id },
        {.handle ⟨.cell, id⟩} + (hand + kept)⟩ :=
    .unlock (Store.get?_put_same _ (Store.lt_next_of_get? hb)) hl (add_assoc _ _ _)
  rw [← add_assoc] at hunlock
  refine ⟨(h.sound.move hrewrite).move hunlock, fun p hp => ?_, fun p hp =>
    h.locks p (List.mem_of_mem_erase hp)⟩
  have hback : p = id ∨ w.store.OwnedBy (content.pieces + hand) p := Store.Leads.of_put hb
    (fun x hx hf => by
      rcases Multiset.mem_add.mp hx with hx | hx
      · obtain rfl : x = ⟨.cell, id⟩ := by simpa using hx
        exact .inl rfl
      · exact .inr (.held (Multiset.mem_add.mpr (.inr hx)) hf rfl))
    (fun x hx hf => .held (Multiset.mem_add.mpr (.inl (Value.handle_mem_pieces.mpr hx))) hf rfl) hp
  rcases hback with rfl | hback
  · exact h.locks _ hl
  · exact h.apart p hback

theorem update {α : Type} {w₁ : World} {a : Allocation} {content : Value} {y : α}
    {change : Value → Run (Value × α)}
    (h : Apart guarded kept ⟨w, {.handle ⟨.cell, id⟩} + hand⟩) (ha : w.store.get? id = some a)
    (hc : change a.content { w with locks := id :: w.locks } = .ok (content, y) w₁)
    (hw : Apart guarded kept ⟨{ w with locks := id :: w.locks }, a.content.pieces + hand⟩ →
      Apart guarded kept ⟨w₁, content.pieces + hand'⟩ ∧
        Leaves guarded ⟨{ w with locks := id :: w.locks }, a.content.pieces + hand⟩
          ⟨w₁, content.pieces + hand'⟩)
    (ht : HasType w₁.store a.role.content content)
    (hr : Cell.update (some id) change w = .ok y w') :
    Apart guarded kept ⟨w', {.handle ⟨.cell, id⟩} + hand'⟩ ∧
      Leaves guarded ⟨w, {.handle ⟨.cell, id⟩} + hand⟩ ⟨w', {.handle ⟨.cell, id⟩} + hand'⟩ := by
  obtain ⟨b, hb, -, hl, rfl⟩ := Cell.update_inv ha hc hr
  obtain ⟨hin, hleaves⟩ := hw (h.lock ha hl)
  have hlocks : w₁.locks = id :: w.locks := hleaves.locks
  have hmem : id ∈ w₁.locks := by simp [hlocks]
  obtain ⟨a', ha', hrole⟩ := hleaves.evolves.role_eq id (Store.lt_next_of_get? ha) b hb
  obtain rfl := Option.some.inj (ha'.symm.trans ha)
  rw [hrole] at ht
  refine ⟨hin.unlock hb hmem ht, hleaves.evolves.trans (.put hb rfl), ?_, fun p hp role x hf => ?_⟩
  · rw [hlocks, List.erase_cons_head]
  · have hne : p ≠ id := by
      rintro rfl
      exact hin.locks p hmem hp
    exact (hleaves.fixed p hp role x hf).put hne _

theorem poke {n : Nat} (h : Apart guarded kept ⟨w, hand⟩) (hp : w.store.OwnedBy hand id)
    (ha : w.store.Alive ⟨.object, id⟩) :
    Apart guarded kept ⟨(Object.poke (some id) n).after w, hand⟩ ∧
      Leaves guarded ⟨w, hand⟩ ⟨(Object.poke (some id) n).after w, hand⟩ := by
  have hsound : Config.Sound ⟨(Object.poke (some id) n).after w, hand + kept⟩ :=
    h.sound.moves (Object.moves_poke h.sound ha n)
  obtain ⟨hl, hs | ⟨place, b, content, hplace, hb, hh, hs⟩⟩ := Object.poke_changes id n w
  · refine ⟨⟨hsound, ?_, ?_⟩, ⟨?_, hl, ?_⟩⟩
    · rw [hs]
      exact h.apart
    · rw [hl]
      exact h.locks
    · rw [hs]
      exact .refl _
    · rw [hs]
      exact fun _ _ _ _ hf => hf
  · have hown : w.store.OwnedBy hand place := by
      rcases hplace with rfl | ⟨a, ha, hm⟩
      · exact hp
      · exact .through hp ha hm rfl rfl
    have hg : ¬guarded place := h.apart place hown
    refine ⟨⟨hsound, fun p hop => ?_, ?_⟩, .put (b := { b with content }) hb rfl hg hs hl⟩
    · rw [hs] at hop
      have hback : p = place ∨ w.store.OwnedBy hand p := Store.Leads.of_put hb
        (fun x hx hf => .inr (.held hx hf rfl))
        (fun x hx hf => .through hown hb (hh x hx) hf rfl) hop
      rcases hback with rfl | hback
      · exact hg
      · exact h.apart p hback
    · rw [hl]
      exact h.locks

end Apart

/-- Whatever a party writes, what is guarded stays out of its reach and as it is. -/
theorem Writes.apart {guarded : Nat → Prop} {kept : Multiset Piece} {c d : Config}
    (h : Writes guarded kept c d) (hc : Apart guarded kept c) :
    Apart guarded kept d ∧ Leaves guarded c d := by
  induction h with
  | quiet hm hnew => exact ⟨hc.quiet hm hnew, .of_moves hm⟩
  | put hp ht hr => exact hc.put hp ht hr
  | update ha hch hw ht hr ih => exact hc.update ha hch ih ht hr
  | poke hp ha => exact hc.poke hp ha
  | trans h h' ih ih' =>
    obtain ⟨hd, hcd⟩ := ih hc
    obtain ⟨he, hde⟩ := ih' hd
    exact ⟨he, hcd.trans hde⟩

namespace Writes

variable {guarded : Nat → Prop} {kept hand : Multiset Piece} {w w' : World} {id : Nat}
  {a : Allocation} {content : Value}

/-- Putting what is in hand into a cell on an owned path. -/
theorem put_after (ha : w.store.get? id = some a) (hk : a.role.kind = .cell) (hl : id ∉ w.locks)
    (hp : w.store.OwnedBy (content.pieces + hand) id)
    (ht : HasType w.store a.role.content content) :
    Writes guarded kept ⟨w, content.pieces + hand⟩
      ⟨(Cell.put (some id) content).after w, hand⟩ := by
  have hput := Cell.put_of_get? ha hk hl content
  refine .put hp (fun b hb => ?_) (by rw [Run.after, hput])
  obtain rfl := Option.some.inj (ha.symm.trans hb)
  exact ht

/-- What holds nothing can be put into any cell on an owned path. -/
theorem put_plain (hc : content.pieces = 0) (ha : w.store.get? id = some a)
    (hk : a.role.kind = .cell) (hl : id ∉ w.locks) (hp : w.store.OwnedBy hand id)
    (ht : HasType w.store a.role.content content) :
    Writes guarded kept ⟨w, hand⟩ ⟨(Cell.put (some id) content).after w, hand⟩ := by
  have hown : w.store.OwnedBy (content.pieces + hand) id :=
    hp.mono fun x hx => Multiset.mem_add.mpr (.inr hx)
  have hput : Writes guarded kept ⟨w, content.pieces + hand⟩ _ := .put_after ha hk hl hown ht
  rwa [hc, zero_add] at hput

/-- Getting hold of a clone of what leads to nothing guarded. -/
theorem clone {t : Ty} {v : Value} (hs : Config.Sound ⟨w, hand + kept⟩) (ht : HasType w.store t v)
    (ha : ∀ h ∈ v.handles, w.store.Alive h) (hg : ∀ id, w.store.Encloses v id → ¬guarded id)
    (hr : v.clone w = .ok v w') : Writes guarded kept ⟨w, hand⟩ ⟨w', v.pieces + hand⟩ := by
  have hacc := accounts_clone (c := ⟨w, hand + kept⟩) ht ha hs
  simp only [hr] at hacc
  obtain ⟨_, hm, -, rfl, -⟩ := hacc
  have hm : Moves .shrink ⟨w, hand + kept⟩ ⟨w', v.pieces + hand + kept⟩ := by
    rw [add_assoc]
    exact hm.widen (by decide)
  refine .quiet hm fun x hx hnew id hid => hg id ?_
  have hmem : x ∈ v.handles := by
    rcases Multiset.mem_add.mp hx with hx | hx
    · exact Value.handle_mem_pieces.mp hx
    · exact absurd hx hnew
  have hlt : ∀ y, y = x → y.target < w.store.next := fun y hy => hy ▸ (ha x hmem).lt_next
  exact (hm.leads_of_leads hs hlt hid).mono fun y hy => hy ▸ hmem

end Writes

end SharedValues
