import SharedValues.Proofs.Accounts

/-!
The elementary actions account for every piece: reports, probes, shares, allocations, tables, and
giving values up on the way or in the end.
-/
namespace SharedValues

/-- The handle points at a live allocation of its kind. -/
def Store.Alive (s : Store) (h : Handle) : Prop :=
  ∃ a, s.get? h.target = some a ∧ a.role.kind = h.kind

theorem Config.Sound.alive_of_hand {c : Config} (hs : c.Sound) {h : Handle}
    (hh : .handle h ∈ c.hand) : c.world.store.Alive h :=
  hs.counted.alive h (Config.mem_total_of_hand hh)

theorem Config.Sound.alive_of_stored {c : Config} (hs : c.Sound) {id : Nat} {a : Allocation}
    (hl : id ∉ c.world.locks) (ha : c.world.store.get? id = some a) {h : Handle}
    (hh : h ∈ a.content.handles) : c.world.store.Alive h :=
  hs.counted.alive h (Config.mem_total_of_stored hl ha (Value.handle_mem_pieces.mpr hh))

theorem Moves.alive_of_grow {c d : Config} (hm : Moves .grow c d) {h : Handle}
    (ha : c.world.store.Alive h) : d.world.store.Alive h := by
  obtain ⟨a, hg, hk⟩ := ha
  obtain ⟨b, hb, hr, -⟩ := hm.get?_of_grow hg
  exact ⟨b, hb, by rw [hr, hk]⟩

namespace Run

theorem read_of_get? {w : World} {id : Nat} {a : Allocation} (ha : w.store.get? id = some a) :
    read a.role.kind id w = .ok a w := by
  rw [read, bind_get, ha]
  exact congrFun (if_pos rfl) w

theorem retain_of_get? {w : World} {id : Nat} {a : Allocation} (ha : w.store.get? id = some a) :
    retain a.role.kind id w =
      .ok () { w with store := w.store.put id { a with shares := a.shares + 1 } } :=
  bind_of_ok (read_of_get? ha)

theorem read_cases (kind : HandleKind) (id : Nat) (w : World) :
    (∃ a, w.store.get? id = some a ∧ a.role.kind = kind ∧ read kind id w = .ok a w) ∨
      read kind id w = .error .dangling w := by
  unfold read
  rw [bind_get]
  cases ha : w.store.get? id with
  | none => exact .inr rfl
  | some a =>
    by_cases hk : a.role.kind = kind
    · exact .inl ⟨a, rfl, hk, congrFun (if_pos hk) w⟩
    · exact .inr (congrFun (if_neg hk) w)

theorem tableFor_of_some {w : World} {t : Ty} {table : Table}
    (h : w.registry.find? t = some table) : tableFor t w = .ok table w := by
  rw [tableFor, bind_get, h]
  rfl

theorem tableFor_of_none {w : World} {t : Ty} (h : w.registry.find? t = none) :
    tableFor t w = .ok (w.registry.enter t).1
      ({ w with registry := (w.registry.enter t).2 }.record (.published t)) := by
  rw [tableFor, bind_get, h]
  rfl

end Run

namespace Accounts

variable {α β : Type} {S : Scope} {c : Config} {err : Config → Prop}

theorem refuse {ok : α → Config → Prop} (h : err c) : Accounts S Run.refuse c ok err :=
  throw h

theorem panic {p : Panic} {ok : α → Config → Prop} (h : err c) :
    Accounts S (Run.panic p) c ok err :=
  throw h

theorem orRefuse {o : Option α} {ok : α → Config → Prop} (hok : ∀ a, o = some a → ok a c)
    (herr : err c) : Accounts S (Run.orRefuse o) c ok err := by
  cases o with
  | none => exact throw herr
  | some a => exact pure (hok a rfl)

theorem require {b : Bool} {ok : Unit → Config → Prop} (hok : b → ok () c) (herr : err c) :
    Accounts S (Run.require b) c ok err := by
  cases b with
  | false => exact throw herr
  | true => exact pure (hok rfl)

theorem scope_grow_le (S : Scope) : Scope.grow ≤ S := Nat.zero_le S.rank

theorem record {e : Event} {ok : Unit → Config → Prop} (he : e.isReport)
    (h : ok () ⟨c.world.record e, c.hand⟩) : Accounts S (Run.record e) c ok err :=
  move rfl (.report e he) (scope_grow_le S) (by decide) h

theorem fatal {e : AccessError} {ok : α → Config → Prop} {kept : Multiset Piece}
    (h : c.hand = kept) : Accounts S (Run.fatal e) c ok (fun d => d.hand = kept) :=
  bind (Q := fun _ d => d.hand = kept) (record rfl h) fun _ _ _ _ _ hd => panic hd

theorem callHook {k : Hook} {p : Probe} {kept : Multiset Piece} (h : c.hand = kept) :
    Accounts S (Run.callHook k p) c (fun _ d => d.hand = kept) (fun d => d.hand = kept) := by
  refine bind (Q := fun _ d => d.hand = kept) (record rfl h) fun _ d _ _ _ hd => ?_
  split
  · exact panic hd
  · exact pure hd

theorem create {p : Probe} {kept : Multiset Piece} (h : c.hand = kept) :
    Accounts S (Run.create p) c (fun v d => v = .probe p ∧ d.hand = {.probe p} + kept) err := by
  refine move rfl (.create p) (scope_grow_le S) (by decide) ⟨rfl, ?_⟩
  rw [h]

/-- An action that finishes and leaves the state as it is. -/
theorem stays {act : Run α} {a : α} {ok : α → Config → Prop} (he : act c.world = .ok a c.world)
    (h : ok a c) : Accounts S act c ok err := by
  intro _
  rw [he]
  exact ⟨c.hand, .refl, .of_eq rfl rfl, h⟩

/-- Reading an allocation that a live handle points at. -/
theorem read {k : HandleKind} {id : Nat} {ok : Allocation → Config → Prop}
    (ha : c.world.store.Alive ⟨k, id⟩)
    (h : ∀ a, c.world.store.get? id = some a → a.role.kind = k → ok a c) :
    Accounts S (Run.read k id) c ok err := by
  obtain ⟨a, hg, rfl⟩ := ha
  exact stays (Run.read_of_get? hg) (h a hg rfl)

theorem retain {k : HandleKind} {id : Nat} {kept : Multiset Piece}
    (ha : c.world.store.Alive ⟨k, id⟩) (h : c.hand = kept) :
    Accounts S (Run.retain k id) c (fun _ d => d.hand = {.handle ⟨k, id⟩} + kept) err := by
  refine bind (Q := fun a d => d = c ∧ c.world.store.get? id = some a ∧ a.role.kind = k)
    (read ha fun a hg hk => ⟨rfl, hg, hk⟩) ?_
  rintro a _ - - - ⟨rfl, hg, hk⟩
  refine move rfl (.retain hg) (scope_grow_le S) (by decide) ?_
  rw [hk, h]

theorem share {k : HandleKind} {id : Nat} {kept : Multiset Piece}
    (ha : c.world.store.Alive ⟨k, id⟩) (h : c.hand = kept) :
    Accounts S (Value.share k id) c (fun i d => i = id ∧ d.hand = {.handle ⟨k, id⟩} + kept) err :=
  bind (retain ha h) fun _ _ _ _ _ hd => pure ⟨rfl, hd⟩

theorem allocate {role : Role} {content : Value} {kept : Multiset Piece}
    (hr : role.Allowed c.world.registry) (hc : HasType c.world.store role.content content)
    (h : c.hand = content.pieces + kept) :
    Accounts S (Run.allocate role content) c
      (fun id d => d.hand = {.handle ⟨role.kind, id⟩} + kept ∧ id = c.world.store.next ∧
        d.world.store = c.world.store.push ⟨role, content, 1⟩) err :=
  move rfl (.allocate hr hc h) (scope_grow_le S) (by decide) ⟨rfl, rfl, rfl⟩

theorem tableFor {t : Ty} {kept : Multiset Piece} (h : c.hand = kept) :
    Accounts S (Run.tableFor t) c
      (fun table d => d.hand = kept ∧ d.world.registry.find? t = some table ∧
        d.world.store = c.world.store) err := by
  cases hf : c.world.registry.find? t with
  | some table =>
    exact stays (Run.tableFor_of_some hf) ⟨h, hf, rfl⟩
  | none =>
    refine move (Run.tableFor_of_none hf) (.publish t hf) (scope_grow_le S) (by decide) ⟨h, ?_, rfl⟩
    simp only [World.record, Registry.enter, hf]
    rw [Registry.find?, List.find?_append]
    simp [show c.world.registry.tables.find? (·.type == t) = none from hf]

theorem drop {vs : List Value} {kept : Multiset Piece} (hS : Scope.shrink ≤ S)
    (h : c.hand = Value.piecesOf vs + kept) :
    Accounts S (Run.drop vs) c (fun _ d => d.hand = kept) err :=
  move rfl (.release h) hS (Scope.le_refl _) rfl

theorem shrink_le_failing (S : Scope) : Scope.shrink ≤ S.failing := by cases S <;> decide

/-- What was built is given up if the action is abandoned. -/
theorem unwindingTo {act : Run α} {vs : List Value} {ok : α → Config → Prop}
    (h : Accounts S act c ok (fun d => ∃ kept, d.hand = Value.piecesOf vs + kept ∧
      err ⟨d.world.release vs, kept⟩)) : Accounts S (Run.unwinding vs act) c ok err := by
  intro hs
  have h₁ := h hs
  unfold Run.unwinding
  cases he : act c.world with
  | ok a w =>
    rw [he] at h₁
    exact h₁
  | error e w =>
    rw [he] at h₁
    obtain ⟨h', hm, hl, kept, hh, herr⟩ := h₁
    have hr : Move .shrink ⟨w, h'⟩ ⟨w.release vs, kept⟩ := .release hh
    exact ⟨kept, hm.trans (.one (shrink_le_failing S) hr),
      hl.trans (hr.keeps (hs.moves hm) (Scope.le_refl _)), herr⟩

theorem unwinding {act : Run α} {vs : List Value} {kept : Multiset Piece}
    {ok : α → Config → Prop}
    (h : Accounts S act c ok (fun d => d.hand = Value.piecesOf vs + kept)) :
    Accounts S (Run.unwinding vs act) c ok (fun d => d.hand = kept) :=
  unwindingTo (h.mono (fun _ _ _ _ _ h => h) fun _ _ _ h => ⟨kept, h, rfl⟩)

/-- The values are given up in every case. -/
theorem dropping {act : Run α} {vs : List Value} {kept : Multiset Piece} (hS : Scope.shrink ≤ S)
    (h : Accounts S act c (fun _ d => d.hand = Value.piecesOf vs + kept)
      (fun d => d.hand = Value.piecesOf vs + kept)) :
    Accounts S (Run.dropping vs act) c (fun _ d => d.hand = kept) (fun d => d.hand = kept) := by
  unfold Run.dropping
  refine bind (unwinding h) fun a d _ _ _ hd => ?_
  exact bind (drop hS hd) fun _ e _ _ _ he => pure he

end Accounts

end SharedValues
