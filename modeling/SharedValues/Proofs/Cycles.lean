import Mathlib
import SharedValues.Proofs.Effects
import SharedValues.Proofs.Erasure

/-!
Cycles of ownership. A new allocation holds handles to older ones only, and what is there is never
given new handles, except that an edit may write some into cells which existed before it. So every
step leads from a state without cycles to another one, unless it writes into a cell, and then every
new cycle runs through such a cell.
-/
namespace SharedValues

/-- From a store to a later one. What was there holds no other handles than before, unless it is a
cell at an address below `n`; what is new holds handles to what is older than itself. -/
structure Store.Grows (n : Nat) (s s' : Store) : Prop where
  next_le : s.next ≤ s'.next
  holds : ∀ id b, s'.get? id = some b →
    (∃ a, s.get? id = some a ∧ b.role = a.role ∧
      (b.content.handles ⊆ a.content.handles ∨ id < n ∧ a.role.kind = .cell)) ∨
    s.next ≤ id ∧ ∀ h ∈ b.content.handles, h.target < id

namespace Store.Grows

variable {n : Nat} {s s' s'' : Store} {id : Nat} {a : Allocation}

theorem refl (s : Store) : s.Grows n s :=
  ⟨Nat.le_refl _, fun _ b hb => .inl ⟨b, hb, rfl, .inl (List.Subset.refl _)⟩⟩

theorem mono {m : Nat} (h : s.Grows m s') (hmn : m ≤ n) : s.Grows n s' := by
  refine ⟨h.next_le, fun id b hb => ?_⟩
  rcases h.holds id b hb with ⟨a, ha, hr, hh | ⟨hid, hk⟩⟩ | hnew
  · exact .inl ⟨a, ha, hr, .inl hh⟩
  · exact .inl ⟨a, ha, hr, .inr ⟨Nat.lt_of_lt_of_le hid hmn, hk⟩⟩
  · exact .inr hnew

theorem trans (hn : n ≤ s.next) (h : s.Grows n s') (h' : s'.Grows n s'') : s.Grows n s'' := by
  refine ⟨h.next_le.trans h'.next_le, fun id c hc => ?_⟩
  rcases h'.holds id c hc with ⟨b, hb, hr', hh'⟩ | ⟨hid, hnew⟩
  · rcases h.holds id b hb with ⟨a, ha, hr, hh⟩ | ⟨hid, hnew⟩
    · refine .inl ⟨a, ha, hr'.trans hr, ?_⟩
      rcases hh, hh' with ⟨hh | hh, hh' | hh'⟩
      · exact .inl (List.Subset.trans hh' hh)
      · exact .inr (hr ▸ hh')
      · exact .inr hh
      · exact .inr hh
    · refine .inr ⟨hid, fun k hk => ?_⟩
      rcases hh' with hh' | ⟨hlt, -⟩
      · exact hnew k (hh' hk)
      · omega
  · exact .inr ⟨h.next_le.trans hid, hnew⟩

theorem of_sameBut {w v : World} (h : w.SameBut v) : w.store.Grows n v.store := by
  refine ⟨h.evolves.next_le, fun id b hb => .inl ?_⟩
  obtain ⟨a, ha, hc⟩ := h.content id b hb
  obtain ⟨a', ha', hr⟩ := h.evolves.role_eq id (lt_next_of_get? ha) b hb
  obtain rfl : a' = a := Option.some.inj (ha'.symm.trans ha)
  exact ⟨a', ha', hr.symm, .inl (by rw [hc]; exact List.Subset.refl _)⟩

theorem push (ha : ∀ h ∈ a.content.handles, h.target < s.next) : s.Grows n (s.push a) := by
  refine ⟨by simp, fun id b hb => ?_⟩
  rcases get?_push_cases hb with ⟨rfl, rfl⟩ | hb
  · exact .inr ⟨Nat.le_refl _, ha⟩
  · exact .inl ⟨b, hb, rfl, .inl (List.Subset.refl _)⟩

theorem put (ha : s.get? id = some a) {content : Value}
    (hc : content.handles ⊆ a.content.handles ∨ id < n ∧ a.role.kind = .cell) :
    s.Grows n (s.put id { a with content }) := by
  refine ⟨by simp, fun other b hb => .inl ?_⟩
  rcases get?_put_cases hb with ⟨rfl, rfl⟩ | ⟨-, hb⟩
  · exact ⟨a, ha, rfl, hc⟩
  · exact ⟨b, hb, rfl, .inl (List.Subset.refl _)⟩

theorem lenient : Lenient fun w v => w.store.Grows 0 v.store where
  refl w := refl w.store
  trans h h' := h.trans (Nat.zero_le _) h'
  report w _ _ := refl w.store
  create w _ := refl w.store
  retain ha := of_sameBut (World.sameBut_putShares ha)
  release w vs := of_sameBut (World.sameBut_release vs w)
  bind w _ := refl w.store

end Store.Grows

section cycles

open Relation

variable {n : Nat} {s s' : Store}

/-- The cell was there before and has been given a handle that it did not hold. -/
def Store.Written (s s' : Store) (id : Nat) : Prop :=
  ∃ a b, s.get? id = some a ∧ a.role.kind = .cell ∧ s'.get? id = some b ∧
    ∃ h ∈ b.content.handles, h ∉ a.content.handles

/-- Handles lead down in rank, except from cells that have been written: what was there before has
the rank that it had, and what is new ranks above it by its address. -/
theorem Store.Acyclic.exists_rank_of_grows (hac : s.Acyclic)
    (hs : ∀ id a, s.get? id = some a → ∀ h ∈ a.content.handles, h.target < s.next)
    (h : s.Grows n s') :
    ∃ rank : Nat → Nat, ∀ x y, s'.Owns x y → s.Written s' x ∨ rank y < rank x := by
  obtain ⟨rank, hdown, hrank⟩ := hac.exists_rank
  refine ⟨fun x => if x < s.next then rank x else x, ?_⟩
  rintro x _ ⟨b, hb, k, hk, rfl⟩
  dsimp only
  rcases h.holds x b hb with ⟨a, ha, hr, hold⟩ | ⟨hx, hnew⟩
  · by_cases hka : k ∈ a.content.handles
    · have hlt := hs x a ha k hka
      rw [if_pos hlt, if_pos (lt_next_of_get? ha)]
      exact .inr (hdown x k.target ⟨a, ha, k, hka, rfl⟩ hlt)
    · rcases hold with hold | ⟨-, hcell⟩
      · exact absurd (hold hk) hka
      · exact .inl ⟨a, b, ha, hcell, hb, k, hk, hka⟩
  · have hlt := hnew k hk
    rw [if_neg (Nat.not_lt.mpr hx)]
    split
    next hold => exact .inr ((hrank _ hold).trans_le hx)
    next => exact .inr hlt

/-- A way along which the rank does not sink comes by a written cell. -/
theorem Store.exists_written {rank : Nat → Nat}
    (hrank : ∀ x y, s'.Owns x y → s.Written s' x ∨ rank y < rank x) {x y : Nat}
    (hxy : TransGen s'.Owns x y) :
    rank y < rank x ∨ ∃ z, s.Written s' z ∧ ReflTransGen s'.Owns x z ∧ TransGen s'.Owns z y := by
  induction hxy with
  | single h =>
    rcases hrank _ _ h with hw | hlt
    · exact .inr ⟨x, hw, .refl, .single h⟩
    · exact .inl hlt
  | @tail y y' hxy h ih =>
    rcases ih with hlt | ⟨z, hw, hxz, hzy⟩
    · rcases hrank _ _ h with hw | hlt'
      · exact .inr ⟨y, hw, hxy.to_reflTransGen, .single h⟩
      · exact .inl (hlt'.trans hlt)
    · exact .inr ⟨z, hw, hxz, hzy.tail h⟩

/-- Every new cycle runs through a written cell. -/
theorem Store.Acyclic.cycle_written (hac : s.Acyclic)
    (hs : ∀ id a, s.get? id = some a → ∀ h ∈ a.content.handles, h.target < s.next)
    (h : s.Grows n s') {id : Nat} (hid : TransGen s'.Owns id id) :
    ∃ cell, s.Written s' cell ∧ ReflTransGen s'.Owns id cell ∧ TransGen s'.Owns cell id := by
  obtain ⟨rank, hrank⟩ := hac.exists_rank_of_grows hs h
  rcases exists_written hrank hid with hlt | hcell
  · exact absurd hlt (Nat.lt_irrefl _)
  · exact hcell

theorem Store.Acyclic.of_grows (hac : s.Acyclic)
    (hs : ∀ id a, s.get? id = some a → ∀ h ∈ a.content.handles, h.target < s.next)
    (h : s.Grows 0 s') : s'.Acyclic := by
  intro id hid
  obtain ⟨cell, ⟨a, b, ha, -, hb, k, hk, hka⟩, -⟩ := hac.cycle_written hs h hid
  rcases h.holds cell b hb with ⟨a', ha', -, hold | ⟨hlt, -⟩⟩ | ⟨hnew, -⟩
  · obtain rfl : a' = a := Option.some.inj (ha'.symm.trans ha)
    exact hka (hold hk)
  · exact absurd hlt (Nat.not_lt_zero _)
  · exact absurd (lt_next_of_get? ha) (Nat.not_lt.mpr hnew)

end cycles

section moves

variable {n : Nat} {c d : Config}

theorem Move.grows {S : Scope} (h : Move S c d) (hS : S ≤ .shrink) :
    c.world.store.Grows 0 d.world.store := by
  cases h with
  | retain ha => exact .of_sameBut (World.sameBut_putShares ha)
  | allocate _ hc => exact .push hc.target_lt
  | @release w _ _ vs => exact .of_sameBut (World.sameBut_release vs w)
  | exchange | lock | rewrite | unlock | bind => exact absurd hS (by decide)
  | _ => exact .refl _

/-- What only adds and gives up writes into nothing. -/
theorem Moves.grows (h : Moves .shrink c d) : c.world.store.Grows 0 d.world.store :=
  h.invariant (P := fun e => c.world.store.Grows 0 e.world.store)
    (fun _ _ _ hS hm he => he.trans (Nat.zero_le _) (hm.grows hS)) (.refl _)

theorem Accounts.grows {α : Type} {S : Scope} {act : Run α} {ok : α → Config → Prop}
    {err : Config → Prop} (h : Accounts S act c ok err) (hS : S ≤ .shrink) (hs : c.Sound) :
    c.world.store.Grows 0 (act.after c.world).store := by
  have hrun := h hs
  unfold Run.after
  cases hact : act c.world with
  | ok a w =>
    rw [hact] at hrun
    obtain ⟨_, hm, -⟩ := hrun
    exact (hm.widen hS).grows
  | error e w =>
    rw [hact] at hrun
    obtain ⟨_, hm, -⟩ := hrun
    exact (hm.widen (Scope.failing_mono hS)).grows

/-- A value is read while other things are in hand. -/
theorem Config.Sound.read (hs : c.Sound) (ho : c.world.owned ≤ c.hand) (t : Ty) (x : Datum) :
    c.world.store.Grows 0 ((Reader.read t x).after c.world).store ∧
    ∀ v w, Reader.read t x c.world = .ok v w →
      Moves .shrink c ⟨w, v.pieces + c.hand⟩ ∧ HasType w.store t v := by
  have hread := supplies_read t x c.hand c (zero_add _).symm ho trivial
  refine ⟨hread.grows (Scope.le_refl _) hs, fun v w he => ?_⟩
  obtain ⟨hand, hm, rfl, -, hv⟩ := hread.of_ok hs he
  exact ⟨hm, hv⟩

end moves

section edits

variable {n : Nat} {v : Value} {c : Config}

/-- A value in hand from which handles lead to what is older than `n` only. -/
structure Offers (n : Nat) (v : Value) (c : Config) : Prop where
  sound : c.Sound
  hand : v.pieces + c.world.owned ≤ c.hand
  old : n ≤ c.world.store.next
  within : ∀ id a, id < n → c.world.store.get? id = some a → ∀ h ∈ a.content.handles, h.target < n
  handles : ∀ h ∈ v.handles, h.target < n

theorem Offers.moves (h : Offers n v c) {d : Config} (hm : Moves .shrink c d) (hd : c.hand ≤ d.hand) :
    Offers n v d := by
  have hb : d.world.owned = c.world.owned := by
    rw [World.owned, hm.bindings_eq (by decide), World.owned]
  refine ⟨h.sound.moves hm, by rw [hb]; exact h.hand.trans hd, h.old.trans hm.grows.next_le, ?_,
    h.handles⟩
  intro id b hid hb k hk
  rcases hm.grows.holds id b hb with ⟨a, ha, -, hold | ⟨hlt, -⟩⟩ | ⟨hnew, -⟩
  · exact h.within id a hid ha k (hold hk)
  · exact absurd hlt (Nat.not_lt_zero _)
  · exact absurd (h.old.trans hnew) (Nat.not_le.mpr hid)

/-- While the value is in hand, the action gives new handles to no other cells than those older than
`n`. -/
def Confines (n : Nat) (α : Type) (v : Value) (act : Run α) : Prop :=
  ∀ c, Offers n v c → c.world.store.Grows n (act.after c.world).store

theorem Store.Grows.bind {α β : Type} {act : Run α} {f : α → Run β} {w : World}
    (hn : n ≤ w.store.next) (h : w.store.Grows n (act.after w).store)
    (hf : ∀ a v, act w = .ok a v → v.store.Grows n ((f a).after v).store) :
    w.store.Grows n ((act >>= f).after w).store :=
  Run.after_bind_induction (P := fun v => w.store.Grows n v.store) h
    fun a v ha hv => hv.trans hn (hf a v ha)

theorem Store.Grows.of_observes {α : Type} {act : Run α} (h : Observes act) (w : World) :
    w.store.Grows n (act.after w).store :=
  (Run.Within.of_observes Store.Grows.lenient h w).mono (Nat.zero_le _)

theorem Store.Grows.drop (vs : List Value) (w : World) : w.store.Grows n (w.release vs).store :=
  .of_sameBut (World.sameBut_release vs w)

theorem Cell.write_grows {id : Nat} (hid : id < n) (content : Value) (w : World) :
    w.store.Grows n ((Cell.write id content).after w).store := by
  rcases Run.read_cases .cell id w with ⟨a, ha, hk, hr⟩ | hr
  · rw [Cell.write, Run.after_bind_of_ok hr]
    exact .put ha (.inr ⟨hid, hk⟩)
  · rw [Cell.write, Run.after_of_error (Run.bind_of_error hr)]
    exact .refl _

theorem confines_put (kind : HandleKind) (target : Option Nat) (content : Value) :
    Confines n Unit (.handle kind target) (Cell.put target content) := by
  intro c h
  have haddress := Run.Within.of_observes Store.Grows.lenient (observes_address target)
  refine .bind h.old ((haddress.unwinding Store.Grows.lenient [content] c.world).mono
    (Nat.zero_le _)) fun id v hid => ?_
  obtain ⟨rfl, -, rfl⟩ := Cell.address_inv (Run.ok_of_unwinding hid)
  refine .bind h.old (.of_observes (.read _ _) _) fun a w hread => ?_
  obtain ⟨ha, hk, rfl⟩ := Run.read_inv hread
  have hid : id < n := h.handles ⟨kind, id⟩ (by simp [Value.handles])
  refine .bind h.old (.put ha (.inr ⟨hid, hk⟩)) ?_
  rintro _ _ ⟨⟩
  exact .drop _ _

theorem confines_update {α : Type} {change : Value → Run (Value × α)}
    (hch : ∀ content, Confines n _ content (change content)) (kind : HandleKind)
    (target : Option Nat) : Confines n α (.handle kind target) (Cell.update target change) := by
  intro c h
  refine .bind h.old (.of_observes (observes_address target) _) fun id v hid => ?_
  obtain ⟨rfl, hl, rfl⟩ := Cell.address_inv hid
  refine .bind h.old (.of_observes (.read _ _) _) fun a w hread => ?_
  obtain ⟨ha, hk, rfl⟩ := Run.read_inv hread
  have hid : id < n := h.handles ⟨kind, id⟩ (by simp [Value.handles])
  -- the handle in hand is one of a cell, so it can be exchanged for the content
  obtain ⟨rest, hrest⟩ := Multiset.le_iff_exists_add.mp h.hand
  have hkind : kind = .cell := by
    obtain ⟨b, hb, hkb⟩ := h.sound.alive_of_hand (h := ⟨kind, id⟩) (by simp [hrest])
    obtain rfl : b = a := Option.some.inj (hb.symm.trans ha)
    exact hkb.symm.trans hk
  subst hkind
  have hhand : c.hand = {.handle ⟨.cell, id⟩} + (c.world.owned + rest) := by
    rw [hrest, add_assoc]
    rfl
  have hlock := moves_locking ha hl hhand
  have hoffers : Offers n a.content (c.locking id a (c.world.owned + rest)) :=
    ⟨h.sound.moves hlock, by
      show _ ≤ a.content.pieces + (c.world.owned + rest)
      rw [← add_assoc]
      exact Multiset.le_add_right _ _, h.old, h.within, h.within id a hid ha⟩
  rw [Run.after_locking]
  have hchange := hch a.content _ hoffers
  refine Store.Grows.bind (w := { c.world with locks := id :: c.world.locks }) h.old hchange ?_
  rintro ⟨content, y⟩ u -
  dsimp only
  rw [Run.after_map]
  exact Cell.write_grows hid content u

theorem editRules_confines (n : Nat) : EditRules (Confines n) where
  pure _ _ c _ := .refl c.world.store
  throw _ _ c _ := .refl c.world.store
  map h f c hc := by
    rw [Run.after_map]
    exact h c hc
  read t d f hf c hc := by
    have ho : c.world.owned ≤ c.hand := (Multiset.le_add_left _ _).trans hc.hand
    obtain ⟨hgrows, hok⟩ := hc.sound.read ho t d
    refine .bind hc.old (hgrows.mono (Nat.zero_le _)) fun x w hx => ?_
    exact hf x ⟨w, _⟩ (hc.moves (hok x w hx).1 (Multiset.le_add_left _ _))
  unwinding h built c hc := by
    rcases Run.after_unwinding built _ c.world with e | e
    · rw [e]
      exact h c hc
    · rw [e]
      exact (h c hc).trans hc.old (.drop built _)
  part h hu c hc := by
    refine h c ⟨hc.sound, (add_le_add_left hu _).trans hc.hand, hc.old, hc.within, fun k hk => ?_⟩
    exact hc.handles k (Value.handle_mem_pieces.mp
      (Multiset.mem_of_le hu (Value.handle_mem_pieces.mpr hk)))
  put kind target content := confines_put kind target content
  update h kind target := confines_update h kind target

end edits

section steps

open Machine

variable {w : World}

theorem World.Settled.target_lt (hw : w.Settled) :
    ∀ id a, w.store.get? id = some a → ∀ h ∈ a.content.handles, h.target < w.store.next :=
  fun id a ha => (hw.sound.typed id a ha).target_lt

/-- An edit of a variable writes into no other cells than those that were there. -/
theorem grows_mutate (hw : w.Settled) (name : String) (path : Datum) :
    w.store.Grows w.store.next ((mutate name path).after w).store := by
  refine .bind (Nat.le_refl _) ?_ fun c v _ => ?_
  · rcases editVariable_cases name path w with e | ⟨v, x, hv, e⟩
    · rw [e]
      exact .refl _
    · rw [e]
      have hoffers : Offers w.store.next v.value ⟨w.unbind name, w.owned⟩ := by
        refine ⟨hw.sound.move (.bind fun x hx => hw.sound.bound x (List.mem_filter.mp hx).1), ?_,
          Nat.le_refl _, fun id a _ ha => hw.target_lt id a ha, (hw.sound.variable hv).target_lt⟩
        rw [World.owned_of_find? hw.ascending hv]
      exact (editRules_confines w.store.next).edit v.type v.value path _ hoffers
  · have hL := Store.Grows.lenient
    exact ((within_finish hL c).bind hL (fun _ => .pure hL _) v).mono (Nat.zero_le _)

/-- A new slot holds a value whose handles lead to what is older. -/
theorem grows_set (current : Option Nat) {t : Ty} {v : Value} (hv : HasType w.store t v) :
    w.store.Grows 0 ((Erased.set current t v).after w).store := by
  by_cases ht : t = .erased
  · subst ht
    obtain ⟨source, rfl⟩ := hv.erased_inv
    exact within_adopt Store.Grows.lenient current source w
  · obtain ⟨table, w', hset, hstore, -⟩ := Erased.set_ok ht current v w
    have hdrop := World.sameBut_release [.handle .slot current] w
    rw [Run.after_of_ok hset, hstore]
    refine .trans (Nat.zero_le _) (.of_sameBut hdrop) (.push fun h hh => ?_)
    exact (hv.target_lt h hh).trans_le hdrop.evolves.next_le

/-- A value is read and then put somewhere. -/
theorem grows_read {β : Type} (hw : w.Settled) (t : Ty) (d : Datum) {f : Value → Run β}
    (hf : ∀ v (u : World), HasType u.store t v → u.store.Grows 0 ((f v).after u).store) :
    w.store.Grows 0 ((Reader.read t d >>= f).after w).store := by
  obtain ⟨hgrows, hok⟩ := hw.sound.read le_rfl t d
  exact .bind (Nat.zero_le _) hgrows fun v u hv => hf v u (hok v u hv).2

theorem grows_deep (hw : w.Settled) (fresh : Bool) (target : Option String) (source : String) :
    w.store.Grows 0 ((performCommon fresh (.deep target source)).after w).store := by
  refine .bind (Nat.zero_le _) (.of_observes (observes_lookup source) w) fun v u hv => ?_
  obtain ⟨hv, rfl⟩ := Run.lookup_inv hv
  have hcopy := accounts_deepCopy hw.locks (hw.sound.variable hv)
    (hw.sound.alive_of_le (World.pieces_le_owned (World.mem_of_find? hv)))
  refine .bind (Nat.zero_le _) (.of_observes (.require _) u) fun _ z hz => ?_
  obtain rfl := Run.require_inv hz
  refine .bind (Nat.zero_le _) (hcopy.grows (by decide) hw.sound) fun copy z _ => ?_
  exact within_deliver Store.Grows.lenient target v.type copy z

theorem grows_race (type : Ty) (threads : Nat) :
    w.store.Grows 0 ((race type threads).after w).store := by
  unfold race Run.require
  split
  · exact .refl _
  · exact .refl _

theorem Run.ChangesAt.grows {α : Type} {act : Run α} {places : Nat → Prop}
    (h : act.ChangesAt w places) : w.store.Grows 0 (act.after w).store := by
  rcases h.2 with e | ⟨place, b, content, -, hb, hh, e⟩
  · rw [e]
    exact .refl _
  · rw [e]
    exact .put hb (.inl hh)

theorem Function.addTo_changes (x : Int) (v : Value) (u : World) :
    (∃ y, Function.addTo x v u = .ok y u ∧ ∀ h ∈ y.1.handles, h ∈ v.handles) ∨
      ∃ e, Function.addTo x v u = .error e u := by
  unfold Function.addTo
  split
  · exact .inl ⟨_, rfl, by simp [Function.wrap, Value.handles]⟩
  · exact .inr ⟨_, rfl⟩

/-- Calls change no handles. -/
theorem grows_apply (code : Code) (captured x : Value) :
    w.store.Grows 0 ((Function.apply code captured x).after w).store := by
  rcases Function.apply_cases code captured x with ⟨v, he⟩ | ⟨e, he⟩ | ⟨total, n, -, -, he⟩
  · rw [he]
    exact .refl _
  · rw [he]
    exact .refl _
  · rw [he]
    exact (Cell.update_changes (Function.addTo_changes n) total w).grows

theorem grows_poke (target : Option Nat) (n : Nat) :
    w.store.Grows 0 ((Object.poke target n).after w).store := by
  cases target with
  | none => exact .of_observes (.fatal _) w
  | some id => exact (Object.poke_changes id n w).grows

/-- A step that is no edit gives new handles to nothing that was there. -/
theorem grows_next (fresh : Bool) (hw : w.Settled) {step : Step}
    (hstep : ∀ var path, step ≠ .mutate var path) :
    w.store.Grows 0 (next fresh w step).store := by
  have hL := Store.Grows.lenient
  by_cases hplain : step.plain
  · exact within_plain hL fresh hplain w
  cases step with
  | define target type value =>
    exact grows_read hw type value fun v u _ => within_deliver hL target type v u
  | deep target source => exact grows_deep hw fresh target source
  | mutate var path => exact absurd rfl (hstep var path)
  | race type count =>
    exact .bind (Nat.zero_le _) (within_readNat hL _ _ w) fun n u _ => grows_race type n
  | new target type value =>
    refine .bind (Nat.zero_le _) (.of_observes (.require _) w) fun _ u hu => ?_
    obtain rfl := Run.require_inv hu
    refine grows_read hw type value fun v u hv => ?_
    exact .bind (Nat.zero_le _) (grows_set none hv) fun slot u _ =>
      within_deliver hL target .erased _ u
  | set var type value =>
    refine .bind (Nat.zero_le _) (.of_observes (.require _) w) fun _ u hu => ?_
    obtain rfl := Run.require_inv hu
    refine grows_read hw type value fun v u hv => ?_
    have hlook := observes_lookupErased var
    refine .bind (Nat.zero_le _) ((Run.Within.of_observes hL hlook).unwinding hL [v] u)
      fun current z hz => ?_
    have hstore : z.store = u.store := hlook.store_eq (Run.ok_of_unwinding hz)
    refine .bind (Nat.zero_le _) (grows_set current (by rwa [hstore])) fun target z _ => ?_
    exact (Run.Within.bind hL (.of_observes hL (.orRefuse var)) fun name =>
      .bind hL (.bindVariable hL name _ _) fun _ => .pure hL _) z
  | erasedEquals var type value =>
    refine .bind (Nat.zero_le _) (.of_observes (.require _) w) fun _ u hu => ?_
    obtain rfl := Run.require_inv hu
    refine grows_read hw type value fun v u _ => ?_
    refine (Run.Within.bind hL (.dropping hL (.of_observes hL ?_) [v]) fun _ => .pure hL _) u
    exact .bind (observes_lookupErased var) fun target => observes_equalsValue target type v
  | poke var n => exact within_pokeStep hL (fun target n u => grows_poke target n) var n w
  | call var argument total =>
    exact within_callStep hL (within_call hL fun code captured x u => grows_apply code captured x) var
      argument
      total w
  | _ => exact absurd rfl hplain

end steps

/-- From a state of a run in which no allocation owns itself, steps that are no edits lead to such
states only, however many there are. After any one step, an allocation that owns itself does so
through a cell which was there before and into which the step, an edit, has written a new handle. -/
theorem only_cell_writes_make_cycles (fresh : Bool) (steps : List Step)
    (hac : (Machine.after fresh steps).store.Acyclic) :
    let w := Machine.after fresh steps
    (∀ more : List Step, (∀ step ∈ more, ∀ var path, step ≠ .mutate var path) →
      (Machine.after fresh (steps ++ more)).store.Acyclic) ∧
    ∀ step id,
      let w' := Machine.next fresh w step
      Relation.TransGen w'.store.Owns id id →
      (∃ var path, step = .mutate var path) ∧
        ∃ cell, w.store.Written w'.store cell ∧ Relation.ReflTransGen w'.store.Owns id cell ∧
          Relation.TransGen w'.store.Owns cell id := by
  intro w
  constructor
  · intro more
    induction more using List.reverseRecOn with
    | nil =>
      intro _
      rw [List.append_nil]
      exact hac
    | append_singleton more step ih =>
      intro hmore
      have hw := Machine.settled_after fresh (steps ++ more)
      rw [← List.append_assoc, Machine.after_concat]
      refine (ih fun x hx => hmore x (by simp [hx])).of_grows hw.target_lt ?_
      exact grows_next fresh hw (hmore step (by simp))
  · intro step id w' hid
    have hw : w.Settled := Machine.settled_after fresh steps
    by_cases hstep : ∃ var path, step = .mutate var path
    · obtain ⟨var, path, rfl⟩ := hstep
      exact ⟨⟨var, path, rfl⟩, hac.cycle_written hw.target_lt (grows_mutate hw var path) hid⟩
    · have hnext : w'.store.Acyclic := by
        refine hac.of_grows hw.target_lt (grows_next fresh hw fun var path he => ?_)
        exact hstep ⟨var, path, he⟩
      exact absurd hid (hnext id)

/-- An erased value holds a cell. Storing in its place a list of clones of itself makes no cycle;
putting it into the cell does. -/
theorem only_cell_writes_make_cycles_overwritten :
    let self : Datum := .record [("$var", .text "a")]
    let steps : List Step :=
      [.define (some "c") (.cell .erased) (.record [("ref", .null)]),
        .new (some "a") (.cell .erased) (.record [("$var", .text "c")])]
    let w := Machine.after false steps
    let stored := Machine.after false (steps ++ [.set (some "a") (.list .erased) (.list [self, self])])
    let put := Machine.next false w (.mutate "c" (.record [("put", self)]))
    w.store.Acyclic ∧
      stored.store.get? 2 = some ⟨.slot ⟨1, .list .erased⟩ (.list .erased),
        .node .sequence [.handle .slot (some 1), .handle .slot (some 1)], 1⟩ ∧
      stored.store.Acyclic ∧
      Relation.TransGen put.store.Owns 1 1 ∧
      ∃ cell, w.store.Written put.store cell ∧ Relation.ReflTransGen put.store.Owns 1 cell := by
  intro self steps w stored put
  have hw : w.store =
      ⟨#[some ⟨.cell .erased, .handle .slot none, 2⟩,
        some ⟨.slot ⟨0, .cell .erased⟩ (.cell .erased), .handle .cell (some 0), 1⟩]⟩ := by
    simp only [w, steps]
    cbv
  have hput : put.store =
      ⟨#[some ⟨.cell .erased, .handle .slot (some 1), 2⟩,
        some ⟨.slot ⟨0, .cell .erased⟩ (.cell .erased), .handle .cell (some 0), 2⟩]⟩ := by
    simp only [put, w, steps, self]
    cbv
  have hac : w.store.Acyclic := Store.acyclic_of_lt (by rw [hw]; decide)
  have hcycle : Relation.TransGen put.store.Owns 1 1 := by
    rw [hput]
    exact .tail (.single ⟨_, rfl, _, List.mem_singleton_self _, rfl⟩)
      ⟨_, rfl, _, List.mem_singleton_self _, rfl⟩
  obtain ⟨hmore, hstep⟩ := only_cell_writes_make_cycles false steps hac
  obtain ⟨-, cell, hcell, hway, -⟩ := hstep (.mutate "c" (.record [("put", self)])) 1 hcycle
  refine ⟨hac, ?_, hmore _ (by simp), hcycle, cell, hcell, hway⟩
  simp only [stored, steps, self]
  cbv

end SharedValues
