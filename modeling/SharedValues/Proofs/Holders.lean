import Mathlib
import SharedValues.Proofs.Overwriting

/-!
Values in hand, each with a position at which a handle is found in it. They are cloned, stored in
slots, extracted from them and given up: what stays in hand leads to what it led to, and what is new
leads where the value that it was made from does.
-/
namespace SharedValues

section positions

variable {s s' : Store} {v x : Value} {path : List Nat}

theorem Store.At.persist {follow : HandleKind → Bool} (h : s.At follow v path x)
    (hp : s.Persists s') : s'.At follow v path x := by
  induction h with
  | here => exact .here
  | part hi _ ih => exact .part hi ih
  | behind hk ha _ ih =>
    obtain ⟨b, hb, -, hc⟩ := hp _ _ ha
    exact .behind hk hb (hc ▸ ih)

/-- A value that holds no handles leads to none. -/
theorem Store.At.handles_ne_nil {follow : HandleKind → Bool} {k : HandleKind} {id : Nat}
    (h : s.At follow v path (.handle k (some id))) : v.handles ≠ [] := by
  generalize hx : Value.handle k (some id) = x at h
  induction h with
  | here =>
    subst hx
    simp [Value.handles]
  | part hi _ ih =>
    obtain ⟨y, hy⟩ := List.exists_mem_of_ne_nil _ (ih hx)
    exact List.ne_nil_of_mem (Value.mem_handles_node (List.mem_of_getElem? hi) hy)
  | behind => simp [Value.handles]

/-- Whatever comes and goes, an allocation that holds handles keeps its role and its content. -/
structure Store.Steady (s s' : Store) : Prop where
  evolves : s.Evolves s'
  fixed : ∀ id a, s.get? id = some a → a.content.handles ≠ [] → s'.Fixed id a.role a.content

namespace Store.Steady

theorem refl (s : Store) : s.Steady s :=
  ⟨.refl s, fun _ _ ha _ => fixed_of_get? ha⟩

theorem trans {s'' : Store} (h : s.Steady s') (h' : s'.Steady s'') : s.Steady s'' := by
  refine ⟨h.evolves.trans h'.evolves, fun id a ha hne => ?_⟩
  have hlt := lt_next_of_get? ha
  refine ⟨Nat.lt_of_lt_of_le hlt (h.evolves.trans h'.evolves).next_le, fun c hc => ?_⟩
  obtain ⟨b, hb, -⟩ :=
    h'.evolves.role_eq id (Nat.lt_of_lt_of_le hlt h.evolves.next_le) c hc
  obtain ⟨hr, hcontent⟩ := (h.fixed id a ha hne).2 b hb
  obtain ⟨hr', hcontent'⟩ := (h'.fixed id b hb (hcontent ▸ hne)).2 c hc
  exact ⟨hr'.trans hr, hcontent'.trans hcontent⟩

/-- Writing where there are no handles. -/
theorem put {place : Nat} {b b' : Allocation} (hb : s.get? place = some b)
    (hc : b.content.handles = []) (hr : b'.role = b.role) : s.Steady (s.put place b') := by
  refine ⟨.put hb hr, fun id a ha hne => (fixed_of_get? ha).put ?_ b'⟩
  rintro rfl
  cases ha.symm.trans hb
  exact hne hc

end Store.Steady

theorem Moves.steady {c d : Config} (hm : Moves .shrink c d) : c.world.store.Steady d.world.store :=
  ⟨hm.evolves, fun _ _ ha _ => hm.fixed (Store.fixed_of_get? ha)⟩

/-- A handle stays at its position in what is still alive. -/
theorem Store.At.steady {k : HandleKind} {id : Nat}
    (h : s.At (fun _ => true) v path (.handle k (some id))) (hs : s.Steady s') (hc : s'.Closed)
    (hv : ∀ y ∈ v.handles, s'.Alive y) : s'.At (fun _ => true) v path (.handle k (some id)) := by
  generalize hx : Value.handle k (some id) = x at h
  induction h with
  | here => exact .here
  | part hi _ ih =>
    have hm := List.mem_of_getElem? hi
    exact .part hi (ih (fun y hy => hv y (Value.mem_handles_node hm hy)) hx)
  | @behind k' j a _ _ hk ha hrest ih =>
    obtain ⟨b, hb, -⟩ := hv ⟨k', j⟩ (by simp [Value.handles])
    have hne : a.content.handles ≠ [] := by
      subst hx
      exact hrest.handles_ne_nil
    obtain ⟨-, hcontent⟩ := (hs.fixed j a ha hne).2 b hb
    exact .behind hk hb (hcontent ▸ ih (hcontent ▸ hc j b hb) hx)

/-- A position determines what stands there. -/
theorem Store.At.unique {follow : HandleKind → Bool} {y : Value} (h : s.At follow v path x)
    (h' : s.At follow v path y) : y = x := by
  induction h with
  | here =>
    cases h'
    rfl
  | part hi _ ih =>
    cases h' with
    | part hi' h' =>
      cases hi.symm.trans hi'
      exact ih h'
  | behind _ ha _ ih =>
    cases h' with
    | behind _ ha' h' =>
      cases ha.symm.trans ha'
      exact ih h'

end positions

/-- What has been extracted is a clone of the payload. -/
theorem World.Slot.extract_inv {w w' : World} {id : Nat} {table : Table} {type t : Ty} {v c : Value}
    (h : w.Slot id table type v) (hr : Erased.extract (some id) t w = .ok c w') :
    t = type ∧ v.clone w = .ok c w' := by
  by_cases e : t = type
  · subst e
    exact ⟨rfl, h.extract.symm.trans hr⟩
  · have haccess := h.access t
    rw [if_neg e] at haccess
    have htry : Erased.tryExtract (some id) t w =
        .ok (.error (.incompatibleType t.name table.type.name)) w := Run.bind_of_ok haccess
    rw [Erased.extract, Run.bind_of_ok htry] at hr
    cases hr

/-- A value in hand, with a position in it. -/
structure Holder where
  type : Ty
  value : Value
  path : List Nat
  deriving DecidableEq

namespace Holder

/-- The handle stands at the position. -/
def Finds (x : Holder) (s : Store) (h : Handle) : Prop :=
  s.At (fun _ => true) x.value x.path (.handle h.kind (some h.target))

theorem Finds.unique {x : Holder} {s : Store} {h h' : Handle} (hx : x.Finds s h)
    (hx' : x.Finds s h') : h' = h := by
  obtain ⟨k, id⟩ := h
  obtain ⟨k', id'⟩ := h'
  cases Store.At.unique hx hx'
  rfl

def pieces (xs : List Holder) : Multiset Piece :=
  Value.piecesOf (xs.map value)

theorem pieces_cons (x : Holder) (xs : List Holder) :
    pieces (x :: xs) = x.value.pieces + pieces xs := by
  rw [pieces, List.map_cons, Value.piecesOf_cons]
  rfl

theorem pieces_erase {x : Holder} {xs : List Holder} (hx : x ∈ xs) :
    pieces xs = x.value.pieces + pieces (xs.erase x) := by
  rw [← pieces_cons]
  exact Value.piecesOf_perm ((List.perm_cons_erase hx).map _)

end Holder

/-- The values in hand have their types, and between two operations no cell is locked. -/
structure Held (w : World) (xs : List Holder) (kept : Multiset Piece) : Prop where
  sound : Config.Sound ⟨w, Holder.pieces xs + kept⟩
  locks : w.locks = []
  typed : ∀ x ∈ xs, HasType w.store x.type x.value

namespace Held

variable {w u : World} {xs ys : List Holder} {kept : Multiset Piece} {x : Holder}

theorem le_hand (hx : x ∈ xs) : x.value.pieces ≤ Holder.pieces xs + kept := by
  rw [Holder.pieces_erase hx, add_assoc]
  exact Multiset.le_add_right _ _

theorem alive (h : Held w xs kept) (hx : x ∈ xs) : ∀ y ∈ x.value.handles, w.store.Alive y :=
  h.sound.alive_of_le (le_hand hx)

theorem closed (h : Held w xs kept) : w.store.Closed :=
  h.sound.closed h.locks

theorem alive_of_finds (h : Held w xs kept) (hx : x ∈ xs) {y : Handle} (hf : x.Finds w.store y) :
    w.store.Alive y :=
  Store.At.alive hf h.closed (h.alive hx) y (by simp [Value.handles])

/-- What is in hand leads where it led before, unless handles have been written over meanwhile. -/
theorem finds_of_steady (h : Held u ys kept) {s : Store} (hs : s.Steady u.store) (hx : x ∈ ys)
    {y : Handle} (hf : x.Finds s y) : x.Finds u.store y :=
  Store.At.steady hf hs h.closed (h.alive hx)

/-- What is added and given up leaves what stays in hand. -/
theorem finds (h : Held w xs kept)
    (hm : Moves .shrink ⟨w, Holder.pieces xs + kept⟩ ⟨u, Holder.pieces ys + kept⟩) (hx : x ∈ ys)
    {y : Handle} (hf : x.Finds w.store y) : x.Finds u.store y := by
  have hs := h.sound.moves hm
  have hl : u.locks = [] := (hm.locks_eq (Scope.le_refl _)).trans h.locks
  exact Store.At.steady hf hm.steady (hs.closed hl) (hs.alive_of_le (le_hand hx))

theorem moves (h : Held w xs kept)
    (hm : Moves .shrink ⟨w, Holder.pieces xs + kept⟩ ⟨u, Holder.pieces ys + kept⟩)
    (hnew : ∀ y ∈ ys, y ∈ xs ∨ HasType u.store y.type y.value) : Held u ys kept where
  sound := h.sound.moves hm
  locks := (hm.locks_eq (Scope.le_refl _)).trans h.locks
  typed y hy := (hnew y hy).elim (fun hx => (h.typed y hx).evolve hm.evolves) id

/-- A copy comes to hand. -/
theorem copied (h : Held w xs kept) {act : Run Value} {err : Config → Prop} {t : Ty} {c : Value}
    (hacc : Accounts .grow act ⟨w, Holder.pieces xs + kept⟩
      (CopyOf (.value t) ⟨w, Holder.pieces xs + kept⟩) err)
    (hr : act w = .ok c u) (path : List Nat) :
    Moves .shrink ⟨w, Holder.pieces xs + kept⟩ ⟨u, Holder.pieces (⟨t, c, path⟩ :: xs) + kept⟩ ∧
      HasType u.store t c := by
  obtain ⟨hand, hm, hhand, htyped⟩ := hacc.of_ok h.sound hr
  obtain rfl : hand = Holder.pieces (⟨t, c, path⟩ :: xs) + kept := by
    rw [Holder.pieces_cons, add_assoc]
    exact hhand
  exact ⟨hm.widen (by decide), htyped⟩

/-- A deep copy joins what is in hand. -/
theorem deepCopied (h : Held w xs kept) (hx : x ∈ xs) {c : Value}
    (hr : x.value.deepCopy w = .ok c u) :
    Moves .shrink ⟨w, Holder.pieces xs + kept⟩
        ⟨u, Holder.pieces (⟨x.type, c, x.path⟩ :: xs) + kept⟩ ∧
      Held u (⟨x.type, c, x.path⟩ :: xs) kept := by
  obtain ⟨hm, ht⟩ := h.copied (accounts_deepCopy h.locks (h.typed x hx) (h.alive hx)) hr x.path
  refine ⟨hm, h.moves hm fun y hy => ?_⟩
  rcases List.mem_cons.mp hy with rfl | hy
  · exact .inr ht
  · exact .inl hy

/-- A value is stored, and its slot takes its place. -/
theorem stored (h : Held w xs kept) (hx : x ∈ xs) (ht : x.type ≠ .erased) {target : Option Nat}
    (hr : Erased.new x.type x.value w = .ok target u) :
    Moves .shrink ⟨w, Holder.pieces xs + kept⟩
        ⟨u, Holder.pieces (⟨.erased, .handle .slot target, 0 :: x.path⟩ :: xs.erase x) + kept⟩ ∧
      HasType u.store .erased (.handle .slot target) ∧
      ∃ id table, target = some id ∧ u.store.get? id = some ⟨.slot table x.type, x.value, 1⟩ ∧
        w.store.Persists u.store := by
  have hacc : Accounts .shrink (Erased.set none x.type x.value) ⟨w, Holder.pieces xs + kept⟩
      (fun target d => d.hand = (Value.handle .slot target).pieces +
          (Holder.pieces (xs.erase x) + kept) ∧
        HasType d.world.store .erased (.handle .slot target)) fun _ => False :=
    accounts_set (by simp [Holder.pieces_erase hx, add_assoc]) (h.typed x hx)
  obtain ⟨hand, hm, hhand, hslot⟩ := hacc.of_ok h.sound hr
  obtain rfl : hand =
      Holder.pieces (⟨.erased, .handle .slot target, 0 :: x.path⟩ :: xs.erase x) + kept := by
    rw [Holder.pieces_cons, add_assoc]
    exact hhand
  obtain ⟨table, u', hset, hstore, -⟩ := Erased.set_ok ht none x.value w
  rw [w.release_absent] at hset hstore
  cases hset.symm.trans hr
  refine ⟨hm, hslot, w.store.next, table, rfl, ?_⟩
  rw [hstore]
  exact ⟨Store.get?_push_next _ _, Store.persists_push _ _⟩

/-- The slot leads where the value led that has been stored in it. -/
theorem finds_stored (h : Held w xs kept) (hx : x ∈ xs) (ht : x.type ≠ .erased)
    {target : Option Nat} (hr : Erased.new x.type x.value w = .ok target u) {y : Handle}
    (hf : x.Finds w.store y) :
    Holder.Finds ⟨.erased, .handle .slot target, 0 :: x.path⟩ u.store y := by
  obtain ⟨-, -, id, table, rfl, hget, hp⟩ := h.stored hx ht hr
  exact .behind rfl hget (Store.At.persist hf hp)

end Held

/-- What is done with values in hand. One of them is cloned or stored in a slot, a clone is extracted
from a slot, what stands at the position is cloned by itself, or a value is given up. -/
inductive Handling (w : World) (xs : List Holder) : World → List Holder → Prop where
  | clone {x : Holder} {c : Value} {u : World} (hx : x ∈ xs) (hr : x.value.clone w = .ok c u) :
    Handling w xs u (⟨x.type, c, x.path⟩ :: xs)
  | store {x : Holder} {target : Option Nat} {u : World} (hx : x ∈ xs) (ht : x.type ≠ .erased)
    (hr : Erased.new x.type x.value w = .ok target u) :
    Handling w xs u (⟨.erased, .handle .slot target, 0 :: x.path⟩ :: xs.erase x)
  | extract {target : Option Nat} {path : List Nat} {t : Ty} {c : Value} {u : World}
    (hx : ⟨.erased, .handle .slot target, 0 :: path⟩ ∈ xs)
    (hr : Erased.extract target t w = .ok c u) : Handling w xs u (⟨t, c, path⟩ :: xs)
  | pick {x : Holder} {t : Ty} {v c : Value} {u : World} (hx : x ∈ xs)
    (hv : w.store.At (fun _ => true) x.value x.path v) (ht : HasType w.store t v)
    (hr : v.clone w = .ok c u) : Handling w xs u (⟨t, c, []⟩ :: xs)
  | drop {x : Holder} (hx : x ∈ xs) : Handling w xs (w.release [x.value]) (xs.erase x)

namespace Handling

variable {w u : World} {xs ys : List Holder} {kept : Multiset Piece}

/-- What is new in hand has its type, and leads where a value from before led. -/
theorem step (h : Held w xs kept) (hd : Handling w xs u ys) :
    Moves .shrink ⟨w, Holder.pieces xs + kept⟩ ⟨u, Holder.pieces ys + kept⟩ ∧
      ∀ y ∈ ys, y ∈ xs ∨ HasType u.store y.type y.value ∧
        ∃ x ∈ xs, ∀ k, x.Finds w.store k → y.Finds u.store k := by
  cases hd with
  | @clone x c _ hx hr =>
    obtain ⟨hm, ht⟩ := h.copied (accounts_clone (h.typed x hx) (h.alive hx)) hr x.path
    obtain rfl := Value.eq_of_clone hr
    refine ⟨hm, fun y hy => ?_⟩
    rcases List.mem_cons.mp hy with rfl | hy
    · exact .inr ⟨ht, x, hx, fun k hk => h.finds hm (List.mem_cons_of_mem _ hx) hk⟩
    · exact .inl hy
  | @store x target _ hx ht hr =>
    obtain ⟨hm, hslot, -⟩ := h.stored hx ht hr
    refine ⟨hm, fun y hy => ?_⟩
    rcases List.mem_cons.mp hy with rfl | hy
    · exact .inr ⟨hslot, x, hx, fun k hk => h.finds_stored hx ht hr hk⟩
    · exact .inl (List.mem_of_mem_erase hy)
  | @extract target path t c _ hx hr =>
    obtain ⟨id, rfl⟩ : ∃ id, target = some id := by
      cases target with
      | none => cases hr
      | some id => exact ⟨id, rfl⟩
    obtain ⟨table, type, payload, hslot⟩ :=
      h.sound.slot_of_alive (h.alive hx ⟨.slot, id⟩ (by simp [Value.handles]))
    obtain ⟨rfl, hclone⟩ := hslot.extract_inv hr
    obtain ⟨n, hget⟩ := hslot.alive
    have halive := h.closed id _ hget
    obtain ⟨hm, ht⟩ := h.copied (accounts_clone hslot.typed halive) hclone path
    obtain rfl := Value.eq_of_clone hclone
    refine ⟨hm, fun y hy => ?_⟩
    rcases List.mem_cons.mp hy with rfl | hy
    · refine .inr ⟨ht, _, hx, fun k hk => ?_⟩
      have hstay := h.finds hm (List.mem_cons_of_mem _ hx) hk
      unfold Holder.Finds at hstay
      cases hstay with
      | behind _ ha hrest =>
        rw [((hm.fixed (Store.fixed_of_get? hget)).2 _ ha).2] at hrest
        exact hrest
    · exact .inl hy
  | @pick x t v c _ hx hv ht hr =>
    have halive := hv.alive h.closed (h.alive hx)
    obtain ⟨hm, htyped⟩ := h.copied (accounts_clone ht halive) hr []
    obtain rfl := Value.eq_of_clone hr
    refine ⟨hm, fun y hy => ?_⟩
    rcases List.mem_cons.mp hy with rfl | hy
    · refine .inr ⟨htyped, x, hx, fun k hk => ?_⟩
      cases hv.unique hk
      exact .here
    · exact .inl hy
  | @drop x hx =>
    have hhand : Holder.pieces xs + kept =
        Value.piecesOf [x.value] + (Holder.pieces (xs.erase x) + kept) := by
      rw [Holder.pieces_erase hx, add_assoc, Value.piecesOf_cons, Value.piecesOf_nil, add_zero]
    exact ⟨.one (Scope.le_refl _) (.release hhand), fun y hy => .inl (List.mem_of_mem_erase hy)⟩

theorem held (h : Held w xs kept) (hd : Handling w xs u ys) : Held u ys kept := by
  obtain ⟨hm, hnew⟩ := hd.step h
  exact h.moves hm fun y hy => (hnew y hy).imp_right And.left

theorem finds (h : Held w xs kept) (hd : Handling w xs u ys) {y : Holder} (hy : y ∈ ys) :
    ∃ x ∈ xs, ∀ k, x.Finds w.store k → y.Finds u.store k := by
  obtain ⟨hm, hnew⟩ := hd.step h
  rcases hnew y hy with hx | ⟨-, hx⟩
  · exact ⟨y, hx, fun k => h.finds hm hy⟩
  · exact hx

end Handling

section making

variable {w : World} {xs : List Holder} {kept : Multiset Piece} {t : Ty} {k : HandleKind} {id : Nat}

theorem Value.clone_handle (ha : w.store.Alive ⟨k, id⟩) :
    ∃ u, (Value.handle k (some id)).clone w = .ok (.handle k (some id)) u := by
  obtain ⟨a, ha, hk⟩ := ha
  have hshare : Value.share k id w = .ok id
      { w with store := w.store.put id { a with shares := a.shares + 1 } } :=
    Run.bind_of_ok (hk ▸ Run.retain_of_get? ha)
  rw [Value.clone, Value.copyWith, Run.bind_of_ok hshare]
  exact ⟨_, rfl⟩

/-- A handle in hand can be stored and extracted, unless it is one to a slot already. -/
theorem Held.extract_ok (h : Held w xs kept) (hx : ⟨t, .handle k (some id), []⟩ ∈ xs)
    (hk : k ≠ .slot) : ∃ target u u', Erased.new t (.handle k (some id)) w = .ok target u ∧
      Erased.extract target t u = .ok (.handle k (some id)) u' := by
  have ht : t ≠ .erased := by
    rintro rfl
    obtain ⟨target, he⟩ := (h.typed _ hx).erased_inv
    cases he
    exact hk rfl
  obtain ⟨table, u, hset, -⟩ := Erased.set_ok ht none (.handle k (some id)) w
  have h' : Held u _ kept := (Handling.store hx ht hset).held h
  obtain ⟨-, -, place, table, htarget, hget, -⟩ := h.stored hx ht hset
  have halive := h'.closed place _ hget ⟨k, id⟩ (by simp [Value.handles])
  obtain ⟨u', hclone⟩ := Value.clone_handle halive
  refine ⟨_, u, u', hset, ?_⟩
  rw [htarget]
  exact (h'.sound.slot hget rfl).extract.trans hclone

end making

end SharedValues
