import Mathlib
import SharedValues.Proofs.Unwinding

/-!
The order in which variables let go. Which drop ends an allocation depends on the order, and so does
the sequence of the events. What does not depend on it: the hand that is left determines the store,
and every event is due from the start, to a probe or to the end of an allocation.
-/
namespace SharedValues

/-- The events of the end of an allocation: the reports of a slot, and the end of each probe that it
owned. -/
def Allocation.ending (id : Nat) (a : Allocation) : List Event :=
  a.role.reported.flatMap (fun t => [.lastShare id t, .destroying t]) ++
    a.content.probes.map .dropped

namespace Store

/-- The events that are due if there is a live allocation at the address. -/
def dueAt (s : Store) (id : Nat) : Multiset Event :=
  (s.get? id).elim 0 fun a => ↑(a.ending id)

/-- The events that are due to the live allocations. -/
def due (s : Store) : Multiset Event :=
  ∑ id ∈ Finset.range s.next, s.dueAt id

/-- The events of the end of all allocations that are no longer alive in the second store. -/
def endings (s s' : Store) : Multiset Event :=
  ∑ id ∈ Finset.range s.next with s'.get? id = none, s.dueAt id

theorem dueAt_of_get? {s : Store} {id : Nat} {a : Allocation} (h : s.get? id = some a) :
    s.dueAt id = a.ending id := by
  simp [dueAt, h]

theorem dueAt_of_none {s : Store} {id : Nat} (h : s.get? id = none) : s.dueAt id = 0 := by
  simp [dueAt, h]

theorem due_erase {s : Store} {id : Nat} {a : Allocation} (ha : s.get? id = some a) :
    (s.erase id).due + a.ending id = s.due := by
  have hm : id ∈ Finset.range s.next := Finset.mem_range.mpr (lt_next_of_get? ha)
  have hothers : ∑ x ∈ (Finset.range s.next).erase id, (s.erase id).dueAt x =
      ∑ x ∈ (Finset.range s.next).erase id, s.dueAt x := by
    refine Finset.sum_congr rfl fun x hx => ?_
    rw [dueAt, get?_erase_other s (Finset.ne_of_mem_erase hx), ← dueAt]
  unfold due
  rw [next_erase, ← Finset.sum_erase_add _ _ hm, ← Finset.sum_erase_add _ s.dueAt hm, hothers,
    dueAt_of_none (get?_erase_same s id), dueAt_of_get? ha, add_zero]

/-- The number of shares does not matter for what is due. -/
theorem due_put_shares {s : Store} {id : Nat} {a : Allocation} (n : Nat)
    (ha : s.get? id = some a) : (s.put id { a with shares := n }).due = s.due := by
  unfold due
  rw [next_put]
  refine Finset.sum_congr rfl fun x _ => ?_
  by_cases e : x = id
  · subst e
    rw [dueAt_of_get? (get?_put_same _ (lt_next_of_get? ha)), dueAt_of_get? ha]
    rfl
  · rw [dueAt, get?_put_other s _ e, ← dueAt]

/-- What is due is due to the allocations that stay and to those that end. -/
theorem due_eq {s s' : Store} (hn : s'.next = s.next) (hag : s.Agrees s')
    (hs : ∀ id b, s'.get? id = some b → ∃ a, s.get? id = some a) :
    s.due = s'.due + s.endings s' := by
  have hstay : ∑ id ∈ Finset.range s.next with ¬s'.get? id = none, s.dueAt id = s'.due := by
    unfold due
    rw [hn, Finset.sum_filter]
    refine Finset.sum_congr rfl fun id _ => ?_
    cases hb : s'.get? id with
    | none => rw [if_neg (by simp), dueAt_of_none hb]
    | some b =>
      obtain ⟨a, ha⟩ := hs id b hb
      obtain ⟨hr, hc⟩ := hag id a b ha hb
      rw [if_pos (by simp), dueAt_of_get? ha, dueAt_of_get? hb, Allocation.ending,
        Allocation.ending, hr, hc]
  rw [← hstay, due, ← Finset.sum_filter_add_sum_filter_not _ (fun id => s'.get? id = none), add_comm]
  rfl

/-- A store is its addresses and what is found there. -/
theorem eq_of_get? {s s' : Store} (hn : s'.next = s.next) (h : ∀ id, s'.get? id = s.get? id) :
    s' = s := by
  obtain ⟨xs⟩ := s
  obtain ⟨ys⟩ := s'
  have hxy : ys = xs := by
    refine Array.ext hn fun i hi hi' => ?_
    simpa [get?, hi, hi'] using h i
  rw [hxy]

end Store

theorem Value.probesOf_eq_flatMap (vs : List Value) : probesOf vs = vs.flatMap probes := by
  induction vs with
  | nil => rfl
  | cons v vs ih => rw [probesOf, ih, List.flatMap_cons]

theorem Value.probesOf_handle (k : HandleKind) (target : Option Nat) (vs : List Value) :
    probesOf (.handle k target :: vs) = probesOf vs := by
  simp [probesOf, probes]

namespace World

theorem trace_destroy_eq (w : World) (id : Nat) (a : Allocation) :
    (w.destroy id a).trace =
      w.trace ++ a.role.reported.flatMap (fun t => [.lastShare id t, .destroying t]) := by
  cases hr : a.role <;> simp [destroy, hr, Role.reported, recordAll]

/-- Every event of giving up is due before, and what is due then is due still or has happened. -/
theorem events_release (vs : List Value) (w : World) :
    ((w.release vs).trace : Multiset Event) + (w.release vs).store.due =
      ↑w.trace + ↑((Value.probesOf vs).map Event.dropped) + w.store.due := by
  fun_induction World.release vs w with
  | case1 w => simp [Value.probesOf]
  | case2 s rest w ih => simpa [Value.probesOf, Value.probes] using ih
  | case3 p rest w ih =>
    have hp : Value.probesOf (.probe p :: rest) = p :: Value.probesOf rest := by
      simp [Value.probesOf, Value.probes]
    rw [ih, hp]
    simp [record]
  | case4 k rest w ih => rw [ih, Value.probesOf_handle]
  | case5 k id rest w hg ih => rw [ih, Value.probesOf_handle]
  | case6 k id rest w a ha h1 ih =>
    rw [ih, Value.probesOf_handle, trace_destroy_eq, destroy_store, ← Store.due_erase ha,
      Allocation.ending, Value.probesOf]
    simp only [List.map_append, ← Multiset.coe_add]
    abel
  | case7 k id rest w a ha h1 ih =>
    rw [ih, Value.probesOf_handle, Store.due_put_shares _ ha]
  | case8 shape parts rest w ih =>
    have hp : Value.probesOf (parts ++ rest) = Value.probesOf (.node shape parts :: rest) := by
      rw [Value.probesOf, Value.probes]
      simp only [Value.probesOf_eq_flatMap, List.flatMap_append]
    rw [ih, hp]

theorem next_release (vs : List Value) (w : World) : (w.release vs).store.next = w.store.next := by
  fun_induction World.release vs w with
  | case1 w => rfl
  | case6 k id rest w a ha h1 ih => simpa using ih
  | case7 k id rest w a ha h1 ih => simpa using ih
  | _ => assumption

/-- Giving up does not look at the variables. -/
theorem release_bindings (vs : List Value) (w : World) (bs : List (String × Variable)) :
    World.release vs { w with bindings := bs } = { w.release vs with bindings := bs } := by
  have hdestroy : ∀ (w : World) id a,
      destroy { w with bindings := bs } id a = { w.destroy id a with bindings := bs } := by
    intro w id a
    unfold destroy
    split <;> rfl
  fun_induction World.release vs w with
  | case1 w => rw [release]
  | case2 s rest w ih => rw [release, ih]
  | case3 p rest w ih =>
    rw [release, ← ih]
    rfl
  | case4 k rest w ih => rw [release, ih]
  | case5 k id rest w hg ih => rw [release_missing (w := { w with bindings := bs }) hg, ih]
  | case6 k id rest w a ha h1 ih =>
    rw [release_last (w := { w with bindings := bs }) ha h1, hdestroy, ih]
  | case7 k id rest w a ha h1 ih =>
    rw [release_share (w := { w with bindings := bs }) ha (Nat.lt_of_not_le h1), ← ih]
  | case8 shape parts rest w ih => rw [release, ih]

/-- The store that is left does not depend on the order in which the pieces are given up. -/
theorem store_release_eq {w : World} {vs ws : List Value} {hand : Multiset Piece}
    (hc : Config.AtRest ⟨w, Value.piecesOf vs + hand⟩)
    (hp : Value.piecesOf ws = Value.piecesOf vs) : (w.release ws).store = (w.release vs).store := by
  have hvs : Moves .shrink ⟨w, Value.piecesOf vs + hand⟩ ⟨w.release vs, hand⟩ :=
    .one (Scope.le_refl _) (.release rfl)
  have hws : Moves .shrink ⟨w, Value.piecesOf vs + hand⟩ ⟨w.release ws, hand⟩ :=
    .one (Scope.le_refl _) (.release (by rw [hp]))
  have hag : (w.release vs).store.Agrees (w.release ws).store := by
    intro id a b ha hb
    obtain ⟨x, hx, -⟩ := (sameBut_release vs w).content id a ha
    obtain ⟨hr, hc⟩ := hvs.agrees id x a hx ha
    obtain ⟨hr', hc'⟩ := hws.agrees id x b hx hb
    exact ⟨hr'.trans hr.symm, hc'.trans hc.symm⟩
  apply Store.eq_of_get?
  · rw [next_release, next_release]
  · exact (hc.moves hvs).get?_of_hand_eq (hc.moves hws) hag rfl

/-- Where the store is the same, only the trace can differ. -/
theorem SameBut.eq_of_store {w u u' : World} (h : w.SameBut u) (h' : w.SameBut u')
    (hs : u'.store = u.store) : { u' with trace := u.trace } = u := by
  have hl := h'.locks.trans h.locks.symm
  have hb := h'.bindings.trans h.bindings.symm
  have hr := h'.registry.trans h.registry.symm
  have hc := h'.created.trans h.created.symm
  cases u
  cases u'
  simp_all

/-- The events of giving values up: one for each of their probes, and those of the allocations that
end. -/
theorem exists_events_release (vs : List Value) (w : World) :
    ∃ es, (w.release vs).trace = w.trace ++ es ∧
      (es : Multiset Event) =
        ↑((Value.probesOf vs).map Event.dropped) + w.store.endings (w.release vs).store := by
  obtain ⟨es, he⟩ := trace_release vs w
  refine ⟨es, he.symm, ?_⟩
  have hsame := sameBut_release vs w
  have hdue : w.store.due = (w.release vs).store.due + w.store.endings (w.release vs).store := by
    refine Store.due_eq (next_release vs w) (fun id a b ha hb => ?_) fun id b hb => ?_
    · obtain ⟨a', ha', hc⟩ := hsame.content id b hb
      obtain ⟨a'', ha'', hr⟩ := hsame.evolves.role_eq id (Store.lt_next_of_get? ha) b hb
      cases ha.symm.trans ha'
      cases ha.symm.trans ha''
      exact ⟨hr.symm, hc⟩
    · obtain ⟨a, ha, -⟩ := hsame.content id b hb
      exact ⟨a, ha⟩
  have hevents := events_release vs w
  rw [← he, ← Multiset.coe_add, hdue] at hevents
  have h : (es : Multiset Event) + (↑w.trace + (w.release vs).store.due) =
      (↑((Value.probesOf vs).map Event.dropped) + w.store.endings (w.release vs).store) +
        (↑w.trace + (w.release vs).store.due) := by
    calc (es : Multiset Event) + (↑w.trace + (w.release vs).store.due)
      _ = ↑w.trace + ↑es + (w.release vs).store.due := by abel
      _ = _ := by rw [hevents]; abel
  exact add_right_cancel h

/-- The state without some of its variables. -/
def without (w : World) (names : List String) : World :=
  { w with bindings := w.bindings.filter (·.1 ∉ names) }

/-- The values of some of the variables. -/
def valuesOf (w : World) (names : List String) : List Value :=
  names.filterMap fun x => (w.find? x).map (·.value)

theorem without_nil (w : World) : w.without [] = w := by
  simp [without]

theorem without_cons (w : World) (x : String) (xs : List String) :
    w.without (x :: xs) = (w.unbind x).without xs := by
  simp only [without, unbind, List.filter_filter]
  congr 1
  apply List.filter_congr
  intro y _
  by_cases e : y.1 = x <;> simp [e]

theorem without_perm (w : World) {xs ys : List String} (h : xs.Perm ys) :
    w.without xs = w.without ys := by
  simp only [without, h.mem_iff]

theorem find?_unbind_other (w : World) {x y : String} (h : y ≠ x) :
    (w.unbind x).find? y = w.find? y := by
  unfold unbind find?
  induction w.bindings with
  | nil => rfl
  | cons b bs ih =>
    obtain ⟨z, v⟩ := b
    by_cases e : z = x
    · subst e
      have hne : (y == z) = false := by simpa using h
      rw [List.filter_cons_of_neg (by simp), ih, List.lookup_cons, hne]
    · rw [List.filter_cons_of_pos (by simpa using e), List.lookup_cons, List.lookup_cons, ih]

theorem valuesOf_cons {w : World} {x : String} {v : Variable} (hv : w.find? x = some v)
    (xs : List String) : w.valuesOf (x :: xs) = v.value :: w.valuesOf xs := by
  simp [valuesOf, hv]

theorem valuesOf_congr {w u : World} {xs : List String} (h : ∀ x ∈ xs, u.find? x = w.find? x) :
    u.valuesOf xs = w.valuesOf xs :=
  List.filterMap_congr fun x hx => by rw [h x hx]

/-- What the variables own is divided between some of them and the others. -/
theorem owned_without {w : World} {xs : List String} (ha : Ascending w.bindings) (hn : xs.Nodup)
    (hb : ∀ x ∈ xs, ∃ v, w.find? x = some v) :
    w.owned = Value.piecesOf (w.valuesOf xs) + (w.without xs).owned := by
  induction xs generalizing w with
  | nil => rw [without_nil, valuesOf, List.filterMap_nil, Value.piecesOf_nil, zero_add]
  | cons x xs ih =>
    obtain ⟨hx, hn⟩ := List.nodup_cons.mp hn
    obtain ⟨v, hv⟩ := hb x (List.mem_cons_self ..)
    have hothers : ∀ y ∈ xs, (w.unbind x).find? y = w.find? y := fun y hy =>
      find?_unbind_other w fun e => hx (e ▸ hy)
    have hrest := ih (w := w.unbind x) (ha.filter _) hn fun y hy => by
      rw [hothers y hy]
      exact hb y (List.mem_cons_of_mem _ hy)
    rw [owned_of_find? ha hv, hrest, valuesOf_cons hv, without_cons, valuesOf_congr hothers,
      Value.piecesOf_cons, add_assoc]

/-- The step drops the variable, on the thread of the run or on another one. -/
inductive Drops (w : World) : Step → String → Prop where
  | drop {x : String} {v : Variable} (h : w.find? x = some v) : Drops w (.drop x) x
  | threadDrop {x : String} {target : Option Nat} (h : w.Holds x .slot target) :
    Drops w (.threadDrop x) x

namespace Drops

variable {w u : World} {step : Step} {x : String}

theorem of_find? (h : w.Drops step x) (hf : u.find? x = w.find? x) : u.Drops step x := by
  cases h with
  | drop h => exact .drop (hf.trans h)
  | threadDrop h =>
    obtain ⟨t, h⟩ := h
    exact .threadDrop ⟨t, hf.trans h⟩

/-- Dropping a variable takes it away and gives its value up. -/
theorem perform (fresh : Bool) (h : w.Drops step x) :
    ∃ v, w.find? x = some v ∧
      Machine.perform fresh step w = .ok (.ok .null) ((w.unbind x).release [v.value]) := by
  cases h with
  | @drop _ v h =>
    refine ⟨v, h, ?_⟩
    rw [Machine.perform, Machine.performCommon, Run.bind_of_ok (Run.lookup_of_find? h)]
    rfl
  | threadDrop h =>
    have hlookup := h.lookupHandle
    obtain ⟨t, h⟩ := h
    refine ⟨_, h, ?_⟩
    rw [Machine.perform, Machine.performErased, Run.bind_of_ok hlookup]
    rfl

/-- Only variables are dropped. -/
theorem bound {steps : List Step} {xs : List String} (h : List.Forall₂ w.Drops steps xs) :
    ∀ x ∈ xs, ∃ v, w.find? x = some v := by
  induction h with
  | nil => simp
  | cons hd _ ih =>
    intro y hy
    rcases List.mem_cons.mp hy with rfl | hy
    · obtain ⟨v, hv, -⟩ := hd.perform false
      exact ⟨v, hv⟩
    · exact ih y hy

end Drops

/-- Dropping one variable after the other takes them all away and gives up their values in order. -/
theorem mapM_drops (fresh : Bool) {w : World} {steps : List Step} {xs : List String}
    (h : List.Forall₂ w.Drops steps xs) (hn : xs.Nodup) :
    steps.mapM (Machine.perform fresh) w =
      .ok (steps.map fun _ => .ok .null) ((w.without xs).release (w.valuesOf xs)) := by
  induction steps generalizing w xs with
  | nil =>
    cases h
    rw [without_nil, valuesOf, List.filterMap_nil, release]
    rfl
  | cons step steps ih =>
    cases h with
    | @cons _ x _ xs hd hrest =>
      obtain ⟨hx, hn⟩ := List.nodup_cons.mp hn
      obtain ⟨v, hv, hperform⟩ := hd.perform fresh
      let u := (w.unbind x).release [v.value]
      have hbindings : u.bindings = (w.unbind x).bindings := (sameBut_release _ _).bindings
      have hothers : ∀ y ∈ xs, u.find? y = w.find? y := by
        intro y hy
        rw [find?, hbindings]
        exact find?_unbind_other w fun e => hx (e ▸ hy)
      have hdrops : List.Forall₂ u.Drops steps xs := by
        obtain ⟨hlen, hget⟩ := List.forall₂_iff_get.mp hrest
        exact List.forall₂_iff_get.mpr ⟨hlen, fun i h₁ h₂ =>
          (hget i h₁ h₂).of_find? (hothers _ (List.get_mem _ _))⟩
      have hwithout : u.without xs = (w.without (x :: xs)).release [v.value] := by
        rw [without_cons]
        show { u with bindings := u.bindings.filter (·.1 ∉ xs) } =
          World.release [v.value] { w.unbind x with bindings := _ }
        rw [release_bindings, hbindings]
      rw [List.mapM_cons, Run.bind_of_ok hperform, Run.bind_of_ok (ih hdrops hn),
        valuesOf_congr hothers, hwithout, ← release_append, valuesOf_cons hv]
      rfl

end World

/-- The order in which variables are dropped does not matter. In every state without cycles that a run
reaches, dropping some of the variables succeeds in any order and on any thread. Two orders leave the
same state but for the sequence of the events, and the events are the same with their numbers: one
for each probe in the dropped variables, and for each allocation that is no longer alive one for each
probe that it owned and, if it is a slot, the two reports of its end. -/
theorem drop_order_irrelevant (fresh : Bool) (steps : List Step) :
    let w := Machine.after fresh steps
    w.store.Acyclic → ∀ drops drops' xs ys, List.Forall₂ w.Drops drops xs →
      List.Forall₂ w.Drops drops' ys → xs.Nodup → xs.Perm ys →
      ∃ u u' es es', drops.mapM (Machine.perform fresh) w = .ok (drops.map fun _ => .ok .null) u ∧
        drops'.mapM (Machine.perform fresh) w = .ok (drops'.map fun _ => .ok .null) u' ∧
        u.bindings = w.bindings.filter (·.1 ∉ xs) ∧ { u' with trace := u.trace } = u ∧
        u.trace = w.trace ++ es ∧ u'.trace = w.trace ++ es' ∧ es.Perm es' ∧
        (es : Multiset Event) =
          ↑((Value.probesOf (w.valuesOf xs)).map Event.dropped) + w.store.endings u.store := by
  intro w hac drops drops' xs ys hxs hys hn hperm
  have hw : w.Settled := Machine.settled_after fresh steps
  have howned := World.owned_without hw.ascending hn (World.Drops.bound hxs)
  have hvalues : (w.valuesOf ys).Perm (w.valuesOf xs) := hperm.symm.filterMap _
  let base := w.without xs
  have hys' := World.mapM_drops fresh hys (hperm.nodup_iff.mp hn)
  rw [← w.without_perm hperm] at hys'
  have hrest : Config.AtRest ⟨base, Value.piecesOf (w.valuesOf xs) + base.owned⟩ := by
    have hb : Moves .bind ⟨w, w.owned⟩ ⟨base, w.owned⟩ :=
      .one (Scope.le_refl _) (.bind fun x hx => hw.sound.bound x (List.mem_filter.mp hx).1)
    exact ⟨howned ▸ hw.sound.moves hb, hw.locks, hac⟩
  have hstore : (base.release (w.valuesOf ys)).store = (base.release (w.valuesOf xs)).store :=
    World.store_release_eq hrest (Value.piecesOf_perm hvalues)
  obtain ⟨es, he, hes⟩ := World.exists_events_release (w.valuesOf xs) base
  obtain ⟨es', he', hes'⟩ := World.exists_events_release (w.valuesOf ys) base
  have hsame := World.sameBut_release (w.valuesOf xs) base
  have hsame' := World.sameBut_release (w.valuesOf ys) base
  refine ⟨_, _, es, es', World.mapM_drops fresh hxs hn, hys', hsame.bindings, ?_, he, he', ?_, hes⟩
  · exact hsame.eq_of_store hsame' hstore
  · have hprobes : (Value.probesOf (w.valuesOf ys)).Perm (Value.probesOf (w.valuesOf xs)) := by
      rw [Value.probesOf_eq_flatMap, Value.probesOf_eq_flatMap]
      exact hvalues.flatMap_right _
    rw [← Multiset.coe_eq_coe, hes, hes', hstore, Multiset.coe_eq_coe.mpr (hprobes.map _)]

/-- A slot is shared by a variable, by a tuple and by the payload of another slot. In one order the
tuple ends it, in the other one the variable does. -/
theorem drop_order_irrelevant_shared_slot :
    let a : Datum := .record [("$var", .text "a")]
    let t : Ty := .tuple .erased (.tuple .probe .unit)
    let steps : List Step :=
      [.new (some "a") .probe (.int 1),
        .define (some "b") t (.list [a, .int 2]),
        .new (some "c") (.list .erased) (.list [a])]
    let w := Machine.after false steps
    let p : List Event := [.lastShare 0 .probe, .destroying .probe, .dropped ⟨1, none⟩]
    let q : List Event := [.lastShare 1 (.list .erased), .destroying (.list .erased)]
    (w.store.Acyclic ∧ List.Forall₂ w.Drops [.drop "a", .threadDrop "c", .drop "b"] ["a", "c", "b"] ∧
      List.Forall₂ w.Drops [.drop "b", .drop "c", .threadDrop "a"] ["b", "c", "a"]) ∧
    ∃ u u' es es',
      [Step.drop "a", .threadDrop "c", .drop "b"].mapM (Machine.perform false) w =
        .ok [.ok .null, .ok .null, .ok .null] u ∧
      [Step.drop "b", .drop "c", .threadDrop "a"].mapM (Machine.perform false) w =
        .ok [.ok .null, .ok .null, .ok .null] u' ∧
      u.bindings = [] ∧ u'.store = u.store ∧
      u.trace = w.trace ++ es ∧ u'.trace = w.trace ++ es' ∧ es.Perm es' ∧
      es = q ++ p ++ [.dropped ⟨2, none⟩] ∧ es' = [.dropped ⟨2, none⟩] ++ q ++ p := by
  intro a t steps w p q
  let list : Value := .node .sequence [.handle .slot (some 0)]
  have hstore : w.store = ⟨#[some ⟨.slot ⟨0, .probe⟩ .probe, .probe ⟨1, none⟩, 3⟩,
      some ⟨.slot ⟨1, .list .erased⟩ (.list .erased), list, 1⟩]⟩ := by
    simp only [w, steps, a, t, list]
    cbv
  have hb : w.bindings = [("a", ⟨.erased, .handle .slot (some 0)⟩),
      ("b", ⟨t, .node .tuple [.handle .slot (some 0), .probe ⟨2, none⟩]⟩),
      ("c", ⟨.erased, .handle .slot (some 1)⟩)] := by
    simp only [w, steps, a, t]
    cbv
  have hac : w.store.Acyclic := Store.acyclic_of_lt (by rw [hstore]; decide)
  have ha : w.find? "a" = some ⟨.erased, .handle .slot (some 0)⟩ := by rw [World.find?, hb]; rfl
  have hbt : w.find? "b" = some ⟨t, .node .tuple [.handle .slot (some 0), .probe ⟨2, none⟩]⟩ := by
    rw [World.find?, hb]
    rfl
  have hc : w.find? "c" = some ⟨.erased, .handle .slot (some 1)⟩ := by rw [World.find?, hb]; rfl
  have hxs : List.Forall₂ w.Drops [.drop "a", .threadDrop "c", .drop "b"] ["a", "c", "b"] :=
    .cons (.drop ha) (.cons (.threadDrop ⟨_, hc⟩) (.cons (.drop hbt) .nil))
  have hys : List.Forall₂ w.Drops [.drop "b", .drop "c", .threadDrop "a"] ["b", "c", "a"] :=
    .cons (.drop hbt) (.cons (.drop hc) (.cons (.threadDrop ⟨_, ha⟩) .nil))
  have hperm : ["a", "c", "b"].Perm ["b", "c", "a"] := by decide
  obtain ⟨u, u', es, es', hu, hu', hbindings, hsame, he, he', hes, -⟩ :=
    drop_order_irrelevant false steps hac _ _ _ _ hxs hys (by decide) hperm
  have hstore' : u'.store = u.store := by simpa using congrArg World.store hsame
  have hbindings' : u.bindings = [] := by
    rw [hbindings, hb]
    decide
  -- both orders are run
  have hrun :
      (([Step.drop "a", .threadDrop "c", .drop "b"].mapM (Machine.perform false)).after w).trace =
        w.trace ++ (q ++ p ++ [.dropped ⟨2, none⟩]) := by
    simp only [w, steps, a, t, p, q]
    cbv
  have hrun' :
      (([Step.drop "b", .drop "c", .threadDrop "a"].mapM (Machine.perform false)).after w).trace =
        w.trace ++ ([.dropped ⟨2, none⟩] ++ q ++ p) := by
    simp only [w, steps, a, t, p, q]
    cbv
  rw [Run.after, hu] at hrun
  rw [Run.after, hu'] at hrun'
  exact ⟨⟨hac, hxs, hys⟩, u, u', es, es', hu, hu', hbindings', hstore', he, he', hes,
    List.append_cancel_left (he.symm.trans hrun), List.append_cancel_left (he'.symm.trans hrun')⟩

end SharedValues
