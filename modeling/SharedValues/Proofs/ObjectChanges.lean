import Mathlib
import SharedValues.Proofs.Duplicates
import SharedValues.Proofs.Footprints

/-!
What happens to the state of an object. A call changes the state of its object and no other, and a
deep copy is another object in the same state.
-/
namespace SharedValues

section calls

namespace Object

/-- The state of an object after a call: a dog knows one more trick, a counter has counted on. -/
def learn : Interface → Nat → Value → Value
  | .pet, n, .node .dog [name, .node .box [.node .sequence tricks]] =>
    .node .dog [name, .node .box [.node .sequence (tricks ++ [.text ("trick" ++ toString n)])]]
  | .pet, n, .node .counter [.scalar (.int count)] =>
    .node .counter [.int (IntType.u32.wrap (count + n))]
  | _, _, v => v

/-- The address of an object and those of its cells. -/
def places (id : Nat) (v : Value) (place : Nat) : Prop :=
  place = id ∨ v.Targets place

/-- What a call does to its object and to the rest: it keeps to the object and its cells, and takes the
object from its state to another one. -/
structure Called (effect : Value → Value) (i : Interface) (id : Nat) (t : Ty) (v : Value)
    (w u : World) : Prop where
  touches : Touches (places id v) w u
  learned : ∃ v', u.store.IsObject id i t v' ∧ u.store.look v' = effect (w.store.look v)

variable {w u : World} {hand : Multiset Piece} {id n : Nat} {i : Interface} {t : Ty} {v : Value}
variable {effect : Value → Value} {α : Type}

theorem Called.handles_eq (h : Called effect i id t v w u) (hv : w.store.IsObject id i t v)
    {v' : Value} (hv' : u.store.IsObject id i t v') : v'.handles = v.handles := by
  obtain ⟨a, ha, -, rfl⟩ := hv
  obtain ⟨b, hb, -, rfl⟩ := hv'
  obtain ⟨b', hb', -, hh⟩ := h.touches.exists_get? ha
  cases hb.symm.trans hb'
  exact hh

/-- A call that changes nothing. -/
theorem Called.of_observes {act : Run α} (h : w.store.IsObject id i t v) (hact : Observes act)
    (hv : effect (w.store.look v) = w.store.look v) : Called effect i id t v w (act.after w) := by
  refine ⟨.of_observes hact w, v, ?_⟩
  obtain ⟨es, -, he⟩ := hact w
  rw [he, hv]
  exact ⟨h, rfl⟩

/-- A call that changes a cell of the object. -/
theorem Called.of_update {change : Value → Run (Value × α)} {j : Nat} {b : Allocation}
    {content : Value} {y : α} (h : w.store.IsObject id i t v) (hs : Config.Sound ⟨w, hand⟩)
    (hl : w.locks = []) (hj : ⟨.cell, j⟩ ∈ v.handles) (hb : w.store.get? j = some b)
    (hc : change b.content = pure (content, y)) (ht : HasType w.store b.role.content content)
    (hnew : content.pieces = b.content.pieces)
    (hlook : (w.store.put j { b with content }).look v = effect (w.store.look v)) :
    Called effect i id t v w ((Cell.update (some j) change).after w) := by
  obtain ⟨-, b', hb', hk, hbare, -⟩ := h.cell hs hl hj
  cases hb.symm.trans hb'
  refine ⟨(Run.KeepsTo.update hl (.inr ⟨_, hj, rfl⟩) hb hk hbare hc ht hnew).writes, v, ?_⟩
  have hne := h.ne_cell hb hk
  obtain ⟨a, ha, hr, hv⟩ := h
  rw [Run.after, Cell.update_pure hb hk (by simp [hl]) hc]
  exact ⟨⟨a, (Store.get?_put_other _ _ hne).trans ha, hr, hv⟩, hlook⟩

/-- A call that changes the value of an object without cells. -/
theorem Called.of_put {a : Allocation} {content : Value} (ha : w.store.get? id = some a)
    (hr : a.role = .object i t) (hbare : a.content.handles = []) (ht : HasType w.store t content)
    (hnew : content.pieces = a.content.pieces)
    (hdata : ∀ s : Store, s.look content = effect (w.store.look a.content)) :
    Called effect i id t a.content w
      { w with store := w.store.put id { a with content } } where
  touches := .single (.write (.inl rfl) ha (by simp [hr, Role.kind]) hbare (by rwa [hr]) hnew)
  learned :=
    ⟨content, ⟨_, Store.get?_put_same _ (Store.lt_next_of_get? ha), hr, rfl⟩, hdata _⟩

/-- A dog learns a trick, if it has a list of tricks. -/
theorem Called.dog (h : w.store.IsObject id .pet .dog v) (hs : Config.Sound ⟨w, hand⟩)
    (hl : w.locks = []) :
    Called (learn .pet n) .pet id .dog v w ((pokeValue id n v).after w) := by
  have hlive := h.live hs hl
  obtain ⟨name, tricks, rfl⟩ := HasType.exists_dog hlive.fits
  have htricks := HasType.dog_inv hlive.fits
  obtain ⟨target, rfl⟩ := htricks.exists_cell
  cases target with
  | none =>
    have hact : Observes (pokeValue id n (.node .dog [.text name, .handle .cell none])) :=
      Observes.fatal (α := Int) .invalidMemory
    refine .of_observes h hact ?_
    rw [Store.look_node]
    rfl
  | some j =>
    have hj : ⟨.cell, j⟩ ∈ (Value.node .dog [.text name, .handle .cell (some j)]).handles := by
      simp [Value.handles, Value.handlesOf]
    obtain ⟨b, hb, -⟩ := hlive.alive _ hj
    have hrole : b.role.content = .list .string := by rw [htricks.role_eq hb]; rfl
    have hbt := hs.typed j b hb
    rw [hrole] at hbt
    obtain ⟨tricks, hc, -⟩ := HasType.list_inv hbt
    obtain ⟨new, y, hchange, hpieces, hnew⟩ := addTrick_spec (n := n) hbt
    refine .of_update h hs hl hj hb hchange (hrole ▸ hnew) hpieces ?_
    have hput := Store.get?_put_same { b with content := new } (Store.lt_next_of_get? hb)
    rw [hc] at hchange
    obtain rfl : new = .node .sequence (tricks ++ [.text ("trick" ++ toString n)]) := by
      have hrun := congrFun hchange w
      cases hrun
      rfl
    simp only [Store.look_node, List.map_cons, List.map_nil, Store.look_cell hb,
      Store.look_cell hput, hc, Value.data, Value.dataOf_eq_map, List.map_append]
    rfl

theorem Called.counter (h : w.store.IsObject id .pet .counter v) (hs : Config.Sound ⟨w, hand⟩)
    (hl : w.locks = []) :
    Called (learn .pet n) .pet id .counter v w ((pokeValue id n v).after w) := by
  obtain ⟨count, rfl⟩ := HasType.exists_number (.inr ⟨rfl, rfl⟩) (h.live hs hl).fits
  obtain ⟨a, ha, hr, hv, hread⟩ := h.read
  have hafter : (pokeValue id n (.node .counter [.int count])).after w = { w with
      store := w.store.put id { a with
        content := .node .counter [.int (IntType.u32.wrap (count + n))] } } := by
    rw [pokeValue, Run.after, Run.bind_of_ok hread]
    rfl
  rw [hafter, ← hv]
  refine .of_put ha hr (by rw [hv]; rfl) ?_ (by simp [hv]) fun s => ?_
  · exact ⟨_, rfl, hasType_int (IntType.holds_wrap _ _), trivial⟩
  · rw [hv, Store.look_node, Store.look_node]
    rfl

theorem poke_eq (h : w.store.IsObject id i t v) (n : Nat) :
    poke (some id) n w = (if i = .pet then pokeValue id n v else Run.refuse) w := by
  obtain ⟨a, -, hr, rfl, hread⟩ := h.read
  rw [poke, Run.bind_of_ok hread, hr]
  cases i <;> rfl

/-- Which types pets have. -/
theorem pet_accepts {t : Ty} (h : Interface.pet.accepts t) :
    t = .dog ∨ t = .cat ∨ t = .counter ∨ t = .probe := by
  cases t <;> simp_all [Interface.accepts]

/-- Poking an object is a call that keeps to it. -/
theorem poke_called (h : w.store.IsObject id i t v) (hs : Config.Sound ⟨w, hand⟩)
    (hl : w.locks = []) (n : Nat) :
    Called (learn i n) i id t v w ((poke (some id) n).after w) := by
  have hlive := h.live hs hl
  have hi := h.accepts hs
  rw [Run.after, poke_eq h]
  cases i with
  | pet =>
    rw [if_pos rfl]
    rcases pet_accepts hi with rfl | rfl | rfl | rfl
    · exact .dog h hs hl
    · obtain ⟨lives, rfl⟩ := HasType.exists_number (.inl ⟨rfl, rfl⟩) hlive.fits
      have hact : Observes (pokeValue id n (.node .cat [.int lives])) := .pure lives
      exact .of_observes h hact (by rw [Store.look_node]; rfl)
    · exact .counter h hs hl
    · obtain ⟨p, rfl⟩ := HasType.probe_inv hlive.fits
      have hact : Observes (pokeValue id n (.probe p)) := .bind (.callHook _ _) fun _ => .pure _
      exact .of_observes h hact (by rw [Store.look_probe]; rfl)
  | _ =>
    have hact : Observes (Run.refuse : Run Int) := .refuse
    exact .of_observes h hact rfl

/-- Another object keeps its state, if it has no cell in common with the one that is called. -/
theorem Called.other (h : Called effect i id t v w u) (hv : w.store.IsObject id i t v)
    (hs : Config.Sound ⟨w, hand⟩) (hl : w.locks = []) {id' : Nat} {x : Value}
    (hx : w.store.IsObject id' i t x) (hne : id' ≠ id)
    (hapart : ∀ y ∈ x.handles, ∀ y' ∈ v.handles, y.target ≠ y'.target) :
    u.store.IsObject id' i t x ∧ u.store.look x = w.store.look x := by
  have hself : ¬places id v id' := by
    rintro (rfl | ⟨y, hy, rfl⟩)
    · exact hne rfl
    · obtain ⟨-, c, hc, hk, -⟩ := hv.cell hs hl hy
      exact hx.ne_cell hc hk rfl
  have hcells : ∀ y ∈ x.handles, ¬places id v y.target := by
    rintro y hy (hid | ⟨y', hy', htarget⟩)
    · obtain ⟨-, c, hc, hk, -⟩ := hx.cell hs hl hy
      exact hv.ne_cell hc hk hid.symm
    · exact hapart y hy y' hy' htarget.symm
  constructor
  · obtain ⟨a, ha, hr, hc⟩ := hx
    exact ⟨a, (h.touches.get?_eq hself).trans ha, hr, hc⟩
  · exact Store.look_congr fun y hy _ => by rw [h.touches.get?_eq (hcells y hy)]

end Object

end calls

section copies

theorem Run.ne_of_callHook {k : Hook} {p : Probe} {w u : World}
    (h : Run.callHook k p w = .ok () u) : p.boom ≠ some k := by
  intro hb
  have hrecord : Run.record (.hook k p) w = .ok () (w.record (.hook k p)) := rfl
  rw [Run.callHook, Run.bind_of_ok hrecord, if_pos hb] at h
  cases h

section consents

variable {d : Depth} {through : HandleKind → Nat → Run Nat}

mutual

/-- What has been copied holds no probe that refuses. -/
theorem consents_of_copyWith : (v : Value) → ∀ (w w' : World) (c : Value),
    v.copyWith d through w = .ok c w' → ∀ p ∈ v.probes, p.boom ≠ some d.hook
  | .scalar _, _, _, _, _, p, hp => by
    rw [Value.probes] at hp
    cases hp
  | .handle _ _, _, _, _, _, p, hp => by
    rw [Value.probes] at hp
    cases hp
  | .probe q, w, w', c, h, p, hp => by
    rw [Value.probes, List.mem_singleton] at hp
    subst hp
    rw [Value.copyWith] at h
    obtain ⟨_, _, hhook, -⟩ := Run.exists_of_bind_ok h
    exact Run.ne_of_callHook hhook
  | .node shape parts, w, w', c, h, p, hp => by
    rw [Value.copyWith] at h
    obtain ⟨cs, _, hparts, -⟩ := Run.exists_of_bind_ok h
    rw [Value.probes] at hp
    exact consents_of_copyParts shape parts [] _ _ cs hparts p hp

theorem consents_of_copyParts (shape : Shape) : (vs done : List Value) → ∀ (w w' : World)
    (cs : List Value), Value.copyParts d through shape done vs w = .ok cs w' →
    ∀ p ∈ Value.probesOf vs, p.boom ≠ some d.hook
  | [], _, _, _, _, _, p, hp => by
    rw [Value.probesOf] at hp
    cases hp
  | v :: vs, done, w, w', cs, h, p, hp => by
    rw [Value.copyParts] at h
    obtain ⟨c, u, hc, hrest⟩ := Run.exists_of_bind_ok h
    rw [Value.probesOf, List.mem_append] at hp
    rcases hp with hp | hp
    · exact consents_of_copyWith v w u c (Run.ok_of_unwinding hc) p hp
    · exact consents_of_copyParts shape vs (done ++ [c]) u w' cs hrest p hp

end

end consents

/-- The part of a store at some addresses. -/
def Store.only (s : Store) (ids : List Nat) : Store :=
  ⟨s.entries.mapIdx fun i a => if i ∈ ids then a else none⟩

theorem Store.next_only (s : Store) (ids : List Nat) : (s.only ids).next = s.next := by
  simp [only, next]

theorem Store.get?_only (s : Store) (ids : List Nat) (id : Nat) :
    (s.only ids).get? id = if id ∈ ids then s.get? id else none := by
  simp only [only, get?, Array.getElem?_mapIdx]
  cases s.entries[id]? with
  | none => simp
  | some a => by_cases hid : id ∈ ids <;> simp [hid]

theorem Store.persists_only (s : Store) (ids : List Nat) : (s.only ids).Persists s := by
  intro id a ha
  rw [get?_only] at ha
  split at ha
  next => exact ⟨a, ha, rfl, rfl⟩
  next => cases ha

/-- An object together with its cells. -/
def Store.objectPart (s : Store) (id : Nat) (v : Value) : Store :=
  s.only (id :: v.handles.map (·.target))

theorem Store.look_objectPart (s : Store) (id : Nat) (v : Value) :
    (s.objectPart id v).look v = s.look v := by
  refine look_congr fun y hy _ => ?_
  rw [objectPart, get?_only, if_pos (List.mem_cons_of_mem _ (List.mem_map_of_mem hy))]

namespace Store.IsObject

variable {w u : World} {hand hand' : Multiset Piece} {id : Nat} {i : Interface} {t : Ty} {v : Value}

theorem get?_part {b : Allocation} (h : w.store.IsObject id i t v) (hs : Config.Sound ⟨w, hand⟩)
    (hl : w.locks = []) {j : Nat} (hb : (w.store.objectPart id v).get? j = some b) :
    w.store.get? j = some b ∧ (j = id ∧ b.role = .object i t ∧ b.content = v ∨
      j ≠ id ∧ b.content.handles = [] ∧ b.content.probes = []) := by
  rw [objectPart, get?_only] at hb
  split at hb
  next hmem =>
    refine ⟨hb, ?_⟩
    rcases List.mem_cons.mp hmem with rfl | hmem
    · obtain ⟨a, ha, hr, hv⟩ := h
      cases ha.symm.trans hb
      exact .inl ⟨rfl, hr, hv⟩
    · obtain ⟨y, hy, rfl⟩ := List.mem_map.mp hmem
      obtain ⟨-, c, hc, hk, hbare, hprobes⟩ := h.cell hs hl hy
      cases hc.symm.trans hb
      exact .inr ⟨(h.ne_cell hc hk).symm, hbare, hprobes⟩
  next => cases hb

theorem alive_part (h : w.store.IsObject id i t v) :
    (w.store.objectPart id v).Alive ⟨.object, id⟩ := by
  obtain ⟨a, ha, hr, -⟩ := h
  refine ⟨a, ?_, by rw [hr]; rfl⟩
  rw [objectPart, get?_only, if_pos List.mem_cons_self, ha]

theorem closed_part (h : w.store.IsObject id i t v) (hs : Config.Sound ⟨w, hand⟩)
    (hl : w.locks = []) : (w.store.objectPart id v).Closed := by
  intro j b hb y hy
  obtain ⟨-, ⟨rfl, -, rfl⟩ | ⟨-, hbare, -⟩⟩ := h.get?_part hs hl hb
  · obtain ⟨c, hc, hk⟩ := (h.live hs hl).alive y hy
    refine ⟨c, ?_, hk⟩
    rw [objectPart, get?_only, if_pos (List.mem_cons_of_mem _ (List.mem_map_of_mem hy)), hc]
  · rw [hbare] at hy
    cases hy

/-- Handles lead from the object to its cells, and no further. -/
theorem acyclic_part (h : w.store.IsObject id i t v) (hs : Config.Sound ⟨w, hand⟩)
    (hl : w.locks = []) : (w.store.objectPart id v).Acyclic := by
  have howns : ∀ x y, (w.store.objectPart id v).Owns x y → x = id ∧ y ≠ id := by
    rintro x _ ⟨b, hb, y, hy, rfl⟩
    obtain ⟨-, ⟨rfl, -, rfl⟩ | ⟨-, hbare, -⟩⟩ := h.get?_part hs hl hb
    · obtain ⟨-, c, hc, hk, -⟩ := h.cell hs hl hy
      exact ⟨rfl, (h.ne_cell hc hk).symm⟩
    · rw [hbare] at hy
      cases hy
  intro x hx
  obtain ⟨y, hfirst, -⟩ := Relation.TransGen.head'_iff.mp hx
  obtain ⟨z, -, hlast⟩ := Relation.TransGen.tail'_iff.mp hx
  exact (howns z x hlast).2 (howns x y hfirst).1

/-- An object is copied deeply unless it is a probe that refuses. -/
theorem adds_deepCopy (h : w.store.IsObject id i t v) (hs : Config.Sound ⟨w, hand⟩)
    (hl : w.locks = []) (hp : ∀ p ∈ v.probes, p.boom ≠ some .deep) :
    ∃ c u, (Value.handle .object (some id)).deepCopy w = .ok c u ∧
      Store.Adds (w.store.objectPart id v) w.store u.store [.handle .object (some id)] [c] := by
  refine Value.adds_deepCopy_within (persists_only _ _) (next_only _ _).le (h.closed_part hs hl)
    (h.acyclic_part hs hl) (fun y hy => ?_) (.of_probes (fun p hp => ?_) fun j _ b hb p hpb => ?_)
  · obtain rfl : y = ⟨.object, id⟩ := by simpa [Value.handles] using hy
    exact h.alive_part
  · rw [Value.probes] at hp
    cases hp
  · obtain ⟨-, ⟨-, -, rfl⟩ | ⟨-, -, hprobes⟩⟩ := h.get?_part hs hl hb
    · exact hp p hpb
    · rw [hprobes] at hpb
      cases hpb

theorem consents_of_deepCopy {c : Value} (h : w.store.IsObject id i t v)
    (hr : (Value.handle .object (some id)).deepCopy w = .ok c u) :
    ∀ p ∈ v.probes, p.boom ≠ some .deep := by
  obtain ⟨_, _, hget, hcopy⟩ := Run.exists_of_bind_ok hr
  cases hget
  rw [Value.copyWith] at hcopy
  obtain ⟨k, _, hthrough, -⟩ := Run.exists_of_bind_ok hcopy
  cases hhops : w.hops with
  | zero =>
    rw [hhops] at hthrough
    cases hthrough
  | succ hops =>
    rw [hhops] at hthrough
    obtain ⟨a, _, hread, hrest⟩ := Run.exists_of_bind_ok hthrough
    obtain ⟨ha, -, rfl⟩ := Run.read_inv hread
    obtain ⟨content, _, hcontent, -⟩ := Run.exists_of_bind_ok hrest
    obtain ⟨b, hb, -, rfl⟩ := h
    cases ha.symm.trans hb
    exact consents_of_copyWith _ _ _ _ hcontent

/-- The deep copy of an object is another object in the same state, with cells of its own. -/
theorem deepCopy {c : Value} (h : w.store.IsObject id i t v) (hs : Config.Sound ⟨w, hand⟩)
    (hl : w.locks = []) (hs' : Config.Sound ⟨u, hand'⟩) (hl' : u.locks = [])
    (hr : (Value.handle .object (some id)).deepCopy w = .ok c u) :
    ∃ k v', c = .handle .object (some k) ∧ u.store.IsObject k i t v' ∧ w.store.next ≤ k ∧
      (∀ y ∈ v'.handles, w.store.next ≤ y.target) ∧ u.store.look v' = w.store.look v := by
  obtain ⟨c', u', hr', hadds⟩ := h.adds_deepCopy hs hl (h.consents_of_deepCopy hr)
  cases hr.symm.trans hr'
  obtain ⟨ys, hgains, hspans, hmirrors⟩ := hadds
  have hnew : ∀ j, u.store.Encloses c j → w.store.next ≤ j := fun j hj =>
    (hgains.mem_owned.mp (hspans.mem_of_encloses c (by simp) hj)).1
  have hdup := hmirrors.duplicates fun x hx j hj => by
    cases List.mem_singleton.mp hx
    exact (next_only _ _).le.trans (hnew j hj)
  cases hdup with
  | cons hdup _ =>
    cases hdup with
    | shared hk => cases hk
    | @owned _ _ k a b _ ha hk hb hrole hcontent =>
      obtain ⟨-, ⟨-, hra, rfl⟩ | ⟨hne, -⟩⟩ := h.get?_part hs hl ha
      · have hobject : u.store.IsObject k i t b.content := ⟨b, hb, hrole.trans hra, rfl⟩
        have hself : u.store.Encloses (.handle .object (some k)) k := .handle rfl
        refine ⟨k, b.content, rfl, hobject, hnew k hself, fun y hy => hnew _ ?_, ?_⟩
        · obtain ⟨hcell, -⟩ := hobject.cell hs' hl' hy
          exact hself.trans hb (.held hy (by rw [hcell]; rfl) rfl)
        · rw [← w.store.look_objectPart id a.content]
          refine hcontent.look_eq fun y hy => ⟨(h.cell hs hl hy).1, fun d hd => ?_⟩
          obtain ⟨hd, -⟩ := h.get?_part hs hl hd
          obtain ⟨-, d', hd', -, hbare, -⟩ := h.cell hs hl hy
          cases hd.symm.trans hd'
          exact hbare
      · exact absurd rfl hne

end Store.IsObject

end copies

end SharedValues
