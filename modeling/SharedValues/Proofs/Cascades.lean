import Mathlib
import SharedValues.Proofs.LastShares
import SharedValues.Proofs.Reachability

/-!
The cascade of giving a value up, one step after the other: a share goes, or the last share goes and
what the allocation owned is given up in its place. Where the counts are exact there is always a next
step, and every step lowers the weight. Between any two points of a cascade one equation holds for
each address: the shares that it has lost are the handles to it that have been given up. So what ends
is the least set of allocations that contains whatever has lost all its shares.
-/
namespace SharedValues

namespace Value

/-- How many handles to an address the value holds. -/
def pointers (v : Value) (id : Nat) : Nat :=
  v.handles.countP (·.target = id)

/-- How many handles to an address the values hold together. -/
def pointersOf (vs : List Value) (id : Nat) : Nat :=
  (handlesOf vs).countP (·.target = id)

theorem pointersOf_cons (v : Value) (vs : List Value) (id : Nat) :
    pointersOf (v :: vs) id = v.pointers id + pointersOf vs id := by
  rw [pointersOf, handlesOf, List.countP_append, pointers, pointersOf]

theorem pointersOf_singleton (v : Value) (id : Nat) : pointersOf [v] id = v.pointers id :=
  pointersOf_cons v [] id

theorem pointersOf_append (vs ws : List Value) (id : Nat) :
    pointersOf (vs ++ ws) id = pointersOf vs id + pointersOf ws id := by
  simp only [pointersOf, ← countP_piecesOf, piecesOf_append, Multiset.countP_add]

theorem pointers_node (shape : Shape) (parts : List Value) (id : Nat) :
    (Value.node shape parts).pointers id = pointersOf parts id := by
  rw [pointers, handles, pointersOf]

theorem pointers_handle_same (k : HandleKind) (id : Nat) :
    (Value.handle k (some id)).pointers id = 1 := by
  simp [pointers, handles]

theorem pointers_handle_other (k : HandleKind) {id other : Nat} (h : other ≠ id) :
    (Value.handle k (some id)).pointers other = 0 := by
  simp [pointers, handles, Ne.symm h]

end Value

namespace Store

/-- How many shares there are of what is alive at an address. -/
def sharesAt (s : Store) (id : Nat) : Nat :=
  (s.get? id).elim 0 (·.shares)

/-- How many handles to an address are held by what is alive at another one. -/
def pointers (s : Store) (owner id : Nat) : Nat :=
  (s.get? owner).elim 0 (·.content.pointers id)

/-- How many handles to an address some allocations hold together. -/
def pointersFrom (s : Store) (owners : Finset Nat) (id : Nat) : Nat :=
  ∑ owner ∈ owners, s.pointers owner id

variable {s : Store} {id : Nat}

theorem sharesAt_of_get? {a : Allocation} (h : s.get? id = some a) :
    s.sharesAt id = a.shares := by
  simp [sharesAt, h]

theorem sharesAt_of_none (h : s.get? id = none) : s.sharesAt id = 0 := by
  simp [sharesAt, h]

theorem sharesAt_congr {s' : Store} (h : s'.get? id = s.get? id) :
    s'.sharesAt id = s.sharesAt id := by
  rw [sharesAt, h, sharesAt]

theorem pointersFrom_mono {owners more : Finset Nat} (h : owners ⊆ more) (id : Nat) :
    s.pointersFrom owners id ≤ s.pointersFrom more id :=
  Finset.sum_le_sum_of_subset h

end Store

/-- A cascade on its way: the values that are still to be given up, and the state. -/
structure Cascade where
  pending : List Value
  world : World

namespace Cascade

/-- One step of a cascade takes the first of the pending values. The label is the address of the
allocation that ends. A handle to an address where nothing of its kind is alive has no step. -/
inductive Step : Cascade → Option Nat → Cascade → Prop where
  | scalar {s : Scalar} {rest : List Value} {w : World} :
    Step ⟨.scalar s :: rest, w⟩ none ⟨rest, w⟩
  | probe {p : Probe} {rest : List Value} {w : World} :
    Step ⟨.probe p :: rest, w⟩ none ⟨rest, w.record (.dropped p)⟩
  | absent {k : HandleKind} {rest : List Value} {w : World} :
    Step ⟨.handle k none :: rest, w⟩ none ⟨rest, w⟩
  | node {shape : Shape} {parts rest : List Value} {w : World} :
    Step ⟨.node shape parts :: rest, w⟩ none ⟨parts ++ rest, w⟩
  | share {k : HandleKind} {id : Nat} {a : Allocation} {rest : List Value} {w : World}
    (ha : w.store.get? id = some a) (hk : a.role.kind = k) (h1 : 1 < a.shares) :
    Step ⟨.handle k (some id) :: rest, w⟩ none
      ⟨rest, { w with store := w.store.put id { a with shares := a.shares - 1 } }⟩
  | last {k : HandleKind} {id : Nat} {a : Allocation} {rest : List Value} {w : World}
    (ha : w.store.get? id = some a) (hk : a.role.kind = k) (h1 : a.shares = 1) :
    Step ⟨.handle k (some id) :: rest, w⟩ (some id) ⟨a.content :: rest, w.destroy id a⟩

/-- A number of steps, and the addresses of the allocations that end on the way, in order. -/
inductive Steps : Nat → Cascade → List Nat → Cascade → Prop where
  | refl {c : Cascade} : Steps 0 c [] c
  | head {n : Nat} {c d e : Cascade} {label : Option Nat} {gone : List Nat} (h : Step c label d)
    (hs : Steps n d gone e) : Steps (n + 1) c (label.toList ++ gone) e

/-- What the live allocations own and what is pending, taken together. -/
def weight (c : Cascade) : Nat :=
  c.world.store.weight + Value.sizes c.pending

/-- How many shares an address loses if what is pending and the other allocations of a set give up
their handles to it. -/
def taken (c : Cascade) (D : Finset Nat) (id : Nat) : Nat :=
  Value.pointersOf c.pending id + c.world.store.pointersFrom (D.erase id) id

theorem taken_singleton (v : Value) (w : World) (D : Finset Nat) (id : Nat) :
    taken ⟨[v], w⟩ D id = v.pointers id + w.store.pointersFrom (D.erase id) id := by
  rw [taken, Value.pointersOf_singleton]

/-- The state of a cascade, with what is pending and some other pieces in hand. -/
def config (c : Cascade) (others : Multiset Piece) : Config :=
  ⟨c.world, Value.piecesOf c.pending + others⟩

/-- The counts are exact, if there are these other pieces. -/
def Exact (c : Cascade) (others : Multiset Piece) : Prop :=
  Counted (c.config others).world.store (c.config others).total

theorem config_cons (v : Value) (rest : List Value) (w : World) (others : Multiset Piece) :
    config ⟨v :: rest, w⟩ others = ⟨w, v.pieces + (Value.piecesOf rest + others)⟩ := by
  rw [config, Value.piecesOf_cons, add_assoc]

section steps

variable {c d : Cascade} {label : Option Nat} {others : Multiset Piece}

/-- The steps are those of giving up. -/
theorem Step.release_eq (h : Step c label d) :
    d.world.release d.pending = c.world.release c.pending := by
  cases h with
  | share ha _ h1 => exact (World.release_share ha h1).symm
  | last ha _ h1 => exact (World.release_last ha (Nat.le_of_eq h1)).symm
  | _ => simp only [World.release]

theorem Step.weight_lt (h : Step c label d) : d.weight < c.weight := by
  cases h with
  | @share k id a rest w ha _ _ =>
    have hw := Store.weight_put (b := { a with shares := a.shares - 1 }) ha rfl
    simp only [weight, Value.sizes, Value.size]
    omega
  | last ha _ _ =>
    have hw := Store.weight_erase ha
    simp only [weight, World.destroy_store, Value.sizes, Value.size]
    omega
  | node =>
    simp only [weight, Value.sizes, Value.size, Value.sizes_append]
    omega
  | _ =>
    simp only [weight, World.record, Value.sizes, Value.size]
    omega

/-- A step takes apart what is pending, or it loses one piece of it. -/
theorem Step.loss (h : Step c label d) (others : Multiset Piece) :
    Relation.ReflGen Loss (c.config others) (d.config others) := by
  cases h with
  | probe =>
    rw [config_cons]
    exact .single (.probe _ rfl)
  | share ha _ h1 =>
    rw [config_cons]
    exact .single (.share ha h1 rfl)
  | last ha _ h1 =>
    rw [config_cons, config_cons]
    exact .single (.last ha (Nat.le_of_eq h1) rfl)
  | _ => simpa [config] using Relation.ReflGen.refl

theorem Step.exact (h : Step c label d) (hc : c.Exact others) : d.Exact others := by
  rcases (Relation.reflGen_iff ..).mp (h.loss others) with e | hl
  · rw [Exact, e]
    exact hc
  · exact hl.counted hc

/-- With exact counts a cascade goes on until nothing is pending. -/
theorem Exact.exists_step (hc : c.Exact others) (hp : c.pending ≠ []) :
    ∃ label d, Step c label d := by
  obtain ⟨pending, w⟩ := c
  match pending with
  | [] => exact absurd rfl hp
  | .scalar s :: rest => exact ⟨_, _, .scalar⟩
  | .probe p :: rest => exact ⟨_, _, .probe⟩
  | .handle k none :: rest => exact ⟨_, _, .absent⟩
  | .node shape parts :: rest => exact ⟨_, _, .node⟩
  | .handle k (some id) :: rest =>
    obtain ⟨a, ha, hk⟩ := hc.alive ⟨k, id⟩ (Config.mem_total_of_hand (by simp [config]))
    have hshared := hc.shared id a ha
    by_cases h1 : a.shares = 1
    · exact ⟨_, _, .last ha hk h1⟩
    · exact ⟨_, _, .share ha hk (by omega)⟩

/-- The handles that are pending are among those that are counted. -/
theorem Exact.pointersOf_le (hc : c.Exact others) {id : Nat} {a : Allocation}
    (ha : c.world.store.get? id = some a) : Value.pointersOf c.pending id ≤ a.shares := by
  have hle : Value.piecesOf c.pending ≤ (c.config others).total :=
    (Multiset.le_add_right _ others).trans (Multiset.le_add_left _ _)
  rw [hc.exact id a ha, Value.pointersOf, ← Value.countP_piecesOf]
  exact Multiset.countP_le_of_le _ hle

/-- There is one way to go on. -/
theorem Step.unique {d' : Cascade} {label' : Option Nat} (h : Step c label d)
    (h' : Step c label' d') : label' = label ∧ d' = d := by
  cases h with
  | share ha _ h1 =>
    cases h' with
    | share hb _ _ =>
      cases ha.symm.trans hb
      exact ⟨rfl, rfl⟩
    | last hb _ h2 =>
      cases ha.symm.trans hb
      omega
  | last ha _ h1 =>
    cases h' with
    | share hb _ h2 =>
      cases ha.symm.trans hb
      omega
    | last hb _ _ =>
      cases ha.symm.trans hb
      exact ⟨rfl, rfl⟩
  | _ =>
    cases h'
    exact ⟨rfl, rfl⟩

/-- When the last share goes, one handle to the allocation was left, and it is pending. -/
theorem Step.last_left {id : Nat} (h : Step c (some id) d) (hc : c.Exact others) :
    c.world.store.sharesAt id = 1 ∧ Value.pointersOf c.pending id = 1 := by
  cases h with
  | @last k _ a rest w ha _ h1 =>
    refine ⟨(Store.sharesAt_of_get? ha).trans h1, ?_⟩
    have hle := hc.pointersOf_le ha
    simp only [Value.pointersOf_cons, Value.pointers_handle_same] at hle ⊢
    omega

end steps

/-- What happens between two points of a cascade: some allocations end, each once, the others keep
their roles and contents, and every address loses as many shares as handles to it are given up, be
they pending at first or held by an allocation that has ended. -/
structure Frees (c : Cascade) (gone : List Nat) (d : Cascade) : Prop where
  nodup : gone.Nodup
  alive : ∀ id ∈ gone, ∃ a, c.world.store.get? id = some a
  ended : ∀ id ∈ gone, d.world.store.get? id = none
  kept : ∀ id, id ∉ gone → (d.world.store.get? id).map (fun b => (b.role, b.content)) =
    (c.world.store.get? id).map fun a => (a.role, a.content)
  balance : ∀ id, c.world.store.sharesAt id + Value.pointersOf d.pending id =
    d.world.store.sharesAt id + Value.pointersOf c.pending id +
      c.world.store.pointersFrom gone.toFinset id

namespace Frees

variable {c d e : Cascade} {gone more : List Nat}

/-- What ends later has not ended before. -/
theorem notMem_before {before after : List Nat} {id : Nat} (h : Frees c (before ++ id :: after) d) :
    id ∉ before :=
  fun hid => (List.nodup_append'.mp h.nodup).2.2 hid (by simp)

theorem of_store_eq (hs : d.world.store = c.world.store)
    (hp : ∀ id, Value.pointersOf d.pending id = Value.pointersOf c.pending id) : Frees c [] d := by
  refine ⟨.nil, by simp, by simp, fun id _ => by rw [hs], fun id => ?_⟩
  rw [hs, hp]
  rfl

/-- An allocation that ends later has had its content all the time. -/
theorem pointersFrom_eq (h : Frees c gone d) {owners : Finset Nat}
    (hd : ∀ owner ∈ owners, owner ∉ gone) (id : Nat) :
    d.world.store.pointersFrom owners id = c.world.store.pointersFrom owners id := by
  refine Finset.sum_congr rfl fun owner howner => ?_
  have hk := h.kept owner (hd owner howner)
  unfold Store.pointers
  cases hc : c.world.store.get? owner <;> cases hd : d.world.store.get? owner <;> simp_all

theorem trans (h : Frees c gone d) (h' : Frees d more e) : Frees c (gone ++ more) e := by
  have hmore : ∀ id ∈ more, id ∉ gone := by
    intro id hid hg
    obtain ⟨a, ha⟩ := h'.alive id hid
    cases (h.ended id hg).symm.trans ha
  have hgone : ∀ id ∈ gone, id ∉ more := fun id hg hid => hmore id hid hg
  refine ⟨?_, fun id hid => ?_, fun id hid => ?_, fun id hid => ?_, fun id => ?_⟩
  · exact List.nodup_append'.mpr ⟨h.nodup, h'.nodup, hgone⟩
  · rcases List.mem_append.mp hid with hid | hid
    · exact h.alive id hid
    · obtain ⟨b, hb⟩ := h'.alive id hid
      have hk := h.kept id (hmore id hid)
      rw [hb, Option.map_some] at hk
      obtain ⟨a, ha, -⟩ := Option.map_eq_some_iff.mp hk.symm
      exact ⟨a, ha⟩
  · rcases List.mem_append.mp hid with hid | hid
    · have hk := h'.kept id (hgone id hid)
      rw [h.ended id hid, Option.map_none] at hk
      exact Option.map_eq_none_iff.mp hk
    · exact h'.ended id hid
  · have hid : id ∉ gone ∧ id ∉ more := by simpa using hid
    exact (h'.kept id hid.2).trans (h.kept id hid.1)
  · have hsum : c.world.store.pointersFrom (gone ++ more).toFinset id =
        c.world.store.pointersFrom gone.toFinset id +
          c.world.store.pointersFrom more.toFinset id := by
      rw [List.toFinset_append, Store.pointersFrom, Finset.sum_union]
      · rfl
      · exact List.disjoint_toFinset_iff_disjoint.mpr hgone
    have h₁ := h.balance id
    have h₂ := h'.balance id
    rw [h.pointersFrom_eq fun owner ho => hmore owner (List.mem_toFinset.mp ho)] at h₂
    omega

end Frees

theorem frees_share {k : HandleKind} {id : Nat} {a : Allocation} (rest : List Value) {w : World}
    (ha : w.store.get? id = some a) (h1 : 1 < a.shares) :
    Frees ⟨.handle k (some id) :: rest, w⟩ []
      ⟨rest, { w with store := w.store.put id { a with shares := a.shares - 1 } }⟩ := by
  have hput := Store.get?_put_same { a with shares := a.shares - 1 } (Store.lt_next_of_get? ha)
  refine ⟨.nil, by simp, by simp, fun other _ => ?_, fun other => ?_⟩
  · by_cases e : other = id
    · subst e
      simp [hput, ha]
    · simp [Store.get?_put_other _ _ e]
  · have hfrom : w.store.pointersFrom ([] : List Nat).toFinset other = 0 := rfl
    simp only [Value.pointersOf_cons, hfrom]
    by_cases e : other = id
    · subst e
      rw [Store.sharesAt_of_get? ha, Store.sharesAt_of_get? hput, Value.pointers_handle_same]
      simp only
      omega
    · rw [Value.pointers_handle_other k e, Store.sharesAt_congr (Store.get?_put_other _ _ e)]
      omega

theorem frees_last {k : HandleKind} {id : Nat} {a : Allocation} (rest : List Value) {w : World}
    (ha : w.store.get? id = some a) (h1 : a.shares = 1) :
    Frees ⟨.handle k (some id) :: rest, w⟩ [id] ⟨a.content :: rest, w.destroy id a⟩ := by
  refine ⟨List.nodup_singleton id, ?_, ?_, fun other ho => ?_, fun other => ?_⟩
  · simp [ha]
  · simp
  · rw [World.destroy_store, Store.get?_erase_other _ (by simpa using ho)]
  · have hfrom : w.store.pointersFrom [id].toFinset other = a.content.pointers other := by
      simp [Store.pointersFrom, Store.pointers, ha]
    simp only [Value.pointersOf_cons, hfrom, World.destroy_store]
    by_cases e : other = id
    · subst e
      rw [Store.sharesAt_of_get? ha, Store.sharesAt_of_none (Store.get?_erase_same _ _), h1,
        Value.pointers_handle_same]
      omega
    · rw [Value.pointers_handle_other k e, Store.sharesAt_congr (Store.get?_erase_other _ e)]
      omega

theorem Step.frees {c d : Cascade} {label : Option Nat} (h : Step c label d) :
    Frees c label.toList d := by
  cases h with
  | share ha _ h1 => exact frees_share _ ha h1
  | last ha _ h1 => exact frees_last _ ha h1
  | node =>
    refine .of_store_eq rfl fun id => ?_
    rw [Value.pointersOf_append, Value.pointersOf_cons, Value.pointers_node]
  | _ => exact .of_store_eq rfl fun _ => rfl

namespace Steps

variable {c d : Cascade} {n : Nat} {gone : List Nat} {others : Multiset Piece}

theorem frees (h : Steps n c gone d) : Frees c gone d := by
  induction h with
  | refl => exact .of_store_eq rfl fun _ => rfl
  | head h _ ih => exact h.frees.trans ih

theorem exact (h : Steps n c gone d) (hc : c.Exact others) : d.Exact others := by
  induction h with
  | refl => exact hc
  | head h _ ih => exact ih (h.exact hc)

theorem weight_le (h : Steps n c gone d) : n + d.weight ≤ c.weight := by
  induction h with
  | refl => omega
  | head h _ ih =>
    have := h.weight_lt
    omega

/-- Whatever a cascade has done is the beginning of its way to the end. -/
theorem goes_on {m : Nat} {ended : List Nat} {u : World} (hall : Steps n c gone ⟨[], u⟩)
    (h : Steps m c ended d) :
    ∃ k later, m + k = n ∧ ended ++ later = gone ∧ Steps k d later ⟨[], u⟩ := by
  induction h generalizing n gone with
  | refl => exact ⟨n, gone, by omega, rfl, hall⟩
  | head h _ ih =>
    cases hall with
    | refl => cases h
    | head h' hall =>
      obtain ⟨rfl, rfl⟩ := h.unique h'
      obtain ⟨k, later, rfl, rfl, hs⟩ := ih hall
      exact ⟨k, later, by omega, by rw [List.append_assoc], hs⟩

/-- The step at which an allocation ends, with what is before and after it. -/
theorem split {before after : List Nat} {id : Nat} (h : Steps n c (before ++ id :: after) d) :
    ∃ m k e f, Steps m c before e ∧ Step e (some id) f ∧ Steps k f after d := by
  generalize he : before ++ id :: after = gone at h
  induction h generalizing before with
  | refl => simp at he
  | @head n c e d label gone h hs ih =>
    cases label with
    | none =>
      obtain ⟨m, k, f, g, hm, hlast, hk⟩ := ih he
      exact ⟨m + 1, k, f, g, .head h hm, hlast, hk⟩
    | some x =>
      cases before with
      | nil =>
        obtain ⟨rfl, rfl⟩ := List.cons.inj he
        exact ⟨0, n, c, e, .refl, h, hs⟩
      | cons y before =>
        obtain ⟨rfl, he'⟩ := List.cons.inj he
        obtain ⟨m, k, f, g, hm, hlast, hk⟩ := ih he'
        exact ⟨m + 1, k, f, g, .head h hm, hlast, hk⟩

/-- An allocation that ends has lost its shares to what was given up at first and to what has ended
before it. -/
theorem sharesAt_of_ended {before after : List Nat} {id : Nat}
    (h : Steps n c (before ++ id :: after) d) (hc : c.Exact others) :
    c.world.store.sharesAt id =
      Value.pointersOf c.pending id + c.world.store.pointersFrom before.toFinset id := by
  obtain ⟨m, k, e, f, hm, hlast, -⟩ := h.split
  obtain ⟨hshares, hpointers⟩ := hlast.last_left (hm.exact hc)
  have := hm.frees.balance id
  omega

/-- What is left of the shares in the end: those that no handle has taken away. An allocation that
ends has no handle to itself. -/
theorem sharesAt_eq {u : World} (h : Steps n c gone ⟨[], u⟩) (hc : c.Exact others) (id : Nat) :
    c.world.store.sharesAt id = u.store.sharesAt id + c.taken gone.toFinset id := by
  have hbalance : c.world.store.sharesAt id = u.store.sharesAt id + Value.pointersOf c.pending id +
      c.world.store.pointersFrom gone.toFinset id := h.frees.balance id
  unfold taken
  by_cases hid : id ∈ gone
  · obtain ⟨before, after, rfl⟩ := List.append_of_mem hid
    have hbefore : before.toFinset ⊆ (before ++ id :: after).toFinset.erase id := by
      intro x hx
      rw [List.mem_toFinset] at hx
      have hne : x ≠ id := fun e => h.frees.notMem_before (e ▸ hx)
      simp [hne, hx]
    have h₁ := h.sharesAt_of_ended hc
    have h₂ := Store.pointersFrom_mono (s := c.world.store) hbefore id
    have h₃ := Store.pointersFrom_mono (s := c.world.store)
      (Finset.erase_subset id (before ++ id :: after).toFinset) id
    omega
  · rw [Finset.erase_eq_of_notMem (by simpa using hid)]
    omega

/-- What has ended is gone, and the rest has lost shares but nothing else. -/
theorem get?_eq {u : World} (h : Steps n c gone ⟨[], u⟩) (hc : c.Exact others) {id : Nat}
    {a : Allocation} (ha : c.world.store.get? id = some a) :
    u.store.get? id = if id ∈ gone then none else
      some { a with shares := a.shares - c.taken gone.toFinset id } := by
  by_cases hid : id ∈ gone
  · rw [if_pos hid]
    exact h.frees.ended id hid
  · have hk : (u.store.get? id).map (fun b => (b.role, b.content)) = some (a.role, a.content) := by
      rw [h.frees.kept id hid, ha, Option.map_some]
    obtain ⟨⟨role, content, shares⟩, hb, hrole⟩ := Option.map_eq_some_iff.mp hk
    have hshares := h.sharesAt_eq hc id
    rw [Store.sharesAt_of_get? ha, Store.sharesAt_of_get? hb] at hshares
    obtain ⟨rfl, rfl⟩ := Prod.mk.inj hrole
    rw [if_neg hid, hb, hshares, Nat.add_sub_cancel]

/-- An allocation ends exactly if no shares are left of it. -/
theorem mem_iff {u : World} (h : Steps n c gone ⟨[], u⟩) (hc : c.Exact others) {id : Nat}
    {a : Allocation} (ha : c.world.store.get? id = some a) :
    id ∈ gone ↔ a.shares - c.taken gone.toFinset id = 0 := by
  have hshares := h.sharesAt_eq hc id
  have hget := h.get?_eq hc ha
  rw [Store.sharesAt_of_get? ha] at hshares
  by_cases hid : id ∈ gone
  · rw [if_pos hid] at hget
    rw [Store.sharesAt_of_none hget] at hshares
    exact iff_of_true hid (by omega)
  · rw [if_neg hid] at hget
    exact iff_of_false hid (Nat.one_le_iff_ne_zero.mp ((h.exact hc).shared id _ hget))

/-- Every set that contains what loses all its shares to it contains what ends. -/
theorem mem_of_closed (h : Steps n c gone d) (hc : c.Exact others) {D : Finset Nat}
    (hD : ∀ id a, c.world.store.get? id = some a → a.shares ≤ c.taken D id → id ∈ D) :
    ∀ id ∈ gone, id ∈ D := by
  -- by induction on how many have ended: each of them has lost its shares to those before it
  have hbefore : ∀ before after, gone = before ++ after → ∀ id ∈ before, id ∈ D := by
    intro before
    induction before using List.reverseRecOn with
    | nil => simp
    | append_singleton before x ih =>
      intro after he id hid
      obtain rfl : gone = before ++ x :: after := by simpa using he
      have hmem : ∀ y ∈ before, y ∈ D := ih _ rfl
      rcases List.mem_append.mp hid with hid | hid
      · exact hmem id hid
      · obtain rfl : id = x := by simpa using hid
        have hsub : before.toFinset ⊆ D.erase id := by
          intro y hy
          rw [List.mem_toFinset] at hy
          exact Finset.mem_erase.mpr ⟨fun e => h.frees.notMem_before (e ▸ hy), hmem y hy⟩
        obtain ⟨a, ha⟩ := h.frees.alive id (by simp)
        have hshares := h.sharesAt_of_ended hc
        rw [Store.sharesAt_of_get? ha] at hshares
        have hle := Store.pointersFrom_mono (s := c.world.store) hsub id
        exact hD id a ha (by rw [taken]; omega)
  exact hbefore gone [] (by simp)

end Steps

/-- With exact counts a cascade comes to its end. -/
theorem Exact.exists_steps {c : Cascade} {others : Multiset Piece} (hc : c.Exact others) :
    ∃ n gone, Steps n c gone ⟨[], c.world.release c.pending⟩ := by
  induction hw : c.weight using Nat.strong_induction_on generalizing c with
  | _ weight ih =>
    by_cases hp : c.pending = []
    · obtain ⟨pending, w⟩ := c
      obtain rfl : pending = [] := hp
      rw [World.release]
      exact ⟨0, [], .refl⟩
    · obtain ⟨label, d, h⟩ := hc.exists_step hp
      obtain ⟨n, gone, hs⟩ := ih d.weight (hw ▸ h.weight_lt) (h.exact hc) rfl
      rw [h.release_eq] at hs
      exact ⟨n + 1, _, .head h hs⟩

end Cascade

/-- In every state with exact share counts, with cycles or without, a value is dropped in a bounded
number of steps, and whatever the cascade has done at some point is the beginning of its only way to
the end. No allocation ends twice. What ends is what has no shares left if those of the handles in
the value and in the other allocations that end are taken away; it is the least set that contains all
such allocations. Whatever is still alive has lost as many shares and nothing else, nothing comes to
life, and the counts are exact again. -/
theorem release_frees_exactly (w : World) (v : Value) (others : Multiset Piece)
    (hc : Counted w.store (Config.total ⟨w, v.pieces + others⟩)) :
    let u := w.release [v]
    Run.drop [v] w = .ok () u ∧
    ∃ n gone, Cascade.Steps n ⟨[v], w⟩ gone ⟨[], u⟩ ∧ n ≤ w.store.weight + v.size ∧
      (∀ m ended d, Cascade.Steps m ⟨[v], w⟩ ended d →
        ∃ k later, m + k = n ∧ ended ++ later = gone ∧ Cascade.Steps k d later ⟨[], u⟩) ∧
      gone.Nodup ∧
      (∀ id a, w.store.get? id = some a →
        let lost := v.pointers id + w.store.pointersFrom (gone.toFinset.erase id) id
        lost ≤ a.shares ∧ (id ∈ gone ↔ a.shares - lost = 0) ∧
          u.store.get? id = if id ∈ gone then none else some { a with shares := a.shares - lost }) ∧
      (∀ id, w.store.get? id = none → id ∉ gone ∧ u.store.get? id = none) ∧
      IsLeast {D : Finset Nat | ∀ id a, w.store.get? id = some a →
        a.shares ≤ v.pointers id + w.store.pointersFrom (D.erase id) id → id ∈ D} gone.toFinset ∧
      Counted u.store (Config.total ⟨u, others⟩) := by
  intro u
  have hexact : Cascade.Exact ⟨[v], w⟩ others := by simpa [Cascade.Exact, Cascade.config] using hc
  obtain ⟨n, gone, h⟩ := hexact.exists_steps
  have hv := Cascade.taken_singleton v w
  have hlost : ∀ id a, w.store.get? id = some a →
      v.pointers id + w.store.pointersFrom (gone.toFinset.erase id) id ≤ a.shares := by
    intro id a ha
    have hshares : w.store.sharesAt id = u.store.sharesAt id + _ := h.sharesAt_eq hexact id
    rw [hv, Store.sharesAt_of_get? ha] at hshares
    exact hshares ▸ Nat.le_add_left _ _
  have hmem : ∀ id a, w.store.get? id = some a → (id ∈ gone ↔ a.shares -
      (v.pointers id + w.store.pointersFrom (gone.toFinset.erase id) id) = 0) := by
    intro id a ha
    rw [← hv]
    exact h.mem_iff hexact ha
  refine ⟨rfl, n, gone, h, ?_, fun m ended d hd => h.goes_on hd, h.frees.nodup, fun id a ha => ?_,
    fun id hnone => ?_, ⟨fun id a ha hle => ?_, fun D hD => ?_⟩, ?_⟩
  · have := h.weight_le
    simp only [Cascade.weight, Value.sizes] at this
    omega
  · refine ⟨hlost id a ha, hmem id a ha, ?_⟩
    rw [← hv]
    exact h.get?_eq hexact ha
  · have hid : id ∉ gone := by
      intro hid
      obtain ⟨a, ha⟩ := h.frees.alive id hid
      cases hnone.symm.trans ha
    have hk := h.frees.kept id hid
    rw [hnone, Option.map_none] at hk
    exact ⟨hid, Option.map_eq_none_iff.mp hk⟩
  · rw [List.mem_toFinset, hmem id a ha]
    omega
  · intro id hid
    refine h.mem_of_closed hexact (fun id a ha hle => hD id a ha ?_) id (List.mem_toFinset.mp hid)
    rwa [hv] at hle
  · simpa [Cascade.Exact, Cascade.config] using h.exact hexact

/-- In every settled state the counts are exact when a variable is about to be dropped. -/
theorem World.Settled.counted_unbind {w : World} (hw : w.Settled) {x : String} {v : Variable}
    (hv : w.find? x = some v) : Counted (w.unbind x).store
      (Config.total ⟨w.unbind x, v.value.pieces + (w.unbind x).owned⟩) := by
  rw [Config.total_of_eq (v := w.unbind x) (w := w) _ rfl rfl, ← owned_of_find? hw.ascending hv]
  exact hw.sound.counted

/-- A cell and a slot hold each other. A tuple holds the cell, and twice a slot with two more handles
to the cell: the slot ends, and the cell is left with the share of the ring. -/
theorem release_frees_exactly_ring :
    let var (name : String) : Datum := .record [("$var", .text name)]
    let cells : Ty := .list (.cell .erased)
    let t : Ty := .tuple .erased (.tuple (.cell .erased) (.tuple .erased (.tuple .probe .unit)))
    let steps : List Step :=
      [.define (some "c") (.cell .erased) (.record [("ref", .null)]),
        .new (some "a") (.cell .erased) (var "c"), .mutate "c" (.record [("put", var "a")]),
        .new (some "b") cells (.list [var "c", var "c"]),
        .define (some "t") t (.list [var "b", var "c", var "b", .int 7]), .drop "b", .drop "c"]
    let w := (Machine.after false steps).unbind "t"
    let v : Value := .node .tuple
      [.handle .slot (some 2), .handle .cell (some 0), .handle .slot (some 2), .probe ⟨7, none⟩]
    (Counted w.store (Config.total ⟨w, v.pieces + w.owned⟩) ∧
      Relation.TransGen w.store.Owns 0 0) ∧
    let u := w.release [v]
    ∃ n gone, n ≤ w.store.weight + v.size ∧ Cascade.Steps n ⟨[v], w⟩ gone ⟨[], u⟩ ∧ gone = [2] ∧
      w.store.get? 0 = some ⟨.cell .erased, .handle .slot (some 1), 4⟩ ∧
      u.store.get? 0 = some ⟨.cell .erased, .handle .slot (some 1), 1⟩ ∧
      u.store.get? 1 = w.store.get? 1 ∧ u.store.get? 2 = none ∧
      Counted u.store (Config.total ⟨u, w.owned⟩) := by
  intro var cells t steps w v
  let list : Value := .node .sequence [.handle .cell (some 0), .handle .cell (some 0)]
  have hstore : w.store = ⟨#[some ⟨.cell .erased, .handle .slot (some 1), 4⟩,
      some ⟨.slot ⟨0, .cell .erased⟩ (.cell .erased), .handle .cell (some 0), 2⟩,
      some ⟨.slot ⟨1, cells⟩ cells, list, 2⟩]⟩ := by
    simp only [w, steps, cells, t, var, list]
    cbv
  have hv : (Machine.after false steps).find? "t" = some ⟨t, v⟩ := by
    simp only [steps, cells, t, var, v]
    cbv
  have hc : Counted w.store (Config.total ⟨w, v.pieces + w.owned⟩) := by
    have hcounted := (Machine.settled_after false steps).counted_unbind hv
    exact hcounted
  have hring : Relation.TransGen w.store.Owns 0 0 := by
    rw [hstore]
    exact .tail (.single ⟨_, rfl, _, List.mem_singleton_self _, rfl⟩)
      ⟨_, rfl, _, List.mem_singleton_self _, rfl⟩
  obtain ⟨-, n, gone, h, hn, -, hnodup, hlive, -, hleast, hcounted⟩ :=
    release_frees_exactly w v w.owned hc
  have hsub : gone.toFinset ⊆ {2} := by
    refine hleast.2 fun id a ha => ?_
    have hid : id < 3 := by simpa [hstore, Store.next] using Store.lt_next_of_get? ha
    rw [hstore] at ha ⊢
    interval_cases id <;> cases ha <;> decide
  have h₀ : w.store.get? 0 = some ⟨.cell .erased, .handle .slot (some 1), 4⟩ := by
    rw [hstore]
    rfl
  have h₁ : w.store.get? 1 =
      some ⟨.slot ⟨0, .cell .erased⟩ (.cell .erased), .handle .cell (some 0), 2⟩ := by
    rw [hstore]
    rfl
  have h₂ : w.store.get? 2 = some ⟨.slot ⟨1, cells⟩ cells, list, 2⟩ := by
    rw [hstore]
    rfl
  have hmem : 2 ∈ gone := (hlive 2 _ h₂).2.1.mpr (Nat.sub_eq_zero_of_le (Nat.le_add_right 2 _))
  have hgone : gone = [2] := by
    have heq : gone.toFinset = [2].toFinset := hsub.antisymm (by simpa using hmem)
    exact List.perm_singleton.mp
      (List.perm_of_nodup_nodup_toFinset_eq hnodup (List.nodup_singleton 2) heq)
  subst hgone
  refine ⟨⟨hc, hring⟩, n, [2], hn, h, rfl, h₀, ?_, ?_, ?_, hcounted⟩
  · rw [(hlive 0 _ h₀).2.2, hstore]
    decide
  · rw [(hlive 1 _ h₁).2.2, hstore]
    decide
  · rw [(hlive 2 _ h₂).2.2]
    rfl

end SharedValues
