import Mathlib
import SharedValues.Proofs.Duplicates
import SharedValues.Proofs.Overwriting

/-!
Writing into a cell. What is put into a cell, or what a change leaves in it, is what every handle to
the cell then leads to. Whatever does not lead to the cell keeps its text and what it equals, though
the old content is given up and much else may end with it.
-/
namespace SharedValues

section lending

namespace Store

variable {s : Store} {hs : List Handle}

theorem sharing_put {id : Nat} (a : Allocation) (h : id < s.next) : (s.put id a).sharing hs =
    (s.sharing hs).put id { a with shares := a.shares + hs.countP (·.target = id) } := by
  refine eq_of_get? (by simp) fun other => ?_
  rw [get?_sharing]
  by_cases e : other = id
  · subst e
    rw [get?_put_same _ h, get?_put_same _ (by simpa using h)]
    rfl
  · rw [get?_put_other _ _ e, get?_put_other _ _ e, get?_sharing]

theorem sharing_erase (id : Nat) : (s.erase id).sharing hs = (s.sharing hs).erase id := by
  refine eq_of_get? (by simp [next_erase]) fun other => ?_
  rw [get?_sharing]
  by_cases e : other = id
  · subst e
    simp
  · rw [get?_erase_other _ e, get?_erase_other _ e, get?_sharing]

theorem sharing_push (a : Allocation) (h : ∀ x ∈ hs, x.target < s.next) :
    (s.push a).sharing hs = (s.sharing hs).push a := by
  refine eq_of_get? (by simp) fun other => ?_
  rw [get?_sharing]
  by_cases e : other = s.next
  · have hcount : hs.countP (·.target = other) = 0 := by
      rw [List.countP_eq_zero]
      intro x hx
      simpa [e] using Nat.ne_of_lt (h x hx)
    rw [hcount, e, get?_push_next, ← next_sharing s hs, get?_push_next]
    rfl
  · rw [get?_push_of_ne _ _ e, get?_push_of_ne _ _ (by simpa using e), get?_sharing]

end Store

/-- The state with one more share of a cell: that of a lock, if the handle that it came through stays
where it is. -/
def World.lend (w : World) (id : Nat) : World :=
  { w with store := w.store.sharing [⟨.cell, id⟩] }

namespace World

variable {w : World} {id other : Nat} {a b : Allocation}

theorem get?_lend_same (ha : w.store.get? id = some a) :
    (w.lend id).store.get? id = some { a with shares := a.shares + 1 } := by
  simp [lend, Store.get?_sharing, ha]

theorem get?_lend_other (h : other ≠ id) :
    (w.lend id).store.get? other = w.store.get? other := by
  rw [lend, Store.get?_sharing]
  cases w.store.get? other <;> simp [Ne.symm h]

theorem store_lend (ha : w.store.get? id = some a) :
    (w.lend id).store = w.store.put id { a with shares := a.shares + 1 } :=
  Store.sharing_singleton ha

theorem lend_put (hlt : other < w.store.next) (hne : other ≠ id) :
    { w with store := w.store.put other b }.lend id =
      { w.lend id with store := (w.lend id).store.put other b } := by
  simp only [lend, Store.sharing_put b hlt]
  simp [Ne.symm hne]

theorem lend_put_same (hlt : id < w.store.next) :
    { w with store := w.store.put id b }.lend id =
      { w.lend id with store := (w.lend id).store.put id { b with shares := b.shares + 1 } } := by
  simp only [lend, Store.sharing_put b hlt]
  simp

theorem lend_destroy (other id : Nat) (a : Allocation) :
    (w.destroy other a).lend id = (w.lend id).destroy other a := by
  unfold destroy lend
  dsimp only
  cases a.role with
  | slot table t => simp only [recordAll, Store.sharing_erase]
  | _ => simp only [Store.sharing_erase]

/-- Giving values up does not depend on the share that is lent, unless it ends the cell. -/
theorem release_lend (vs : List Value) (w : World) (h : (w.release vs).store.get? id = some b) :
    (w.lend id).release vs = (w.release vs).lend id := by
  fun_induction World.release vs w with
  | case1 w => rw [release]
  | case2 x rest w ih =>
    rw [release]
    exact ih h
  | case3 p rest w ih =>
    rw [release]
    exact ih h
  | case4 k rest w ih =>
    rw [release]
    exact ih h
  | case5 k other rest w hg ih =>
    have hg' : (w.lend id).store.get? other = none := by
      rw [lend, Store.get?_sharing, hg]
      rfl
    rw [release_missing hg']
    exact ih h
  | case6 k other rest w a ha h1 ih =>
    -- the cell outlives the release, so it is another allocation that ends
    have hne : other ≠ id := by
      rintro rfl
      obtain ⟨c, hc, -⟩ := (sameBut_release _ _).content _ _ h
      simp at hc
    rw [release_last ((get?_lend_other hne).trans ha) h1, ← lend_destroy]
    exact ih h
  | case7 k other rest w a ha h1 ih =>
    have hlt := Store.lt_next_of_get? ha
    by_cases e : other = id
    · subst e
      rw [release_share (get?_lend_same ha) (by simp only; omega)]
      rw [lend_put_same hlt] at ih
      have hs : a.shares - 1 + 1 = a.shares + 1 - 1 := by omega
      simp only [hs] at ih
      exact ih h
    · rw [release_share ((get?_lend_other e).trans ha) (by omega), ← lend_put hlt e]
      exact ih h
  | case8 shape parts rest w ih =>
    rw [release]
    exact ih h

/-- Every live allocation keeps a share when values are given up. -/
theorem shared_release (vs : List Value) (w : World) (h : w.store.Shared) :
    (w.release vs).store.Shared := by
  fun_induction World.release vs w with
  | case1 w => exact h
  | case2 x rest w ih => exact ih h
  | case3 p rest w ih => exact ih h
  | case4 k rest w ih => exact ih h
  | case5 k other rest w hg ih => exact ih h
  | case6 k other rest w a ha h1 ih =>
    refine ih fun i b hb => ?_
    rw [destroy_store] at hb
    exact h i b (Store.get?_erase_cases hb).2
  | case7 k other rest w a ha h1 ih =>
    refine ih fun i b hb => ?_
    rcases Store.get?_put_cases hb with ⟨rfl, rfl⟩ | ⟨-, hb⟩
    · simp only
      omega
    · exact h i b hb
  | case8 shape parts rest w ih => exact ih h

end World

/-- The configuration with a share of the cell that is lent. -/
def Config.lend (c : Config) (id : Nat) : Config :=
  ⟨c.world.lend id, c.hand⟩

theorem Move.lend {s : Scope} {c d : Config} (hm : Move s c d) (hs : s ≤ .shrink) {id : Nat}
    (hlt : id < c.world.store.next) {b : Allocation} (hb : d.world.store.get? id = some b) :
    Move s (c.lend id) (d.lend id) := by
  cases hm with
  | report e he => exact .report e he
  | publish t ht => exact .publish t ht
  | create p => exact .create p
  | @retain w h other a ha =>
    by_cases e : other = id
    · subst e
      have hr : Move .grow ⟨w.lend other, h⟩ _ := .retain (World.get?_lend_same ha)
      rwa [← World.lend_put_same (b := { a with shares := a.shares + 1 }) hlt] at hr
    · have hr : Move .grow ⟨w.lend id, h⟩ _ := .retain ((World.get?_lend_other e).trans ha)
      rwa [← World.lend_put (Store.lt_next_of_get? ha) e] at hr
  | @allocate w h h' role content hr hc hh =>
    have hstore : (w.allocate role content).lend id = (w.lend id).allocate role content := by
      simp only [World.allocate, World.lend, Store.next_sharing]
      rw [Store.sharing_push _ (by simpa using hlt)]
    have hnext : (w.lend id).store.next = w.store.next := Store.next_sharing _ _
    have ha : w.store.get? id = some b := by
      rwa [World.allocate, Store.get?_push_of_ne _ _ (Nat.ne_of_lt hlt)] at hb
    have he : w.store.Evolves (w.lend id).store := by
      rw [World.store_lend ha]
      exact .put ha rfl
    unfold Config.lend
    rw [hstore, ← hnext]
    exact .allocate hr (hc.evolve he) hh
  | @release w h h' vs hh =>
    unfold Config.lend
    rw [← World.release_lend vs w hb]
    exact .release hh
  | exchange | lock | rewrite | unlock | bind => exact absurd hs (by decide)

theorem Move.shared {s : Scope} {c d : Config} (hm : Move s c d) (hs : s ≤ .shrink)
    (h : c.world.store.Shared) : d.world.store.Shared := by
  cases hm with
  | @retain w _ id a ha =>
    intro i b hb
    rcases Store.get?_put_cases hb with ⟨rfl, rfl⟩ | ⟨-, hb⟩
    · exact Nat.le_add_left _ _
    · exact h i b hb
  | allocate =>
    intro i b hb
    rcases Store.get?_push_cases hb with ⟨rfl, rfl⟩ | hb
    · exact Nat.le_refl _
    · exact h i b hb
  | @release w _ _ vs => exact w.shared_release vs h
  | exchange | lock | rewrite | unlock | bind => exact absurd hs (by decide)
  | _ => exact h

theorem Moves.shared {c d : Config} (hm : Moves .shrink c d) (h : c.world.store.Shared) :
    d.world.store.Shared :=
  hm.invariant (P := fun e => e.world.store.Shared) (fun _ _ _ hs hm h => hm.shared hs h) h

/-- What is added and given up while the lock has a share of its own is what is added and given up
without that share, as long as the cell does not end. -/
theorem Moves.lend {c d : Config} (hm : Moves .shrink c d) {id : Nat}
    (hlt : id < c.world.store.next) {b : Allocation} (hb : d.world.store.get? id = some b) :
    Moves .shrink (c.lend id) (d.lend id) := by
  induction hm using Relation.ReflTransGen.head_induction_on with
  | refl => exact .refl
  | @head c e h hrest ih =>
    obtain ⟨s, hs, hm⟩ := h
    have hlt' : id < e.world.store.next := Nat.lt_of_lt_of_le hlt (hm.evolves).next_le
    obtain ⟨a, ha, -⟩ := (Moves.evolves hrest).role_eq id hlt' b hb
    exact (Moves.one hs (hm.lend hs hlt ha)).trans (ih hlt')

/-- A change of a cell accounts for all pieces, wherever the handle is that it was made through. -/
theorem Config.Sound.update {w u : World} {id : Nat} {a b : Allocation} {content : Value}
    {incoming outgoing : Multiset Piece} (hs : Config.Sound ⟨w, incoming⟩)
    (ha : w.store.get? id = some a) (hk : a.role.kind = .cell) (hl : id ∉ w.locks)
    (hm : Moves .shrink ⟨{ w with locks := id :: w.locks }, a.content.pieces + incoming⟩
      ⟨u, content.pieces + outgoing⟩)
    (hb : u.store.get? id = some b) (ht : HasType u.store b.role.content content) :
    Config.Sound ⟨{ u with store := u.store.put id { b with content }, locks := u.locks.erase id },
      outgoing⟩ := by
  have hretain : Move .grow ⟨w, incoming⟩ ⟨w.lend id, {.handle ⟨.cell, id⟩} + incoming⟩ := by
    have h : Move .grow ⟨w, incoming⟩ _ := .retain ha
    rwa [hk, ← World.store_lend ha] at h
  have hlock : Move .write ⟨w.lend id, {.handle ⟨.cell, id⟩} + incoming⟩
      ⟨{ w.lend id with locks := id :: w.locks }, a.content.pieces + incoming⟩ :=
    .lock (a := { a with shares := a.shares + 1 }) (World.get?_lend_same ha) hl rfl
  have hinside : Config.Sound ⟨u.lend id, content.pieces + outgoing⟩ :=
    ((hs.move hretain).move hlock).moves (hm.lend (Store.lt_next_of_get? ha) hb)
  have hlocked : id ∈ u.locks := by
    rw [show u.locks = id :: w.locks from hm.locks_eq (Scope.le_refl _)]
    exact List.mem_cons_self
  have hlt := Store.lt_next_of_get? hb
  have hlent := World.get?_lend_same hb
  let full : Allocation := { b with content, shares := b.shares + 1 }
  have hrewrite : Move .write ⟨u.lend id, content.pieces + outgoing⟩
      ⟨{ u.lend id with store := u.store.put id full }, content.pieces + outgoing⟩ := by
    have he : u.store.Evolves (u.lend id).store := by
      rw [World.store_lend hb]
      exact .put hb rfl
    have h : Move .write ⟨u.lend id, content.pieces + outgoing⟩ _ :=
      .rewrite hlent hlocked (ht.evolve he)
    rwa [World.store_lend hb, Store.put_put] at h
  have hfull : (u.store.put id full).get? id = some full := Store.get?_put_same _ hlt
  have hunlock : Move .write
      ⟨{ u.lend id with store := u.store.put id full }, content.pieces + outgoing⟩
      ⟨{ u with store := u.store.put id full, locks := u.locks.erase id },
        {.handle ⟨.cell, id⟩} + outgoing⟩ :=
    .unlock hfull hlocked rfl
  have hshared : 1 ≤ b.shares := hm.shared hs.counted.shared id b hb
  have hgive : Loss
      ⟨{ u with store := u.store.put id full, locks := u.locks.erase id },
        {.handle ⟨.cell, id⟩} + outgoing⟩ _ :=
    .share hfull (show 1 < b.shares + 1 by omega) rfl
  have hsound := ((hinside.move hrewrite).move hunlock).loss hgive
  rwa [Store.put_put] at hsound

end lending

section seeing

variable {s : Store} {i j : Nat} {a b : Allocation}

theorem Store.Closed.sameAt (hc : s.Closed) {x : Handle} (hx : s.Alive x) {id : Nat}
    (h : s.Leads (fun _ => true) (· = x) id) : s.SameAt s id := by
  obtain ⟨a, ha⟩ := h.get?_eq_some hc (by rintro _ rfl; exact hx)
  exact ⟨a, a, ha, ha, rfl, rfl⟩

/-- There is one more hop than the content of an allocation needs. -/
theorem Store.Acyclic.exists_hops (hac : s.Acyclic) (hc : s.Closed) (ha : s.get? i = some a) :
    ∃ (rank : Nat → Nat) (n : Nat), (∀ x y, s.Owns x y → y < s.next → rank y < rank x) ∧
      s.next = n + 1 ∧ ∀ x ∈ a.content.handles, s.Alive x ∧ rank x.target < n := by
  obtain ⟨rank, hr, hlt⟩ := hac.exists_rank
  have hi := hlt i (Store.lt_next_of_get? ha)
  obtain ⟨n, hn⟩ : ∃ n, s.next = n + 1 := Nat.exists_eq_succ_of_ne_zero (by omega)
  refine ⟨rank, n, hr, hn, fun x hx => ?_⟩
  have halive := hc i a ha x hx
  have hdown := hr i x.target ⟨a, ha, x, hx, rfl⟩ halive.lt_next
  exact ⟨halive, by omega⟩

/-- The text of a cell is that of what it holds. -/
theorem alike_toText_cell (hc : s.Closed) (hac : s.Acyclic) {elem : Ty} (ha : s.get? i = some a)
    (hra : a.role = .cell elem) :
    Alike s s (Value.handle .cell (some i)).toText a.content.toText := by
  obtain ⟨rank, n, hr, hn, hcontent⟩ := hac.exists_hops hc ha
  intro w w' hw hw'
  have hread : Run.read .cell i w = .ok a w := by
    have h := Run.read_of_get? (hw ▸ ha : w.store.get? i = some a)
    rwa [hra] at h
  rw [Value.toText, Value.render, Run.bind_get, Value.toText, Value.render, Run.bind_get,
    World.hops, World.hops, hw, hw', hn, Value.renderWith]
  simp only [Value.renderThrough]
  rw [Run.bind_of_ok hread, hra]
  refine alike_renderWith a.content "" (fun x hx out => ?_) w w' hw hw'
  obtain ⟨halive, hlt⟩ := hcontent x hx
  exact alike_renderThrough hc hr n (n + 1) x out halive hlt (by omega) fun id => hc.sameAt halive

/-- Two cells are compared by what they hold. -/
theorem alike_equals_cells (hc : s.Closed) (hac : s.Acyclic) {elem elem' : Ty} (hne : i ≠ j)
    (ha : s.get? i = some a) (hra : a.role = .cell elem) (hb : s.get? j = some b)
    (hrb : b.role = .cell elem') :
    Alike s s ((Value.handle .cell (some i)).equals (.handle .cell (some j)))
      (a.content.equals b.content) := by
  obtain ⟨rank, n, hr, hn, hcontent⟩ := hac.exists_hops hc ha
  intro w w' hw hw'
  have hread : Run.read .cell i w = .ok a w := by
    have h := Run.read_of_get? (hw ▸ ha : w.store.get? i = some a)
    rwa [hra] at h
  have hread' : Run.read .cell j w = .ok b w := by
    have h := Run.read_of_get? (hw ▸ hb : w.store.get? j = some b)
    rwa [hrb] at h
  rw [Value.equals, Run.bind_get, Value.equals, Run.bind_get, World.hops, World.hops, hw,
    hw', hn, Value.equalsWith, if_neg hne]
  simp only [Value.equalThrough]
  rw [Run.bind_of_ok hread, Run.bind_of_ok hread', hra, hrb]
  refine alike_equalsWith (fun x hx y hy => ?_) w w' hw hw'
  obtain ⟨halive, hlt⟩ := hcontent x hx
  exact alike_equalThrough hc hr n (n + 1) x y hlt (by omega) (fun id => hc.sameAt halive)
    fun id => hc.sameAt (hc j b hb y hy)

/-- Positions can be reached one after the other. -/
theorem Store.At.trans {follow : HandleKind → Bool} {v x y : Value} {path path' : List Nat}
    (h : s.At follow v path x) (h' : s.At follow x path' y) : s.At follow v (path ++ path') y := by
  induction h with
  | here => exact h'
  | part hi _ ih => exact .part hi (ih h')
  | behind hk ha _ ih => exact .behind hk ha (ih h')

end seeing

section writing

namespace Store

variable {s : Store} {id : Nat} {a : Allocation}

theorem Leads.transGen_owns {follow : HandleKind → Bool} {j : Nat} (ha : s.get? id = some a)
    (h : s.Leads follow (· ∈ a.content.handles) j) : Relation.TransGen s.Owns id j := by
  induction h with
  | held hh hf ht => exact .single ⟨a, ha, _, hh, ht⟩
  | through _ hb hh hf ht ih => exact .tail ih ⟨_, hb, _, hh, ht⟩

/-- What an allocation held does not lead back to it when something else has been put there. -/
theorem Acyclic.not_sees_put (hac : s.Acyclic) (ha : s.get? id = some a) (b : Allocation) :
    ¬(s.put id b).Sees a.content id := by
  have hback : ∀ j, (s.put id b).Sees a.content j → s.Sees a.content j ∨ s.Sees a.content id := by
    intro j hj
    induction hj with
    | held hh hf ht => exact .inl (.held hh hf ht)
    | through _ hc hh hf ht ih =>
      rcases get?_put_cases hc with ⟨rfl, rfl⟩ | ⟨-, hc⟩
      · exact .inr (ih.elim (fun h => h) fun h => h)
      · exact ih.imp_left fun h => .through h hc hh hf ht
  intro h
  rcases hback id h with h | h <;> exact hac id (h.transGen_owns ha)

end Store

/-- The cell holds the content, for whoever has a handle to it: whoever borrows it, gets a clone, comes
upon the handle at some position, renders it or compares it with another cell. Variables that did not
lead to the cell are as before, and so are their texts and which of them are equal. -/
structure Cell.Written (w : World) (id : Nat) (content : Value) (v : World) : Prop where
  peek : Cell.peek (some id) v = .ok content v
  get : Cell.get (some id) v = content.clone v
  behind : ∀ x path, v.store.At (fun _ => true) x path (.handle .cell (some id)) →
    v.store.At (fun _ => true) x (path ++ [0]) content
  text : Alike v.store v.store (Value.handle .cell (some id)).toText content.toText
  equal : ∀ j b elem, j ≠ id → v.store.get? j = some b → b.role = .cell elem →
    Alike v.store v.store ((Value.handle .cell (some id)).equals (.handle .cell (some j)))
      (content.equals b.content) ∧
    Alike v.store v.store ((Value.handle .cell (some j)).equals (.handle .cell (some id)))
      (b.content.equals content)
  bindings : v.bindings = w.bindings
  otherText : ∀ name x, w.find? name = some x → ¬w.store.Sees x.value id →
    Alike w.store v.store x.value.toText x.value.toText
  otherEqual : ∀ name name' x x', w.find? name = some x → w.find? name' = some x' →
    ¬w.store.Sees x.value id → ¬w.store.Sees x'.value id →
    Alike w.store v.store (x.value.equals x'.value) (x.value.equals x'.value)

/-- A write is seen by all if nothing changes but what the cell holds and what comes and goes. -/
theorem Leaves.written {w v : World} {id : Nat} {b : Allocation} {elem : Ty}
    {hand hand' kept : Multiset Piece} (h : Leaves (· ≠ id) ⟨w, hand⟩ ⟨v, hand'⟩)
    (hs : Config.Sound ⟨w, hand + kept⟩) (hs' : Config.Sound ⟨v, hand' + kept⟩) (hl : w.locks = [])
    (hac : w.store.Acyclic) (hac' : v.store.Acyclic) (hvars : w.owned ≤ kept)
    (hbind : v.bindings = w.bindings) (hb : v.store.get? id = some b) (hr : b.role = .cell elem) :
    Cell.Written w id b.content v := by
  have hl' : v.locks = [] := h.locks.trans hl
  have hc := hs.closed hl
  have hc' := hs'.closed hl'
  have hpeek : Cell.peek (some id) v = .ok b.content v :=
    Cell.peek_of_get? hb (by rw [hr]; rfl) (by simp [hl'])
  have hle : ∀ {name : String} {x : Variable}, w.find? name = some x → x.value.pieces ≤ kept :=
    fun hx => (World.find?_le_owned hx).trans hvars
  have hsame : ∀ {name : String} {x : Variable}, w.find? name = some x → ¬w.store.Sees x.value id →
      ∀ j, w.store.Sees x.value j → w.store.SameAt v.store j := by
    intro name x hx hn j hj
    exact h.sameAt hs hs' hl (hle hx) (fun i hi e => hn (e ▸ hi)) hj
  have halive : ∀ {name : String} {x : Variable}, w.find? name = some x →
      ∀ y ∈ x.value.handles, w.store.Alive y := fun hx =>
    hs.alive_of_le ((hle hx).trans (Multiset.le_add_left _ _))
  have hnext : w.store.next ≤ v.store.next := h.evolves.next_le
  refine ⟨hpeek, Run.bind_of_ok hpeek, fun x path hp => ?_, alike_toText_cell hc' hac' hb hr, ?_,
    hbind, ?_, ?_⟩
  · exact hp.trans (.behind rfl hb .here)
  · intro j b' elem' hne hb' hr'
    exact ⟨alike_equals_cells hc' hac' (Ne.symm hne) hb hr hb' hr',
      alike_equals_cells hc' hac' hne hb' hr' hb hr⟩
  · intro name x hx hn
    exact alike_toText hc hac (halive hx) hnext (hsame hx hn)
  · intro name name' x x' hx hx' hn hn'
    exact alike_equals hc hac (halive hx) hnext (hsame hx hn) (hsame hx' hn')

end writing

/-- A write through one handle to a cell is seen through all of them and by nothing else. A value is
put into the cell, or a change is made to what it holds that adds and gives up but writes nothing
else. Either comes to an end, wherever the handle is that it goes through; and if the store has no
cycles then, all handles to the cell lead to the new content, while variables that did not lead to the
cell keep their texts and what they equal. -/
theorem cell_writes_seen_by_shares {w : World} {kept : Multiset Piece} (hl : w.locks = [])
    (hac : w.store.Acyclic) (hvars : w.owned ≤ kept) {id : Nat} {a : Allocation} {elem : Ty}
    (ha : w.store.get? id = some a) (hr : a.role = .cell elem) :
    (∀ content, Config.Sound ⟨w, content.pieces + kept⟩ → HasType w.store elem content →
      ∃ v, Cell.put (some id) content w = .ok () v ∧
        (v.store.Acyclic → Cell.Written w id content v)) ∧
    ∀ (α : Type) (change : Value → Run (Value × α)) (incoming outgoing : Multiset Piece) (content : Value)
      (y : α) (u : World), Config.Sound ⟨w, incoming + kept⟩ →
      change a.content { w with locks := [id] } = .ok (content, y) u →
      Moves .shrink ⟨{ w with locks := [id] }, a.content.pieces + (incoming + kept)⟩
        ⟨u, content.pieces + (outgoing + kept)⟩ →
      HasType u.store elem content → u.store.Alive ⟨.cell, id⟩ →
      ∃ v, Cell.update (some id) change w = .ok y v ∧
        (v.store.Acyclic → Cell.Written w id content v) := by
  have hk : a.role.kind = .cell := by
    rw [hr]
    rfl
  have hnot : id ∉ w.locks := by simp [hl]
  constructor
  · intro content hs ht
    let full : World := { w with store := w.store.put id { a with content } }
    have hexchange : Move .write ⟨w, content.pieces + kept⟩ ⟨full, a.content.pieces + kept⟩ :=
      .exchange ha (by rw [hk]; decide) hnot (by rw [hr]; exact ht) (by abel)
    have hrelease : Move .shrink ⟨full, a.content.pieces + kept⟩
        ⟨full.release [a.content], 0 + kept⟩ := .release (by simp)
    have hleaves : Leaves (· ≠ id) ⟨w, content.pieces⟩ ⟨full, a.content.pieces⟩ :=
      .put (b := { a with content }) ha rfl (by simp) rfl rfl
    have hget : (full.release [a.content]).store.get? id = some { a with content } := by
      rw [World.get?_release_of_not_sees]
      · exact Store.get?_put_same _ (Store.lt_next_of_get? ha)
      · simpa using hac.not_sees_put ha _
    refine ⟨_, Cell.put_of_get? ha hk hnot content, fun hac' => ?_⟩
    exact (hleaves.trans (.of_moves (.one (Scope.le_refl _) hrelease))).written hs
      ((hs.move hexchange).move hrelease) hl hac hac' hvars
      (World.sameBut_release [a.content] full).bindings hget hr
  · intro α change incoming outgoing content y u hs hc hm ht hal
    obtain ⟨b, hb, -⟩ := hal
    obtain ⟨a', ha', hrole⟩ := hm.evolves.role_eq id (Store.lt_next_of_get? ha) b hb
    obtain rfl := Option.some.inj (ha.symm.trans ha')
    have hlocks : u.locks = [id] := hm.locks_eq (Scope.le_refl _)
    have hc' : change a.content { w with locks := id :: w.locks } = .ok (content, y) u := by
      rw [hl]
      exact hc
    have hm' : Moves .shrink ⟨{ w with locks := id :: w.locks }, a.content.pieces + (incoming + kept)⟩
        ⟨u, content.pieces + (outgoing + kept)⟩ := by
      rw [hl]
      exact hm
    let v : World :=
      { u with store := u.store.put id { b with content }, locks := u.locks.erase id }
    have hrun : Cell.update (some id) change w = .ok y v := by
      have hread : Run.read .cell id w = .ok a w := hk ▸ Run.read_of_get? ha
      rw [Cell.update, Run.bind_of_ok (Cell.address_of_not_mem hnot), Run.bind_of_ok hread]
      exact locking_ok hc' hb (by rw [← hrole, hk])
    have hsound : Config.Sound ⟨v, outgoing + kept⟩ :=
      hs.update ha hk hnot hm' hb (by rw [← hrole, hr]; exact ht)
    have hleaves : Leaves (· ≠ id) ⟨w, incoming⟩ ⟨v, outgoing⟩ := by
      refine ⟨hm.evolves.trans (.put hb rfl), by simp [v, hlocks, hl], fun j hj role x hf => ?_⟩
      exact (hm.fixed hf).put hj _
    refine ⟨v, hrun, fun hac' => ?_⟩
    exact hleaves.written hs hsound hl hac hac' hvars (hm.bindings_eq (by decide))
      (Store.get?_put_same _ (Store.lt_next_of_get? hb)) (hrole.symm.trans hr)

/-- A cell with two handles holds the only share of a slot, and the slot that of another cell. Both end
when the first cell is emptied, by putting nothing into it or by a change that drops the slot. -/
theorem cell_writes_seen_by_shares_last_slot :
    let var (name : String) : Datum := .record [("$var", .text name)]
    let ref (d : Datum) : Datum := .record [("ref", d)]
    let steps : List Step :=
      [.new (some "s") (.cell (.int .i32)) (ref (.int 3)),
        .define (some "c") (.cell .erased) (ref (var "s")), .drop "s",
        .define (some "l") (.list (.cell .erased)) (.list [var "c"]),
        .define (some "x") (.cell (.int .i32)) (ref (.int 5)),
        .define (some "y") (.cell (.int .i32)) (ref (.int 5))]
    let w := Machine.after false steps
    let x : Value := .handle .cell (some 3)
    let y : Value := .handle .cell (some 4)
    let nothing : Value := .handle .slot none
    let change (old : Value) : Run (Value × Unit) := do
      Run.drop [old]
      pure (nothing, ())
    let v := (Cell.put (some 2) nothing).after w
    let v' := (Cell.update (some 2) change).after w
    (w.locks = [] ∧ w.store.Acyclic ∧ Config.Sound ⟨w, w.owned⟩ ∧
      w.store.get? 2 = some ⟨.cell .erased, .handle .slot (some 1), 2⟩) ∧
    (Cell.put (some 2) nothing w = .ok () v ∧ v.store.Acyclic ∧ v.store.get? 0 = none ∧
      Cell.Written w 2 nothing v ∧ Alike w.store v.store (x.equals y) (x.equals y)) ∧
    Cell.update (some 2) change w = .ok () v' ∧ v'.store.Acyclic ∧ v'.store.get? 0 = none ∧
      Cell.Written w 2 nothing v' ∧ Alike w.store v'.store (x.equals y) (x.equals y) := by
  intro var ref steps w x y nothing change v v'
  have hstore : w.store = ⟨#[some ⟨.cell (.int .i32), .int 3, 1⟩,
      some ⟨.slot ⟨0, .cell (.int .i32)⟩ (.cell (.int .i32)), .handle .cell (some 0), 1⟩,
      some ⟨.cell .erased, .handle .slot (some 1), 2⟩, some ⟨.cell (.int .i32), .int 5, 1⟩,
      some ⟨.cell (.int .i32), .int 5, 1⟩]⟩ := by
    simp only [w, steps, var, ref]
    cbv
  have hafter : v.store = ⟨#[none, none, some ⟨.cell .erased, nothing, 2⟩,
      some ⟨.cell (.int .i32), .int 5, 1⟩, some ⟨.cell (.int .i32), .int 5, 1⟩]⟩ := by
    simp only [v, w, steps, var, ref, nothing]
    cbv
  have hafter' : v'.store = v.store := by
    simp only [v', v, w, steps, var, ref, nothing, change]
    cbv
  have hx : w.find? "x" = some ⟨.cell (.int .i32), x⟩ := by
    simp only [w, steps, var, ref, x]
    cbv
  have hy : w.find? "y" = some ⟨.cell (.int .i32), y⟩ := by
    simp only [w, steps, var, ref, y]
    cbv
  have hw : w.Settled := Machine.settled_after false steps
  have hac : w.store.Acyclic := Store.acyclic_of_lt (by rw [hstore]; decide)
  have hac' : v.store.Acyclic := Store.acyclic_of_lt (by rw [hafter]; decide)
  have hget : w.store.get? 2 = some ⟨.cell .erased, .handle .slot (some 1), 2⟩ := by
    rw [hstore]
    rfl
  have hsound : Config.Sound ⟨w, 0 + w.owned⟩ := (zero_add w.owned).symm ▸ hw.sound
  have hfar : ∀ z : Value, z = x ∨ z = y → ¬w.store.Sees z 2 := by
    rintro z hz h
    have hlt : 2 < 2 := h.within (P := (2 < ·)) (by rcases hz with rfl | rfl <;> decide)
      (by rw [hstore]; decide)
    exact absurd hlt (Nat.lt_irrefl 2)
  obtain ⟨hput, hupdate⟩ := cell_writes_seen_by_shares hw.locks hac le_rfl hget rfl
  have hnothing : ∀ s : Store, HasType s .erased nothing := hasType_nothing rfl
  have hequal : ∀ z, Cell.Written w 2 nothing z → Alike w.store z.store (x.equals y) (x.equals y) :=
    fun z hz => hz.otherEqual "x" "y" _ _ hx hy (hfar x (.inl rfl)) (hfar y (.inr rfl))
  obtain ⟨z, hz, hwritten⟩ := hput nothing hsound (hnothing _)
  have hvz : v = z := by
    simp only [v, Run.after, hz]
  let u : World := { w with locks := [2] }.release [.handle .slot (some 1)]
  have halive : u.store.Alive ⟨.cell, 2⟩ := by
    refine ⟨⟨.cell .erased, .handle .slot (some 1), 2⟩, ?_, rfl⟩
    simp only [u, w, steps, var, ref]
    cbv
  obtain ⟨z', hz', hwritten'⟩ := hupdate Unit change 0 0 nothing () u hsound rfl
    (.one (Scope.le_refl _) (.release (by simp [nothing]))) (hnothing _) halive
  have hvz' : v' = z' := by
    simp only [v', Run.after, hz']
  rw [← hvz] at hz hwritten
  rw [← hvz'] at hz' hwritten'
  have hw₁ := hwritten hac'
  have hw₂ := hwritten' (hafter' ▸ hac')
  exact ⟨⟨hw.locks, hac, hw.sound, hget⟩, ⟨hz, hac', by rw [hafter]; rfl, hw₁, hequal v hw₁⟩, hz',
    hafter' ▸ hac', by rw [hafter', hafter]; rfl, hw₂, hequal v' hw₂⟩

end SharedValues
