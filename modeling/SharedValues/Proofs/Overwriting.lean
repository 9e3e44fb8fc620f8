import Mathlib
import SharedValues.Proofs.CopyAndDrop
import SharedValues.Proofs.Independence

/-!
Overwriting an erased value. The variable lets go of its slot and gets another one, or none; nothing
is written into a slot. So all that can be got at from the other variables stays as it is: the
slots, their types and tables, the texts, and which values are equal.
-/
namespace SharedValues

section comparing

variable {s s' : Store} {through through' : HandleKind → Nat → Nat → Run Bool}

/-- Reading an allocation that is the same in both stores, of whatever kind it is. -/
theorem Alike.readSame {α : Type} {kind : HandleKind} {id : Nat} {f g : Allocation → Run α}
    (h : s.SameAt s' id)
    (hf : ∀ a b, s.get? id = some a → b.role = a.role → b.content = a.content →
      Alike s s' (f a) (g b)) :
    Alike s s' (Run.read kind id >>= f) (Run.read kind id >>= g) := by
  obtain ⟨a, b, ha, hb, hr, hc⟩ := h
  by_cases hk : a.role.kind = kind
  · exact .read ha hb hr hk (hf a b ha hr hc)
  · have hread : ∀ w : World, ∀ x, w.store.get? id = some x → x.role = a.role →
        Run.read kind id w = .error .dangling w := by
      intro w x hx hxr
      rcases Run.read_cases kind id w with ⟨y, hy, hyk, -⟩ | h
      · cases hx.symm.trans hy
        rw [hxr] at hyk
        exact absurd hyk hk
      · exact h
    intro w w' hw hw'
    rw [Run.bind_of_error (hread w a (hw ▸ ha) rfl), Run.bind_of_error (hread w' b (hw' ▸ hb) hr)]
    exact ⟨[], .inr ⟨.dangling, by rw [w.recordAll_nil], by rw [w'.recordAll_nil]⟩⟩

theorem alike_partsEqualWith {vs us : List Value}
    (h : ∀ v ∈ vs, ∀ u ∈ us, Alike s s' (v.equalsWith through u) (v.equalsWith through' u)) :
    Alike s s' (Value.partsEqualWith through vs us) (Value.partsEqualWith through' vs us) := by
  induction vs generalizing us with
  | nil =>
    simp only [Value.partsEqualWith]
    exact .pure _
  | cons v vs ih =>
    cases us with
    | nil =>
      simp only [Value.partsEqualWith]
      exact .pure _
    | cons u us =>
      rw [Value.partsEqualWith, Value.partsEqualWith]
      apply Alike.bind (h v (by simp) u (by simp))
      intro b
      cases b with
      | false => exact .pure _
      | true => exact ih fun x hx y hy => h x (by simp [hx]) y (by simp [hy])

/-- Values compare alike if their handles do. -/
theorem alike_equalsWith {v u : Value}
    (h : ∀ x ∈ v.handles, ∀ y ∈ u.handles,
      Alike s s' (through x.kind x.target y.target) (through' x.kind x.target y.target)) :
    Alike s s' (v.equalsWith through u) (v.equalsWith through' u) := by
  induction v using Value.induction generalizing u with
  | scalar x =>
    cases u <;> simp only [Value.equalsWith] <;> exact .pure _
  | probe p =>
    cases u with
    | probe q =>
      rw [Value.equalsWith, Value.equalsWith]
      exact .bind (.callHook _ _) fun _ => .pure _
    | _ =>
      simp only [Value.equalsWith]
      exact .pure _
  | handle k target =>
    cases u with
    | handle k' target' =>
      cases target with
      | none =>
        cases target' <;> simp only [Value.equalsWith] <;> exact .pure _
      | some i =>
        cases target' with
        | none =>
          simp only [Value.equalsWith]
          exact .pure _
        | some j =>
          rw [Value.equalsWith, Value.equalsWith]
          by_cases e : i = j
          · rw [if_pos e, if_pos e]
            exact .pure _
          · rw [if_neg e, if_neg e]
            exact h ⟨k, i⟩ (by simp [Value.handles]) ⟨k', j⟩ (by simp [Value.handles])
    | _ =>
      cases target <;> simp only [Value.equalsWith] <;> exact .pure _
  | node shape parts ih =>
    cases u with
    | node shape' parts' =>
      rw [Value.equalsWith, Value.equalsWith]
      by_cases e : shape.meaning = shape'.meaning ∧ parts.length = parts'.length
      · rw [if_pos e, if_pos e]
        apply alike_partsEqualWith
        intro x hx y hy
        apply ih x hx
        intro a ha b hb
        exact h a (Value.mem_handles_node hx ha) b (Value.mem_handles_node hy hb)
      · rw [if_neg e, if_neg e]
        exact .pure _
    | _ =>
      simp only [Value.equalsWith]
      exact .pure _

/-- Two allocations compare alike if all that they lead to is the same in both stores, however many
more hops there are than are needed. -/
theorem alike_equalThrough {rank : Nat → Nat} (hc : s.Closed)
    (hr : ∀ x y, s.Owns x y → y < s.next → rank y < rank x) (hops : Nat) :
    ∀ (hops' : Nat) (x y : Handle), rank x.target < hops → rank x.target < hops' →
      (∀ id, s.Leads (fun _ => true) (· = x) id → s.SameAt s' id) →
      (∀ id, s.Leads (fun _ => true) (· = y) id → s.SameAt s' id) →
      Alike s s' (Value.equalThrough hops x.kind x.target y.target)
        (Value.equalThrough hops' x.kind x.target y.target) := by
  induction hops with
  | zero => exact fun _ _ _ h => absurd h (Nat.not_lt_zero _)
  | succ hops ih =>
    rintro (_ | hops') ⟨k, i⟩ ⟨k', j⟩ hlt hlt' hx hy
    · exact absurd hlt' (Nat.not_lt_zero _)
    · have hi : s.Leads (fun _ => true) (· = ⟨k, i⟩) i := .held rfl rfl rfl
      have hj : s.Leads (fun _ => true) (· = ⟨k', j⟩) j := .held rfl rfl rfl
      have hcontents : ∀ a b, s.get? i = some a → s.get? j = some b →
          Alike s s' (a.content.equalsWith (Value.equalThrough hops) b.content)
            (a.content.equalsWith (Value.equalThrough hops') b.content) := by
        intro a b ha hb
        apply alike_equalsWith
        intro z hz z' hz'
        have hdown := hr i z.target ⟨a, ha, z, hz, rfl⟩ (hc i a ha z hz).lt_next
        simp only at hlt hlt'
        apply ih hops' z z' (by omega) (by omega)
        · exact fun id hid => hx id (hid.of_start fun n hn _ => .through hi ha (hn ▸ hz) rfl rfl)
        · exact fun id hid => hy id (hid.of_start fun n hn _ => .through hj hb (hn ▸ hz') rfl rfl)
      cases k with
      | object | callable =>
        simp only [Value.equalThrough]
        exact .pure _
      | slot | cell =>
        simp only [Value.equalThrough]
        apply Alike.readSame (hx i hi)
        intro a a' ha hra hca
        apply Alike.readSame (hy j hj)
        intro b b' hb hrb hcb
        rw [hra, hca, hrb, hcb]
        cases a.role with
        | slot table type =>
          cases b.role with
          | slot table' type' =>
            dsimp only [Table.equalsWith]
            split_ifs
            · exact hcontents a b ha hb
            · exact .pure _
            · exact .pure _
          | _ => exact hcontents a b ha hb
        | _ => exact hcontents a b ha hb

/-- Whether two values are equal depends on nothing but what they lead to. -/
theorem alike_equals {v u : Value} (hc : s.Closed) (hac : s.Acyclic)
    (hv : ∀ h ∈ v.handles, s.Alive h) (hn : s.next ≤ s'.next)
    (hsame : ∀ id, s.Sees v id → s.SameAt s' id) (hsame' : ∀ id, s.Sees u id → s.SameAt s' id) :
    Alike s s' (v.equals u) (v.equals u) := by
  obtain ⟨rank, hr, hlt⟩ := hac.exists_rank
  intro w w' hw hw'
  rw [Value.equals, Run.bind_get, Run.bind_get]
  refine alike_equalsWith (fun x hx y hy => ?_) w w' hw hw'
  have hx' := hlt x.target (hv x hx).lt_next
  rw [World.hops, World.hops, hw, hw']
  apply alike_equalThrough hc hr _ _ x y hx' (Nat.lt_of_lt_of_le hx' hn)
  · exact fun id hid => hsame id (hid.mono (by rintro _ rfl; exact hx))
  · exact fun id hid => hsame' id (hid.mono (by rintro _ rfl; exact hy))

end comparing

section positions

variable {s s' : Store} {v u : Value} {id : Nat}

/-- What a part of a value leads to, the value leads to. -/
theorem Store.Occurs.sees (h : s.Occurs (fun _ => true) v u) (hid : s.Sees u id) : s.Sees v id := by
  obtain ⟨path, h⟩ := h
  induction h with
  | here => exact hid
  | part hi _ ih => exact (ih hid).mono fun x hx => Value.mem_handles_node (List.mem_of_getElem? hi) hx
  | behind _ ha _ ih => exact .trans (.handle rfl) ha (ih hid)

/-- What stands in a value still does if all that the value leads to is the same. -/
theorem Store.Occurs.of_sameAt (h : s.Occurs (fun _ => true) v u)
    (hsame : ∀ id, s.Sees v id → s.SameAt s' id) : s'.Occurs (fun _ => true) v u := by
  obtain ⟨path, h⟩ := h
  induction h with
  | here => exact .refl _
  | part hi _ ih =>
    have hm := List.mem_of_getElem? hi
    apply Store.Occurs.part hm
    exact ih fun id hid => hsame id (hid.mono fun x hx => Value.mem_handles_node hm hx)
  | @behind k id a _ _ hk ha _ ih =>
    have hself : s.Sees (.handle k (some id)) id := .handle rfl
    obtain ⟨a', b, ha', hb, -, hc⟩ := hsame id hself
    cases ha.symm.trans ha'
    apply Store.Occurs.behind hk hb
    rw [hc]
    exact ih fun id hid => hsame id (hself.trans ha hid)

end positions

section overwriting

/-- The value can be got at from a variable other than the given one, through whatever handles. -/
def World.Elsewhere (w : World) (name : String) (u : Value) : Prop :=
  ∃ x v, x ≠ name ∧ w.find? x = some v ∧ w.store.Occurs (fun _ => true) v.value u

/-- The variable has come to hold the slot, or nothing. Whatever can be got at from the other variables
is still there, with the slots that it points at, their types, its text and what it equals. -/
structure Overwritten (w : World) (name : String) (target : Option Nat) (w' : World) : Prop where
  holds : w'.find? name = some ⟨.erased, .handle .slot target⟩
  others : ∀ x, x ≠ name → w'.find? x = w.find? x
  elsewhere : ∀ u, w.Elsewhere name u → w'.Elsewhere name u
  same : ∀ k id, w.Elsewhere name (.handle k (some id)) → w.store.SameAt w'.store id
  type : ∀ slot, w.Elsewhere name (.handle .slot slot) →
    ∃ t, Erased.type? slot w = .ok t w ∧ Erased.type? slot w' = .ok t w'
  text : ∀ u, w.Elsewhere name u → Alike w.store w'.store u.toText u.toText
  equal : ∀ u u', w.Elsewhere name u → w.Elsewhere name u' →
    Alike w.store w'.store (u.equals u') (u.equals u')

variable {w w' : World} {name : String} {current target : Option Nat}

/-- All that a value leads to is the same if its pieces are in hand before and afterwards. -/
theorem Moves.sameAt {c d : Config} (hm : Moves .shrink c d) (hs : c.Sound)
    (hl : c.world.locks = []) {u : Value} (hc : u.pieces ≤ c.hand) (hd : u.pieces ≤ d.hand) {id : Nat}
    (hid : c.world.store.Sees u id) : c.world.store.SameAt d.world.store id := by
  obtain ⟨w, hand⟩ := c
  obtain ⟨w', hand'⟩ := d
  obtain ⟨r, rfl⟩ := Multiset.le_iff_exists_add.mp hc
  obtain ⟨r', rfl⟩ := Multiset.le_iff_exists_add.mp hd
  rw [add_comm u.pieces r] at hm hs
  rw [add_comm u.pieces r'] at hm
  have hleaves : Leaves (fun _ => True) ⟨w, r⟩ ⟨w', r'⟩ := .of_moves hm
  exact hleaves.sameAt hs (hs.moves hm) hl le_rfl (fun _ _ => trivial) hid

theorem Moves.sameAt_elsewhere {hand : Multiset Piece} (hw : w.Settled)
    (hm : Moves .shrink ⟨w, w.owned⟩ ⟨w', hand + (w.unbind name).owned⟩) {u : Value}
    (hu : w.Elsewhere name u) {id : Nat} (hid : w.store.Sees u id) : w.store.SameAt w'.store id := by
  obtain ⟨x, v, hx, hv, hocc⟩ := hu
  have hle : v.value.pieces ≤ (w.unbind name).owned := World.pieces_le_owned (World.mem_unbind hx hv)
  exact hm.sameAt hw.sound hw.locks (World.find?_le_owned hv)
    (hle.trans (Multiset.le_add_left _ _)) (hocc.sees hid)

theorem World.Elsewhere.alive (hw : w.Settled) {u : Value} (hu : w.Elsewhere name u) :
    ∀ x ∈ u.handles, w.store.Alive x := by
  obtain ⟨x, v, -, hv, path, hat⟩ := hu
  have hs : Config.Sound ⟨w, 0 + w.owned⟩ := (zero_add w.owned).symm ▸ hw.sound
  exact hat.alive (hw.sound.closed hw.locks) fun y hy => hs.alive_of_variable rfl hv hy

/-- Moves that let go of the old slot, if any, and come by the new one overwrite the variable. -/
theorem Moves.overwritten (hw : w.Settled) (hac : w.store.Acyclic)
    (hm : Moves .shrink ⟨w, w.owned⟩
      ⟨w', (Value.handle .slot target).pieces + (w.unbind name).owned⟩) :
    Overwritten w name target (w'.bind name ⟨.erased, .handle .slot target⟩) := by
  have hb : w'.bindings = w.bindings := hm.bindings_eq (by decide)
  have hc := hw.sound.closed hw.locks
  have hothers : ∀ x, x ≠ name →
      (w'.bind name ⟨.erased, .handle .slot target⟩).find? x = w.find? x := by
    intro x hx
    rw [World.find?_bind_other _ _ hx, World.find?, World.find?, hb]
  have hsame : ∀ u, w.Elsewhere name u → ∀ id, w.store.Sees u id → w.store.SameAt w'.store id :=
    fun u hu id hid => hm.sameAt_elsewhere hw hu hid
  refine ⟨World.find?_bind_same _ _ _, hothers, ?_, ?_, ?_, ?_, ?_⟩
  · rintro u ⟨x, v, hx, hv, hocc⟩
    refine ⟨x, v, hx, (hothers x hx).trans hv, hocc.of_sameAt fun id hid => ?_⟩
    exact hsame v.value ⟨x, v, hx, hv, .refl _⟩ id hid
  · exact fun k id hu => hsame _ hu id (.handle rfl)
  · intro slot hu
    cases slot with
    | none => exact ⟨none, rfl, rfl⟩
    | some id =>
      obtain ⟨a, b, ha, hb, hr, -⟩ := hsame _ hu id (.handle rfl)
      obtain ⟨a', ha', hk⟩ := hu.alive hw ⟨.slot, id⟩ (by simp [Value.handles])
      cases ha.symm.trans ha'
      cases hrole : a.role with
      | slot table t =>
        exact ⟨_, Erased.type?_of_get? ha hrole, Erased.type?_of_get? hb (hr.trans hrole)⟩
      | _ => simp [hrole, Role.kind] at hk
  · exact fun u hu => alike_toText hc hac (hu.alive hw) hm.evolves.next_le (hsame u hu)
  · exact fun u u' hu hu' =>
      alike_equals hc hac (hu.alive hw) hm.evolves.next_le (hsame u hu) (hsame u' hu')

/-- Clearing a variable. -/
theorem Machine.clear_ok (fresh : Bool) (hw : w.Settled) (hac : w.store.Acyclic)
    (hx : w.Holds name .slot current) :
    ∃ w', Machine.perform fresh (.clear name) w = .ok (.ok .null) w' ∧ Overwritten w name none w' := by
  obtain ⟨t, hv⟩ := id hx
  have hm : Moves .shrink ⟨w, w.owned⟩ ⟨w.release [.handle .slot current],
      (Value.handle .slot none).pieces + (w.unbind name).owned⟩ := by
    apply Moves.one (Scope.le_refl _)
    apply Move.release
    rw [World.owned_of_find? hw.ascending hv]
    simp
  refine ⟨_, ?_, hm.overwritten hw hac⟩
  rw [Machine.perform, Machine.performErased, Run.bind_of_ok hx.lookupHandle]
  rfl

/-- A handle that is cloned and given up again leaves no trace. -/
theorem Value.clone_drop (hw : w.Settled) {k : HandleKind} (hx : w.Holds name k target) :
    ∃ w', (Value.handle k target).clone w = .ok (.handle k target) w' ∧
      Run.drop [.handle k target] w' = .ok () w := by
  let v : Value := .handle k target
  have ha : ∀ h ∈ v.handles, w.store.Alive h := by
    intro h hh
    cases target with
    | none => simp [v, Value.handles] at hh
    | some id =>
      obtain rfl : h = ⟨k, id⟩ := by simpa [v, Value.handles] using hh
      exact hw.sound.alive_of_holds (zero_add w.owned).symm hx id rfl
  have hp : v.probes = [] := by simp [v, Value.probes]
  have hr := World.release_cloned v w hw.counted.shared ha
  rw [hp, List.map_nil, World.recordAll_nil, World.cloned_nil] at hr
  refine ⟨_, v.clone_eq ha (by rw [hp]; simp), ?_⟩
  rw [hp]
  exact congrArg (EStateM.Result.ok ()) hr

/-- Assigning from a variable that shares the slot already, or holds nothing either, changes
nothing at all. -/
theorem Machine.assign_shared (fresh : Bool) (hw : w.Settled) {source : String}
    (hx : w.Holds name .slot current) (hy : w.Holds source .slot current) :
    Machine.perform fresh (.assign name source) w = .ok (.ok .null) w := by
  have hbind : Run.bind name .erased (.handle .slot current) w = .ok () w :=
    congrArg (EStateM.Result.ok ()) (World.bind_of_find? hw.ascending (hw.sound.find?_of_holds hx))
  rw [Machine.perform, Machine.performErased, Run.bind_of_ok hx.lookupHandle,
    Run.bind_of_ok hy.lookupHandle]
  by_cases e : name = source
  · obtain ⟨w', hclone, hdrop⟩ := Value.clone_drop hw hy
    rw [if_pos e, Run.bind_of_ok hclone, Run.bind_of_ok (Erased.assign_self current w'),
      Run.bind_of_ok hdrop, Run.bind_of_ok hbind]
    rfl
  · rw [if_neg e, Run.bind_of_ok (Erased.assign_self current w), Run.bind_of_ok hbind]
    rfl

/-- Assigning from another variable shares its slot. -/
theorem Machine.assign_ok (fresh : Bool) (hw : w.Settled) (hac : w.store.Acyclic) {source : String}
    (hx : w.Holds name .slot current) (hy : w.Holds source .slot target) :
    ∃ w', Machine.perform fresh (.assign name source) w = .ok (.ok .null) w' ∧
      Overwritten w name target w' ∧ (current = target → w' = w) := by
  have hv := hw.sound.find?_of_holds hx
  have howned := World.owned_of_find? hw.ascending hv
  -- a variable that is assigned to itself is among those that share the slot
  by_cases e : current = target
  · subst e
    have hm : Moves .shrink ⟨w, w.owned⟩
        ⟨w, (Value.handle .slot current).pieces + (w.unbind name).owned⟩ := howned ▸ .refl
    have h := hm.overwritten hw hac
    rw [World.bind_of_find? hw.ascending hv] at h
    exact ⟨w, Machine.assign_shared fresh hw hx hy, h, fun _ => rfl⟩
  · have hne : source ≠ name := by
      rintro rfl
      cases (hw.sound.find?_of_holds hy).symm.trans hv
      exact e rfl
    have hacc : Accounts .shrink (Erased.assign current target) ⟨w, w.owned⟩
        (fun slot d => slot = target ∧
          d.hand = (Value.handle .slot target).pieces + (w.unbind name).owned) fun _ => False :=
      accounts_assign howned fun id hid => (hid ▸ hy).mem_rest hne
    obtain ⟨_, w', _, he, hm, rfl, rfl⟩ := hacc.exists_ok hw.sound
    refine ⟨_, ?_, hm.overwritten hw hac, fun h => absurd h e⟩
    rw [Machine.perform, Machine.performErased, Run.bind_of_ok hx.lookupHandle,
      Run.bind_of_ok hy.lookupHandle, if_neg hne.symm, Run.bind_of_ok he]
    rfl

/-- The target is that of the erased value, or a new slot that holds the value. What the value leads
to is the same as before. -/
structure Receives (w : World) (type : Ty) (v : Value) (target : Option Nat) (w' : World) :
    Prop where
  shared : type = .erased → v = .handle .slot target
  new : type ≠ .erased → ∃ id table, target = some id ∧ w.store.next ≤ id ∧
    w'.store.get? id = some ⟨.slot table type, v, 1⟩
  same : ∀ id, w.store.Sees v id → w.store.SameAt w'.store id

/-- Storing a value. That the old slot is let go before does not matter to the value, even if it
leads to that slot. -/
theorem Erased.set_receives {type : Ty} {v : Value} {rest : Multiset Piece}
    (hs : Config.Sound ⟨w, (Value.handle .slot current).pieces + (v.pieces + rest)⟩)
    (hl : w.locks = []) (hv : HasType w.store type v) :
    ∃ target w', Erased.set current type v w = .ok target w' ∧ Receives w type v target w' ∧
      Moves .shrink ⟨w, (Value.handle .slot current).pieces + (v.pieces + rest)⟩
        ⟨w', (Value.handle .slot target).pieces + rest⟩ := by
  have hle : v.pieces ≤ v.pieces + rest := Multiset.le_add_right _ _
  have hle' : v.pieces ≤ (Value.handle .slot current).pieces + (v.pieces + rest) :=
    hle.trans (Multiset.le_add_left _ _)
  by_cases e : type = .erased
  · subst e
    obtain ⟨source, rfl⟩ := hv.erased_inv
    have hacc : Accounts .shrink (Erased.set current .erased (.handle .slot source)) ⟨w, _⟩
        (fun target d => target = source ∧ d.hand = (Value.handle .slot source).pieces + rest)
        fun _ => False := accounts_assignVia rfl
    obtain ⟨target, w', _, he, hm, rfl, rfl⟩ := hacc.exists_ok hs
    exact ⟨target, w', he, ⟨fun _ => rfl, fun h => absurd rfl h,
      fun id hid => hm.sameAt hs hl hle' hle hid⟩, hm⟩
  · obtain ⟨table, w', he, hstore, -⟩ := Erased.set_ok e current v w
    have hacc : Accounts .shrink (Erased.set current type v) ⟨w, _⟩
        (fun target d => d.hand = (Value.handle .slot target).pieces + rest ∧
          HasType d.world.store .erased (.handle .slot target)) fun _ => False := accounts_set rfl hv
    obtain ⟨_, hm, rfl, -⟩ := hacc.of_ok hs he
    -- the value is in hand while the old slot is released, and the new slot only adds to the store
    have hrelease : Moves .shrink ⟨w, (Value.handle .slot current).pieces + (v.pieces + rest)⟩
        ⟨w.release [.handle .slot current], v.pieces + rest⟩ :=
      .one (Scope.le_refl _) (.release (by simp))
    refine ⟨_, w', he, ⟨fun h => absurd h e, fun _ => ⟨_, table, rfl, hrelease.evolves.next_le, ?_⟩,
      fun id hid => ?_⟩, hm⟩
    · rw [hstore, Store.get?_push_next]
    · obtain ⟨a, b, ha, hb, hr, hc⟩ := hrelease.sameAt hs hl hle' hle hid
      obtain ⟨b', hb', hr', hc'⟩ := Store.persists_push _ ⟨.slot table type, v, 1⟩ id b hb
      exact ⟨a, b', ha, hstore ▸ hb', hr'.trans hr, hc'.trans hc⟩

/-- Setting a variable to a value that has been read, perhaps from the variable itself. -/
theorem Machine.set_ok (fresh : Bool) (hw : w.Settled) (hac : w.store.Acyclic)
    (hx : w.Holds name .slot current) {type : Ty} {d : Datum} {v : Value} {w₁ : World}
    (ht : type.renders) (hr : Reader.read type d w = .ok v w₁) :
    ∃ target w', Machine.perform fresh (.set (some name) type d) w = .ok (.ok .null) w' ∧
      w.store.next ≤ w₁.store.next ∧ Receives w₁ type v target w' ∧ Overwritten w name target w' := by
  have hread := (supplies_read type d w.owned ⟨w, w.owned⟩ (zero_add _).symm le_rfl trivial).of_ok
    hw.sound hr
  obtain ⟨_, hm₁, rfl, hb, hv⟩ := hread
  have howned := World.owned_of_find? hw.ascending (hw.sound.find?_of_holds hx)
  have hhand : v.pieces + w.owned = (Value.handle .slot current).pieces +
      (v.pieces + (w.unbind name).owned) := by
    rw [howned]
    abel
  rw [hhand] at hm₁
  have hs₁ := hw.sound.moves hm₁
  have hl₁ : w₁.locks = [] := (hm₁.locks_eq (Scope.le_refl _)).trans hw.locks
  obtain ⟨target, w₂, he, hreceives, hm₂⟩ := Erased.set_receives hs₁ hl₁ hv
  refine ⟨target, w₂.bind name ⟨.erased, .handle .slot target⟩, ?_, hm₁.evolves.next_le,
    ⟨hreceives.shared, hreceives.new, hreceives.same⟩, (hm₁.trans hm₂).overwritten hw hac⟩
  have hx₁ : w₁.Holds name .slot current := by
    obtain ⟨t, h⟩ := hx
    exact ⟨t, by rw [World.find?, hb]; exact h⟩
  have hlookup : Run.unwinding [v] (Machine.lookupErased (some name)) w₁ = .ok current w₁ := by
    have h : Machine.lookupErased (some name) w₁ = .ok current w₁ := hx₁.lookupHandle
    rw [Run.unwinding, h]
  have hrequire : Run.require type.renders w = .ok () w := by
    rw [Run.require, if_pos ht]
    rfl
  rw [Machine.perform, Machine.performErased, Run.bind_of_ok hrequire, Run.bind_of_ok hr,
    Run.bind_of_ok hlookup, Run.bind_of_ok he]
  rfl

end overwriting

/-- Overwriting an erased value cannot be seen from elsewhere. In every state without cycles that a run
reaches, setting, assigning and clearing a variable succeed. The variable then holds the new
contents: a new slot that no other handle shares, the slot of the erased value, or nothing. Whatever
can be got at from the other variables keeps its slots, types, texts and equalities. Assigning what
is shared already changes nothing at all, and no step changes the type or the table of a slot. -/
theorem overwriting_invisible (fresh : Bool) (steps : List Step) :
    let w := Machine.after fresh steps
    (w.store.Acyclic → ∀ name current, w.Holds name .slot current →
      (∀ type d v w₁, type.renders → Reader.read type d w = .ok v w₁ →
        ∃ target w', Machine.perform fresh (.set (some name) type d) w = .ok (.ok .null) w' ∧
          Overwritten w name target w' ∧ Receives w₁ type v target w' ∧
          (type ≠ .erased → ∀ id, target = some id →
            w.store.next ≤ id ∧ w'.handles.countP (·.target = id) = 1)) ∧
      (∀ source target, w.Holds source .slot target →
        ∃ w', Machine.perform fresh (.assign name source) w = .ok (.ok .null) w' ∧
          Overwritten w name target w' ∧ (current = target → w' = w)) ∧
      ∃ w', Machine.perform fresh (.clear name) w = .ok (.ok .null) w' ∧ Overwritten w name none w') ∧
    ∀ step id a b, w.store.get? id = some a →
      (Machine.next fresh w step).store.get? id = some b → b.role = a.role := by
  intro w
  have hw : w.Settled := Machine.settled_after fresh steps
  constructor
  · intro hac name current hx
    refine ⟨?_, fun source target hy => Machine.assign_ok fresh hw hac hx hy,
      Machine.clear_ok fresh hw hac hx⟩
    intro type d v w₁ ht hr
    obtain ⟨target, w', he, hn, hreceives, hover⟩ := Machine.set_ok fresh hw hac hx ht hr
    refine ⟨target, w', he, hover, hreceives, ?_⟩
    rintro hne id rfl
    obtain ⟨_, table, ⟨⟩, hid, hg⟩ := hreceives.new hne
    have hw' : w'.Settled := by
      have h := (Machine.leads_next fresh (.set (some name) type d) hw).2
      rwa [Machine.next, Run.after, he] at h
    exact ⟨hn.trans hid, (hw'.shares_eq hg).symm⟩
  · intro step id a b ha hb
    have hm := (Machine.leads_next fresh step hw).1
    obtain ⟨a', ha', hr⟩ := hm.evolves.role_eq id (Store.lt_next_of_get? ha) b hb
    cases ha.symm.trans ha'
    exact hr.symm

/-- A variable is set to a list that holds a clone of its own old value, which a second list holds as
well; then it is assigned a copy of itself. -/
theorem overwriting_invisible_nested :
    let itself : Datum := .list [.record [("$var", .text "a")]]
    let steps : List Step :=
      [.new (some "a") .bool (.bool true), .copy (some "b") "a",
        .define (some "c") (.list .erased) itself]
    let w := Machine.after false steps
    let old : Value := .handle .slot (some 0)
    let v : Value := .node .sequence [old]
    (w.store.Acyclic ∧ w.Holds "a" .slot (some 0) ∧ w.Holds "b" .slot (some 0) ∧
      w.Elsewhere "a" old) ∧
    (∃ w₁ id w', Reader.read (.list .erased) itself w = .ok v w₁ ∧
      Machine.perform false (.set (some "a") (.list .erased) itself) w = .ok (.ok .null) w' ∧
      w'.find? "a" = some ⟨.erased, .handle .slot (some id)⟩ ∧
      (∃ table, w'.store.get? id = some ⟨.slot table (.list .erased), v, 1⟩) ∧
      w'.find? "c" = w.find? "c" ∧ w.store.SameAt w'.store 0 ∧
      Alike w.store w'.store old.toText old.toText) ∧
    Machine.perform false (.assign "a" "b") w = .ok (.ok .null) w := by
  intro itself steps w old v
  have hstore : w.store = ⟨#[some ⟨.slot ⟨0, .bool⟩ .bool, .scalar (.bool true), 3⟩]⟩ := by
    simp only [w, steps, itself]
    cbv
  have hb : w.bindings = [("a", ⟨.erased, old⟩), ("b", ⟨.erased, old⟩), ("c", ⟨.list .erased, v⟩)] := by
    simp only [w, steps, itself, old, v]
    cbv
  have hac : w.store.Acyclic := Store.acyclic_of_lt (by rw [hstore]; decide)
  have ha : w.Holds "a" .slot (some 0) := ⟨.erased, by rw [World.find?, hb]; rfl⟩
  have hb' : w.Holds "b" .slot (some 0) := ⟨.erased, by rw [World.find?, hb]; rfl⟩
  have hc : w.Elsewhere "a" old := by
    refine ⟨"c", ⟨.list .erased, v⟩, by decide, by rw [World.find?, hb]; rfl, ?_⟩
    exact (Store.Occurs.refl old).part (List.mem_singleton.mpr rfl)
  obtain ⟨w₁, hr⟩ : ∃ w₁, Reader.read (.list .erased) itself w = .ok v w₁ := by
    simp only [w, steps, itself, old, v]
    exact ⟨_, by cbv⟩
  obtain ⟨h, -⟩ := overwriting_invisible false steps
  obtain ⟨hset, hassign, -⟩ := h hac "a" (some 0) ha
  obtain ⟨target, w', he, hover, hreceives, -⟩ := hset (.list .erased) itself v w₁ (by decide) hr
  obtain ⟨id, table, rfl, -, hg⟩ := hreceives.new (by decide)
  obtain ⟨w'', he', -, hsame⟩ := hassign "b" (some 0) hb'
  rw [hsame rfl] at he'
  exact ⟨⟨hac, ha, hb', hc⟩, ⟨w₁, id, w', hr, he, hover.holds, ⟨table, hg⟩,
    hover.others "c" (by decide), hover.same _ 0 hc, hover.text old hc⟩, he'⟩

end SharedValues
