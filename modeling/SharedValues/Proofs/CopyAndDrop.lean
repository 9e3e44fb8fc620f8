import Mathlib
import SharedValues.Proofs.DropOrder
import SharedValues.Proofs.Erasure

/-!
A copy that is dropped at once. Cloning a value only adds shares, one for each handle that the value
holds, and giving the clone up takes just these away again. A deep copy adds allocations too, and
when it is given up nothing is left of them.
-/
namespace SharedValues

namespace Store

theorem put_put (s : Store) (id : Nat) (a b : Allocation) :
    (s.put id a).put id b = s.put id b := by
  simp [put]

theorem put_of_get? {s : Store} {id : Nat} {a : Allocation} (ha : s.get? id = some a) :
    s.put id a = s := by
  have hlt : id < s.entries.size := lt_next_of_get? ha
  have he : s.entries[id] = some a := by
    simpa [get?, hlt] using ha
  rw [put, ← he, Array.setIfInBounds_def, dif_pos hlt, Array.set_getElem_self]

/-- The store with one more share of an allocation for each handle to it. -/
def sharing (s : Store) (hs : List Handle) : Store :=
  ⟨s.entries.mapIdx fun id e =>
    e.map fun a => { a with shares := a.shares + hs.countP (·.target = id) }⟩

variable (s : Store) (hs ks : List Handle)

@[simp] theorem next_sharing : (s.sharing hs).next = s.next := by
  simp [sharing, next]

theorem get?_sharing (id : Nat) : (s.sharing hs).get? id =
    (s.get? id).map fun a => { a with shares := a.shares + hs.countP (·.target = id) } := by
  simp only [sharing, get?, Array.getElem?_mapIdx]
  cases s.entries[id]? <;> rfl

theorem sharing_nil : s.sharing [] = s := by
  refine eq_of_get? (next_sharing s []) fun id => ?_
  rw [get?_sharing]
  cases s.get? id <;> rfl

theorem sharing_sharing : (s.sharing hs).sharing ks = s.sharing (hs ++ ks) := by
  refine eq_of_get? (by simp) fun id => ?_
  simp only [get?_sharing, List.countP_append]
  cases s.get? id <;> simp [Nat.add_assoc]

theorem sharing_append_comm : s.sharing (hs ++ ks) = s.sharing (ks ++ hs) := by
  refine eq_of_get? (by simp) fun id => ?_
  rw [get?_sharing, get?_sharing, List.countP_append, List.countP_append, Nat.add_comm]

variable {s}

theorem alive_sharing {h : Handle} (ha : s.Alive h) : (s.sharing hs).Alive h := by
  obtain ⟨a, hg, hk⟩ := ha
  exact ⟨_, (get?_sharing s hs _).trans (congrArg _ hg), hk⟩

theorem sharing_singleton {k : HandleKind} {id : Nat} {a : Allocation} (ha : s.get? id = some a) :
    s.sharing [⟨k, id⟩] = s.put id { a with shares := a.shares + 1 } := by
  refine eq_of_get? (by simp) fun other => ?_
  rw [get?_sharing]
  by_cases e : other = id
  · subst e
    rw [ha, get?_put_same _ (lt_next_of_get? ha)]
    simp
  · rw [get?_put_other _ _ e]
    cases s.get? other <;> simp [Ne.symm e]

/-- Every live allocation has a share. -/
def Shared (s : Store) : Prop :=
  ∀ id a, s.get? id = some a → 1 ≤ a.shares

theorem Shared.sharing (h : s.Shared) : (s.sharing hs).Shared := by
  intro id b hb
  rw [get?_sharing] at hb
  obtain ⟨a, ha, rfl⟩ := Option.map_eq_some_iff.mp hb
  exact Nat.le_add_right_of_le (h id a ha)

end Store

namespace World

/-- The state after a clone of values with these handles and probes. -/
def cloned (w : World) (hs : List Handle) (ps : List Probe) : World :=
  { w with
    store := w.store.sharing hs
    trace := w.trace ++ ps.map (.hook .clone)
    created := w.created ++ ps.map .probe }

theorem cloned_nil (w : World) : w.cloned [] [] = w := by
  simp [cloned, Store.sharing_nil]

theorem cloned_cloned (w : World) (hs ks : List Handle) (ps qs : List Probe) :
    (w.cloned hs ps).cloned ks qs = w.cloned (hs ++ ks) (ps ++ qs) := by
  simp [cloned, Store.sharing_sharing]

end World

mutual

/-- Cloning adds one share for each handle of the value, and one probe for each of its probes. -/
theorem Value.copyWith_share : (v : Value) → ∀ w : World, (∀ h ∈ v.handles, w.store.Alive h) →
    (∀ p ∈ v.probes, p.boom ≠ some .clone) →
    v.copyWith .shallow share w = .ok v (w.cloned v.handles v.probes)
  | .scalar x, w, _, _ => by
    rw [copyWith, handles, probes, w.cloned_nil]
    rfl
  | .probe p, w, _, hp => by
    have hne : p.boom ≠ some Depth.shallow.hook := hp p (by simp [probes])
    rw [copyWith, handles, probes, Run.bind_of_ok (Run.callHook_of_ne hne w), World.cloned,
      Store.sharing_nil]
    rfl
  | .handle k none, w, _, _ => by
    rw [copyWith, handles, probes, w.cloned_nil]
    rfl
  | .handle k (some id), w, ha, _ => by
    obtain ⟨a, hg, rfl⟩ := ha ⟨k, id⟩ (by simp [handles])
    have hshare : share a.role.kind id w =
        .ok id { w with store := w.store.put id { a with shares := a.shares + 1 } } :=
      Run.bind_of_ok (Run.retain_of_get? hg)
    rw [copyWith, handles, probes, Run.bind_of_ok hshare, World.cloned,
      Store.sharing_singleton hg]
    simp only [List.map_nil, List.append_nil]
    rfl
  | .node shape parts, w, ha, hp => by
    rw [handles] at ha
    rw [probes] at hp
    rw [copyWith, handles, probes, Run.bind_of_ok (copyParts_share shape parts [] w ha hp)]
    rfl

theorem Value.copyParts_share (shape : Shape) : (vs : List Value) → ∀ (done : List Value) (w : World),
    (∀ h ∈ handlesOf vs, w.store.Alive h) → (∀ p ∈ probesOf vs, p.boom ≠ some .clone) →
    copyParts .shallow share shape done vs w = .ok (done ++ vs) (w.cloned (handlesOf vs) (probesOf vs))
  | [], done, w, _, _ => by
    rw [copyParts, handlesOf, probesOf, w.cloned_nil, List.append_nil]
    rfl
  | v :: vs, done, w, ha, hp => by
    have hv := copyWith_share v w (fun h hh => ha h (by simp [handlesOf, hh]))
      fun p hm => hp p (by simp [probesOf, hm])
    have hvs := copyParts_share shape vs (done ++ [v]) (w.cloned v.handles v.probes)
      (fun h hh => Store.alive_sharing _ (ha h (by simp [handlesOf, hh])))
      fun p hm => hp p (by simp [probesOf, hm])
    rw [copyParts, Run.bind_of_ok (Run.unwinding_of_ok hv _), hvs, World.cloned_cloned, handlesOf,
      probesOf, List.append_assoc]
    rfl

end

theorem Value.clone_eq {v : Value} {w : World} (ha : ∀ h ∈ v.handles, w.store.Alive h)
    (hp : ∀ p ∈ v.probes, p.boom ≠ some .clone) :
    v.clone w = .ok v (w.cloned v.handles v.probes) :=
  v.copyWith_share w ha hp

namespace World

/-- If each of the values takes away what its handles have added, so do all of them. -/
theorem release_sharing_all {vs : List Value} {w : World} (hs : w.store.Shared)
    (ha : ∀ h ∈ Value.handlesOf vs, w.store.Alive h)
    (each : ∀ v ∈ vs, ∀ w : World, w.store.Shared → (∀ h ∈ v.handles, w.store.Alive h) →
      World.release [v] { w with store := w.store.sharing v.handles } =
        w.recordAll (v.probes.map .dropped)) :
    World.release vs { w with store := w.store.sharing (Value.handlesOf vs) } =
      w.recordAll ((Value.probesOf vs).map .dropped) := by
  induction vs generalizing w with
  | nil => simp [release, Value.handlesOf, Value.probesOf, Store.sharing_nil, recordAll]
  | cons v vs ih =>
    let u : World := { w with store := w.store.sharing (Value.handlesOf vs) }
    have hboth : w.store.sharing (Value.handlesOf (v :: vs)) = u.store.sharing v.handles := by
      rw [Value.handlesOf, Store.sharing_append_comm, ← Store.sharing_sharing]
    have hfirst : World.release [v] { w with store := u.store.sharing v.handles } =
        u.recordAll (v.probes.map .dropped) :=
      each v (by simp) u (hs.sharing _) fun h hh =>
        Store.alive_sharing _ (ha h (by simp [Value.handlesOf, hh]))
    have hrest := ih (w := w.recordAll (v.probes.map .dropped)) hs
      (fun h hh => ha h (by simp [Value.handlesOf, hh])) fun x hx => each x (by simp [hx])
    rw [hboth, ← List.singleton_append, release_append, hfirst, List.singleton_append,
      Value.probesOf, List.map_append, ← recordAll_recordAll, ← hrest]
    rfl

/-- Giving up a value takes away the shares that cloning it has added, and nothing ends but its
probes. -/
theorem release_sharing (v : Value) (w : World) (hs : w.store.Shared)
    (ha : ∀ h ∈ v.handles, w.store.Alive h) :
    World.release [v] { w with store := w.store.sharing v.handles } =
      w.recordAll (v.probes.map .dropped) := by
  induction v using Value.induction generalizing w with
  | scalar x => simp [release, Value.handles, Value.probes, Store.sharing_nil, recordAll]
  | probe p => simp [release, Value.handles, Value.probes, Store.sharing_nil, recordAll, record]
  | handle k target =>
    cases target with
    | none => simp [release, Value.handles, Value.probes, Store.sharing_nil, recordAll]
    | some id =>
      obtain ⟨a, hg, -⟩ := ha ⟨k, id⟩ (by simp [Value.handles])
      let u : World := { w with store := w.store.put id { a with shares := a.shares + 1 } }
      have hu : u.store.get? id = some { a with shares := a.shares + 1 } :=
        Store.get?_put_same _ (Store.lt_next_of_get? hg)
      have hback : u.store.put id { a with shares := a.shares + 1 - 1 } = w.store := by
        rw [Nat.add_sub_cancel]
        exact (w.store.put_put ..).trans (Store.put_of_get? hg)
      rw [Value.handles, Store.sharing_singleton hg,
        release_shared hu (Nat.lt_add_one_of_le (hs id a hg)), hback]
      simp [Value.probes, recordAll, u]
  | node shape parts ih =>
    rw [Value.handles] at ha
    rw [release, List.append_nil, Value.handles, Value.probes]
    exact release_sharing_all hs ha ih

/-- A clone that is given up leaves the store as it was. -/
theorem release_cloned (v : Value) (w : World) (hs : w.store.Shared)
    (ha : ∀ h ∈ v.handles, w.store.Alive h) :
    World.release [v] (w.cloned v.handles v.probes) =
      (w.cloned [] v.probes).recordAll (v.probes.map .dropped) := by
  have hstore : (w.cloned [] v.probes).store = w.store := w.store.sharing_nil
  rw [← release_sharing v (w.cloned [] v.probes) (hstore ▸ hs) (hstore ▸ ha), hstore]
  rfl

end World

/-- A deep copy that is given up at once leaves the store as it was. -/
theorem Config.Chronicled.deepCopy_drop {w : World} {hand : Multiset Piece}
    (hc : Config.Chronicled ⟨w, hand⟩) (hl : w.locks = []) (hac : w.store.Acyclic) {p : Place}
    {v : Value} (hv : w.store.Live p v) (hp : w.store.Consents .deep v) :
    ∃ c w', v.deepCopy w = .ok c w' ∧ w.Restored (w'.release [c]) := by
  obtain ⟨c, w', he, -⟩ := v.adds_deepCopy (hc.sound.closed hl) hac hv.alive hp
  have hcopy := accounts_deepCopy (c := ⟨w, hand⟩) hl hv.fits hv.alive
  obtain ⟨_, hm, rfl, -⟩ := hcopy.of_ok hc.sound he
  have hback : Move .shrink ⟨w', c.pieces + hand⟩ ⟨w'.release [c], hand⟩ := .release (by simp)
  have hround : Moves .shrink ⟨w, hand⟩ ⟨w'.release [c], hand⟩ :=
    (hm.widen (by decide)).trans (.one (Scope.le_refl _) hback)
  exact ⟨c, w', he, hround.restored hc hl hac⟩

/-- A copy that is dropped at once leaves the store as it was. In every state that a run reaches, and
unless one of its probes refuses, a value is cloned without a new allocation and without a change of
contents. Each allocation gains as many shares as the value has handles to it, not counting those
behind other handles. Dropping the clone takes them away, and the only events are those of its
probes. Without cycles a deep copy is made unless a probe on an owned path refuses, and when it is
dropped the same allocations are alive as before, with their contents and shares. -/
theorem copy_drop_restores (fresh : Bool) (steps : List Step) :
    let w := Machine.after fresh steps
    ∀ p v, w.store.Live p v →
      ((∀ q ∈ v.probes, q.boom ≠ some .clone) →
        ∃ w', v.clone w = .ok v w' ∧ w'.store.next = w.store.next ∧
          (∀ id, w'.store.get? id = (w.store.get? id).map fun a =>
            { a with shares := a.shares + v.handles.countP (·.target = id) }) ∧
          w' = { w with
            store := w'.store
            trace := w.trace ++ v.probes.map (.hook .clone)
            created := w.created ++ v.probes.map .probe } ∧
          Run.drop [v] w' =
            .ok () { w' with store := w.store, trace := w'.trace ++ v.probes.map .dropped }) ∧
      (w.store.Acyclic → w.store.Consents .deep v →
        ∃ c w' u, v.deepCopy w = .ok c w' ∧ Run.drop [c] w' = .ok () u ∧ w.Restored u) := by
  intro w p v hv
  have hw : w.Settled := Machine.settled_after fresh steps
  constructor
  · intro hp
    refine ⟨_, v.clone_eq hv.alive hp, w.store.next_sharing _, w.store.get?_sharing _, rfl, ?_⟩
    have hback := World.release_cloned v w hw.counted.shared hv.alive
    refine congrArg (EStateM.Result.ok ()) (hback.trans ?_)
    simp only [World.cloned, World.recordAll, Store.sharing_nil]
  · intro hac hp
    have hc := Machine.chronicled_after fresh steps
    obtain ⟨c, w', he, hr⟩ := hc.deepCopy_drop hw.locks hac hv hp
    exact ⟨c, w', _, he, rfl, hr⟩

/-- Two handles to a list of two handles to one cell, a share of an erased value and a probe. -/
theorem copy_drop_restores_list :
    let cells : Ty := .list (.cell (.int .i32))
    let t : Ty := .tuple (.cell cells) (.tuple (.cell cells) (.tuple .erased (.tuple .probe .unit)))
    let var (name : String) : Datum := .record [("$var", .text name)]
    let steps : List Step :=
      [.define (some "x") (.cell (.int .i32)) (.record [("ref", .int 7)]),
        .define (some "y") (.cell cells) (.record [("ref", .list [var "x", var "x"])]),
        .new (some "a") .bool (.bool true),
        .define (some "v") t (.list [var "y", var "y", var "a", .int 5])]
    let w := Machine.after false steps
    let list : Value := .node .sequence [.handle .cell (some 0), .handle .cell (some 0)]
    let v : Value := .node .tuple
      [.handle .cell (some 1), .handle .cell (some 1), .handle .slot (some 2), .probe ⟨5, none⟩]
    (w.store.Live (.value t) v ∧ w.store.Acyclic ∧ w.store.Consents .deep v) ∧
    (∃ w', v.clone w = .ok v w' ∧ w'.store.get? 0 = w.store.get? 0 ∧
      w.store.get? 1 = some ⟨.cell cells, list, 3⟩ ∧ w'.store.get? 1 = some ⟨.cell cells, list, 5⟩ ∧
      Run.drop [v] w' = .ok ()
        { w' with store := w.store, trace := w'.trace ++ [.dropped ⟨5, none⟩] }) ∧
    ∃ c w' u, v.deepCopy w = .ok c w' ∧ Run.drop [c] w' = .ok () u ∧ w.Restored u := by
  intro cells t var steps w list v
  have hstore : w.store = ⟨#[some ⟨.cell (.int .i32), .int 7, 3⟩, some ⟨.cell cells, list, 3⟩,
      some ⟨.slot ⟨0, .bool⟩ .bool, .scalar (.bool true), 2⟩]⟩ := by
    simp only [w, steps, t, cells, var, list]
    cbv
  have hb : w.find? "v" = some ⟨t, v⟩ := by
    simp only [w, steps, t, cells, var, v]
    cbv
  have hw : w.Settled := Machine.settled_after false steps
  have hv : w.store.Live (.value t) v := hw.live hb
  have hac : w.store.Acyclic := Store.acyclic_of_lt (by rw [hstore]; decide)
  have hp : w.store.Consents .deep v := .of_probes (by decide) (by rw [hstore]; decide)
  obtain ⟨hclone, hdeep⟩ := copy_drop_restores false steps (.value t) v hv
  obtain ⟨w', he, -, hget, -, hdrop⟩ := hclone (by decide)
  have hshares : ∀ id, w'.store.get? id = (w.store.get? id).map fun a =>
      { a with shares := a.shares + v.handles.countP (·.target = id) } := hget
  refine ⟨⟨hv, hac, hp⟩, ⟨w', he, ?_, ?_, ?_, hdrop⟩, hdeep hac hp⟩
  · rw [hshares, hstore]
    rfl
  · rw [hstore]
    rfl
  · rw [hshares, hstore]
    rfl

end SharedValues
