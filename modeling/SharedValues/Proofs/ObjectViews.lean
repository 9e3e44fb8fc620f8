import Mathlib
import SharedValues.Proofs.Accessors
import SharedValues.Proofs.Holders
import SharedValues.Proofs.ObjectChanges

/-!
The shares of an object, and its deep copies. Beside the run goes a table with the state of each
object: a call through whatever share changes the entry of its object and no other, and a deep copy
starts with the state of its source. What is found and shown through a share is what the table says.
-/
namespace SharedValues

/-- Objects are equal only to themselves. -/
theorem Value.object_equals (id id' : Nat) (w : World) :
    (Value.handle .object (some id)).equals (.handle .object (some id')) w =
      .ok (decide (id = id')) w := by
  rw [Value.equals, Run.bind_get, Value.equalsWith]
  by_cases e : id = id'
  · rw [if_pos e, decide_eq_true e]
    rfl
  · rw [if_neg e, decide_eq_false e, Value.equalThrough]
    rfl

namespace Object

/-- A state in which values in hand lead to objects, with the table of the states of the objects. -/
structure Family where
  world : World
  holders : List Holder
  states : Nat → Value

/-- Some value in hand leads to the object. -/
def Family.Leads (σ : Family) (id : Nat) : Prop :=
  ∃ x ∈ σ.holders, x.Finds σ.world.store ⟨.object, id⟩

/-- A call has been made on an object. -/
def Family.call (i : Interface) (σ : Family) (id n : Nat) : Family where
  world := (poke (some id) n).after σ.world
  holders := σ.holders
  states := Function.update σ.states id (learn i n (σ.states id))

/-- The deep copy of an object is in hand. -/
def Family.copy (σ : Family) (u : World) (t : Ty) (id k : Nat) : Family where
  world := u
  holders := ⟨t, .handle .object (some k), []⟩ :: σ.holders
  states := Function.update σ.states k (σ.states id)

section states

variable {i : Interface} {σ : Family} {u : World} {t : Ty} {id id' k n : Nat}

theorem Family.states_call_of_ne (h : id' ≠ id) : (σ.call i id n).states id' = σ.states id' :=
  Function.update_of_ne h ..

@[simp]
theorem Family.states_copy_self : (σ.copy u t id k).states k = σ.states id :=
  Function.update_self ..

theorem Family.states_copy_of_ne (h : id' ≠ k) : (σ.copy u t id k).states id' = σ.states id' :=
  Function.update_of_ne h ..

end states

/-- What is done with the shares of objects: besides handling the values that hold them, a call is made
through one of them, or one of them is copied deeply. -/
inductive Deed (i : Interface) (σ : Family) : Family → Prop where
  | handling {u : World} {ys : List Holder} (h : Handling σ.world σ.holders u ys) :
    Deed i σ ⟨u, ys, σ.states⟩
  | call {id : Nat} (hid : σ.Leads id) (n : Nat) : Deed i σ (σ.call i id n)
  | deepCopy {t : Ty} {id k : Nat} {u : World}
    (hx : ⟨t, .handle .object (some id), []⟩ ∈ σ.holders)
    (hr : (Value.handle .object (some id)).deepCopy σ.world = .ok (.handle .object (some k)) u) :
    Deed i σ (σ.copy u t id k)

theorem Deed.call_ok {i : Interface} {σ : Family} {id n : Nat} {answer : Int} {u : World}
    (hid : σ.Leads id) (hr : poke (some id) n σ.world = .ok answer u) :
    Deed i σ ⟨u, σ.holders, (σ.call i id n).states⟩ := by
  have h : Deed i σ _ := .call hid n
  rwa [Family.call, Run.after, hr] at h

/-- One deed after the other. -/
def History (i : Interface) : Family → Family → Prop :=
  Relation.ReflTransGen (Deed i)

/-- No two objects have a cell in common. -/
def Family.Apart (i : Interface) (t : Ty) (σ : Family) : Prop :=
  ∀ id id' v v', σ.Leads id → σ.Leads id' → id ≠ id' → σ.world.store.IsObject id i t v →
    σ.world.store.IsObject id' i t v' → ∀ y ∈ v.handles, ∀ y' ∈ v'.handles, y.target ≠ y'.target

namespace Family.Apart

variable {i : Interface} {t : Ty} {σ τ : Family}

theorem of_handles (h : σ.Apart i t) (hleads : ∀ id, τ.Leads id → σ.Leads id)
    (hsame : ∀ id v', τ.Leads id → τ.world.store.IsObject id i t v' →
      ∃ v, σ.world.store.IsObject id i t v ∧ v'.handles = v.handles) : τ.Apart i t := by
  intro id id' v v' hid hid' hne hv hv' y hy y' hy'
  obtain ⟨x, hx, hhandles⟩ := hsame id v hid hv
  obtain ⟨x', hx', hhandles'⟩ := hsame id' v' hid' hv'
  exact h id id' x x' (hleads id hid) (hleads id' hid') hne hx hx' y (hhandles ▸ hy) y'
    (hhandles' ▸ hy')

/-- An object joins whose cells have later addresses than those of all others. -/
theorem join (h : σ.Apart i t) {k n : Nat} {v : Value} (hk : τ.world.store.IsObject k i t v)
    (hnew : ∀ y ∈ v.handles, n ≤ y.target)
    (hold : ∀ id x, τ.Leads id → id ≠ k → τ.world.store.IsObject id i t x →
      σ.Leads id ∧ σ.world.store.IsObject id i t x ∧ ∀ y ∈ x.handles, y.target < n) :
    τ.Apart i t := by
  have hfresh : ∀ id x v', τ.Leads id → id ≠ k → τ.world.store.IsObject id i t x →
      τ.world.store.IsObject k i t v' → ∀ y ∈ x.handles, ∀ y' ∈ v'.handles,
      y.target ≠ y'.target := by
    intro id x v' hid hne hx hv' y hy y' hy'
    cases hk.unique hv'
    obtain ⟨-, -, hlt⟩ := hold id x hid hne hx
    exact (Nat.lt_of_lt_of_le (hlt y hy) (hnew y' hy')).ne
  intro id id' x x' hid hid' hne hx hx' y hy y' hy'
  by_cases hidk : id = k
  · subst hidk
    exact (hfresh id' x' x hid' hne.symm hx' hx y' hy' y hy).symm
  by_cases hidk' : id' = k
  · subst hidk'
    exact hfresh id x x' hid hidk hx hx' y hy y' hy'
  obtain ⟨hidσ, hxσ, -⟩ := hold id x hid hidk hx
  obtain ⟨hidσ', hxσ', -⟩ := hold id' x' hid' hidk' hx'
  exact h id id' x x' hidσ hidσ' hne hxσ hxσ' y hy y' hy'

end Family.Apart

/-- What holds all along: every value in hand leads to an object, each object has the state in the
table, and no two of them have a cell in common. -/
structure Family.Keeps (i : Interface) (t : Ty) (kept : Multiset Piece) (σ : Family) : Prop where
  held : Held σ.world σ.holders kept
  finds : ∀ x ∈ σ.holders, ∃ id, x.Finds σ.world.store ⟨.object, id⟩
  state : ∀ id, σ.Leads id →
    ∃ v, σ.world.store.IsObject id i t v ∧ σ.world.store.look v = σ.states id
  apart : σ.Apart i t

namespace Family.Keeps

variable {i : Interface} {t : Ty} {kept : Multiset Piece} {σ τ : Family} {u : World}

/-- Where values in hand lead to what others led to before, there is no other object. -/
theorem leads_of_leads (h : σ.Keeps i t kept)
    (hf : ∀ y ∈ τ.holders, ∃ x ∈ σ.holders, ∀ k, x.Finds σ.world.store k → y.Finds τ.world.store k)
    {id : Nat} (hid : τ.Leads id) : σ.Leads id := by
  obtain ⟨y, hy, hid⟩ := hid
  obtain ⟨x, hx, hxy⟩ := hf y hy
  obtain ⟨id', hid'⟩ := h.finds x hx
  cases (hxy _ hid').unique hid
  exact ⟨x, hx, hid'⟩

/-- What is added and given up changes nothing about an object that is still there. -/
theorem object_of_moves (h : σ.Keeps i t kept) {hand : Multiset Piece}
    (hm : Moves .shrink ⟨σ.world, Holder.pieces σ.holders + kept⟩ ⟨u, hand⟩) {id : Nat}
    (hid : σ.Leads id) (ha : u.store.Alive ⟨.object, id⟩) :
    ∃ v, σ.world.store.IsObject id i t v ∧ u.store.IsObject id i t v ∧
      u.store.look v = σ.states id := by
  obtain ⟨v, hv, hlook⟩ := h.state id hid
  obtain ⟨hv', hsame⟩ := hv.moves h.held.sound h.held.locks hm ha
  exact ⟨v, hv, hv', hsame.trans hlook⟩

theorem quiet (h : σ.Keeps i t kept) {ys : List Holder}
    (hm : Moves .shrink ⟨σ.world, Holder.pieces σ.holders + kept⟩ ⟨u, Holder.pieces ys + kept⟩)
    (hu : Held u ys kept)
    (hf : ∀ y ∈ ys, ∃ x ∈ σ.holders, ∀ k, x.Finds σ.world.store k → y.Finds u.store k) :
    Keeps i t kept ⟨u, ys, σ.states⟩ := by
  have hleads : ∀ id, Leads ⟨u, ys, σ.states⟩ id → σ.Leads id := fun id => h.leads_of_leads hf
  have halive : ∀ id, Leads ⟨u, ys, σ.states⟩ id → u.store.Alive ⟨.object, id⟩ :=
    fun id ⟨y, hy, hfy⟩ => hu.alive_of_finds hy hfy
  refine ⟨hu, fun y hy => ?_, fun id hid => ?_, h.apart.of_handles hleads fun id v' hid hv' => ?_⟩
  · obtain ⟨x, hx, hxy⟩ := hf y hy
    obtain ⟨id, hid⟩ := h.finds x hx
    exact ⟨id, hxy _ hid⟩
  · obtain ⟨v, -, hv, hlook⟩ := h.object_of_moves hm (hleads id hid) (halive id hid)
    exact ⟨v, hv, hlook⟩
  · obtain ⟨v, hv, hvu, -⟩ := h.object_of_moves hm (hleads id hid) (halive id hid)
    exact ⟨v, hv, by rw [hvu.unique hv']⟩

/-- A call that keeps to its object changes the state of this object, and of no other. -/
theorem called (h : σ.Keeps i t kept) {id : Nat} (hid : σ.Leads id) {v : Value}
    (hv : σ.world.store.IsObject id i t v) {effect : Value → Value}
    (hcalled : Called effect i id t v σ.world u) :
    Keeps i t kept ⟨u, σ.holders, Function.update σ.states id (effect (σ.states id))⟩ := by
  obtain ⟨v', hv', hlearned⟩ := hcalled.learned
  have hlook : σ.world.store.look v = σ.states id := by
    obtain ⟨x, hx, hlook⟩ := h.state id hid
    rwa [hx.unique hv]
  have hu : Held u σ.holders kept := h.held.touches hcalled.touches
  have hfinds : ∀ x ∈ σ.holders, ∀ y, x.Finds σ.world.store y → x.Finds u.store y :=
    fun x hx y => hu.finds_of_steady hcalled.touches.steady hx
  have hleads : ∀ id' states, Leads ⟨u, σ.holders, states⟩ id' → σ.Leads id' :=
    fun id' states => h.leads_of_leads (τ := ⟨u, σ.holders, states⟩) fun x hx =>
      ⟨x, hx, hfinds x hx⟩
  have hother : ∀ id', σ.Leads id' → id' ≠ id → ∃ x, σ.world.store.IsObject id' i t x ∧
      u.store.IsObject id' i t x ∧ u.store.look x = σ.states id' := by
    intro id' hid' hne
    obtain ⟨x, hx, hlook'⟩ := h.state id' hid'
    obtain ⟨hx', hsame⟩ := hcalled.other hv h.held.sound h.held.locks hx hne
      (h.apart id' id x v hid' hid hne hx hv)
    exact ⟨x, hx, hx', hsame.trans hlook'⟩
  refine ⟨hu, fun x hx => ?_, fun id' hid' => ?_,
    h.apart.of_handles (fun id' => hleads id' _) fun id' x' hid' hx' => ?_⟩
  · obtain ⟨id', hid'⟩ := h.finds x hx
    exact ⟨id', hfinds x hx _ hid'⟩
  · by_cases hne : id' = id
    · subst hne
      refine ⟨v', hv', ?_⟩
      simp only [hlearned, hlook, Function.update_self]
    · obtain ⟨x, -, hx, hstate⟩ := hother id' (hleads id' _ hid') hne
      refine ⟨x, hx, ?_⟩
      simp only [hstate, Function.update_of_ne hne]
  · by_cases hne : id' = id
    · subst hne
      exact ⟨v, hv, hcalled.handles_eq hv hx'⟩
    · obtain ⟨x, hx, hxu, -⟩ := hother id' (hleads id' _ hid') hne
      exact ⟨x, hx, by rw [hxu.unique hx']⟩

theorem poked (h : σ.Keeps i t kept) {id : Nat} (hid : σ.Leads id) (n : Nat) :
    (σ.call i id n).Keeps i t kept := by
  obtain ⟨v, hv, -⟩ := h.state id hid
  exact h.called hid hv (poke_called hv h.held.sound h.held.locks n)

/-- A deep copy joins, in the state of its source and with cells of its own. -/
theorem copied (h : σ.Keeps i t kept) {t' : Ty} {id k : Nat}
    (hx : ⟨t', .handle .object (some id), []⟩ ∈ σ.holders)
    (hr : (Value.handle .object (some id)).deepCopy σ.world = .ok (.handle .object (some k)) u) :
    (σ.copy u t' id k).Keeps i t kept := by
  have hheld := h.held
  obtain ⟨hm, hu⟩ := hheld.deepCopied hx hr
  have hfinds : ∀ x ∈ σ.holders, ∀ y, x.Finds σ.world.store y → x.Finds u.store y :=
    fun x hx y => hheld.finds hm (List.mem_cons_of_mem _ hx)
  have hself : Holder.Finds ⟨t', .handle .object (some k), []⟩ u.store ⟨.object, k⟩ := .here
  have hleads : ∀ id', (σ.copy u t' id k).Leads id' → id' = k ∨ σ.Leads id' := by
    rintro id' ⟨y, hy, hf⟩
    rcases List.mem_cons.mp hy with rfl | hy
    · cases hself.unique hf
      exact .inl rfl
    · obtain ⟨id₀, hid₀⟩ := h.finds y hy
      cases (hfinds y hy _ hid₀).unique hf
      exact .inr ⟨y, hy, hid₀⟩
  obtain ⟨v, hv, hlook⟩ := h.state id ⟨_, hx, .here⟩
  obtain ⟨k', v', hk, hv', hnew, hcells, hsame⟩ :=
    hv.deepCopy hheld.sound hheld.locks hu.sound hu.locks hr
  cases hk
  have hold : ∀ id', σ.Leads id' → id' ≠ k ∧ ∃ x, σ.world.store.IsObject id' i t x ∧
      u.store.IsObject id' i t x ∧ u.store.look x = σ.states id' := by
    rintro id' ⟨y, hy, hf⟩
    have ha := hheld.alive_of_finds hy hf
    refine ⟨(Nat.lt_of_lt_of_le ha.lt_next hnew).ne, h.object_of_moves hm ⟨y, hy, hf⟩ ?_⟩
    exact hu.alive_of_finds (List.mem_cons_of_mem _ hy) (hfinds y hy _ hf)
  refine ⟨hu, fun y hy => ?_, fun id' hid' => ?_, h.apart.join hv' hcells fun id' x hid' hne hx => ?_⟩
  · rcases List.mem_cons.mp hy with rfl | hy
    · exact ⟨k, hself⟩
    · obtain ⟨id₀, hid₀⟩ := h.finds y hy
      exact ⟨id₀, hfinds y hy _ hid₀⟩
  · rcases hleads id' hid' with rfl | hid'
    · exact ⟨v', hv', (hsame.trans hlook).trans states_copy_self.symm⟩
    · obtain ⟨hne, x, -, hx, hstate⟩ := hold id' hid'
      exact ⟨x, hx, hstate.trans (states_copy_of_ne hne).symm⟩
  · have hid := (hleads id' hid').resolve_left hne
    obtain ⟨-, z, hz, hzu, -⟩ := hold id' hid
    cases hzu.unique hx
    exact ⟨hid, hz, fun y hy => ((hz.live hheld.sound hheld.locks).alive y hy).lt_next⟩

/-- One deed. -/
theorem deed (h : σ.Keeps i t kept) (hd : Deed i σ τ) : τ.Keeps i t kept := by
  cases hd with
  | handling hd => exact h.quiet (hd.step h.held).1 (hd.held h.held) fun y hy => hd.finds h.held hy
  | call hid n => exact h.poked hid n
  | deepCopy hx hr => exact h.copied hx hr

theorem history (h : σ.Keeps i t kept) (hd : History i σ τ) : τ.Keeps i t kept := by
  induction hd with
  | refl => exact h
  | tail _ hd ih => exact ih.deed hd

/-- No deed writes over handles. -/
theorem steady (h : σ.Keeps i t kept) (hd : Deed i σ τ) :
    σ.world.store.Steady τ.world.store := by
  cases hd with
  | handling hd => exact (hd.step h.held).1.steady
  | call hid n =>
    obtain ⟨v, hv, -⟩ := h.state _ hid
    exact (poke_called hv h.held.sound h.held.locks n).touches.steady
  | deepCopy hx hr => exact (h.held.deepCopied hx hr).1.steady

/-- What is in hand leads to what it led to at any time before. -/
theorem finds_history (h : σ.Keeps i t kept) (hd : History i σ τ) {x : Holder} (hx : x ∈ τ.holders)
    {y : Handle} (hf : x.Finds σ.world.store y) : x.Finds τ.world.store y := by
  have hsteady : σ.world.store.Steady τ.world.store := by
    clear hx
    induction hd with
    | refl => exact .refl _
    | tail hrest hd ih => exact ih.trans ((h.history hrest).steady hd)
  exact (h.history hd).held.finds_of_steady hsteady hx hf

/-- What is read through a handle to an object. -/
theorem reads (h : σ.Keeps i t kept) {id : Nat} (hid : σ.Leads id) :
    ∃ v, access (some id) t σ.world = .ok (.ok v) σ.world ∧
      view (some id) σ.world = i.view v σ.world ∧ type? (some id) σ.world = .ok (some t) σ.world ∧
      σ.world.store.look v = σ.states id := by
  obtain ⟨v, hv, hlook⟩ := h.state id hid
  exact ⟨v, hv.access, hv.view, hv.type?, hlook⟩

/-- Objects in the same state show the same. -/
theorem view_eq (h : σ.Keeps i t kept) (h' : τ.Keeps i t kept) {id id' : Nat} (hid : σ.Leads id)
    (hid' : τ.Leads id') (hstates : τ.states id' = σ.states id) :
    (view (some id')).outcome τ.world = (view (some id)).outcome σ.world := by
  obtain ⟨v, hv, hlook⟩ := h.state id hid
  obtain ⟨v', hv', hlook'⟩ := h'.state id' hid'
  have hview := (Interface.projects (hv.accepts h.held.sound)).outcome_eq h.held.locks h'.held.locks
    (hv.live h.held.sound h.held.locks) (hv'.live h'.held.sound h'.held.locks)
    (hlook'.trans (hstates.trans hlook.symm))
  rwa [Run.outcome, Run.outcome, ← hv.view, ← hv'.view] at hview

/-- A call on one object does not change what another shows. -/
theorem view_of_call (h : σ.Keeps i t kept) {id id' : Nat} (hid : σ.Leads id) (hid' : σ.Leads id')
    (hne : id' ≠ id) (n : Nat) : (view (some id')).outcome ((poke (some id) n).after σ.world) =
      (view (some id')).outcome σ.world := by
  obtain ⟨x, hx, hf⟩ := hid'
  have hleads : (σ.call i id n).Leads id' := ⟨x, hx, h.finds_history (.single (.call hid n)) hx hf⟩
  exact h.view_eq (h.poked hid n) ⟨x, hx, hf⟩ hleads (states_call_of_ne hne)

/-- No value in hand leads to a deep copy that has just been made. -/
theorem copy_new (h : σ.Keeps i t kept) {t' : Ty} {id k : Nat}
    (hx : ⟨t', .handle .object (some id), []⟩ ∈ σ.holders)
    (hr : (Value.handle .object (some id)).deepCopy σ.world = .ok (.handle .object (some k)) u)
    {id' : Nat} (hid' : σ.Leads id') : id' ≠ k := by
  have hu := (h.copied hx hr).held
  obtain ⟨v, hv, -⟩ := h.state id ⟨_, hx, .here⟩
  obtain ⟨k', -, hk, -, hnew, -⟩ := hv.deepCopy h.held.sound h.held.locks hu.sound hu.locks hr
  cases hk
  obtain ⟨y, hy, hf⟩ := hid'
  exact (Nat.lt_of_lt_of_le (h.held.alive_of_finds hy hf).lt_next hnew).ne

/-- An object can be copied deeply unless it refuses. -/
theorem copy_ok (h : σ.Keeps i t kept) {t' : Ty} {id : Nat}
    (hx : ⟨t', .handle .object (some id), []⟩ ∈ σ.holders)
    (hp : ∀ p ∈ (σ.states id).probes, p.boom ≠ some .deep) :
    ∃ k u, (Value.handle .object (some id)).deepCopy σ.world = .ok (.handle .object (some k)) u := by
  have hheld := h.held
  obtain ⟨v, hv, hlook⟩ := h.state id ⟨_, hx, .here⟩
  obtain ⟨c, u, hr, -⟩ := hv.adds_deepCopy hheld.sound hheld.locks fun p hpv =>
    hp p (hlook ▸ Store.probes_look hpv)
  obtain ⟨-, hu⟩ := hheld.deepCopied hx hr
  obtain ⟨k, -, rfl, -⟩ := hv.deepCopy hheld.sound hheld.locks hu.sound hu.locks hr
  exact ⟨k, u, hr⟩

end Family.Keeps

end Object

/-- What an object shows through its interface and what is found in it never part. Whatever is done
with shares of an object and of its deep copies, each share leads to an object, and keeps leading to the
same one for as long as it is in hand, also from inside of a slot. The interface of the object shows the
value that is found in it, of the type that it always had, and this value is in the state to which the
calls on the object have brought it. Shares are equal if they lead to the same object, and in equal
states objects show the same. A clone of a share, or what comes back from a slot that a share was put
in, leads to the same object, and a deep copy of a share to one that no other share leads to. -/
theorem object_views_agree {w : World} {xs : List Holder} {kept : Multiset Piece} {id : Nat}
    {i : Interface} {t : Ty} {v : Value} (hh : Held w xs kept) (ho : w.store.IsObject id i t v)
    (hx : ∀ x ∈ xs, x.Finds w.store ⟨.object, id⟩) {σ : Object.Family}
    (h : Object.History i ⟨w, xs, fun _ => w.store.look v⟩ σ) :
    (∀ x ∈ σ.holders, ∃ o, x.Finds σ.world.store ⟨.object, o⟩) ∧
    (∀ τ, Object.History i σ τ → ∀ x ∈ τ.holders, ∀ o, x.Finds σ.world.store ⟨.object, o⟩ →
      x.Finds τ.world.store ⟨.object, o⟩) ∧
    (∀ x ∈ σ.holders, x.type ≠ .erased → ∀ target u o,
      Erased.new x.type x.value σ.world = .ok target u → x.Finds σ.world.store ⟨.object, o⟩ →
      ∀ τ, Object.History i
          ⟨u, ⟨.erased, .handle .slot target, 0 :: x.path⟩ :: σ.holders.erase x, σ.states⟩ τ →
        ⟨.erased, .handle .slot target, 0 :: x.path⟩ ∈ τ.holders →
        Holder.Finds ⟨.erased, .handle .slot target, 0 :: x.path⟩ τ.world.store ⟨.object, o⟩) ∧
    (∀ o, σ.Leads o → ∃ value, Object.access (some o) t σ.world = .ok (.ok value) σ.world ∧
      Object.view (some o) σ.world = i.view value σ.world ∧
      Object.type? (some o) σ.world = .ok (some t) σ.world ∧
      σ.world.store.look value = σ.states o) ∧
    (∀ o o', σ.Leads o → σ.Leads o' →
      (Value.handle .object (some o)).equals (.handle .object (some o')) σ.world =
        .ok (decide (o = o')) σ.world) ∧
    (∀ τ, Object.History i ⟨w, xs, fun _ => w.store.look v⟩ τ → ∀ o o', σ.Leads o → τ.Leads o' →
      τ.states o' = σ.states o →
      (Object.view (some o')).outcome τ.world = (Object.view (some o)).outcome σ.world) ∧
    (∀ o o' n, σ.Leads o → σ.Leads o' → o' ≠ o →
      (Object.view (some o')).outcome ((Object.poke (some o) n).after σ.world) =
        (Object.view (some o')).outcome σ.world) ∧
    ∀ t' o, ⟨t', .handle .object (some o), []⟩ ∈ σ.holders →
      (∃ u, (Value.handle .object (some o)).clone σ.world = .ok (.handle .object (some o)) u) ∧
      (∃ target u u', Erased.new t' (.handle .object (some o)) σ.world = .ok target u ∧
        Erased.extract target t' u = .ok (.handle .object (some o)) u') ∧
      ((∀ p ∈ (σ.states o).probes, p.boom ≠ some .deep) → ∃ k u,
        (Value.handle .object (some o)).deepCopy σ.world = .ok (.handle .object (some k)) u) ∧
      ∀ k u, (Value.handle .object (some o)).deepCopy σ.world = .ok (.handle .object (some k)) u →
        ∀ o', σ.Leads o' → (Value.handle .object (some o')).equals (.handle .object (some k)) u =
          .ok false u := by
  have hstart : Object.Family.Keeps i t kept ⟨w, xs, fun _ => w.store.look v⟩ :=
    { held := hh
      finds := fun x hx' => ⟨id, hx x hx'⟩
      state := by
        rintro _ ⟨x, hx', hf⟩
        cases (hx x hx').unique hf
        exact ⟨v, ho, rfl⟩
      apart := by
        rintro _ _ _ _ ⟨x, hx₁, hf₁⟩ ⟨y, hx₂, hf₂⟩ hne
        cases (hx x hx₁).unique hf₁
        cases (hx y hx₂).unique hf₂
        exact absurd rfl hne }
  have hkeeps := hstart.history h
  have hheld := hkeeps.held
  refine ⟨hkeeps.finds, fun τ hτ x hx o => hkeeps.finds_history hτ hx, ?_, fun o => hkeeps.reads,
    fun o o' _ _ => Value.object_equals o o' _, ?_,
    fun o o' n hid hid' hne => hkeeps.view_of_call hid hid' hne n, ?_⟩
  · intro x hx ht target u o hr hf τ hτ hmem
    have hstored := hkeeps.deed (.handling (.store hx ht hr))
    exact hstored.finds_history hτ hmem (hheld.finds_stored hx ht hr hf)
  · intro τ hτ o o' hid hid' hstates
    exact hkeeps.view_eq (hstart.history hτ) hid hid' hstates
  · intro t' o ho
    have halive := hheld.alive ho ⟨.object, o⟩ (by simp [Value.handles])
    refine ⟨Value.clone_handle halive, hheld.extract_ok ho (by decide), hkeeps.copy_ok ho, ?_⟩
    intro k u hr o' ho'
    rw [Value.object_equals, decide_eq_false (hkeeps.copy_new ho hr ho')]

/-- A share of a dog is cloned, and the clone put in a slot. The dog learns a trick through the slot,
is copied deeply, and then the two learn different ones. -/
theorem object_views_agree_dogs :
    let v : Datum := .record [("name", .text "Rex"), ("tricks", .record [("ref", .list [])])]
    let d : Datum := .record [("impl", .text "Dog"), ("v", v)]
    let steps : List Step := [.define (some "d") (.object .pet) d]
    let w := Machine.after false steps
    let dog := Value.node .dog [.text "Rex", .handle .cell (some 0)]
    let share (id : Nat) : Holder := ⟨.object .pet, .handle .object (some id), []⟩
    let slot : Holder := ⟨.erased, .handle .slot (some 2), [0]⟩
    let knows (tricks : List String) : Value :=
      .node .dog [.text "Rex", .node .box [.node .sequence (tricks.map .text)]]
    (Held w [share 1] 0 ∧ w.store.IsObject 1 .pet .dog dog ∧
      ∀ x ∈ [share 1], x.Finds w.store ⟨.object, 1⟩) ∧
    ∃ σ, Object.History .pet ⟨w, [share 1], fun _ => w.store.look dog⟩ σ ∧
      σ.holders = [share 1, share 4, slot, share 1] ∧
      (∃ v, Object.access (some 1) .dog σ.world = .ok (.ok v) σ.world ∧
        σ.world.store.look v = knows ["trick1", "trick2"]) ∧
      (∃ v, Object.access (some 4) .dog σ.world = .ok (.ok v) σ.world ∧
        σ.world.store.look v = knows ["trick1", "trick3"]) ∧
      (share 1).value.equals (share 4).value σ.world = .ok false σ.world := by
  intro v d steps w dog share slot knows
  let cell (tricks : List String) : Option Allocation :=
    some ⟨.cell (.list .string), .node .sequence (tricks.map .text), 1⟩
  let rex (shares : Nat) : Option Allocation := some ⟨.object .pet .dog, dog, shares⟩
  let twin : Option Allocation :=
    some ⟨.object .pet .dog, .node .dog [.text "Rex", .handle .cell (some 3)], 1⟩
  let table : Table := ⟨0, .object .pet⟩
  let stored : Option Allocation := some ⟨.slot table (.object .pet), (share 1).value, 1⟩
  let born : List Birth :=
    [.allocation 0 (.cell (.list .string)), .allocation 1 (.object .pet .dog)]
  let world (entries : List (Option Allocation)) (tables : List Table) (more : List Birth) : World :=
    { store := ⟨entries.toArray⟩
      registry := ⟨tables⟩
      trace := tables.map fun table => .published table.type
      created := born ++ more
      bindings := [("d", ⟨.object .pet, (share 1).value⟩)] }
  let third : List Birth := [.allocation 2 (.slot table (.object .pet))]
  let fifth : List Birth :=
    third ++ [.allocation 3 (.cell (.list .string)), .allocation 4 (.object .pet .dog)]
  have hw : w = world [cell [], rex 1] [] [] := by
    have hkey : (d.textField? "impl").bind Ty.ofKey? = some .dog := by decide +kernel
    have hread := Reader.read_object (i := .pet) (x := v) (by cbv) (by cbv) hkey rfl
    have hw : w = Machine.next false (Machine.after false []) (.define (some "d") (.object .pet) d) :=
      rfl
    rw [Machine.next, Machine.perform, Machine.performCommon, hread] at hw
    rw [hw]
    simp only [world]
    cbv
  have hclone : (share 1).value.clone w = .ok (share 1).value (world [cell [], rex 2] [] []) := by
    rw [hw]
    cbv
  have hstore : Erased.new (.object .pet) (share 1).value (world [cell [], rex 2] [] []) =
      .ok (some 2) (world [cell [], rex 2, stored] [table] third) := by
    rw [Erased.new, Erased.set]
    · cbv
    · simp
  have hslot : Object.poke (some 1) 1 (world [cell [], rex 2, stored] [table] third) =
      .ok 1 (world [cell ["trick1"], rex 2, stored] [table] third) := by
    cbv
  have hcopy : (share 1).value.deepCopy (world [cell ["trick1"], rex 2, stored] [table] third) =
      .ok (share 4).value
        (world [cell ["trick1"], rex 2, stored, cell ["trick1"], twin] [table] fifth) := by
    cbv
  have hrex : Object.poke (some 1) 2
      (world [cell ["trick1"], rex 2, stored, cell ["trick1"], twin] [table] fifth) =
      .ok 2 (world [cell ["trick1", "trick2"], rex 2, stored, cell ["trick1"], twin] [table]
        fifth) := by
    cbv
  have htwin : Object.poke (some 4) 3
      (world [cell ["trick1", "trick2"], rex 2, stored, cell ["trick1"], twin] [table] fifth) =
      .ok 2 (world [cell ["trick1", "trick2"], rex 2, stored, cell ["trick1", "trick3"], twin]
        [table] fifth) := by
    cbv
  have hextract : Erased.extract (some 2) (.object .pet)
      (world [cell ["trick1", "trick2"], rex 2, stored, cell ["trick1", "trick3"], twin] [table]
        fifth) = .ok (share 1).value
      (world [cell ["trick1", "trick2"], rex 3, stored, cell ["trick1", "trick3"], twin] [table]
        fifth) := by
    cbv
  have hsettled : w.Settled := Machine.settled_after false steps
  have hh : Held w [share 1] 0 := by
    have howned : w.owned = Holder.pieces [share 1] + 0 := by
      simp only [hw, World.owned, world, Holder.pieces, List.map_cons, List.map_nil, add_zero]
    refine ⟨howned ▸ hsettled.sound, hsettled.locks, fun x hx => ?_⟩
    cases List.mem_singleton.mp hx
    exact hsettled.sound.bound ("d", ⟨.object .pet, (share 1).value⟩) (by simp [hw, world])
  have ho : w.store.IsObject 1 .pet .dog dog := hw ▸ ⟨_, rfl, rfl, rfl⟩
  have hx : ∀ x ∈ [share 1], x.Finds w.store ⟨.object, 1⟩ := by
    intro x hx
    cases List.mem_singleton.mp hx
    exact .here
  have hmem : ⟨.erased, .handle .slot (some 2), 0 :: []⟩ ∈ [share 4, slot, share 1] := by decide
  have hstart : w.store.look dog = knows [] := by
    rw [hw]
    simp only [world]
    cbv
  have hrun : ∃ σ, Object.History .pet ⟨w, [share 1], fun _ => w.store.look dog⟩ σ ∧
      σ.holders = [share 1, share 4, slot, share 1] ∧ σ.states 1 = knows ["trick1", "trick2"] ∧
      σ.states 4 = knows ["trick1", "trick3"] := by
    rw [hstart]
    refine ⟨_, Relation.ReflTransGen.refl
      |>.tail (.handling (.clone (x := share 1) (by decide) hclone))
      |>.tail (.handling (.store (x := share 1) (by decide) (by decide) hstore))
      |>.tail (.call_ok ⟨slot, by decide, .behind rfl rfl .here⟩ hslot)
      |>.tail (.deepCopy (t := .object .pet) (by decide) hcopy)
      |>.tail (.call_ok ⟨share 1, by decide, .here⟩ hrex)
      |>.tail (.call_ok ⟨share 4, by decide, .here⟩ htwin)
      |>.tail (.handling (.extract hmem hextract)), rfl, ?_, ?_⟩
    · cbv
    · cbv
  obtain ⟨σ, h, hholders, hrex, htwin⟩ := hrun
  have hone : σ.Leads 1 := ⟨share 1, by simp [hholders], .here⟩
  have hfour : σ.Leads 4 := ⟨share 4, by simp [hholders], .here⟩
  obtain ⟨-, -, -, hreads, hequals, -⟩ := object_views_agree hh ho hx h
  obtain ⟨v, haccess, -, -, hlook⟩ := hreads 1 hone
  obtain ⟨v', haccess', -, -, hlook'⟩ := hreads 4 hfour
  exact ⟨⟨hh, ho, hx⟩, σ, h, hholders, ⟨v, haccess, hlook.trans hrex⟩,
    ⟨v', haccess', hlook'.trans htwin⟩, hequals 1 4 hone hfour⟩

end SharedValues
