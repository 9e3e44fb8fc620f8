import Mathlib
import SharedValues.Proofs.DeepCopies
import SharedValues.Proofs.LastShares

/-!
Abandoned calls. A call that only adds and gives up what it has built, and ends with the same pieces
in hand, leaves the store as it was: without cycles what is alive is what the hand leads to, contents
have not changed, and the counts are exact. An argument that was moved into the call is given up
after that, and only what it leads to is touched.
-/
namespace SharedValues

namespace World

/-- Addresses beyond the last one add nothing to what is stored. -/
theorem stored_eq_sum {w : World} {n : Nat} (h : w.store.next ≤ n) :
    w.stored = ∑ id ∈ Finset.range n, w.storedAt id := by
  apply Finset.sum_subset (Finset.range_mono h)
  intro id _ hid
  have hnone : w.store.get? id = none := by
    cases ha : w.store.get? id with
    | none => rfl
    | some a => exact absurd (Finset.mem_range.mpr (Store.lt_next_of_get? ha)) hid
  simp [storedAt, hnone]

/-- States whose live allocations own the same store the same. -/
theorem stored_eq_of_content {w v : World} (hl : v.locks = w.locks)
    (h : ∀ id, (v.store.get? id).map (·.content) = (w.store.get? id).map (·.content)) :
    v.stored = w.stored := by
  rw [stored_eq_sum (Nat.le_max_left v.store.next w.store.next),
    stored_eq_sum (w := w) (Nat.le_max_right v.store.next w.store.next)]
  refine Finset.sum_congr rfl fun id _ => ?_
  have hid := h id
  unfold storedAt
  rw [hl]
  cases hv : v.store.get? id <;> cases hw : w.store.get? id <;> simp_all

/-- Giving values up touches nothing but what they lead to. -/
theorem get?_release_of_not_sees (vs : List Value) (w : World) {id : Nat}
    (h : ∀ v ∈ vs, ¬w.store.Sees v id) : (w.release vs).store.get? id = w.store.get? id := by
  fun_induction World.release vs w with
  | case1 w => rfl
  | case2 s rest w ih => exact ih fun v hv => h v (by simp [hv])
  | case3 p rest w ih => exact ih fun v hv => h v (by simp [hv])
  | case4 k rest w ih => exact ih fun v hv => h v (by simp [hv])
  | case5 k other rest w hg ih => exact ih fun v hv => h v (by simp [hv])
  | case6 k other rest w a ha h1 ih =>
    have hsees : w.store.Sees (.handle k (some other)) other := .handle rfl
    have hself : ¬w.store.Sees (.handle k (some other)) id := h _ (by simp)
    have hne : id ≠ other := fun e => hself (e ▸ hsees)
    rw [ih, destroy_store, Store.get?_erase_other _ hne]
    intro v hv hin
    have hback : w.store.Sees v id := hin.reflect (sameBut_destroy w other a).content
    rcases List.mem_cons.mp hv with rfl | hv
    · exact hself (hsees.trans ha hback)
    · exact h v (by simp [hv]) hback
  | case7 k other rest w a ha h1 ih =>
    have hne : id ≠ other := by
      rintro rfl
      exact h _ (List.mem_cons_self ..) (.held (h := ⟨k, id⟩) (by simp [Value.handles]) rfl rfl)
    rw [ih, Store.get?_put_other _ _ hne]
    intro v hv hin
    exact h v (by simp [hv]) (hin.reflect (sameBut_putShares ha).content)
  | case8 shape parts rest w ih =>
    refine ih fun v hv hin => ?_
    rcases List.mem_append.mp hv with hv | hv
    · refine h (.node shape parts) (by simp) (hin.mono fun x hx => ?_)
      rw [Value.handles]
      exact Value.mem_handlesOf.mpr ⟨v, hv, hx⟩
    · exact h v (by simp [hv]) hin

end World

/-- What is alive is held in hand or by another live allocation. -/
theorem Config.Sound.holder {c : Config} (hs : c.Sound) (hl : c.world.locks = []) {id : Nat}
    {a : Allocation} (ha : c.world.store.get? id = some a) :
    (∃ h, .handle h ∈ c.hand ∧ h.target = id) ∨ ∃ holder, c.world.store.Owns holder id := by
  obtain ⟨h, hh, ht⟩ := hs.counted.exists_handle ha
  have hp : c.world.pins = 0 := by simp [World.pins, hl]
  rw [Config.total, hp, add_zero] at hh
  rcases Multiset.mem_add.mp hh with hh | hh
  · obtain ⟨holder, b, -, hb, hm⟩ := World.mem_stored.mp hh
    exact .inr ⟨holder, b, hb, h, Value.handle_mem_pieces.mp hm, ht⟩
  · exact .inl ⟨h, hh, ht⟩

theorem Move.births {s : Scope} {c d : Config} (h : Move s c d) :
    ∃ births, d.world.created = c.world.created ++ births ∧
      ∀ id r, .allocation id r ∈ births → c.world.store.next ≤ id := by
  cases h with
  | create p => exact ⟨[.probe p], rfl, by simp⟩
  | @allocate w h h' role content =>
    refine ⟨[.allocation w.store.next role], rfl, ?_⟩
    rintro id r hr
    obtain ⟨rfl, -⟩ : id = w.store.next ∧ r = role := by simpa using hr
    exact Nat.le_refl _
  | @release w _ _ vs => exact ⟨[], by rw [(World.sameBut_release vs w).created]; simp, by simp⟩
  | _ => exact ⟨[], by simp [World.record], by simp⟩

/-- Allocations that are alive in both stores have the same role and content. -/
def Store.Agrees (s s' : Store) : Prop :=
  ∀ id a b, s.get? id = some a → s'.get? id = some b → b.role = a.role ∧ b.content = a.content

theorem Store.Agrees.symm {s s' : Store} (h : s.Agrees s') : s'.Agrees s := by
  intro id b a hb ha
  obtain ⟨hr, hc⟩ := h id a b ha hb
  exact ⟨hr.symm, hc.symm⟩

/-- A sound configuration in which nothing is locked and nothing owns itself. -/
structure Config.AtRest (c : Config) : Prop where
  sound : c.Sound
  locks : c.world.locks = []
  acyclic : c.world.store.Acyclic

namespace Config.AtRest

variable {c d : Config}

theorem moves (hc : c.AtRest) (hm : Moves .shrink c d) : d.AtRest :=
  ⟨hc.sound.moves hm, (hm.locks_eq (Scope.le_refl _)).trans hc.locks,
    hm.acyclic hc.sound hc.locks hc.acyclic⟩

/-- What is alive is alive in every configuration with the same hand: its holders are. -/
theorem alive_of_hand_eq (hc : c.AtRest) (hd : d.AtRest) (hag : c.world.store.Agrees d.world.store)
    (hh : d.hand = c.hand) {id : Nat} {a : Allocation} (ha : c.world.store.get? id = some a) :
    ∃ b, d.world.store.get? id = some b := by
  -- by induction on the holders of the allocation
  refine hc.acyclic.induction (P := fun id => ∀ a, c.world.store.get? id = some a →
    ∃ b, d.world.store.get? id = some b) ?_ (Store.lt_next_of_get? ha) a ha
  intro id _ ih a ha
  rcases hc.sound.holder hc.locks ha with ⟨h, hmem, rfl⟩ | ⟨holder, x, hx, h, hm, rfl⟩
  · obtain ⟨b, hb, -⟩ := hd.sound.alive_of_hand (hh ▸ hmem)
    exact ⟨b, hb⟩
  · obtain ⟨y, hy⟩ := ih holder ⟨x, hx, h, hm, rfl⟩ x hx
    have hcontent : y.content = x.content := (hag holder x y hx hy).2
    obtain ⟨b, hb, -⟩ := hd.sound.closed hd.locks holder y hy h (hcontent ▸ hm)
    exact ⟨b, hb⟩

theorem content_of_hand_eq (hc : c.AtRest) (hd : d.AtRest)
    (hag : c.world.store.Agrees d.world.store) (hh : d.hand = c.hand) (id : Nat) :
    (d.world.store.get? id).map (·.content) = (c.world.store.get? id).map (·.content) := by
  cases ha : c.world.store.get? id with
  | none =>
    cases hb : d.world.store.get? id with
    | none => rfl
    | some b =>
      obtain ⟨a, ha'⟩ := hd.alive_of_hand_eq hc hag.symm hh.symm hb
      rw [ha] at ha'
      cases ha'
  | some a =>
    obtain ⟨b, hb⟩ := hc.alive_of_hand_eq hd hag hh ha
    rw [hb, Option.map_some, Option.map_some, (hag id a b ha hb).2]

theorem total_of_hand_eq (hc : c.AtRest) (hd : d.AtRest) (hag : c.world.store.Agrees d.world.store)
    (hh : d.hand = c.hand) : d.total = c.total := by
  have hl : d.world.locks = c.world.locks := hd.locks.trans hc.locks.symm
  have hstored : d.world.stored = c.world.stored :=
    World.stored_eq_of_content hl (hc.content_of_hand_eq hd hag hh)
  simp only [Config.total, World.pins, hstored, hl, hh]

/-- The hand determines which allocations are alive and how many shares they have. -/
theorem get?_of_hand_eq (hc : c.AtRest) (hd : d.AtRest) (hag : c.world.store.Agrees d.world.store)
    (hh : d.hand = c.hand) (id : Nat) : d.world.store.get? id = c.world.store.get? id := by
  have hcontent := hc.content_of_hand_eq hd hag hh id
  cases ha : c.world.store.get? id with
  | none => simpa [ha] using hcontent
  | some a =>
    obtain ⟨b, hb⟩ := hc.alive_of_hand_eq hd hag hh ha
    obtain ⟨hr, hc'⟩ := hag id a b ha hb
    have hshares : b.shares = a.shares := by
      rw [hd.sound.counted.exact id b hb, hc.total_of_hand_eq hd hag hh,
        ← hc.sound.counted.exact id a ha]
    rw [hb, Option.some.injEq]
    cases a
    cases b
    simp_all

end Config.AtRest

namespace Moves

variable {c d : Config}

/-- Adding and giving up changes no role and no content. -/
theorem agrees (hm : Moves .shrink c d) : c.world.store.Agrees d.world.store := by
  intro id a b ha hb
  have hfixed : d.world.store.Fixed id a.role a.content := by
    refine hm.fixed ⟨Store.lt_next_of_get? ha, fun x hx => ?_⟩
    obtain rfl := Option.some.inj (ha.symm.trans hx)
    exact ⟨rfl, rfl⟩
  exact hfixed.2 b hb

/-- New allocations have addresses of their own. -/
theorem births {S : Scope} (hm : Moves S c d) :
    ∃ births, d.world.created = c.world.created ++ births ∧
      ∀ id r, .allocation id r ∈ births → c.world.store.next ≤ id := by
  refine (hm.invariant (P := fun e => c.world.store.next ≤ e.world.store.next ∧
    ∃ births, e.world.created = c.world.created ++ births ∧
      ∀ id r, .allocation id r ∈ births → c.world.store.next ≤ id) ?_
    ⟨Nat.le_refl _, [], by simp, by simp⟩).2
  rintro s e f - hm ⟨hle, births, hb, hnew⟩
  obtain ⟨more, hmore, hm'⟩ := hm.births
  refine ⟨hle.trans hm.evolves.next_le, births ++ more, ?_, fun id r hr => ?_⟩
  · rw [hmore, hb, List.append_assoc]
  · rcases List.mem_append.mp hr with hr | hr
    · exact hnew id r hr
    · exact hle.trans (hm' id r hr)

end Moves

/-- The calls that may be abandoned at any point. -/
inductive Call where
  | clone (v : Value)
  | deepCopy (v : Value)
  | equals (v u : Value)
  | render (v : Value) (out : String)
  | toText (v : Value)
  | tryExtract (target : Option Nat) (type : Ty)
  | extract (target : Option Nat) (type : Ty)
  | equalsValue (target : Option Nat) (type : Ty) (v : Value)
  | cellGet (target : Option Nat)
  | cellPut (target : Option Nat) (content : Value)
  | objectGet (target : Option Nat)
  | objectTryExtract (target : Option Nat) (type : Ty)
  | objectExtract (target : Option Nat) (type : Ty)
  | functionGet (target : Option Nat)

/-- An action without its result. -/
def Run.ignore {α : Type} (act : Run α) : Run Unit := do
  let _ ← act
  pure ()

namespace Call

def run : Call → Run Unit
  | .clone v => v.clone.ignore
  | .deepCopy v => v.deepCopy.ignore
  | .equals v u => (v.equals u).ignore
  | .render v out => (v.render out).ignore
  | .toText v => v.toText.ignore
  | .tryExtract target type => (Erased.tryExtract target type).ignore
  | .extract target type => (Erased.extract target type).ignore
  | .equalsValue target type v => (Erased.equalsValue target type v).ignore
  | .cellGet target => (Cell.get target).ignore
  | .cellPut target content => Cell.put target content
  | .objectGet target => (Object.get target).ignore
  | .objectTryExtract target type => (Object.tryExtract target type).ignore
  | .objectExtract target type => (Object.extract target type).ignore
  | .functionGet target => (Function.get target).ignore

/-- The values that the caller keeps. -/
def operands : Call → List Value
  | .clone v | .deepCopy v | .render v _ | .toText v => [v]
  | .equals v u => [v, u]
  | .tryExtract target _ | .extract target _ => [.handle .slot target]
  | .equalsValue target _ v => [.handle .slot target, v]
  | .cellGet target | .cellPut target _ => [.handle .cell target]
  | .objectGet target | .objectTryExtract target _ | .objectExtract target _ =>
    [.handle .object target]
  | .functionGet target => [.handle .callable target]

/-- The arguments that are moved into the call. -/
def moved : Call → List Value
  | .cellPut _ content => [content]
  | _ => []

/-- The call can be made: nothing is locked, nothing owns itself, and the operands have types and are
in hand beside the moved arguments. -/
structure Ready (call : Call) (w : World) (kept : Multiset Piece) : Prop where
  chronicled : Config.Chronicled ⟨w, Value.piecesOf call.moved + kept⟩
  locks : w.locks = []
  acyclic : w.store.Acyclic
  typed : ∀ v ∈ call.operands, ∃ t, HasType w.store t v
  held : ∀ v ∈ call.operands, v.pieces ≤ kept

end Call

section

variable {c : Config} {target : Option Nat} {type : Ty}

/-- The action, abandoned, leaves the hand as it was. -/
def GivesBack {α : Type} (act : Run α) (c : Config) : Prop :=
  Accounts .grow act c (fun _ _ => True) fun d => d.hand = c.hand

theorem GivesBack.ignore {α : Type} {act : Run α} (h : GivesBack act c) :
    GivesBack act.ignore c :=
  Accounts.bind h fun _ _ _ _ _ _ => .pure trivial

theorem Observes.givesBack {α : Type} {act : Run α} (h : Observes act) : GivesBack act c :=
  (h.accounts rfl).mono (fun _ _ _ _ _ _ => trivial) fun _ _ _ hd => hd

theorem Extracts.givesBack {attempt : Run (Except AccessError Value)} (h : Extracts type attempt c) :
    GivesBack attempt c :=
  Accounts.mono h (fun _ _ _ _ _ _ => trivial) fun _ _ _ hd => hd

/-- If there is nothing to extract, nothing is in hand either. -/
theorem Extracts.givesBack_or_fatal {attempt : Run (Except AccessError Value)}
    (h : Extracts type attempt c) {f : Except AccessError Value → Run Value}
    (hf : ∀ e, f (.error e) = Run.fatal e) (hf' : ∀ v, f (.ok v) = pure v) :
    GivesBack (attempt >>= f) c := by
  refine Accounts.bind h ?_
  rintro r d - - - ⟨hd, -⟩
  cases r with
  | error e =>
    rw [hf]
    exact .fatal (by simpa [fetched] using hd)
  | ok v =>
    rw [hf']
    exact .pure trivial

/-- Every call without moved arguments, abandoned, leaves the hand as it was. -/
theorem Call.givesBack (call : Call) (hm : call.moved = []) (hs : c.Sound)
    (hl : c.world.locks = []) (ht : ∀ v ∈ call.operands, ∃ t, HasType c.world.store t v)
    (ha : ∀ v ∈ call.operands, ∀ h ∈ v.handles, c.world.store.Alive h) :
    GivesBack call.run c := by
  have htarget : ∀ {k : HandleKind} {target : Option Nat}, .handle k target ∈ call.operands →
      ∀ id, target = some id → c.world.store.Alive ⟨k, id⟩ := by
    rintro k _ hmem id rfl
    exact ha _ hmem ⟨k, id⟩ (by simp [Value.handles])
  cases call with
  | clone v =>
    obtain ⟨t, hv⟩ := ht v (by simp [operands])
    have h := accounts_clone (p := .value t) hv (ha v (by simp [operands]))
    exact GivesBack.ignore (h.mono (fun _ _ _ _ _ _ => trivial) fun _ _ _ hd => hd)
  | deepCopy v =>
    obtain ⟨t, hv⟩ := ht v (by simp [operands])
    have h := accounts_deepCopy (p := .value t) hl hv (ha v (by simp [operands]))
    exact GivesBack.ignore (h.mono (fun _ _ _ _ _ _ => trivial) fun _ _ _ hd => hd)
  | equals v u => exact (observes_equals v u).givesBack.ignore
  | render v out => exact (observes_render v out).givesBack.ignore
  | toText v => exact (observes_toText v).givesBack.ignore
  | tryExtract target type =>
    exact (extracts_erased hs hl (htarget (by simp [operands]))).givesBack.ignore
  | extract target type =>
    have h : Extracts type (Erased.tryExtract target type) c :=
      extracts_erased hs hl (htarget (by simp [operands]))
    exact (h.givesBack_or_fatal (fun _ => rfl) fun _ => rfl).ignore
  | equalsValue target type v => exact (observes_equalsValue target type v).givesBack.ignore
  | cellGet target =>
    have h : Accounts .grow (Cell.get target) c _ _ :=
      accounts_cellGet hs hl (htarget (by simp [operands]))
    exact GivesBack.ignore (h.mono (fun _ _ _ _ _ _ => trivial) fun _ _ _ hd => hd)
  | cellPut target content => simp [moved] at hm
  | objectGet target => exact (observes_objectGet target).givesBack.ignore
  | objectTryExtract target type =>
    exact (extracts_object hs hl (htarget (by simp [operands]))).givesBack.ignore
  | objectExtract target type =>
    have h : Extracts type (Object.tryExtract target type) c :=
      extracts_object hs hl (htarget (by simp [operands]))
    exact (h.givesBack_or_fatal (fun _ => rfl) fun _ => rfl).ignore
  | functionGet target => exact (observes_functionGet target).givesBack.ignore

end

namespace Cell

/-- Nothing can be put behind a handle to nothing: the argument is given up. -/
theorem put_none (content : Value) (w : World) :
    put none content w = .error (.panic (.fatal .invalidMemory))
      ((w.record (.fatal .invalidMemory)).release [content]) := rfl

theorem address_of_not_mem {w : World} {id : Nat} (hl : id ∉ w.locks) :
    address (some id) w = .ok id w := by
  rw [address, Run.bind_get, if_neg hl]
  rfl

theorem put_of_get? {w : World} {id : Nat} {a : Allocation} (ha : w.store.get? id = some a)
    (hk : a.role.kind = .cell) (hl : id ∉ w.locks) (content : Value) :
    put (some id) content w =
      .ok () ({ w with store := w.store.put id { a with content } }.release [a.content]) := by
  have haddress : address (some id) w = .ok id w := address_of_not_mem hl
  have hread : Run.read .cell id w = .ok a w := hk ▸ Run.read_of_get? ha
  rw [put, Run.bind_of_ok (Run.unwinding_of_ok haddress _), Run.bind_of_ok hread]
  rfl

end Cell

namespace Call

variable {call : Call} {w w' : World} {kept : Multiset Piece} {e : Stop}

/-- An abandoned call has given up all that it had built, and then the moved arguments. -/
theorem Ready.undone (h : call.Ready w kept) (he : call.run w = .error e w') :
    ∃ u, Moves .shrink ⟨w, Value.piecesOf call.moved + kept⟩ ⟨u, Value.piecesOf call.moved + kept⟩ ∧
      w' = u.release call.moved := by
  have hs := h.chronicled.sound
  have hle : kept ≤ Value.piecesOf call.moved + kept := Multiset.le_add_left _ _
  have ha : ∀ v ∈ call.operands, ∀ x ∈ v.handles, w.store.Alive x :=
    fun v hv => hs.alive_of_le ((h.held v hv).trans hle)
  by_cases hm : call.moved = []
  · have hb := call.givesBack hm hs h.locks h.typed ha hs
    simp only [he] at hb
    obtain ⟨hand, hmoves, -, rfl⟩ := hb
    exact ⟨w', hmoves, by rw [hm, World.release]⟩
  · -- only a put moves an argument, and it is abandoned only if there is no cell
    cases call with
    | cellPut target content =>
      cases target with
      | none =>
        rw [run, Cell.put_none] at he
        cases he
        exact ⟨_, .one (by decide) (.report (.fatal .invalidMemory) rfl), rfl⟩
      | some id =>
        obtain ⟨a, hg, hk⟩ := ha (.handle .cell (some id)) (by simp [operands]) ⟨.cell, id⟩
          (by simp [Value.handles])
        rw [run, Cell.put_of_get? hg hk (by simp [h.locks])] at he
        cases he
    | _ => exact absurd rfl hm

end Call

/-- The store is as before, and what has come into being meanwhile has been given up, once. -/
structure World.Restored (w u : World) : Prop where
  store : ∀ id, u.store.get? id = w.store.get? id
  bindings : u.bindings = w.bindings
  undone : ∃ births events, u.created = w.created ++ births ∧ u.trace = w.trace ++ events ∧
    (births.filterMap Birth.probe?).Perm (events.filterMap Event.dropped?) ∧
    ∀ id role, .allocation id role ∈ births → w.store.next ≤ id ∧ u.store.get? id = none ∧
      events.filterMap (Event.lastShareOf? id) = role.reported

theorem Moves.restored {w u : World} {hand : Multiset Piece}
    (hm : Moves .shrink ⟨w, hand⟩ ⟨u, hand⟩) (hc : Config.Chronicled ⟨w, hand⟩)
    (hl : w.locks = []) (hac : w.store.Acyclic) : w.Restored u := by
  have hrest : Config.AtRest ⟨w, hand⟩ := ⟨hc.sound, hl, hac⟩
  have hget := hrest.get?_of_hand_eq (hrest.moves hm) hm.agrees rfl
  have htotal := hrest.total_of_hand_eq (hrest.moves hm) hm.agrees rfl
  have hcu := hc.moves hm
  obtain ⟨births, hb, hnew⟩ := hm.births
  obtain ⟨events, he⟩ := (Passes.moves hm).trace_grows
  refine ⟨hget, hm.bindings_eq (by decide), births, events, hb, he.symm, ?_, fun id role hr => ?_⟩
  · rw [List.perm_iff_count]
    intro p
    have h₁ : w.born.count p = w.dropped.count p + _ := hc.balanced p
    have h₂ : u.born.count p = u.dropped.count p + _ := hcu.balanced p
    have hborn : u.born = w.born ++ births.filterMap Birth.probe? := by
      rw [World.born, hb, List.filterMap_append, World.born]
    have hdropped : u.dropped = w.dropped ++ events.filterMap Event.dropped? := by
      rw [World.dropped, ← he, List.filterMap_append, World.dropped]
    rw [hborn, hdropped, List.count_append, List.count_append, htotal] at h₂
    omega
  · have hge := hnew id role hr
    have hnone : u.store.get? id = none := by
      rw [hget]
      cases ha : w.store.get? id with
      | none => rfl
      | some a => exact absurd (Store.lt_next_of_get? ha) (Nat.not_lt.mpr hge)
    have hmem : .allocation id role ∈ u.created := by
      rw [hb]
      exact List.mem_append_right _ hr
    have hrole : u.store.role? id = none := by simp [Store.role?, hnone]
    refine ⟨hge, hnone, ?_⟩
    rw [hc.recorded.between hcu.recorded ⟨births, hb.symm⟩ he.symm hmem,
      if_pos ⟨hrole, .inr hge⟩]

/-- An abandoned call leaves the store as it was. The arguments that were moved into it are given up
once, in a state that has every allocation of the state before the call, with its content and its
count, and no other; the probes that have come into being meanwhile have been dropped, each as
often, and the new allocations have ended. So in the end no allocation has changed that a moved
argument does not lead to, none is alive that was not alive before, and what is left in hand is
counted exactly. -/
theorem abandoned_call_restores {call : Call} {w w' : World} {kept : Multiset Piece} {e : Stop}
    (h : call.Ready w kept) (he : call.run w = .error e w') :
    ∃ u, w.Restored u ∧ w' = u.release call.moved ∧
      (∀ id, (∀ v ∈ call.moved, ¬w.store.Sees v id) → w'.store.get? id = w.store.get? id) ∧
      (∀ id, w.store.get? id = none → w'.store.get? id = none) ∧
      Config.Chronicled ⟨w', kept⟩ := by
  obtain ⟨u, hm, rfl⟩ := h.undone he
  have hr := hm.restored h.chronicled h.locks h.acyclic
  have hback : ∀ id b, u.store.get? id = some b →
      ∃ a, w.store.get? id = some a ∧ b.content = a.content :=
    fun id b hb => ⟨b, by rw [← hr.store, hb], rfl⟩
  refine ⟨u, hr, rfl, fun id hid => ?_, fun id hid => ?_, ?_⟩
  · rw [World.get?_release_of_not_sees call.moved u fun v hv hin => hid v hv (hin.reflect hback)]
    exact hr.store id
  · cases hb : (u.release call.moved).store.get? id with
    | none => rfl
    | some b =>
      obtain ⟨a, ha, -⟩ := (World.sameBut_release call.moved u).content id b hb
      rw [hr.store, hid] at ha
      cases ha
  · exact (h.chronicled.moves hm).move (.release rfl)

/-- A deep copy of two cells that is abandoned at the second one, and a put behind a handle to
nothing. -/
theorem abandoned_call_restores_cells :
    let steps : List Step :=
      [.define (some "v") (.list (.cell .probe))
        (.list [.record [("ref", .int 1)],
          .record [("ref", .record [("id", .int 2), ("boom", .text "deep")])]])]
    let v : Value := .node .sequence [.handle .cell (some 0), .handle .cell (some 1)]
    let w := Machine.after false steps
    let x : World := { w with bindings := [] }
    ((Call.deepCopy v).Ready w w.owned ∧
      ∃ u, (Call.deepCopy v).run w = .error (.panic (.refused .deep ⟨2, some .deep⟩)) u ∧
        ∀ id, u.store.get? id = w.store.get? id) ∧
    (Call.cellPut none v).Ready x 0 ∧
      ∃ u, (Call.cellPut none v).run x = .error (.panic (.fatal .invalidMemory)) u ∧
        (∀ id, x.store.get? id = none → u.store.get? id = none) ∧ Config.Chronicled ⟨u, 0⟩ := by
  intro steps v w x
  have hs : w.store =
      ⟨#[some ⟨.cell .probe, .probe ⟨1, none⟩, 1⟩,
        some ⟨.cell .probe, .probe ⟨2, some .deep⟩, 1⟩]⟩ := by
    simp only [w, steps]
    cbv
  have hb : w.bindings = [("v", ⟨.list (.cell .probe), v⟩)] := by
    simp only [w, steps, v]
    cbv
  have hw : w.Settled := Machine.settled_after false steps
  have hc : Config.Chronicled ⟨w, w.owned⟩ := Machine.chronicled_after false steps
  have hac : w.store.Acyclic := Store.acyclic_of_lt (by rw [hs]; decide)
  have hv : ("v", (⟨.list (.cell .probe), v⟩ : Variable)) ∈ w.bindings := by rw [hb]; simp
  have hready : (Call.deepCopy v).Ready w w.owned :=
    { chronicled := by simpa [Call.moved] using hc
      locks := hw.locks
      acyclic := hac
      typed := fun u hu => ⟨.list (.cell .probe), by
        rw [List.mem_singleton.mp hu]
        exact hw.sound.bound _ hv⟩
      held := fun u hu => by
        rw [List.mem_singleton.mp hu]
        exact World.pieces_le_owned hv }
  have howned : w.owned = Value.piecesOf [v] + 0 := by simp [World.owned, hb]
  have hput : (Call.cellPut none v).Ready x 0 :=
    { chronicled := by
        have hmove : Move .bind ⟨w, w.owned⟩ ⟨x, w.owned⟩ := .bind (by simp)
        have hx := hc.move hmove
        rwa [howned] at hx
      locks := hw.locks
      acyclic := hac
      typed := fun u hu => ⟨.cell .probe, by
        rw [List.mem_singleton.mp hu]
        exact hasType_nothing rfl _⟩
      held := fun u hu => by
        rw [List.mem_singleton.mp hu]
        simp }
  have hdeep : ∃ u, (Call.deepCopy v).run w = .error (.panic (.refused .deep ⟨2, some .deep⟩)) u :=
    ⟨((Call.deepCopy v).run).after w, by
      simp only [w, steps, v]
      cbv⟩
  obtain ⟨u, hu⟩ := hdeep
  obtain ⟨u', hr, rfl, -⟩ := abandoned_call_restores hready hu
  obtain ⟨x', -, hx', -, hnew, hcx⟩ := abandoned_call_restores hput (Cell.put_none v x)
  refine ⟨⟨hready, u', by simpa [Call.moved, World.release] using hu, hr.store⟩, hput, _,
    Cell.put_none v x, hnew, hcx⟩

end SharedValues
