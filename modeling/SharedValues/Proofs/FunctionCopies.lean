import Mathlib
import SharedValues.Proofs.Footprints

/-!
The copies of a function value. Clones and deep copies of it, and of whatever it is kept in, lead to
one and the same function: what calls answer, and what they leave in the captured state, depends on
their arguments alone. The captured state is given up once, with the last copy.
-/
namespace SharedValues

section copying

/-- Where the value leads to a function, the copy leads to it. -/
def Store.SameFunctions (s s' : Store) (v c : Value) : Prop :=
  ∀ path id, s.At (fun _ => true) v path (.handle .callable (some id)) →
    s'.At (fun _ => true) c path (.handle .callable (some id))

/-- Whatever has been added to the store, a handle becomes one that leads to the same functions. -/
def KeepsFunctions (origin : Store) (through : HandleKind → Nat → Run Nat) : Prop :=
  ∀ (k : HandleKind) (id i : Nat) (w w' : World), origin.Persists w.store →
    through k id w = .ok i w' → w.store.Persists w'.store ∧
      origin.SameFunctions w'.store (.handle k (some id)) (.handle k (some i))

variable {origin : Store} {through : HandleKind → Nat → Run Nat}

mutual

theorem sameFunctions_copyWith (d : Depth) (hf : KeepsFunctions origin through) :
    (v : Value) → ∀ (w w' : World) (c : Value), origin.Persists w.store →
      v.copyWith d through w = .ok c w' →
      w.store.Persists w'.store ∧ origin.SameFunctions w'.store v c
  | .scalar x, w, w', c, _, h => by
    rw [Value.copyWith] at h
    cases h
    exact ⟨.refl _, fun path id hx => by cases hx⟩
  | .probe p, w, w', c, _, h => by
    rw [Value.copyWith] at h
    obtain ⟨_, u, hhook, hcreate⟩ := Run.exists_of_bind_ok h
    obtain ⟨_, _, hrecord, hboom⟩ := Run.exists_of_bind_ok hhook
    cases hrecord
    split at hboom
    · cases hboom
    · cases hboom
      cases hcreate
      exact ⟨.refl _, fun path id hx => by cases hx⟩
  | .handle k none, w, w', c, _, h => by
    rw [Value.copyWith] at h
    cases h
    exact ⟨.refl _, fun path id hx => by cases hx⟩
  | .handle k (some id), w, w', c, hw, h => by
    rw [Value.copyWith] at h
    obtain ⟨i, u, hi, hr⟩ := Run.exists_of_bind_ok h
    cases hr
    exact hf k id i w _ hw hi
  | .node shape parts, w, w', c, hw, h => by
    rw [Value.copyWith] at h
    obtain ⟨cs, u, hcs, hr⟩ := Run.exists_of_bind_ok h
    cases hr
    obtain ⟨hp, new, rfl, hnew⟩ := sameFunctions_copyParts d hf shape parts [] w _ cs hw hcs
    refine ⟨hp, fun path id hx => ?_⟩
    cases hx with
    | @part _ _ i _ _ _ hi hx =>
      obtain ⟨c, hc, hsame⟩ := hnew i _ hi
      exact .part hc (hsame _ _ hx)

theorem sameFunctions_copyParts (d : Depth) (hf : KeepsFunctions origin through) (shape : Shape) :
    (vs : List Value) → ∀ (done : List Value) (w w' : World) (cs : List Value),
      origin.Persists w.store → Value.copyParts d through shape done vs w = .ok cs w' →
      w.store.Persists w'.store ∧ ∃ new, cs = done ++ new ∧ ∀ (i : Nat) (v : Value),
        vs[i]? = some v → ∃ c, new[i]? = some c ∧ origin.SameFunctions w'.store v c
  | [], done, w, w', cs, _, h => by
    rw [Value.copyParts] at h
    cases h
    exact ⟨.refl _, [], by rw [List.append_nil], fun i v hi => by cases hi⟩
  | v :: vs, done, w, w', cs, hw, h => by
    rw [Value.copyParts] at h
    obtain ⟨c, u, hc, hrest⟩ := Run.exists_of_bind_ok h
    obtain ⟨hpc, hsame⟩ := sameFunctions_copyWith d hf v w u c hw (Run.ok_of_unwinding hc)
    obtain ⟨hp, new, rfl, hnew⟩ :=
      sameFunctions_copyParts d hf shape vs (done ++ [c]) u w' cs (hw.trans hpc) hrest
    refine ⟨hpc.trans hp, c :: new, by rw [List.append_assoc]; rfl, fun i x hi => ?_⟩
    cases i with
    | zero =>
      cases hi
      exact ⟨c, rfl, fun path id hx => (hsame path id hx).persist hp⟩
    | succ i => exact hnew i x hi

end

theorem keepsFunctions_share : KeepsFunctions origin Value.share := by
  intro k id i w w' hw h
  obtain ⟨_, u, hretain, hr⟩ := Run.exists_of_bind_ok h
  obtain ⟨a, u', hread, hwrite⟩ := Run.exists_of_bind_ok hretain
  obtain ⟨ha, -, rfl⟩ := Run.read_inv hread
  cases hr
  cases hwrite
  have hp : u'.store.Persists (u'.store.put id { a with shares := a.shares + 1 }) :=
    Store.persists_put ha rfl rfl
  exact ⟨hp, fun path j hx => hx.persist (hw.trans hp)⟩

theorem keepsFunctions_deepThrough (hops : Nat) :
    KeepsFunctions origin (Value.deepThrough hops) := by
  induction hops with
  | zero =>
    intro k id i w w' hw h
    cases k with
    | slot | callable => exact keepsFunctions_share _ id i w w' hw h
    | cell | object => cases h
  | succ hops ih =>
    intro k id i w w' hw h
    by_cases hk : k.owning = true
    · have hdeep : Value.deepThrough (hops + 1) k id = (do
          let a ← Run.read k id
          let content ← a.content.copyWith .deep (Value.deepThrough hops)
          Run.allocate a.role content) := by
        cases k <;> first | rfl | cases hk
      rw [hdeep] at h
      obtain ⟨a, u, hread, hrest⟩ := Run.exists_of_bind_ok h
      obtain ⟨ha, -, rfl⟩ := Run.read_inv hread
      obtain ⟨content, u', hcopy, hnew⟩ := Run.exists_of_bind_ok hrest
      obtain ⟨hp, hsame⟩ := sameFunctions_copyWith .deep ih a.content u u' content hw hcopy
      cases hnew
      have hpush := Store.persists_push u'.store ⟨a.role, content, 1⟩
      refine ⟨hp.trans hpush, fun path j hx => ?_⟩
      cases hx with
      | here => cases hk
      | behind _ hb hx =>
        obtain ⟨a', ha', -, hc⟩ := hw _ _ hb
        cases ha.symm.trans ha'
        exact .behind rfl (Store.get?_push_next _ _) ((hsame _ _ (hc ▸ hx)).persist hpush)
    · cases k with
      | slot | callable => exact keepsFunctions_share _ id i w w' hw h
      | cell | object => exact absurd rfl hk

theorem Value.sameFunctions_deepCopy {v c : Value} {w w' : World} (h : v.deepCopy w = .ok c w') :
    w.store.SameFunctions w'.store v c :=
  (sameFunctions_copyWith .deep (keepsFunctions_deepThrough w.hops) v w w' c (.refl _) h).2

/-- The deep copy of a function is a clone. -/
theorem Value.deepCopy_function (w : World) (id : Nat) :
    (Value.handle .callable (some id)).deepCopy w = (Value.handle .callable (some id)).clone w := by
  have hthrough : Value.deepThrough w.hops .callable id = Value.share .callable id := by
    cases w.hops <;> rfl
  rw [Value.deepCopy, Run.bind_get, Value.clone, Value.copyWith, Value.copyWith, hthrough]

end copying

section ending

/-- From the first configuration to the second in moves and losses of single pieces, and on the way the
last share of the allocation goes, and its content comes to hand, this many times. -/
inductive GivesUp (id : Nat) (content : Value) (c : Config) : Nat → Config → Prop where
  | start : GivesUp id content c 0 c
  | move {d e : Config} {n : Nat} {s : Scope} (h : GivesUp id content c n d) (hm : Move s d e)
    (hs : s ≠ .shrink) : GivesUp id content c n e
  | loss {d e : Config} {n : Nat} (h : GivesUp id content c n d) (hl : Loss d e)
    (hk : (e.world.store.get? id).isSome = (d.world.store.get? id).isSome) :
    GivesUp id content c n e
  | last {n : Nat} {w : World} {k : HandleKind} {a : Allocation} {rest : Multiset Piece}
    (h : GivesUp id content c n ⟨w, {.handle ⟨k, id⟩} + rest⟩) (ha : w.store.get? id = some a)
    (h1 : a.shares ≤ 1) (hc : a.content = content) :
    GivesUp id content c (n + 1) ⟨w.destroy id a, a.content.pieces + rest⟩

theorem Store.isSome_get?_put {s : Store} {place : Nat} {a b : Allocation}
    (ha : s.get? place = some a) (id : Nat) :
    ((s.put place b).get? id).isSome = (s.get? id).isSome := by
  by_cases e : id = place
  · subst e
    rw [get?_put_same _ (lt_next_of_get? ha), ha]
    rfl
  · rw [get?_put_other _ _ e]

/-- Only giving up ends an allocation, and none comes back. -/
theorem Move.isSome_get? {s : Scope} {c d : Config} (hm : Move s c d) (hs : s ≠ .shrink) {id : Nat}
    (hlt : id < c.world.store.next) :
    (d.world.store.get? id).isSome = (c.world.store.get? id).isSome := by
  cases hm with
  | retain ha => exact Store.isSome_get?_put ha id
  | allocate => rw [World.allocate, Store.get?_push_of_ne _ _ (Nat.ne_of_lt hlt)]
  | release => exact absurd rfl hs
  | exchange ha => exact Store.isSome_get?_put ha id
  | rewrite ha => exact Store.isSome_get?_put ha id
  | _ => rfl

theorem Loss.next_eq {c d : Config} (h : Loss c d) : d.world.store.next = c.world.store.next := by
  cases h with
  | probe => rfl
  | share => exact Store.next_put _ _ _
  | last =>
    rw [World.destroy_store]
    exact Store.next_erase _ _

namespace GivesUp

variable {id : Nat} {content : Value} {role : Role} {c d e : Config} {n : Nat}

/-- What is alive is given up at most once: it is still alive, or it has been given up. -/
theorem count (h : GivesUp id content c n d) (ha : (c.world.store.get? id).isSome) :
    n = if d.world.store.get? id = none then 1 else 0 := by
  have hall : id < d.world.store.next ∧ n = if (d.world.store.get? id).isSome then 0 else 1 := by
    induction h with
    | start =>
      obtain ⟨a, ha'⟩ := Option.isSome_iff_exists.mp ha
      exact ⟨Store.lt_next_of_get? ha', by rw [if_pos ha]⟩
    | move _ hm hs ih =>
      rw [hm.isSome_get? hs ih.1]
      exact ⟨Nat.lt_of_lt_of_le ih.1 hm.evolves.next_le, ih.2⟩
    | loss _ hl hk ih =>
      rw [hk, hl.next_eq]
      exact ih
    | @last n w k a rest _ ha' h1 hc ih =>
      obtain ⟨hlt, hn⟩ := ih
      have hn : n = 0 := by simpa [ha'] using hn
      have hgone : (w.destroy id a).store.get? id = none := by simp
      refine ⟨?_, by rw [hn, hgone]; rfl⟩
      rw [World.destroy_store, Store.next_erase]
      exact hlt
  rw [hall.2]
  cases d.world.store.get? id <;> rfl

theorem anyLoss (h : GivesUp id content c n d) (hf : d.world.store.Fixed id role content)
    (hl : Loss d e) : ∃ m, GivesUp id content c m e ∧ e.world.store.Fixed id role content := by
  cases hl with
  | probe p hh => exact ⟨n, h.loss (.probe p hh) rfl, hf⟩
  | @share w _ _ k place a ha h1 hh =>
    refine ⟨n, h.loss (.share ha h1 hh) (Store.isSome_get?_put ha id), by simpa using hf.1, ?_⟩
    intro b hb
    rcases Store.get?_put_cases hb with ⟨rfl, rfl⟩ | ⟨-, hb⟩
    · exact hf.2 a ha
    · exact hf.2 b hb
  | @last w _ _ k place a ha h1 hh =>
    have hfixed : (w.destroy place a).store.Fixed id role content := by
      rw [World.destroy_store]
      refine ⟨by rw [Store.next_erase]; exact hf.1, fun b hb => ?_⟩
      exact hf.2 b (Store.get?_erase_cases hb).2
    by_cases e : place = id
    · subst e
      subst hh
      exact ⟨n + 1, h.last ha h1 (hf.2 a ha).2, hfixed⟩
    · refine ⟨n, h.loss (.last ha h1 hh) ?_, hfixed⟩
      rw [World.destroy_store, Store.get?_erase_other _ (Ne.symm e)]

theorem losses (h : GivesUp id content c n d) (hf : d.world.store.Fixed id role content)
    (hl : Relation.ReflTransGen Loss d e) :
    ∃ m, GivesUp id content c m e ∧ e.world.store.Fixed id role content := by
  induction hl with
  | refl => exact ⟨n, h, hf⟩
  | tail _ hl ih =>
    obtain ⟨m, hm, hf⟩ := ih
    exact hm.anyLoss hf hl

/-- Whatever is added and given up can be done piece by piece. -/
theorem moves (h : GivesUp id content c n d) (hs : d.Sound)
    (hf : d.world.store.Fixed id role content) (hm : Moves .shrink d e) :
    ∃ m, GivesUp id content c m e ∧ e.world.store.Fixed id role content := by
  induction hm with
  | refl => exact ⟨n, h, hf⟩
  | @tail d' e hd' hstep ih =>
    obtain ⟨m, hm, hf⟩ := ih
    obtain ⟨s, hle, hmove⟩ := hstep
    by_cases hsc : s = .shrink
    · subst hsc
      have hs' := hs.moves hd'
      cases hmove with
      | release hh =>
        subst hh
        exact hm.losses hf (hs'.losses_release)
    · exact ⟨m, hm.move hmove hsc, hmove.fixed hle hf⟩

/-- What is done at some places gives nothing up. -/
theorem touches {places : Nat → Prop} {w u : World} {hand : Multiset Piece}
    (h : GivesUp id content c n ⟨w, hand⟩) (hl : w.locks = []) (ht : Touches places w u) :
    GivesUp id content c n ⟨u, hand⟩ := by
  induction ht with
  | refl => exact h
  | tail hrest ht ih =>
    obtain ⟨S, hS, -, hm⟩ := ht.move ((Touches.locks_eq hrest).trans hl) hand
    exact ih.move hm hS

end GivesUp

end ending

section calling

namespace Function

/-- The answers to calls that are made one after the other, and the state after them. -/
def callAll (target : Option Nat) : List Value → World → List (Except Stop Value) × World
  | [], w => ([], w)
  | x :: xs, w =>
    let rest := callAll target xs ((call target x).after w)
    ((call target x).outcome w :: rest.1, rest.2)

theorem callAll_concat (target : Option Nat) (xs : List Value) (x : Value) (w : World) :
    callAll target (xs ++ [x]) w =
      ((callAll target xs w).1 ++ [(call target x).outcome (callAll target xs w).2],
        (call target x).after (callAll target xs w).2) := by
  induction xs generalizing w with
  | nil => rfl
  | cons y xs ih => simp only [List.cons_append, callAll, ih]

end Function

/-- Code keeps to what is captured. -/
theorem Function.apply_keepsTo {w : World} {hand : Multiset Piece} (hs : Config.Sound ⟨w, hand⟩)
    (hl : w.locks = []) {id : Nat} {code : Code} {captured : Value}
    (hw : w.Callable id code captured) (x : Value) :
    (apply code captured x).KeepsTo captured.Targets w := by
  rcases apply_cases code captured x with ⟨v, hv⟩ | ⟨e, he⟩ | ⟨total, k, rfl, rfl, hk⟩
  · rw [hv]
    exact .pure v
  · rw [he]
    exact .throw e
  · rw [hk]
    cases total with
    | none =>
      exact .of_reports (.error (.panic (.fatal .invalidMemory))) [.fatal .invalidMemory]
        (by simp [Event.isReport]) fun z => ⟨rfl, rfl⟩
    | some j =>
      obtain ⟨a, ha, hr, hc⟩ := hw
      have hat := hs.typed id a ha
      rw [hr, hc] at hat
      have hj : ⟨.cell, j⟩ ∈ (Value.handle .cell (some j)).handles := by simp [Value.handles]
      obtain ⟨b, hb, hkind⟩ := hs.closed hl id a ha ⟨.cell, j⟩ (hc ▸ hj)
      have hrole : b.role.content = .int .i64 := by rw [HasType.role_eq hat hb]; rfl
      have hbt := hs.typed j b hb
      rw [hrole] at hbt
      obtain ⟨n, hn, -⟩ := hbt.int_inv
      obtain ⟨new, y, hchange, hpieces, ht⟩ := addTo_spec (x := k) hbt
      exact .update hl ⟨_, hj, rfl⟩ hb hkind (by rw [hn]; rfl) hchange (hrole ▸ ht) hpieces

/-- A function stays what it is whatever is done to the captured state. -/
theorem World.Callable.touches {w u : World} {id : Nat} {code : Code} {captured : Value}
    (h : w.Callable id code captured) (ht : Touches captured.Targets w u) :
    u.Callable id code captured := by
  obtain ⟨a, ha, hr, rfl⟩ := h
  obtain ⟨b, hb, hrole, hc⟩ := ht.get?_owner ha
  exact ⟨b, hb, hrole.trans hr, hc⟩

theorem Store.SameAt.trans {s s' s'' : Store} {id : Nat} (h : s.SameAt s' id)
    (h' : s'.SameAt s'' id) : s.SameAt s'' id := by
  obtain ⟨a, b, ha, hb, hr, hc⟩ := h
  obtain ⟨b', c, hb', hc', hr', hcc⟩ := h'
  cases hb.symm.trans hb'
  exact ⟨a, c, ha, hc', hr'.trans hr, hcc.trans hc⟩

namespace Function

/-- The first state has the function, with the same captured state as the second one. -/
structure Agree (id : Nat) (code : Code) (captured : Value) (z u : World) : Prop where
  callable : z.Callable id code captured
  locks : z.locks = []
  same : ∀ h ∈ captured.handles, z.store.SameAt u.store h.target

variable {id : Nat} {code : Code} {captured : Value} {z u : World} {hand hand' : Multiset Piece}

/-- Where the captured states agree, an action that keeps to them has the same outcome, and they agree
again. -/
theorem Agree.keepsTo {α : Type} {act : Run α} (h : Agree id code captured z u)
    (hact : act.KeepsTo captured.Targets u) :
    act.outcome z = act.outcome u ∧ Agree id code captured (act.after z) (act.after u) := by
  obtain ⟨houtcome, htouches, hsame⟩ := hact.reads z h.locks fun j ⟨y, hy, hj⟩ => hj ▸ h.same y hy
  refine ⟨houtcome, h.callable.touches htouches, htouches.locks_eq.trans h.locks, fun y hy => ?_⟩
  exact hsame y.target ⟨y, hy, rfl⟩

theorem Agree.call (h : Agree id code captured z u) (hs : Config.Sound ⟨u, hand⟩) (hl : u.locks = [])
    (hu : u.Callable id code captured) (x : Value) :
    (call (some id) x).outcome u = (call (some id) x).outcome z ∧
      Agree id code captured ((call (some id) x).after z) ((call (some id) x).after u) := by
  obtain ⟨houtcome, hagree⟩ := h.keepsTo (apply_keepsTo hs hl hu x)
  rw [Run.outcome, Run.outcome, Run.after, Run.after, hu.call_eq, h.callable.call_eq]
  exact ⟨houtcome.symm, hagree⟩

/-- The captured state is the same after whatever has been added and given up, if the function is still
there. -/
theorem Agree.moves {u' : World} (h : u.Callable id code captured → Agree id code captured z u)
    (hm : Moves .shrink ⟨u, hand⟩ ⟨u', hand'⟩) (hs : Config.Sound ⟨u, hand⟩) (hl : u.locks = [])
    (hf : u.store.Fixed id (.callable code) captured) (hu' : u'.Callable id code captured) :
    Agree id code captured z u' := by
  obtain ⟨b, hb, -, hc⟩ := hu'
  obtain ⟨a, ha, -⟩ := hm.evolves.role_eq id hf.1 b hb
  obtain ⟨hra, hca⟩ := hf.2 a ha
  obtain ⟨hz, hlz, hsame⟩ := h ⟨a, ha, hra, hca⟩
  have hl' : u'.locks = [] := (hm.locks_eq (Scope.le_refl _)).trans hl
  refine ⟨hz, hlz, fun y hy => (hsame y hy).trans ?_⟩
  obtain ⟨d, hd, -⟩ := hs.closed hl id a ha y (hca ▸ hy)
  obtain ⟨d', hd', -⟩ := (hs.moves hm).closed hl' id b hb y (hc ▸ hy)
  exact ⟨d, d', hd, hd', (hm.fixed (Store.fixed_of_get? hd)).2 d' hd'⟩

end Function

end calling

namespace Function

section family

/-- A state in which a function is held by values in hand, and the calls that have been made, each with
its argument and its answer. -/
structure Family where
  world : World
  holders : List Holder
  calls : List (Value × Except Stop Value)

/-- What is done with the copies of a function: besides handling the values that hold it, one of them
is copied deeply, or the function in it is called. -/
inductive Deed : Family → Family → Prop where
  | handling {w u : World} {xs ys : List Holder} {calls : List (Value × Except Stop Value)}
    (h : Handling w xs u ys) : Deed ⟨w, xs, calls⟩ ⟨u, ys, calls⟩
  | deepCopy {w u : World} {xs : List Holder} {calls : List (Value × Except Stop Value)} {x : Holder}
    {c : Value} (hx : x ∈ xs) (hr : x.value.deepCopy w = .ok c u) :
    Deed ⟨w, xs, calls⟩ ⟨u, ⟨x.type, c, x.path⟩ :: xs, calls⟩
  | call {w : World} {xs : List Holder} {calls : List (Value × Except Stop Value)} {x : Holder}
    {id : Nat} (hx : x ∈ xs) (hf : x.Finds w.store ⟨.callable, id⟩) (argument : Value) :
    Deed ⟨w, xs, calls⟩ ⟨(call (some id) argument).after w, xs,
      calls ++ [(argument, (call (some id) argument).outcome w)]⟩

theorem Deed.call_ok {w u : World} {xs : List Holder} {calls : List (Value × Except Stop Value)}
    {x : Holder} {id : Nat} {argument answer : Value} (hx : x ∈ xs)
    (hf : x.Finds w.store ⟨.callable, id⟩)
    (hr : Function.call (some id) argument w = .ok answer u) :
    Deed ⟨w, xs, calls⟩ ⟨u, xs, calls ++ [(argument, .ok answer)]⟩ := by
  have h : Deed ⟨w, xs, calls⟩ _ := Deed.call hx hf argument
  rwa [Run.after, Run.outcome, hr] at h

/-- One deed after the other. -/
def History : Family → Family → Prop :=
  Relation.ReflTransGen Deed

/-- What holds of the holders all along: each of them has the function, whose captured state is given
up only when the function ends. -/
structure Stand (start : Config) (kept : Multiset Piece) (id : Nat) (code : Code) (captured : Value)
    (w : World) (xs : List Holder) : Prop where
  held : Held w xs kept
  fixed : w.store.Fixed id (.callable code) captured
  finds : ∀ x ∈ xs, x.Finds w.store ⟨.callable, id⟩
  ends : ∃ n, GivesUp id captured start n ⟨w, Holder.pieces xs + kept⟩

namespace Stand

variable {start : Config} {kept : Multiset Piece} {id : Nat} {code : Code} {captured : Value}
variable {w u : World} {xs ys : List Holder}

theorem callable (h : Stand start kept id code captured w xs) {x : Holder} (hx : x ∈ xs) :
    w.Callable id code captured := by
  obtain ⟨a, ha, -⟩ := h.held.alive_of_finds hx (h.finds x hx)
  exact ⟨a, ha, h.fixed.2 a ha⟩

/-- What is added and given up keeps the holders that stay. -/
theorem moves (h : Stand start kept id code captured w xs)
    (hm : Moves .shrink ⟨w, Holder.pieces xs + kept⟩ ⟨u, Holder.pieces ys + kept⟩)
    (hu : Held u ys kept) (hf : ∀ y ∈ ys, y.Finds u.store ⟨.callable, id⟩) :
    Stand start kept id code captured u ys where
  held := hu
  fixed := hm.fixed h.fixed
  finds := hf
  ends := by
    obtain ⟨n, hn⟩ := h.ends
    obtain ⟨m, hm', -⟩ := hn.moves h.held.sound h.fixed hm
    exact ⟨m, hm'⟩

/-- What is done to the captured state leaves the holders, and the function in each of them. -/
theorem touches (h : Stand start kept id code captured w xs) (hw : w.Callable id code captured)
    (ht : Touches captured.Targets w u) : Stand start kept id code captured u xs where
  held := h.held.touches ht
  fixed := by
    obtain ⟨a, ha, hr, hc⟩ := hw.touches ht
    exact hr ▸ hc ▸ Store.fixed_of_get? ha
  finds x hx := (h.held.touches ht).finds_of_steady ht.steady hx (h.finds x hx)
  ends := by
    obtain ⟨n, hn⟩ := h.ends
    exact ⟨n, hn.touches h.held.locks ht⟩

theorem call (h : Stand start kept id code captured w xs) (hw : w.Callable id code captured)
    (x : Value) : Stand start kept id code captured ((call (some id) x).after w) xs := by
  have ht := (apply_keepsTo h.held.sound h.held.locks hw x).writes
  rw [Run.after, hw.call_eq]
  exact h.touches hw ht

end Stand

/-- What holds of a family all along: beside the holders, the answers are those to the same calls made
one after the other at the start, and the captured state is what these calls leave. -/
structure Family.Keeps (start : Family) (kept : Multiset Piece) (id : Nat) (code : Code)
    (captured : Value) (σ : Family) : Prop where
  stand : Stand ⟨start.world, Holder.pieces start.holders + kept⟩ kept id code captured σ.world
    σ.holders
  answers : σ.calls.map Prod.snd = (callAll (some id) (σ.calls.map Prod.fst) start.world).1
  agree : σ.world.Callable id code captured →
    Agree id code captured (callAll (some id) (σ.calls.map Prod.fst) start.world).2 σ.world

namespace Family.Keeps

variable {start σ τ : Family} {kept : Multiset Piece} {id : Nat} {code : Code} {captured : Value}

theorem quiet (h : start.Keeps kept id code captured σ) {u : World} {ys : List Holder}
    (hm : Moves .shrink ⟨σ.world, Holder.pieces σ.holders + kept⟩ ⟨u, Holder.pieces ys + kept⟩)
    (hu : Held u ys kept) (hf : ∀ y ∈ ys, y.Finds u.store ⟨.callable, id⟩) :
    start.Keeps kept id code captured ⟨u, ys, σ.calls⟩ where
  stand := h.stand.moves hm hu hf
  answers := h.answers
  agree hu := Agree.moves h.agree hm h.stand.held.sound h.stand.held.locks h.stand.fixed hu

/-- A deep copy joins the holders. -/
theorem copied (h : start.Keeps kept id code captured σ) {x : Holder} (hx : x ∈ σ.holders)
    {c : Value} {u : World} (hr : x.value.deepCopy σ.world = .ok c u) :
    start.Keeps kept id code captured ⟨u, ⟨x.type, c, x.path⟩ :: σ.holders, σ.calls⟩ := by
  have hheld := h.stand.held
  obtain ⟨hm, hu⟩ := hheld.deepCopied hx hr
  refine h.quiet hm hu fun y hy => ?_
  rcases List.mem_cons.mp hy with rfl | hy
  · exact Value.sameFunctions_deepCopy hr _ _ (h.stand.finds x hx)
  · exact hheld.finds hm (List.mem_cons_of_mem _ hy) (h.stand.finds y hy)

theorem called (h : start.Keeps kept id code captured σ) {x : Holder} (hx : x ∈ σ.holders)
    (argument : Value) :
    start.Keeps kept id code captured ⟨(call (some id) argument).after σ.world, σ.holders,
      σ.calls ++ [(argument, (call (some id) argument).outcome σ.world)]⟩ := by
  have hcallable := h.stand.callable hx
  obtain ⟨houtcome, hagree⟩ :=
    (h.agree hcallable).call h.stand.held.sound h.stand.held.locks hcallable argument
  refine ⟨h.stand.call hcallable argument, ?_, fun _ => ?_⟩
  · simp only [List.map_append, List.map_cons, List.map_nil, callAll_concat, h.answers, houtcome]
  · simp only [List.map_append, List.map_cons, List.map_nil, callAll_concat]
    exact hagree

/-- One deed. -/
theorem deed (h : start.Keeps kept id code captured σ) (hd : Deed σ τ) :
    start.Keeps kept id code captured τ := by
  cases hd with
  | handling hd =>
    have hheld := h.stand.held
    refine h.quiet (hd.step hheld).1 (hd.held hheld) fun y hy => ?_
    obtain ⟨x, hx, hf⟩ := hd.finds hheld hy
    exact hf _ (h.stand.finds x hx)
  | deepCopy hx hr => exact h.copied hx hr
  | call hx hf argument =>
    cases (h.stand.finds _ hx).unique hf
    exact h.called hx argument

theorem history (h : start.Keeps kept id code captured σ) (hd : History σ τ) :
    start.Keeps kept id code captured τ := by
  induction hd with
  | refl => exact h
  | tail _ hd ih => exact ih.deed hd

end Family.Keeps

end family

end Function

/-- All copies of a function are one function. Whatever is done with copies of it, in hand or inside of
other values, they stay equal. The answers to calls, and the captured state after them, are those of
the same calls made one after the other at the start, whichever copy each call goes through. The
captured state is given up at most once, and it has been given up when no handle to the function is
left. A copy in hand can always be cloned, copied deeply, and stored and extracted. -/
theorem function_copies_are_one {w : World} {xs : List Holder} {kept : Multiset Piece} {id : Nat}
    {code : Code} {captured : Value} (hh : Held w xs kept) (hw : w.Callable id code captured)
    (hx : ∀ x ∈ xs, x.Finds w.store ⟨.callable, id⟩) {σ : Function.Family}
    (h : Function.History ⟨w, xs, []⟩ σ) :
    (∀ x ∈ σ.holders, x.Finds σ.world.store ⟨.callable, id⟩) ∧
    (∀ x ∈ σ.holders, ∀ y ∈ σ.holders, ∀ f g, σ.world.store.At (fun _ => true) x.value x.path f →
      σ.world.store.At (fun _ => true) y.value y.path g →
      f.equals g σ.world = .ok true σ.world) ∧
    σ.calls.map Prod.snd = (Function.callAll (some id) (σ.calls.map Prod.fst) w).1 ∧
    (∀ a, σ.world.store.get? id = some a → a.role = .callable code ∧ a.content = captured ∧
      ∀ y ∈ captured.handles, (Function.callAll (some id) (σ.calls.map Prod.fst) w).2.store.SameAt
        σ.world.store y.target) ∧
    (∃ n, GivesUp id captured ⟨w, Holder.pieces xs + kept⟩ n
        ⟨σ.world, Holder.pieces σ.holders + kept⟩ ∧
      n = (if σ.world.store.get? id = none then 1 else 0) ∧
      (σ.world.store.get? id = none ↔
        ∀ y, .handle y ∈ Config.total ⟨σ.world, Holder.pieces σ.holders + kept⟩ →
          y.target ≠ id)) ∧
    ∀ t, ⟨t, .handle .callable (some id), []⟩ ∈ σ.holders →
      (∃ u, (Value.handle .callable (some id)).clone σ.world =
        .ok (.handle .callable (some id)) u) ∧
      (∃ u, (Value.handle .callable (some id)).deepCopy σ.world =
        .ok (.handle .callable (some id)) u) ∧
      ∃ target u u', Erased.new t (.handle .callable (some id)) σ.world = .ok target u ∧
        Erased.extract target t u = .ok (.handle .callable (some id)) u' := by
  obtain ⟨a, ha, hr, rfl⟩ := hw
  have hstart : Function.Family.Keeps ⟨w, xs, []⟩ kept id code a.content ⟨w, xs, []⟩ :=
    { stand := ⟨hh, hr ▸ Store.fixed_of_get? ha, hx, 0, .start⟩
      answers := rfl
      agree := fun hw => ⟨hw, hh.locks, fun y hy => by
        obtain ⟨b, hb, -⟩ := hh.closed id a ha y hy
        exact ⟨b, b, hb, hb, rfl, rfl⟩⟩ }
  have hkeeps := hstart.history h
  have hheld := hkeeps.stand.held
  obtain ⟨n, hn⟩ := hkeeps.stand.ends
  refine ⟨hkeeps.stand.finds, ?_, hkeeps.answers, ?_, ⟨n, hn, hn.count (by simp [ha]), ?_, ?_⟩, ?_⟩
  · intro x hx y hy f g hf hg
    cases Store.At.unique (hkeeps.stand.finds x hx) hf
    cases Store.At.unique (hkeeps.stand.finds y hy) hg
    exact Value.handle_equals_self .callable (some id) σ.world
  · intro b hb
    obtain ⟨hr, hc⟩ := hkeeps.stand.fixed.2 b hb
    exact ⟨hr, hc, (hkeeps.agree ⟨b, hb, hr, hc⟩).same⟩
  · rintro hnone y hy rfl
    obtain ⟨b, hb, -⟩ := hheld.sound.counted.alive y hy
    cases hnone.symm.trans hb
  · intro hall
    by_contra hsome
    obtain ⟨b, hb⟩ := Option.ne_none_iff_exists'.mp hsome
    obtain ⟨y, hy, htarget⟩ := hheld.sound.counted.exists_handle hb
    exact hall y hy htarget
  · intro t ht
    have halive := hheld.alive ht ⟨.callable, id⟩ (by simp [Value.handles])
    refine ⟨Value.clone_handle halive, ?_, hheld.extract_ok ht (by decide)⟩
    rw [Value.deepCopy_function]
    exact Value.clone_handle halive

/-- A function that sums up in a cell, and a pair of it and of the cell. The pair is copied deeply, and
the function is called through the copy, which has a cell of its own beside it, and directly. -/
theorem function_copies_are_one_tally :
    let t : Ty := .tuple (.function .closure) (.tuple (.cell (.int .i64)) .unit)
    let steps : List Step :=
      [.define (some "n") (.cell (.int .i64)) (.record [("ref", .int 0)]),
        .define (some "f") (.function .closure)
          (.record [("fn", .text "tally"), ("total", .record [("$var", .text "n")])]),
        .define (some "p") t
          (.list [.record [("$var", .text "f")], .record [("$var", .text "n")]])]
    let w := Machine.after false steps
    let state := Value.handle .cell (some 0)
    let f : Holder := ⟨.function .closure, .handle .callable (some 1), []⟩
    let pair : Holder := ⟨t, .node .tuple [f.value, state], [0]⟩
    let xs := [f, pair]
    (Held w xs state.pieces ∧ w.Callable 1 .tally state ∧ ∀ x ∈ xs, x.Finds w.store ⟨.callable, 1⟩) ∧
    ∃ σ, Function.History ⟨w, xs, []⟩ σ ∧ σ.holders = [] ∧
      σ.calls = [(.int 5, .ok (.int 5)), (.int 7, .ok (.int 12))] ∧
      (Function.callAll (some 1) [.int 5, .int 7] w).1 = [.ok (.int 5), .ok (.int 12)] ∧
      GivesUp 1 state ⟨w, Holder.pieces xs + state.pieces⟩ 1 ⟨σ.world, state.pieces⟩ := by
  intro t steps w state f pair xs
  let copy : Holder := ⟨t, .node .tuple [f.value, .handle .cell (some 2)], [0]⟩
  let cell (n : Int) (shares : Nat) : Option Allocation := some ⟨.cell (.int .i64), .int n, shares⟩
  let tally (shares : Nat) : Option Allocation := some ⟨.callable .tally, state, shares⟩
  let world (entries : List (Option Allocation)) (more : List Birth) : World :=
    { store := ⟨entries.toArray⟩
      created := [.allocation 0 (.cell (.int .i64)), .allocation 1 (.callable .tally)] ++ more
      bindings := [("f", ⟨.function .closure, f.value⟩), ("n", ⟨.cell (.int .i64), state⟩),
        ("p", ⟨t, pair.value⟩)] }
  let third : List Birth := [.allocation 2 (.cell (.int .i64))]
  have hw : w = world [cell 0 3, tally 2] [] := by
    simp only [w, steps, world]
    cbv
  have hcopy : pair.value.deepCopy w = .ok copy.value (world [cell 0 3, tally 3, cell 0 1] third) := by
    rw [hw]
    cbv
  have h5 : Function.call (some 1) (.int 5) (world [cell 0 3, tally 3, cell 0 1] third) =
      .ok (.int 5) (world [cell 5 3, tally 3, cell 0 1] third) := by
    cbv
  have h7 : Function.call (some 1) (.int 7) (world [cell 5 3, tally 3, cell 0 1] third) =
      .ok (.int 12) (world [cell 12 3, tally 3, cell 0 1] third) := by
    cbv
  have hend : (((world [cell 12 3, tally 3, cell 0 1] third).release [f.value]).release
      [pair.value]).release [copy.value] = world [cell 12 1, none, none] third := by
    cbv
  have hsettled : w.Settled := Machine.settled_after false steps
  have howned : w.owned = Holder.pieces xs + state.pieces := by
    simp only [hw, World.owned, world, xs, Holder.pieces, List.map_cons, List.map_nil,
      Value.piecesOf_cons, Value.piecesOf_nil, add_zero]
    abel
  have hh : Held w xs state.pieces := by
    refine ⟨howned ▸ hsettled.sound, hsettled.locks, fun x hx => ?_⟩
    rcases List.mem_pair.mp hx with rfl | rfl
    · exact hsettled.sound.bound ("f", ⟨.function .closure, f.value⟩) (by simp [hw, world])
    · exact hsettled.sound.bound ("p", ⟨t, pair.value⟩) (by simp [hw, world])
  have hf : w.Callable 1 .tally state := hw ▸ ⟨_, rfl, rfl, rfl⟩
  have hx : ∀ x ∈ xs, x.Finds w.store ⟨.callable, 1⟩ := by
    intro x hx
    rcases List.mem_pair.mp hx with rfl | rfl
    · exact .here
    · exact .part rfl .here
  have h : Function.History ⟨w, xs, []⟩ ⟨world [cell 12 1, none, none] third, [],
      [(.int 5, .ok (.int 5)), (.int 7, .ok (.int 12))]⟩ := by
    rw [← hend]
    exact Relation.ReflTransGen.refl
      |>.tail (.deepCopy (x := pair) (by decide) hcopy)
      |>.tail (.call_ok (x := copy) (by decide) (.part rfl .here) h5)
      |>.tail (.call_ok (x := f) (by decide) .here h7)
      |>.tail (.handling (.drop (x := f) (by decide)))
      |>.tail (.handling (.drop (x := pair) (by decide)))
      |>.tail (.handling (.drop (x := copy) (by decide)))
  obtain ⟨-, -, hanswers, -, ⟨n, hends, rfl, -⟩, -⟩ :=
    function_copies_are_one hh hf hx h
  refine ⟨⟨hh, hf, hx⟩, _, h, rfl, rfl, hanswers.symm, ?_⟩
  have hgone : (world [cell 12 1, none, none] third).store.get? 1 = none := rfl
  rw [if_pos hgone] at hends
  simpa [Holder.pieces] using hends

end SharedValues
