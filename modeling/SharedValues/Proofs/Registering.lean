import Mathlib
import SharedValues.Proofs.Erasure
import SharedValues.Proofs.Interleavings
import SharedValues.Proofs.Permissions

/-!
Which tables get published, and when. A run is a sequence of filings, in which a value is stored or
a table is asked for, with quiet stretches between them that publish nothing and make no slots. A
filing publishes the table of its type if no earlier filing had this type, and a store does so after
it has let go of what it overwrites.
-/
namespace SharedValues

def Event.published? : Event → Option Ty
  | .published type => some type
  | _ => none

/-- The type of a slot that comes into being. -/
def Birth.stored? : Birth → Option Ty
  | .allocation _ (.slot _ type) => some type
  | _ => none

/-- The types of the tables that have been published, as the trace tells. -/
def World.published (w : World) : List Ty :=
  w.trace.filterMap Event.published?

/-- The types of the slots that have come into being. -/
def World.stores (w : World) : List Ty :=
  w.created.filterMap Birth.stored?

/-- On the way between the two states nothing is published and no slot comes into being. -/
structure World.Quiet (w v : World) : Prop where
  registry : v.registry = w.registry
  trace : ∃ es, v.trace = w.trace ++ es ∧ ∀ e ∈ es, e.published? = none
  created : ∃ bs, v.created = w.created ++ bs ∧ ∀ b ∈ bs, b.stored? = none

namespace World.Quiet

variable {w u v : World}

theorem of_eq (hr : v.registry = w.registry) (ht : v.trace = w.trace) (hc : v.created = w.created) :
    w.Quiet v :=
  ⟨hr, ⟨[], by simp [ht], by simp⟩, ⟨[], by simp [hc], by simp⟩⟩

theorem trans (h : w.Quiet u) (h' : u.Quiet v) : w.Quiet v := by
  obtain ⟨es, he, hes⟩ := h.trace
  obtain ⟨es', he', hes'⟩ := h'.trace
  obtain ⟨bs, hb, hbs⟩ := h.created
  obtain ⟨bs', hb', hbs'⟩ := h'.created
  refine ⟨h'.registry.trans h.registry, ⟨es ++ es', by rw [he', he, List.append_assoc], ?_⟩,
    ⟨bs ++ bs', by rw [hb', hb, List.append_assoc], ?_⟩⟩
  · exact List.forall_mem_append.mpr ⟨hes, hes'⟩
  · exact List.forall_mem_append.mpr ⟨hbs, hbs'⟩

theorem recordAll (w : World) {es : List Event} (hes : ∀ e ∈ es, e.published? = none) :
    w.Quiet (w.recordAll es) :=
  ⟨rfl, ⟨es, rfl, hes⟩, ⟨[], by simp [World.recordAll], by simp⟩⟩

theorem create (w : World) {b : Birth} (hb : b.stored? = none) :
    w.Quiet { w with created := w.created ++ [b] } :=
  ⟨rfl, ⟨[], by simp, by simp⟩, ⟨[b], rfl, by simpa using hb⟩⟩

theorem destroy (w : World) (id : Nat) (a : Allocation) : w.Quiet (w.destroy id a) := by
  unfold World.destroy
  split
  · have h : w.Quiet { w with store := w.store.erase id } := of_eq rfl rfl rfl
    exact h.trans (recordAll _ (by simp [Event.published?]))
  · exact of_eq rfl rfl rfl

theorem release (vs : List Value) (w : World) : w.Quiet (w.release vs) := by
  fun_induction World.release vs w with
  | case1 w => exact of_eq rfl rfl rfl
  | case2 s rest w ih => exact ih
  | case3 p rest w ih =>
    have h : w.Quiet (w.record (.dropped p)) := recordAll w (by simp [Event.published?])
    exact h.trans ih
  | case4 k rest w ih => exact ih
  | case5 k id rest w hg ih => exact ih
  | case6 k id rest w a ha h1 ih => exact (destroy w id a).trans ih
  | case7 k id rest w a ha h1 ih =>
    have h : w.Quiet { w with store := w.store.put id { a with shares := a.shares - 1 } } :=
      of_eq rfl rfl rfl
    exact h.trans ih
  | case8 shape parts rest w ih => exact ih

theorem permissive : Permissive World.Quiet where
  refl _ := of_eq rfl rfl rfl
  trans h h' := h.trans h'
  report w e he := by
    refine recordAll w ?_
    cases e <;> simp_all [Event.isReport, Event.published?]
  create w _ := create w rfl
  retain _ := of_eq rfl rfl rfl
  release w vs := release vs w
  bind _ _ := of_eq rfl rfl rfl
  store _ _ := of_eq rfl rfl rfl
  locks _ _ := of_eq rfl rfl rfl
  allocate w role hk content := by
    have h : w.Quiet { w with store := w.store.push ⟨role, content, 1⟩ } := of_eq rfl rfl rfl
    refine h.trans (create _ ?_)
    cases role with
    | slot table type => exact absurd rfl hk
    | _ => rfl

theorem published_eq (h : w.Quiet v) : v.published = w.published := by
  obtain ⟨es, he, hes⟩ := h.trace
  rw [World.published, he, List.filterMap_append, List.filterMap_eq_nil_iff.mpr hes,
    List.append_nil, World.published]

theorem stores_eq (h : w.Quiet v) : v.stores = w.stores := by
  obtain ⟨bs, hb, hbs⟩ := h.created
  rw [World.stores, hb, List.filterMap_append, List.filterMap_eq_nil_iff.mpr hbs, List.append_nil,
    World.stores]

end World.Quiet

/-- What needs the table of a type: a value is stored in place of what a handle holds, or the table
is asked for directly. -/
inductive Filing where
  | store (current : Option Nat) (type : Ty) (value : Value)
  | ask (type : Ty)

namespace Filing

def type : Filing → Ty
  | .store _ type _ => type
  | .ask type => type

def stored? : Filing → Option Ty
  | .store _ type _ => some type
  | .ask _ => none

def asked? : Filing → Option Ty
  | .store .. => none
  | .ask type => some type

/-- The state after the filing. -/
def perform (w : World) : Filing → World
  | .store current type value => (Erased.set current type value).after w
  | .ask type => (Run.tableFor type).after w

/-- The trace when what is overwritten has been let go. -/
def cleared (w : World) : Filing → List Event
  | .store current _ _ => (w.release [.handle .slot current]).trace
  | .ask _ => w.trace

/-- Storing an erased value shares its slot, and no table is needed. -/
def Adopts : Filing → Prop
  | .store _ type value => type = .erased ∧ ∃ source, value = .handle .slot source
  | .ask _ => False

end Filing

section filing

/-- The state after the table of a type has been asked for. -/
def World.file (w : World) (t : Ty) : World :=
  if t ∈ w.registry.types then w
  else { w with registry := (w.registry.enter t).2 }.record (.published t)

theorem Run.tableFor_after (t : Ty) (w : World) : (Run.tableFor t).after w = w.file t := by
  unfold World.file
  cases hf : w.registry.find? t with
  | some table =>
    have ht : t ∈ w.registry.types := by
      by_contra hn
      rw [Registry.find?_eq_none_iff.mpr hn] at hf
      cases hf
    rw [if_pos ht, Run.after_of_ok (Run.tableFor_of_some hf)]
  | none =>
    rw [if_neg (Registry.find?_eq_none_iff.mp hf), Run.after_of_ok (Run.tableFor_of_none hf)]

theorem Registry.tables_enter {r : Registry} {t : Ty} (ht : t ∉ r.types) :
    (r.enter t).2.tables = r.tables ++ [⟨r.size, t⟩] := by
  rw [Registry.enter, Registry.find?_eq_none_iff.mpr ht]

/-- The trace of a filing begins with what is let go; a new type is entered and reported. -/
structure Filing.Effect (f : Filing) (w v : World) : Prop where
  trace : v.trace = f.cleared w ++ if f.type ∈ w.registry.types then [] else [.published f.type]
  types : v.registry.types =
    w.registry.types ++ if f.type ∈ w.registry.types then [] else [f.type]
  tables : w.registry.tables <+: v.registry.tables
  stores : v.stores = w.stores ++ f.stored?.toList

theorem Filing.effect_ask (t : Ty) (w : World) : (Filing.ask t).Effect w (w.file t) := by
  unfold World.file
  by_cases ht : t ∈ w.registry.types
  · rw [if_pos ht]
    exact ⟨by simp [cleared, type, ht], by simp [type, ht], List.prefix_rfl,
      by simp [stored?]⟩
  · rw [if_neg ht]
    have htables := Registry.tables_enter ht
    refine ⟨by simp [cleared, type, ht, World.record], ?_, ?_,
      by simp [stored?, World.stores, World.record]⟩
    · rw [type, if_neg ht]
      simp [World.record, Registry.types, htables]
    · simp [World.record, htables]

theorem Filing.effect_store {t : Ty} {v : Value} (current : Option Nat)
    (hf : ¬(Filing.store current t v).Adopts) (w : World) :
    (Filing.store current t v).Effect w ((Erased.set current t v).after w) := by
  have hset : Erased.set current t v = (do
      Run.drop [.handle .slot current]
      let table ← Run.tableFor t
      let id ← Run.allocate (.slot table t) v
      pure (some id)) := by
    unfold Erased.set
    split
    · exact absurd ⟨rfl, _, rfl⟩ hf
    · rfl
  let u := w.release [.handle .slot current]
  have hq : w.Quiet u := .release _ w
  have hdrop : Run.drop [.handle .slot current] w = .ok () u := rfl
  obtain ⟨table, u', htable, -⟩ := Run.tableFor_ok t u
  have hu : u' = u.file t := by
    rw [← Run.tableFor_after, Run.after_of_ok htable]
  have he : (Erased.set current t v).after w = (u.file t).allocate (.slot table t) v := by
    rw [hset, Run.after_bind_of_ok hdrop, Run.after_bind_of_ok htable, hu]
    rfl
  have h := Filing.effect_ask t u
  rw [he]
  refine ⟨?_, ?_, ?_, ?_⟩
  · have ht := h.trace
    rw [hq.registry] at ht
    exact ht
  · have ht := h.types
    rw [hq.registry] at ht
    exact ht
  · have ht := h.tables
    rw [hq.registry] at ht
    exact ht
  · have hs := h.stores
    rw [hq.stores_eq] at hs
    simp only [World.stores, World.allocate, List.filterMap_append, stored?] at hs ⊢
    rw [hs]
    simp [Birth.stored?]

theorem Filing.effect {f : Filing} (hf : ¬f.Adopts) (w : World) : f.Effect w (f.perform w) := by
  cases f with
  | store current t v => exact Filing.effect_store current hf w
  | ask t =>
    rw [Filing.perform, Run.tableFor_after]
    exact Filing.effect_ask t w

/-- From one state to another by the filings, one after the other, and quietly between them. -/
inductive World.Passes : World → List Filing → World → Prop where
  | quiet {w v : World} (h : w.Quiet v) : Passes w [] v
  | next {w u v : World} {f : Filing} {fs : List Filing} (h : w.Quiet u) (hf : ¬f.Adopts)
    (rest : Passes (f.perform u) fs v) : Passes w (f :: fs) v

namespace World.Passes

variable {w u v : World} {fs gs : List Filing}

theorem head (h : w.Quiet u) (h' : u.Passes fs v) : w.Passes fs v := by
  cases h' with
  | quiet hq => exact .quiet (h.trans hq)
  | next hq hf rest => exact .next (h.trans hq) hf rest

theorem append (h : w.Passes fs u) (h' : u.Passes gs v) : w.Passes (fs ++ gs) v := by
  induction h with
  | quiet hq => exact h'.head hq
  | next hq hf _ ih => exact .next hq hf (ih h')

/-- The run can be cut at every filing. -/
theorem split {f : Filing} (h : w.Passes (fs ++ f :: gs) v) :
    ∃ u, w.Passes fs u ∧ ¬f.Adopts ∧ (f.perform u).Passes gs v := by
  induction fs generalizing w with
  | nil =>
    cases h with
    | next hq hf rest => exact ⟨_, .quiet hq, hf, rest⟩
  | cons g fs ih =>
    cases h with
    | next hq hg rest =>
      obtain ⟨u, hu, hf, hv⟩ := ih rest
      exact ⟨u, .next hq hg hu, hf, hv⟩

theorem stores_eq (h : w.Passes fs v) : v.stores = w.stores ++ fs.filterMap Filing.stored? := by
  induction h with
  | quiet hq => rw [hq.stores_eq, List.filterMap_nil, List.append_nil]
  | @next w u v f fs hq hf _ ih =>
    rw [ih, (Filing.effect hf u).stores, hq.stores_eq, List.append_assoc]
    cases f with
    | store => simp [Filing.stored?]
    | ask => rw [List.filterMap_cons_none rfl, Filing.stored?, Option.toList_none, List.nil_append]

theorem tables (h : w.Passes fs v) : w.registry.tables <+: v.registry.tables := by
  induction h with
  | quiet hq => rw [hq.registry]
  | @next w u v f fs hq hf _ ih =>
    have he := (Filing.effect hf u).tables
    rw [hq.registry] at he
    exact he.trans ih

theorem trace (h : w.Passes fs v) : w.trace <+: v.trace := by
  induction h with
  | quiet hq =>
    obtain ⟨es, he, -⟩ := hq.trace
    exact ⟨es, he.symm⟩
  | @next w u v f fs hq hf _ ih =>
    obtain ⟨es, he, -⟩ := hq.trace
    have hu : u.trace <+: f.cleared u := by
      cases f with
      | store current t v => exact World.trace_release [.handle .slot current] u
      | ask t => exact List.prefix_rfl
    have hf : u.trace <+: (f.perform u).trace := by
      rw [(Filing.effect hf u).trace]
      exact hu.trans (List.prefix_append _ _)
    exact (List.prefix_append w.trace es).trans (he ▸ hf.trans ih)

/-- The types in the registry are those of the filings, each where it came first. -/
theorem types_eq (h : w.Passes fs v) {ts : List Ty} (hw : w.registry.types = ts.eraseDups) :
    v.registry.types = (ts ++ fs.map Filing.type).eraseDups := by
  induction h generalizing ts with
  | quiet hq => rw [hq.registry, hw, List.map_nil, List.append_nil]
  | @next w u v f fs hq hf _ ih =>
    have hu : (f.perform u).registry.types = (ts ++ [f.type]).eraseDups := by
      rw [(Filing.effect hf u).types, hq.registry, hw, List.eraseDups_append]
      by_cases ht : f.type ∈ ts
      · simp [ht, List.removeAll]
      · simp [ht, List.removeAll, List.eraseDups_cons]
    rw [ih hu, List.map_cons, List.append_assoc, List.singleton_append]

theorem types_of_start (h : World.Passes {} fs v) :
    v.registry.types = (fs.map Filing.type).eraseDups := by
  have hstart : ({} : World).registry.types = ([] : List Ty).eraseDups := rfl
  rw [h.types_eq hstart, List.nil_append]

/-- What the trace reports is what is in the registry. -/
theorem published_eq (h : w.Passes fs v) (hw : w.published = w.registry.types) :
    v.published = v.registry.types := by
  induction h with
  | quiet hq => rw [hq.published_eq, hq.registry, hw]
  | @next w u v f fs hq hf _ ih =>
    refine ih ?_
    have he := Filing.effect hf u
    have hcleared : (f.cleared u).filterMap Event.published? = u.published := by
      cases f with
      | store current t v => exact (World.Quiet.release [.handle .slot current] u).published_eq
      | ask t => rfl
    rw [World.published, he.trace, he.types, List.filterMap_append, hcleared, hq.published_eq, hw,
      hq.registry]
    congr 1
    split
    · rfl
    · rfl

end World.Passes

end filing

section steps

open Machine

/-- From one state to another by storing values, and quietly otherwise. -/
def World.Builds (w v : World) : Prop :=
  ∃ fs, w.Passes fs v ∧ fs.filterMap Filing.asked? = []

theorem World.Quiet.builds {w v : World} (h : w.Quiet v) : w.Builds v := ⟨[], .quiet h, rfl⟩

theorem World.Builds.receptive : Receptive World.Builds where
  refl w := (World.Quiet.permissive.refl w).builds
  trans := by
    rintro w u v ⟨fs, hfs, hf⟩ ⟨gs, hgs, hg⟩
    exact ⟨fs ++ gs, hfs.append hgs, by rw [List.filterMap_append, hf, hg, List.append_nil]⟩
  report w _ he := (World.Quiet.permissive.report w he).builds
  create w p := (World.Quiet.permissive.create w p).builds
  retain ha := (World.Quiet.permissive.retain ha).builds
  release w vs := (World.Quiet.permissive.release w vs).builds
  bind w bs := (World.Quiet.permissive.bind w bs).builds
  store w s := (World.Quiet.permissive.store w s).builds
  locks w ids := (World.Quiet.permissive.locks w ids).builds
  allocate w _ hk content := (World.Quiet.permissive.allocate w hk content).builds
  set current t v w := by
    by_cases hf : (Filing.store current t v).Adopts
    · obtain ⟨rfl, source, rfl⟩ := hf
      exact (within_adopt World.Quiet.permissive.toLenient current source w).builds
    · exact ⟨[.store current t v], .next (.of_eq rfl rfl rfl) hf (.quiet (.of_eq rfl rfl rfl)), rfl⟩

namespace Registry

variable {s : System} {i : Nat} {t : Ty}

/-- A thread that does not move stays as it is. -/
theorem System.Atomic.thread_eq {s' : System} {j : Nat} (h : System.Atomic j s s') (hj : j ≠ i) :
    s'.threads[i]? = s.threads[i]? := by
  cases h with
  | idle => rfl
  | miss | answer | publish => exact List.getElem?_set_ne hj

theorem threads_run_of_not_mem (s : System) {schedule : List Nat} (hi : i ∉ schedule) :
    (s.run schedule).threads[i]? = s.threads[i]? := by
  induction schedule generalizing s with
  | nil => rfl
  | cons j schedule ih =>
    have hj : j ≠ i := fun e => hi (by simp [e])
    have hstep := (System.atomic_step s j).thread_eq hj
    exact (ih (s.step j) fun hm => hi (by simp [hm])).trans hstep

/-- A thread that has one type to ask for is done after two moves. -/
theorem find?_of_moves (h : s.threads[i]? = some { pending := [t] }) :
    ((s.step i).step i).registry.find? t ≠ none := by
  cases hf : s.registry.find? t with
  | some table =>
    have hgrow := System.tables_extend_run s [i, i]
    have hfound := System.find?_of_extend hgrow hf
    have hfound' : ((s.step i).step i).registry.find? t = some table := hfound
    rw [hfound']
    exact Option.some_ne_none table
  | none =>
    have hi : i < s.threads.length := (List.getElem?_eq_some_iff.mp h).1
    have hfirst : s.step i = { s with threads := s.threads.set i ⟨[t], true, []⟩ } := by
      rw [System.step, h]
      simp [System.advance, hf]
    have hthread : (s.threads.set i ⟨[t], true, []⟩)[i]? = some ⟨[t], true, []⟩ :=
      List.getElem?_set_self hi
    rw [hfirst, System.step, hthread]
    simp [System.advance, find?_enter_self]

/-- The caller of a race moves last, so the table is there in the end. -/
theorem find?_race (r : Registry) (t : Ty) (threads : Nat) :
    (r.race t threads).registry.find? t ≠ none := by
  unfold race
  dsimp only
  rw [System.run, List.foldl_append]
  refine find?_of_moves ?_
  refine (threads_run_of_not_mem _ (by simp)).trans ?_
  simp

end Registry

/-- A race for a table has the effect of asking for it once. -/
theorem Machine.race_eq (t : Ty) (threads : Nat) (w : World) :
    let system := w.registry.race t threads
    { w with registry := system.registry }.recordAll (system.published.map .published) =
      w.file t := by
  intro system
  rcases (Registry.asks_race w.registry t threads).published with ⟨er, ep⟩ | ⟨hn, er, ep⟩
  · have hfound := Registry.find?_race w.registry t threads
    rw [er] at hfound
    have ht : t ∈ w.registry.types := by
      by_contra hn
      exact hfound (Registry.find?_eq_none_iff.mpr hn)
    rw [World.file, if_pos ht, show system.registry = _ from er, show system.published = _ from ep]
    simp [World.recordAll]
  · rw [World.file, if_neg (Registry.find?_eq_none_iff.mp hn), show system.registry = _ from er,
      show system.published = _ from ep]
    rfl

/-- The type whose table a step asks for, if it gets that far. -/
def Machine.asked? (fresh : Bool) (w : World) : Step → Option Ty
  | .race t count => if ((perform fresh (.race t count)).outcome w).isOk then some t else none
  | _ => none

theorem Machine.asked?_of_error {fresh : Bool} {w u : World} {t : Ty} {count : Option Datum}
    {e : Stop} (h : perform fresh (.race t count) w = .error e u) : asked? fresh w (.race t count) = none := by
  simp [asked?, Run.outcome, h, Except.isOk, Except.toBool]

theorem Machine.asked?_of_ok {fresh : Bool} {w u : World} {t : Ty} {count : Option Datum}
    {r : Result} (h : perform fresh (.race t count) w = .ok r u) : asked? fresh w (.race t count) = some t := by
  simp [asked?, Run.outcome, h, Except.isOk, Except.toBool]

theorem Machine.passes_race (fresh : Bool) (w : World) (t : Ty) (count : Option Datum) :
    ∃ fs, w.Passes fs (next fresh w (.race t count)) ∧
      fs.filterMap Filing.asked? = (asked? fresh w (.race t count)).toList := by
  have hq := within_readNat World.Quiet.permissive.toLenient .usize count w
  cases hread : Reader.readNat .usize count w with
  | error e u =>
    rw [Run.after_of_error hread] at hq
    have hstep : perform fresh (.race t count) w = .error e u := Run.bind_of_error hread
    rw [next, Run.after_of_error hstep, asked?_of_error hstep]
    exact ⟨[], .quiet hq, rfl⟩
  | ok n u =>
    rw [Run.after_of_ok hread] at hq
    have hrace : perform fresh (.race t count) w = race t n u := Run.bind_of_ok hread
    cases hr : t.renders with
    | false =>
      have hstep : perform fresh (.race t count) w = .error .refused u := by
        rw [hrace, race, hr]
        rfl
      rw [next, Run.after_of_error hstep, asked?_of_error hstep]
      exact ⟨[], .quiet hq, rfl⟩
    | true =>
      have hstep : ∃ r, perform fresh (.race t count) w = .ok r (u.file t) := by
        rw [← Machine.race_eq t n u, hrace, race, hr]
        exact ⟨_, rfl⟩
      obtain ⟨r, hstep⟩ := hstep
      rw [next, Run.after_of_ok hstep, asked?_of_ok hstep]
      refine ⟨[.ask t], .next hq (fun h => h) (.quiet ?_), rfl⟩
      rw [Filing.perform, Run.tableFor_after]
      exact .of_eq rfl rfl rfl

/-- A step stores values and asks for at most one table directly. -/
theorem Machine.passes_next (fresh : Bool) (w : World) (step : Step) :
    ∃ fs, w.Passes fs (next fresh w step) ∧
      fs.filterMap Filing.asked? = (asked? fresh w step).toList := by
  by_cases hstep : ∃ t count, step = .race t count
  · obtain ⟨t, count, rfl⟩ := hstep
    exact passes_race fresh w t count
  · obtain ⟨fs, hfs, hf⟩ := within_perform World.Builds.receptive fresh
      (fun t count he => hstep ⟨t, count, he⟩) w
    refine ⟨fs, hfs, hf.trans ?_⟩
    cases step with
    | race t count => exact absurd ⟨t, count, rfl⟩ hstep
    | _ => rfl

/-- The filings of a run, step by step. -/
inductive Machine.Files (fresh : Bool) : List Step → List Filing → Prop where
  | nil : Files fresh [] []
  | step {steps : List Step} {fs gs : List Filing} (h : Files fresh steps fs) (step : Step)
    (hp : (after fresh steps).Passes gs (after fresh (steps ++ [step])))
    (ha : gs.filterMap Filing.asked? = (asked? fresh (after fresh steps) step).toList) :
    Files fresh (steps ++ [step]) (fs ++ gs)

theorem Machine.exists_files (fresh : Bool) (steps : List Step) : ∃ fs, Files fresh steps fs := by
  induction steps using List.reverseRecOn with
  | nil => exact ⟨[], .nil⟩
  | append_singleton steps step ih =>
    obtain ⟨fs, hfs⟩ := ih
    obtain ⟨gs, hp, ha⟩ := passes_next fresh (after fresh steps) step
    rw [← after_concat] at hp
    exact ⟨fs ++ gs, hfs.step step hp ha⟩

theorem Machine.Files.passes {fresh : Bool} {steps : List Step} {fs : List Filing}
    (h : Files fresh steps fs) : World.Passes {} fs (after fresh steps) := by
  induction h with
  | nil => exact .quiet (.of_eq rfl rfl rfl)
  | step _ _ hp _ ih => exact ih.append hp

/-- The filings of a step stand between those of the steps before it and those of the steps after
it. -/
theorem Machine.Files.at_step {fresh : Bool} {steps before later : List Step} {step : Step}
    {fs : List Filing} (h : Files fresh steps fs) (hs : steps = before ++ step :: later) :
    ∃ earlier own rest, fs = earlier ++ own ++ rest ∧ Files fresh before earlier ∧
      (after fresh before).Passes own (after fresh (before ++ [step])) ∧
      own.filterMap Filing.asked? = (asked? fresh (after fresh before) step).toList := by
  induction h generalizing later with
  | nil => simp at hs
  | @step steps fs gs hfs last hp ha ih =>
    rcases List.eq_nil_or_concat' later with rfl | ⟨later, y, rfl⟩
    · obtain ⟨rfl, hlast⟩ := List.append_inj' hs rfl
      obtain rfl := List.singleton_inj.mp hlast
      exact ⟨fs, gs, [], by rw [List.append_nil], hfs, hp, ha⟩
    · rw [← List.cons_append, ← List.append_assoc] at hs
      obtain ⟨hsteps, -⟩ := List.append_inj' hs rfl
      obtain ⟨earlier, own, rest, rfl, hearlier, hown, hasked⟩ := ih hsteps
      exact ⟨earlier, own, rest ++ gs, by rw [List.append_assoc], hearlier, hown, hasked⟩

/-- The tables that are asked for directly are asked for by steps. -/
theorem Machine.Files.mem_asked {fresh : Bool} {steps : List Step} {fs : List Filing}
    (h : Files fresh steps fs) {t : Ty} :
    t ∈ fs.filterMap Filing.asked? ↔ ∃ before step later, steps = before ++ step :: later ∧
      asked? fresh (after fresh before) step = some t := by
  constructor
  · intro ht
    induction h with
    | nil => simp at ht
    | @step steps fs gs _ step _ ha ih =>
      rw [List.filterMap_append, List.mem_append, ha, Option.mem_toList] at ht
      rcases ht with ht | ht
      · obtain ⟨before, x, later, rfl, hx⟩ := ih ht
        exact ⟨before, x, later ++ [step], by simp, hx⟩
      · exact ⟨steps, step, [], rfl, ht⟩
  · rintro ⟨before, step, later, hs, ht⟩
    obtain ⟨earlier, own, rest, rfl, -, -, hasked⟩ := h.at_step hs
    have hown : t ∈ own.filterMap Filing.asked? := by simp [hasked, ht]
    simp [List.filterMap_append, hown]

/-- The type of the value that a step stores. -/
def Step.stored? : Step → Option Ty
  | .new _ type _ | .set _ type _ => some type
  | _ => none

/-- Storing a value of another type than that of erased values makes a slot of the type. -/
theorem Erased.stores_set {current target : Option Nat} {t : Ty} {v : Value} {w u : World}
    (ht : t ≠ .erased) (h : Erased.set current t v w = .ok target u) : u.stores = w.stores ++ [t] := by
  have heffect := Filing.effect_store current (t := t) (v := v) (fun hf => ht hf.1) w
  rw [Run.after_of_ok h] at heffect
  exact heffect.stores

/-- The last slot that a finished step makes is that of the value which it stores. -/
theorem Machine.stores_of_ok {fresh : Bool} {w u : World} {step : Step} {t : Ty} {answer : Result}
    (hstep : step.stored? = some t) (ht : t ≠ .erased) (h : perform fresh step w = .ok answer u) :
    ∃ ts, u.stores = w.stores ++ (ts ++ [t]) := by
  have hL := World.Quiet.permissive.toLenient
  have hread : ∀ {d : Datum} {v : Value} {z : World}, Reader.read t d w = .ok v z →
      ∃ ts, z.stores = w.stores ++ ts := by
    intro d v z hz
    obtain ⟨fs, hfs, -⟩ := within_read World.Builds.receptive t d w
    rw [Run.after_of_ok hz] at hfs
    exact ⟨_, hfs.stores_eq⟩
  have hquiet : ∀ {α : Type} {act : Run α} {a : α} {z z' : World}, Run.Within World.Quiet act →
      act z = .ok a z' → z'.stores = z.stores := by
    intro α act a z z' hact hz
    have hq := hact z
    rw [Run.after_of_ok hz] at hq
    exact hq.stores_eq
  cases step with
  | new target type value =>
    cases hstep
    obtain ⟨_, _, hrequire, hnew⟩ := Run.exists_of_bind_ok h
    obtain rfl := Run.require_inv hrequire
    obtain ⟨v, z, hz, hnew⟩ := Run.exists_of_bind_ok hnew
    obtain ⟨slot, z', hset, hdeliver⟩ := Run.exists_of_bind_ok hnew
    obtain ⟨ts, hts⟩ := hread hz
    refine ⟨ts, ?_⟩
    rw [hquiet (within_deliver hL _ _ _) hdeliver, Erased.stores_set ht hset, hts, List.append_assoc]
  | set var type value =>
    cases hstep
    obtain ⟨_, _, hrequire, hrest⟩ := Run.exists_of_bind_ok h
    obtain rfl := Run.require_inv hrequire
    obtain ⟨v, z, hz, hrest⟩ := Run.exists_of_bind_ok hrest
    obtain ⟨current, z', hlookup, hrest⟩ := Run.exists_of_bind_ok hrest
    obtain ⟨slot, z'', hset, hbind⟩ := Run.exists_of_bind_ok hrest
    obtain ⟨ts, hts⟩ := hread hz
    refine ⟨ts, ?_⟩
    have hlast := hquiet (.bind hL (.of_observes hL (.orRefuse var)) fun name =>
      .bind hL (.bindVariable hL name _ _) fun _ => .pure hL _) hbind
    have hfound := hquiet (.of_observes hL (observes_lookupErased var))
      (Run.ok_of_unwinding hlookup)
    rw [hlast, Erased.stores_set ht hset, hfound, hts, List.append_assoc]
  | _ => cases hstep

/-- A finished step has filed the value that it stores. -/
theorem Machine.Files.stored_at_step {fresh : Bool} {steps before later : List Step} {step : Step}
    {fs : List Filing} {t : Ty} {answer : Result} {u : World} (h : Files fresh steps fs)
    (hs : steps = before ++ step :: later) (hstep : step.stored? = some t) (ht : t ≠ .erased)
    (hok : perform fresh step (after fresh before) = .ok answer u) :
    ∃ earlier own rest, fs = earlier ++ own ++ rest ∧ Files fresh before earlier ∧
      Files fresh (before ++ [step]) (earlier ++ own) ∧
      ∃ current value, .store current t value ∈ own := by
  obtain ⟨earlier, own, rest, rfl, hearlier, hown, hasked⟩ := h.at_step hs
  obtain ⟨ts, hts⟩ := stores_of_ok hstep ht hok
  have hu : after fresh (before ++ [step]) = u := by
    rw [after_concat, next, Run.after_of_ok hok]
  have hstores := hown.stores_eq
  rw [hu, hts, List.append_cancel_left_eq] at hstores
  have hmem : t ∈ own.filterMap Filing.stored? := by simp [← hstores]
  obtain ⟨f, hf, hft⟩ := List.mem_filterMap.mp hmem
  refine ⟨earlier, own, rest, rfl, hearlier, hearlier.step step hown hasked, ?_⟩
  cases f with
  | store current type value =>
    cases hft
    exact ⟨current, value, hf⟩
  | ask => cases hft

theorem Filing.mem_types {fs : List Filing} {t : Ty} :
    t ∈ fs.map Filing.type ↔ t ∈ fs.filterMap Filing.stored? ∨ t ∈ fs.filterMap Filing.asked? := by
  simp only [List.mem_map, List.mem_filterMap]
  constructor
  · rintro ⟨f, hf, rfl⟩
    cases f with
    | store => exact .inl ⟨_, hf, rfl⟩
    | ask => exact .inr ⟨_, hf, rfl⟩
  · rintro (⟨f, hf, he⟩ | ⟨f, hf, he⟩)
    · cases f with
      | store => exact ⟨_, hf, Option.some.inj he⟩
      | ask => cases he
    · cases f with
      | store => cases he
      | ask => exact ⟨_, hf, Option.some.inj he⟩

/-- No slot is of the type of erased values. -/
theorem Machine.erased_not_mem_stores (fresh : Bool) (steps : List Step) :
    .erased ∉ (after fresh steps).stores := by
  refine (leads_after fresh steps).1.invariant (P := fun c => .erased ∉ c.world.stores) ?_ (by
    simp [World.stores])
  intro S c d _ hm hc
  have hquiet : ∀ {v : World}, c.world.Quiet v → .erased ∉ v.stores := fun h => h.stores_eq ▸ hc
  cases hm with
  | @allocate w _ _ role content hr =>
    cases role with
    | slot table type =>
      have hs : (w.allocate (.slot table type) content).stores = w.stores ++ [type] := by
        simp [World.stores, World.allocate, Birth.stored?]
      rw [hs, List.mem_append, List.mem_singleton]
      exact fun h => h.elim hc fun he => hr.2 he.symm
    | cell | object | callable =>
      exact hquiet (World.Quiet.permissive.allocate w (by simp [Role.kind]) content)
  | create p => exact hquiet (.create _ rfl)
  | @release w _ _ vs => exact hquiet (.release vs w)
  | _ => exact hc

end steps

/-- Calls publish nothing, and neither does what hands slots around or gives them up. -/
theorem Call.quiet (call : Call) : Run.Within World.Quiet call.run := by
  have hP := World.Quiet.permissive
  have hL := hP.toLenient
  have hignore : ∀ {α : Type} {act : Run α}, Run.Within World.Quiet act →
      Run.Within World.Quiet act.ignore := fun h => .bind hL h fun _ => .pure hL _
  cases call with
  | clone v => exact hignore (within_clone hL v)
  | deepCopy v => exact hignore (within_deepCopy hP v)
  | equals v u => exact hignore (.of_observes hL (observes_equals v u))
  | render v out => exact hignore (.of_observes hL (observes_render v out))
  | toText v => exact hignore (.of_observes hL (observes_toText v))
  | tryExtract target t => exact hignore (within_erasedTryExtract hL target t)
  | extract target t => exact hignore (within_erasedExtract hL target t)
  | equalsValue target t v => exact hignore (.of_observes hL (observes_equalsValue target t v))
  | cellGet target => exact hignore (within_cellGet hL target)
  | cellPut target content => exact within_put hP target content
  | objectGet target => exact hignore (.of_observes hL (observes_objectGet target))
  | objectTryExtract target t => exact hignore (within_objectTryExtract hL target t)
  | objectExtract target t => exact hignore (within_objectExtract hL target t)
  | functionGet target => exact hignore (.of_observes hL (observes_functionGet target))

/-- The registry holds the types of the slots that have come into being, which are never of the type
of erased values, and the types whose tables steps have asked for. A run is a sequence of filings,
step by step, and publishes nothing between them; the stores among them are those slots, and a
finished step that stores a value of another type has a filing for it. The registry has the types of the filings, each once and in the order in which they came first, and so
does the trace report them. Any filing reports its type if it is not in the registry, that is, if no
earlier filing had it, and a store does so after all that is reported of what it overwrites.
Published tables stay where they are. Handing slots around, giving them up and looking at them
publishes nothing. -/
theorem registry_records_stores (fresh : Bool) (steps : List Step) :
    let w := Machine.after fresh steps
    (∀ t, t ∈ w.registry.types ↔ t ∈ w.stores ∨ ∃ before step later,
      steps = before ++ step :: later ∧
        Machine.asked? fresh (Machine.after fresh before) step = some t) ∧
    .erased ∉ w.stores ∧
    (∃ filings, Machine.Files fresh steps filings ∧ filings.filterMap Filing.stored? = w.stores ∧
      w.registry.types = (filings.map Filing.type).eraseDups ∧
      w.published = w.registry.types ∧ w.registry.types.Nodup ∧
      (∀ before step later t answer u, steps = before ++ step :: later → step.stored? = some t →
        t ≠ .erased → Machine.perform fresh step (Machine.after fresh before) = .ok answer u →
        ∃ earlier own rest, filings = earlier ++ own ++ rest ∧ Machine.Files fresh before earlier ∧
          Machine.Files fresh (before ++ [step]) (earlier ++ own) ∧
          ∃ current value, .store current t value ∈ own) ∧
      ∀ before f later, filings = before ++ f :: later →
        ¬f.Adopts ∧ ∃ u, World.Passes {} before u ∧ World.Passes (f.perform u) later w ∧
          (f.perform u).trace <+: w.trace ∧
          (f.type ∈ u.registry.types ↔ f.type ∈ before.map Filing.type)) ∧
    (∀ (f : Filing) (u : World), ¬f.Adopts → (f.perform u).trace = f.cleared u ++
      if f.type ∈ u.registry.types then [] else [.published f.type]) ∧
    (∀ more, w.registry.tables <+: (Machine.after fresh (steps ++ more)).registry.tables) ∧
    (∀ call : Call, Run.Within World.Quiet call.run) ∧
    ∀ current source t vs,
      Run.Within World.Quiet (Erased.set current .erased (.handle .slot source)) ∧
      Run.Within World.Quiet (Erased.assign current source) ∧
      Run.Within World.Quiet (Erased.clear current) ∧ Run.Within World.Quiet (Run.drop vs) ∧
      Run.Within World.Quiet (Erased.isType current t) ∧
      Run.Within World.Quiet (Erased.type? current) := by
  intro w
  obtain ⟨filings, hfiles⟩ := Machine.exists_files fresh steps
  have hp := hfiles.passes
  have hstores : filings.filterMap Filing.stored? = w.stores := hp.stores_eq.symm
  have hL := World.Quiet.permissive.toLenient
  refine ⟨fun t => ?_, Machine.erased_not_mem_stores fresh steps,
    ⟨filings, hfiles, hstores, hp.types_of_start, hp.published_eq rfl,
      (Registry.reachable_after fresh steps).ordered.distinct,
      fun before step later t answer u hs hstep ht hok => hfiles.stored_at_step hs hstep ht hok, ?_⟩,
    fun f u hf => (Filing.effect hf u).trace, fun more => ?_, Call.quiet,
    fun current source t vs => ⟨within_adopt hL current source, within_assign hL current source,
      .drop hL _, .drop hL vs, .of_observes hL (observes_isType current t),
      .of_observes hL (observes_erasedType? current)⟩⟩
  · rw [hp.types_of_start, List.mem_eraseDups, Filing.mem_types, hstores, hfiles.mem_asked]
  · rintro before f later rfl
    obtain ⟨u, hu, hf, hlater⟩ := hp.split
    refine ⟨hf, u, hu, hlater, hlater.trace, ?_⟩
    rw [hu.types_of_start, List.mem_eraseDups]
  · induction more using List.reverseRecOn with
    | nil => rw [List.append_nil]
    | append_singleton more step ih =>
      rw [← List.append_assoc, Machine.after_concat]
      obtain ⟨fs, hfs, -⟩ := Machine.passes_next fresh (Machine.after fresh (steps ++ more)) step
      exact ih.trans hfs.tables

/-- The old probe is gone before the new type is published, and storing one again publishes nothing.
-/
example :
    (Machine.after false [.new (some "a") .probe (.int 5), .set (some "a") .bool (.bool true),
      .set (some "a") .probe (.int 6)]).trace =
    [.published .probe, .lastShare 0 .probe, .destroying .probe, .dropped ⟨5, none⟩,
      .published .bool, .lastShare 1 .bool, .destroying .bool] := by
  cbv

end SharedValues
