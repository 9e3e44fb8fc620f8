import Mathlib
import SharedValues.Proofs.Publishing
import SharedValues.Proofs.Runs

/-!
Threads that ask one registry for tables of any types, in any interleaving. An atomic step is idle,
misses, answers with a table that is there, or publishes a new one; no other step touches the
registry. So the tables only grow at the end, no type gets two of them, and every answer is the one
table of its type. Between its miss and its entry a thread may be overtaken by others; the entry
looks again, which is all that the agreement rests on.
-/
namespace SharedValues.Registry

/-- The types of the published tables, in the order in which they were published. -/
def types (r : Registry) : List Ty :=
  r.tables.map (·.type)

/-- A table is numbered by its place, and no type has two tables. -/
structure Ordered (r : Registry) : Prop where
  numbered : r.tables.map (·.id) = List.range r.size
  distinct : r.types.Nodup

theorem mem_of_find? {r : Registry} {t : Ty} {table : Table} (h : r.find? t = some table) :
    table ∈ r.tables ∧ table.type = t :=
  ⟨List.mem_of_find?_eq_some h, type_of_find? h⟩

theorem find?_eq_none_iff {r : Registry} {t : Ty} : r.find? t = none ↔ t ∉ r.types := by
  simp only [find?, List.find?_eq_none, types, List.mem_map, not_exists, not_and, beq_iff_eq]

theorem size_types (r : Registry) : r.types.length = r.size := by
  simp [types, size]

namespace Ordered

variable {r : Registry}

theorem empty : Ordered {} := ⟨rfl, List.nodup_nil⟩

/-- The table of a type that has none goes to the end. -/
theorem publish (h : r.Ordered) {t : Ty} (ht : t ∉ r.types) :
    Ordered ⟨r.tables ++ [⟨r.size, t⟩]⟩ := by
  refine ⟨?_, ?_⟩
  · simp [h.numbered, size, List.range_succ]
  · simpa [types, List.nodup_append] using ⟨h.distinct, by simpa [types] using ht⟩

/-- Tables with one number are one table. -/
theorem eq_of_id (h : r.Ordered) {a b : Table} (ha : a ∈ r.tables) (hb : b ∈ r.tables)
    (he : a.id = b.id) : a = b := by
  have hn : (r.tables.map (·.id)).Nodup := by
    rw [h.numbered]
    exact List.nodup_range
  exact List.inj_on_of_nodup_map hn ha hb he

end Ordered

/-- What a thread has asked for, in order, and then what it has still to ask for. -/
def Thread.requests (t : Thread) : List Ty :=
  t.answers.reverse.map (·.1) ++ t.pending

/-- The number of steps after which a thread is done at the latest. -/
def Thread.work (t : Thread) : Nat :=
  2 * t.pending.length - if t.missed then 1 else 0

theorem Thread.work_done {t : Thread} {type : Ty} {rest : List Ty} (hp : t.pending = type :: rest)
    {answers : List (Ty × Table)} : (⟨rest, false, answers⟩ : Thread).work ≤ t.work - 1 := by
  simp only [work, hp, List.length_cons, Bool.false_eq_true, if_false]
  split <;> omega

namespace System

/-- Threads that each have their requests before them. -/
def start (r : Registry) (requests : List (List Ty)) : System :=
  { registry := r, threads := requests.map fun ts => { pending := ts } }

/-- The calls that have been completed, by any thread. -/
def calls (s : System) : List (Ty × Table) :=
  s.threads.flatMap (·.answers)

theorem mem_calls {s : System} {x : Ty × Table} : x ∈ s.calls ↔ ∃ t ∈ s.threads, x ∈ t.answers :=
  List.mem_flatMap

/-- What an atomic step can do. -/
inductive Atomic (i : Nat) : System → System → Prop where
  | idle (s : System) (h : ∀ t ∈ s.threads[i]?, t.pending = []) : Atomic i s s
  | miss {s : System} {t : Thread} {type : Ty} {rest : List Ty} (ht : s.threads[i]? = some t)
    (hp : t.pending = type :: rest) (hm : t.missed = false) :
    Atomic i s { s with threads := s.threads.set i { t with missed := true } }
  | answer {s : System} {t : Thread} {type : Ty} {rest : List Ty} {table : Table}
    (ht : s.threads[i]? = some t) (hp : t.pending = type :: rest)
    (hf : s.registry.find? type = some table) :
    Atomic i s { s with threads := s.threads.set i ⟨rest, false, (type, table) :: t.answers⟩ }
  | publish {s : System} {t : Thread} {type : Ty} {rest : List Ty} (ht : s.threads[i]? = some t)
    (hp : t.pending = type :: rest) (hf : s.registry.find? type = none) :
    Atomic i s
      { registry := ⟨s.registry.tables ++ [⟨s.registry.size, type⟩]⟩
        threads := s.threads.set i ⟨rest, false, (type, ⟨s.registry.size, type⟩) :: t.answers⟩
        published := s.published ++ [type] }

theorem atomic_step (s : System) (i : Nat) : Atomic i s (s.step i) := by
  unfold step
  cases ht : s.threads[i]? with
  | none => exact .idle s (by simp [ht])
  | some t =>
    dsimp only
    unfold advance
    split
    next hp => exact .idle s (by simp [ht, hp])
    next type rest hp =>
      cases hm : t.missed with
      | true =>
        cases hf : s.registry.find? type with
        | none => simpa [enter, hf] using Atomic.publish ht hp hf
        | some table => simpa [enter, hf] using Atomic.answer ht hp hf
      | false =>
        cases hf : s.registry.find? type with
        | none => simpa using Atomic.miss ht hp hm
        | some table => simpa using Atomic.answer ht hp hf

/-- What holds of threads that started with their requests on a registry. -/
structure Serves (r : Registry) (requests : List (List Ty)) (s : System) : Prop where
  ordered : s.registry.Ordered
  kept : r.tables <+: s.registry.tables
  types : s.registry.types = r.types ++ s.published
  requests : s.threads.map Thread.requests = requests
  answered : ∀ t ∈ s.threads, ∀ x ∈ t.answers, s.registry.find? x.1 = some x.2
  wanted : ∀ type ∈ s.published, ∃ table, (type, table) ∈ s.calls

theorem serves_start {r : Registry} (h : r.Ordered) (requests : List (List Ty)) :
    (start r requests).Serves r requests := by
  refine ⟨h, List.prefix_rfl, by simp [start], ?_, ?_, by simp [start]⟩
  · simp [start, Thread.requests, Function.comp_def]
  · simp [start]

section step

variable {r : Registry} {requests : List (List Ty)} {s s' : System} {i : Nat}

/-- A thread that changes keeps its requests, so the requests of all stay. -/
theorem map_requests_set {t u : Thread} (ht : s.threads[i]? = some t)
    (hu : u.requests = t.requests) :
    (s.threads.set i u).map Thread.requests = s.threads.map Thread.requests := by
  obtain ⟨hi, rfl⟩ := List.getElem?_eq_some_iff.mp ht
  have hi' : i < (s.threads.map Thread.requests).length := by simpa using hi
  have he : (s.threads.map Thread.requests)[i] = s.threads[i].requests := by simp
  rw [List.map_set, hu, ← he, List.set_getElem_self]

/-- Completed calls stay completed. -/
theorem Atomic.calls_subset (h : Atomic i s s') {x : Ty × Table} (hx : x ∈ s.calls) :
    x ∈ s'.calls := by
  obtain ⟨t, ht, hxt⟩ := mem_calls.mp hx
  have hset : ∀ {u v : Thread}, s.threads[i]? = some u → (∀ y ∈ u.answers, y ∈ v.answers) →
      ∃ y ∈ s.threads.set i v, x ∈ y.answers := by
    intro u v hu hv
    obtain ⟨j, hj, rfl⟩ := List.mem_iff_getElem.mp ht
    obtain ⟨hi, rfl⟩ := List.getElem?_eq_some_iff.mp hu
    by_cases e : i = j
    · subst e
      exact ⟨v, List.mem_set hi v, hv x hxt⟩
    · refine ⟨s.threads[j], ?_, hxt⟩
      rw [List.mem_iff_getElem]
      exact ⟨j, by simpa using hj, by rw [List.getElem_set_ne e]⟩
  cases h with
  | idle => exact hx
  | miss hu => exact mem_calls.mpr (hset hu fun _ hy => hy)
  | answer hu => exact mem_calls.mpr (hset hu fun _ hy => List.mem_cons_of_mem _ hy)
  | publish hu => exact mem_calls.mpr (hset hu fun _ hy => List.mem_cons_of_mem _ hy)

/-- The tables stay where they are. -/
theorem Atomic.tables_extend (h : Atomic i s s') : s.registry.tables <+: s'.registry.tables := by
  cases h with
  | publish => exact List.prefix_append _ _
  | _ => exact List.prefix_rfl

theorem find?_of_extend {q q' : Registry} (h : q.tables <+: q'.tables) {type : Ty} {table : Table}
    (hf : q.find? type = some table) : q'.find? type = some table := by
  obtain ⟨l, hl⟩ := h
  unfold find? at hf ⊢
  rw [← hl, List.find?_append, hf]
  rfl

/-- After a thread has changed, every answer is that of the table which is there. -/
theorem Serves.answered_set (h : s.Serves r requests) {q : Registry} {u : Thread}
    (hq : s.registry.tables <+: q.tables)
    (hu : ∀ x ∈ u.answers, q.find? x.1 = some x.2) :
    ∀ t ∈ s.threads.set i u, ∀ x ∈ t.answers, q.find? x.1 = some x.2 := by
  intro t ht x hx
  rcases List.mem_or_eq_of_mem_set ht with ht | rfl
  · exact find?_of_extend hq (h.answered t ht x hx)
  · exact hu x hx

theorem Serves.step (h : s.Serves r requests) (ha : Atomic i s s') : s'.Serves r requests := by
  have hwanted : ∀ type ∈ s.published, ∃ table, (type, table) ∈ s'.calls := by
    intro type ht
    obtain ⟨table, hc⟩ := h.wanted type ht
    exact ⟨table, ha.calls_subset hc⟩
  cases ha with
  | idle => exact h
  | @miss t type rest ht hp hm =>
    have hr : ({ t with missed := true } : Thread).requests = t.requests := rfl
    refine ⟨h.ordered, h.kept, h.types, (map_requests_set ht hr).trans h.requests, ?_, hwanted⟩
    exact h.answered_set List.prefix_rfl (h.answered t (List.mem_of_getElem? ht))
  | @answer t type rest table ht hp hf =>
    have hr : (⟨rest, false, (type, table) :: t.answers⟩ : Thread).requests = t.requests := by
      simp [Thread.requests, hp]
    refine ⟨h.ordered, h.kept, h.types, (map_requests_set ht hr).trans h.requests, ?_, hwanted⟩
    refine h.answered_set List.prefix_rfl fun x hx => ?_
    rcases List.mem_cons.mp hx with rfl | hx
    · exact hf
    · exact h.answered t (List.mem_of_getElem? ht) x hx
  | @publish t type rest ht hp hf =>
    have hnew : type ∉ s.registry.types := find?_eq_none_iff.mp hf
    have hr : (⟨rest, false, (type, ⟨s.registry.size, type⟩) :: t.answers⟩ : Thread).requests =
        t.requests := by
      simp [Thread.requests, hp]
    refine ⟨h.ordered.publish hnew, h.kept.trans (List.prefix_append _ _), ?_,
      (map_requests_set ht hr).trans h.requests, ?_, ?_⟩
    · have ht := h.types
      simp only [Registry.types] at ht
      simp [Registry.types, ht]
    · refine h.answered_set (List.prefix_append _ _) fun x hx => ?_
      rcases List.mem_cons.mp hx with rfl | hx
      · have hn : s.registry.tables.find? (·.type == type) = none := hf
        simp [find?, List.find?_append, hn]
      · exact find?_of_extend (List.prefix_append _ _)
          (h.answered t (List.mem_of_getElem? ht) x hx)
    · intro type' ht'
      rcases List.mem_append.mp ht' with ht' | ht'
      · exact hwanted type' ht'
      · obtain rfl := List.mem_singleton.mp ht'
        obtain ⟨hi, -⟩ := List.getElem?_eq_some_iff.mp ht
        exact ⟨_, mem_calls.mpr ⟨_, List.mem_set hi _, List.mem_cons_self⟩⟩

/-- A thread that moves comes closer to being done, and the others stay as they are. -/
theorem Atomic.work_le (h : Atomic i s s') {j : Nat} {t : Thread} (ht : s.threads[j]? = some t) :
    ∃ t', s'.threads[j]? = some t' ∧ t'.work ≤ t.work - if i = j then 1 else 0 := by
  have hset : ∀ {u v : Thread}, s.threads[i]? = some u → v.work ≤ u.work - 1 →
      ∃ t', (s.threads.set i v)[j]? = some t' ∧ t'.work ≤ t.work - if i = j then 1 else 0 := by
    intro u v hu hv
    by_cases e : i = j
    · subst e
      obtain rfl : u = t := Option.some.inj (hu.symm.trans ht)
      obtain ⟨hi, -⟩ := List.getElem?_eq_some_iff.mp hu
      exact ⟨v, List.getElem?_set_self hi, by simpa using hv⟩
    · exact ⟨t, by rw [List.getElem?_set_ne e, ht], by simp [e]⟩
  cases h with
  | idle hi =>
    refine ⟨t, ht, ?_⟩
    by_cases e : i = j
    · subst e
      simp [Thread.work, hi t ht]
    · simp [e]
  | miss hu hp hm => exact hset hu (by simp [Thread.work, hp, hm])
  | answer hu hp hf => exact hset hu (Thread.work_done hp)
  | publish hu hp hf => exact hset hu (Thread.work_done hp)

end step

section run

variable {r : Registry} {requests : List (List Ty)} {s : System}

theorem Serves.run (h : s.Serves r requests) (schedule : List Nat) :
    (s.run schedule).Serves r requests := by
  induction schedule generalizing s with
  | nil => exact h
  | cons i schedule ih => exact ih (h.step (atomic_step s i))

theorem calls_subset_run (s : System) (schedule : List Nat) {x : Ty × Table} (hx : x ∈ s.calls) :
    x ∈ (s.run schedule).calls := by
  induction schedule generalizing s with
  | nil => exact hx
  | cons i schedule ih => exact ih (s.step i) ((atomic_step s i).calls_subset hx)

theorem tables_extend_run (s : System) (schedule : List Nat) :
    s.registry.tables <+: (s.run schedule).registry.tables := by
  induction schedule generalizing s with
  | nil => exact List.prefix_rfl
  | cons i schedule ih => exact (atomic_step s i).tables_extend.trans (ih (s.step i))

theorem work_run_le (s : System) (schedule : List Nat) {i : Nat} {t : Thread}
    (ht : s.threads[i]? = some t) :
    ∃ t', (s.run schedule).threads[i]? = some t' ∧ t'.work ≤ t.work - schedule.count i := by
  induction schedule generalizing s t with
  | nil => exact ⟨t, ht, by simp⟩
  | cons j schedule ih =>
    obtain ⟨u, hu, hw⟩ := (atomic_step s j).work_le ht
    obtain ⟨v, hv, hw'⟩ := ih (s.step j) hu
    refine ⟨v, hv, ?_⟩
    by_cases e : j = i
    · subst e
      simp only [if_true] at hw
      rw [List.count_cons_self]
      omega
    · simp only [e, if_false] at hw
      rw [List.count_cons_of_ne e]
      omega

/-- Every thread has asked in order, and is done after two steps for each request. -/
theorem Serves.thread (h : s.Serves r requests) {i : Nat} {ts : List Ty}
    (hts : requests[i]? = some ts) : ∃ t, s.threads[i]? = some t ∧ t.requests = ts := by
  rw [← h.requests, List.getElem?_map] at hts
  obtain ⟨t, ht, e⟩ := Option.map_eq_some_iff.mp hts
  exact ⟨t, ht, e⟩

theorem pending_eq_nil_of_count {schedule : List Nat} {i : Nat} {ts : List Ty} {t : Thread}
    (hts : requests[i]? = some ts) (hc : 2 * ts.length ≤ schedule.count i)
    (ht : ((start r requests).run schedule).threads[i]? = some t) : t.pending = [] := by
  have hs : (start r requests).threads[i]? = some { pending := ts } := by
    simp [start, hts]
  obtain ⟨t', ht', hw⟩ := work_run_le (start r requests) schedule hs
  obtain rfl : t' = t := Option.some.inj (ht'.symm.trans ht)
  have h0 : 2 * t'.pending.length - (if t'.missed then 1 else 0) = 0 := by
    have : ({ pending := ts } : Thread).work = 2 * ts.length := by simp [Thread.work]
    rw [this] at hw
    unfold Thread.work at hw
    omega
  rw [← List.length_eq_zero_iff]
  split at h0 <;> omega

/-- The answer to a request is the table that stands in the registry. -/
theorem Serves.find?_of_call (h : s.Serves r requests) {x : Ty × Table} (hx : x ∈ s.calls) :
    s.registry.find? x.1 = some x.2 := by
  obtain ⟨t, ht, hxt⟩ := mem_calls.mp hx
  exact h.answered t ht x hxt

theorem Serves.id_ne (h : s.Serves r requests) {x y : Ty × Table} (hx : x ∈ s.calls)
    (hy : y ∈ s.calls) (hne : x.1 ≠ y.1) : x.2.id ≠ y.2.id := by
  obtain ⟨hmx, hx⟩ := mem_of_find? (h.find?_of_call hx)
  obtain ⟨hmy, hy⟩ := mem_of_find? (h.find?_of_call hy)
  intro he
  have := h.ordered.eq_of_id hmx hmy he
  exact hne (by rw [← hx, ← hy, this])

/-- A table is published for those types that are answered and had none. -/
theorem Serves.mem_published_iff (h : s.Serves r requests) {t : Ty} :
    t ∈ s.published ↔ r.find? t = none ∧ ∃ table, (t, table) ∈ s.calls := by
  have hd := h.ordered.distinct
  rw [h.types, List.nodup_append'] at hd
  constructor
  · intro ht
    exact ⟨find?_eq_none_iff.mpr fun hr => hd.2.2 hr ht, h.wanted t ht⟩
  · rintro ⟨hn, table, hc⟩
    obtain ⟨hm, he⟩ := mem_of_find? (h.find?_of_call hc)
    have ht : t ∈ s.registry.types := by
      rw [← show table.type = t from he]
      exact List.mem_map_of_mem hm
    rw [h.types] at ht
    exact (List.mem_append.mp ht).resolve_left (find?_eq_none_iff.mp hn)

end run

end System

/-- The registries that threads can reach, all together or in one group after the other. -/
inductive Reachable : Registry → Prop where
  | empty : Reachable {}
  | run {r : Registry} (hr : Reachable r) (requests : List (List Ty)) (schedule : List Nat) :
    Reachable ((System.start r requests).run schedule).registry

theorem Reachable.ordered {r : Registry} (h : r.Reachable) : r.Ordered := by
  induction h with
  | empty => exact .empty
  | run _ requests schedule ih => exact ((System.serves_start ih requests).run schedule).ordered

/-- A type that is asked for alone. -/
theorem Reachable.enter {r : Registry} (h : r.Reachable) {t : Ty} (ht : r.find? t = none) :
    (r.enter t).2.Reachable := by
  have he : ((System.start r [[t]]).run [0, 0]).registry = (r.enter t).2 := by
    simp [System.start, System.run, System.step, System.advance, ht, Registry.enter]
  exact he ▸ h.run [[t]] [0, 0]

/-- The registry of every state of a run is one that threads can reach. -/
theorem reachable_after (fresh : Bool) (steps : List Step) :
    (Machine.after fresh steps).registry.Reachable := by
  refine (Machine.leads_after fresh steps).1.invariant (P := fun c => c.world.registry.Reachable)
    ?_ .empty
  intro s c d _ hm hc
  cases hm with
  | publish t ht => exact hc.enter ht
  | @release w _ _ vs =>
    rw [(World.sameBut_release vs w).registry]
    exact hc
  | _ => exact hc

/-- Threads that start from a reachable registry, each with requests of its own, and move in any
order. At any time each has asked in order, and is done once it has moved twice for each request.
Every completed call stays completed; it has returned a table of the type asked for, which is the
same as that of any call for this type and another one than that of any call for another type, now
or later. Tables have been published once each, for the types that have been asked for and had none.
Tables stay where they are, and there are as many as types that have been published. -/
theorem one_table_per_type {r : Registry} (hr : r.Reachable) (requests : List (List Ty))
    (schedule later : List Nat) :
    let s := (System.start r requests).run schedule
    (∀ i ts, requests[i]? = some ts → ∃ t, s.threads[i]? = some t ∧ t.requests = ts ∧
      (2 * ts.length ≤ schedule.count i → t.pending = [])) ∧
    (∀ x ∈ s.calls, x.2.type = x.1 ∧ x ∈ (s.run later).calls ∧
      ∀ y ∈ (s.run later).calls, (x.1 = y.1 → x.2 = y.2) ∧ (x.1 ≠ y.1 → x.2.id ≠ y.2.id)) ∧
    (s.published.Nodup ∧
      ∀ t, t ∈ s.published ↔ r.find? t = none ∧ ∃ table, (t, table) ∈ s.calls) ∧
    (r.tables <+: s.registry.tables ∧ s.registry.tables <+: (s.run later).registry.tables ∧
      ∀ t table, s.registry.find? t = some table →
        (s.run later).registry.find? t = some table) ∧
    s.registry.size = (r.types ++ s.published).toFinset.card := by
  intro s
  have hs : s.Serves r requests := (System.serves_start hr.ordered requests).run schedule
  have hlater := hs.run later
  have hgrow := System.tables_extend_run s later
  have hd := hs.ordered.distinct
  have ht := hs.types
  refine ⟨?_, ?_, ⟨?_, fun t => hs.mem_published_iff⟩, ⟨hs.kept, hgrow, ?_⟩, ?_⟩
  · intro i ts hts
    obtain ⟨t, hi, e⟩ := hs.thread hts
    exact ⟨t, hi, e, fun hc => System.pending_eq_nil_of_count hts hc hi⟩
  · intro x hx
    have hx' := System.calls_subset_run s later hx
    refine ⟨(mem_of_find? (hs.find?_of_call hx)).2, hx', fun y hy => ⟨fun e => ?_, ?_⟩⟩
    · have h₁ := hlater.find?_of_call hx'
      rw [e, hlater.find?_of_call hy] at h₁
      exact (Option.some.inj h₁).symm
    · exact hlater.id_ne hx' hy
  · rw [ht, List.nodup_append'] at hd
    exact hd.2.1
  · intro t table hf
    exact System.find?_of_extend hgrow hf
  · rw [← ht, List.toFinset_card_of_nodup hd, size_types]

/-- Three threads miss the same type before one of them enters; the other type has been published
before. -/
theorem one_table_per_type_crossed :
    let r : Registry := ⟨[⟨0, .bool⟩]⟩
    let s := (System.start r [[.string, .bool], [.bool, .string], [.string]]).run [0, 2, 1, 1, 2, 0, 0]
    r.Reachable ∧
      s.calls = [(.bool, ⟨0, .bool⟩), (.string, ⟨1, .string⟩), (.bool, ⟨0, .bool⟩),
        (.string, ⟨1, .string⟩)] ∧
      s.published = [.string] ∧ s.registry.size = (r.types ++ s.published).toFinset.card ∧
      (s.run [1]).registry.find? .string = some ⟨1, .string⟩ := by
  intro r s
  have hr : r.Reachable := Reachable.enter .empty rfl
  have h := one_table_per_type hr [[.string, .bool], [.bool, .string], [.string]]
    [0, 2, 1, 1, 2, 0, 0] [1]
  exact ⟨hr, by decide, by decide, h.2.2.2.2, h.2.2.2.1.2.2 _ _ (by decide)⟩

end SharedValues.Registry
