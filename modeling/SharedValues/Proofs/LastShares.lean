import SharedValues.Proofs.ShareCounts

/-!
The end of slots. The record of a last share stands in the trace exactly once for every slot that
has ended, and never for one that is alive. Where it stands, the slot had one share left and the
run goes on by giving up the payload: the record is followed by the table's own and by the events
of that.
-/
namespace SharedValues

namespace World

section handles

variable {w : World} {k : HandleKind} {id : Nat} {a : Allocation} {rest : List Value}

theorem release_missing (hg : w.store.get? id = none) :
    w.release (.handle k (some id) :: rest) = w.release rest := by
  rw [release]
  split
  next => rfl
  next a ha => cases hg.symm.trans ha

theorem release_last (ha : w.store.get? id = some a) (h : a.shares ≤ 1) :
    w.release (.handle k (some id) :: rest) = (w.destroy id a).release (a.content :: rest) := by
  rw [release]
  split
  next hn => cases ha.symm.trans hn
  next b hb =>
    cases ha.symm.trans hb
    rw [if_pos h]

theorem release_share (ha : w.store.get? id = some a) (h : 1 < a.shares) :
    w.release (.handle k (some id) :: rest) =
      { w with store := w.store.put id { a with shares := a.shares - 1 } }.release rest := by
  rw [release]
  split
  next hn => cases ha.symm.trans hn
  next b hb =>
    cases ha.symm.trans hb
    rw [if_neg (by omega)]

end handles

theorem release_append (vs ws : List Value) (w : World) :
    w.release (vs ++ ws) = (w.release vs).release ws := by
  fun_induction World.release vs w with
  | case1 w => rfl
  | case2 s rest w ih => simpa [release] using ih
  | case3 p rest w ih => simpa [release] using ih
  | case4 k rest w ih => simpa [release] using ih
  | case5 k id rest w hg ih => rw [List.cons_append, release_missing hg, ih]
  | case6 k id rest w a ha h1 ih =>
    rw [List.cons_append] at ih ⊢
    rw [release_last ha h1, ih]
  | case7 k id rest w a ha h1 ih =>
    rw [List.cons_append, release_share ha (Nat.lt_of_not_le h1), ih]
  | case8 shape parts rest w ih =>
    rw [List.cons_append, release, ← ih, List.append_assoc]

theorem trace_destroy (w : World) (id : Nat) (a : Allocation) :
    w.trace <+: (w.destroy id a).trace := by
  unfold destroy
  split
  · exact List.prefix_append _ _
  · exact List.prefix_rfl

/-- Giving values up only adds to the trace. -/
theorem trace_release (vs : List Value) (w : World) : w.trace <+: (w.release vs).trace := by
  fun_induction World.release vs w with
  | case1 w => exact List.prefix_rfl
  | case2 s rest w ih => exact ih
  | case3 p rest w ih => exact (List.prefix_append w.trace [.dropped p]).trans ih
  | case4 k rest w ih => exact ih
  | case5 k id rest w hg ih => exact ih
  | case6 k id rest w a ha h1 ih => exact (trace_destroy w id a).trans ih
  | case7 k id rest w a ha h1 ih => exact ih
  | case8 shape parts rest w ih => exact ih

/-- The events of giving up a value. -/
def drops (w : World) (v : Value) : List Event :=
  (w.release [v]).trace.drop w.trace.length

theorem trace_release_one (w : World) (v : Value) :
    (w.release [v]).trace = w.trace ++ w.drops v :=
  (List.prefix_iff_eq_append.mp (trace_release [v] w)).symm

end World

/-- The smallest changes of a configuration: a move, or the loss of one piece. -/
def Change (c d : Config) : Prop :=
  (∃ s, Move s c d) ∨ Loss c d

/-- A run that is in the first configuration can come to the second. -/
def Passes : Config → Config → Prop :=
  Relation.ReflTransGen Change

namespace Passes

theorem refl {c : Config} : Passes c c := Relation.ReflTransGen.refl

theorem trans {c d e : Config} (h : Passes c d) (h' : Passes d e) : Passes c e :=
  Relation.ReflTransGen.trans h h'

theorem move {s : Scope} {c d : Config} (h : Move s c d) : Passes c d :=
  Relation.ReflTransGen.single (.inl ⟨s, h⟩)

theorem loss {c d : Config} (h : Loss c d) : Passes c d :=
  Relation.ReflTransGen.single (.inr h)

theorem moves {S : Scope} {c d : Config} (h : Moves S c d) : Passes c d :=
  Relation.ReflTransGen.mono (fun _ _ ⟨s, _, hm⟩ => .inl ⟨s, hm⟩) _ _ h

end Passes

theorem Move.trace_grows {s : Scope} {c d : Config} (h : Move s c d) :
    c.world.trace <+: d.world.trace := by
  cases h with
  | report | publish => exact List.prefix_append _ _
  | @release w _ _ vs => exact World.trace_release vs w
  | _ => exact List.prefix_rfl

theorem Loss.trace_grows {c d : Config} (h : Loss c d) : c.world.trace <+: d.world.trace := by
  cases h with
  | probe => exact List.prefix_append _ _
  | share => exact List.prefix_rfl
  | @last w _ _ _ id a => exact World.trace_destroy w id a

theorem Passes.trace_grows {c d : Config} (h : Passes c d) : c.world.trace <+: d.world.trace := by
  induction h with
  | refl => exact List.prefix_rfl
  | tail _ h ih =>
    rcases h with ⟨s, h⟩ | h
    · exact ih.trans h.trace_grows
    · exact ih.trans h.trace_grows

/-- The last share of a slot is about to be given up. -/
structure Config.AtLastShare (c : Config) (id : Nat) (a : Allocation) (rest : Multiset Piece) :
    Prop where
  alive : c.world.store.get? id = some a
  last : a.shares = 1
  hand : c.hand = {.handle ⟨.slot, id⟩} + rest

/-- On the way from one configuration to another, after the given events, the last share of the slot
is given up: its table is that of the given type, and the payload is given up next. -/
def LastShareBetween (start finish : Config) (before : List Event) (id : Nat) (t : Ty) : Prop :=
  ∃ c a rest table type, Passes start c ∧ c.world.trace = before ∧ c.AtLastShare id a rest ∧
    a.role = .slot table type ∧ table.type = t ∧
    Passes ⟨(c.world.destroy id a).release [a.content], rest⟩ finish

namespace LastShareBetween

variable {start mid finish : Config} {before : List Event} {id : Nat} {t : Ty}

theorem head (h : Passes start mid) (h' : LastShareBetween mid finish before id t) :
    LastShareBetween start finish before id t := by
  obtain ⟨c, a, rest, table, type, hp, hc⟩ := h'
  exact ⟨c, a, rest, table, type, h.trans hp, hc⟩

theorem tail (h : LastShareBetween start mid before id t) (h' : Passes mid finish) :
    LastShareBetween start finish before id t := by
  obtain ⟨c, a, rest, table, type, hp, hb, hl, hr, ht, hd⟩ := h
  exact ⟨c, a, rest, table, type, hp, hb, hl, hr, ht, hd.trans h'⟩

end LastShareBetween

/-- Two ways to divide a list, the first of which is not later. -/
theorem append_split {α : Type} {l more before after : List α} (h : l ++ more = before ++ after)
    (hl : l.length ≤ before.length) : ∃ x, before = l ++ x ∧ more = x ++ after := by
  rcases List.append_eq_append_iff.mp h with ⟨x, hb, hm⟩ | ⟨x, hb, hm⟩
  · exact ⟨x, hb, hm⟩
  · obtain rfl : x = [] := by
      rw [hb, List.length_append] at hl
      exact List.length_eq_zero_iff.mp (by omega)
    exact ⟨[], by simpa using hb.symm, by simpa using hm.symm⟩

theorem World.trace_destroy_slot (w : World) (id : Nat) {a : Allocation} {table : Table} {type : Ty}
    (hr : a.role = .slot table type) :
    (w.destroy id a).trace = w.trace ++ [.lastShare id table.type, .destroying table.type] := by
  simp [World.destroy, hr, World.recordAll]

/-- The record of a last share that the destruction of a slot begins with. -/
theorem lastShareBetween_last {w : World} {rest : List Value} {h : Multiset Piece} {k : HandleKind}
    {id' : Nat} {a : Allocation} (hs : Config.Sound ⟨w, {.handle ⟨k, id'⟩} + (Value.piecesOf rest + h)⟩)
    (ha : w.store.get? id' = some a) (h1 : a.shares ≤ 1) {before after : List Event} {id : Nat}
    {t : Ty}
    (he : ((w.destroy id' a).release (a.content :: rest)).trace = before ++ .lastShare id t :: after)
    (hl : w.trace.length ≤ before.length)
    (hlen : before.length < (w.destroy id' a).trace.length) :
    LastShareBetween ⟨w, {.handle ⟨k, id'⟩} + (Value.piecesOf rest + h)⟩
      ⟨(w.destroy id' a).release (a.content :: rest), h⟩ before id t := by
  obtain ⟨more, hm⟩ := World.trace_release (a.content :: rest) (w.destroy id' a)
  obtain ⟨b, hb, hk⟩ := hs.counted.alive ⟨k, id'⟩ (Config.mem_total_of_hand (by simp))
  obtain rfl : a = b := Option.some.inj (ha.symm.trans hb)
  cases hr : a.role with
  | slot table type =>
    have htr := World.trace_destroy_slot w id' hr
    rw [htr, List.append_assoc] at hm
    obtain ⟨x, rfl, hx⟩ := append_split (hm.trans he) hl
    match x with
    | [] =>
      simp only [List.nil_append, List.cons_append, List.cons.injEq, Event.lastShare.injEq] at hx
      obtain ⟨⟨rfl, rfl⟩, -⟩ := hx
      have hshares := hs.counted.shared id' a ha
      rw [hr] at hk
      obtain rfl : k = .slot := hk.symm
      refine ⟨_, a, _, table, type, .refl, (List.append_nil _).symm, ⟨ha, by omega, rfl⟩, hr, rfl,
        ?_⟩
      rw [show a.content :: rest = [a.content] ++ rest from rfl, World.release_append]
      exact .move (.release rfl)
    | [e] => simp at hx
    | e :: e' :: x =>
      simp only [htr, List.length_append, List.length_cons, List.length_nil] at hlen
      omega
  | _ =>
    have htr : (w.destroy id' a).trace = w.trace := by simp [World.destroy, hr]
    rw [htr] at hlen
    omega

/-- A record of a last share among the events of giving values up. -/
theorem lastShareBetween_release {vs : List Value} {w : World} {h : Multiset Piece}
    (hs : Config.Sound ⟨w, Value.piecesOf vs + h⟩) {before after : List Event} {id : Nat} {t : Ty}
    (he : (w.release vs).trace = before ++ .lastShare id t :: after)
    (hl : w.trace.length ≤ before.length) :
    LastShareBetween ⟨w, Value.piecesOf vs + h⟩ ⟨w.release vs, h⟩ before id t := by
  fun_induction World.release vs w with
  | case1 w =>
    rw [he, List.length_append, List.length_cons] at hl
    omega
  | case2 s rest w ih =>
    simp only [Value.piecesOf_cons, Value.pieces_scalar, zero_add] at hs ⊢
    exact ih hs he hl
  | case3 p rest w ih =>
    simp only [Value.piecesOf_cons, Value.pieces_probe, add_assoc] at hs ⊢
    have hloss : Loss ⟨w, {.probe p} + (Value.piecesOf rest + h)⟩ _ := .probe p rfl
    by_cases hlen : (w.record (.dropped p)).trace.length ≤ before.length
    · exact (ih (hs.loss hloss) he hlen).head (.loss hloss)
    · -- the record would be the drop of the probe
      obtain ⟨more, hm⟩ := World.trace_release rest (w.record (.dropped p))
      have hw : w.trace ++ (.dropped p :: more) = before ++ .lastShare id t :: after := by
        simpa [World.record] using hm.trans he
      obtain ⟨x, rfl, hx⟩ := append_split hw hl
      cases x with
      | nil => simp at hx
      | cons e x => simp [World.record] at hlen
  | case4 k rest w ih =>
    simp only [Value.piecesOf_cons, Value.pieces_none, zero_add] at hs ⊢
    exact ih hs he hl
  | case5 k id' rest w hg ih =>
    simp only [Value.piecesOf_cons, Value.pieces_some, add_assoc] at hs
    obtain ⟨a, ha, -⟩ := hs.counted.alive ⟨k, id'⟩ (Config.mem_total_of_hand (by simp))
    simp [hg] at ha
  | case6 k id' rest w a ha h1 ih =>
    simp only [Value.piecesOf_cons, Value.pieces_some, add_assoc] at hs ih ⊢
    have hloss : Loss ⟨w, {.handle ⟨k, id'⟩} + (Value.piecesOf rest + h)⟩ _ := .last ha h1 rfl
    by_cases hlen : (w.destroy id' a).trace.length ≤ before.length
    · exact (ih (hs.loss hloss) he hlen).head (.loss hloss)
    · exact lastShareBetween_last hs ha h1 he hl (by omega)
  | case7 k id' rest w a ha h1 ih =>
    simp only [Value.piecesOf_cons, Value.pieces_some, add_assoc] at hs ⊢
    have hloss : Loss ⟨w, {.handle ⟨k, id'⟩} + (Value.piecesOf rest + h)⟩ _ :=
      .share ha (Nat.lt_of_not_le h1) rfl
    exact (ih (hs.loss hloss) he hl).head (.loss hloss)
  | case8 shape parts rest w ih =>
    simp only [Value.piecesOf_cons, Value.pieces_node, Value.piecesOf_append] at hs ih ⊢
    exact ih hs he hl

/-- Only giving values up records a last share. -/
theorem Move.lastShareBetween {s : Scope} {c d : Config} (hm : Move s c d) (hs : c.Sound)
    {before after : List Event} {id : Nat} {t : Ty}
    (he : d.world.trace = before ++ .lastShare id t :: after)
    (hl : c.world.trace.length ≤ before.length) : LastShareBetween c d before id t := by
  -- one other event, or none, leaves no place for the record
  have absurd_of : ∀ es : List Event, (∀ e ∈ es, ∀ id, e.lastShareOf? id = none) →
      d.world.trace = c.world.trace ++ es → LastShareBetween c d before id t := by
    intro es hes hd
    obtain ⟨x, -, hx⟩ := append_split (hd.symm.trans he) hl
    have := hes (.lastShare id t) (by simp [hx]) id
    simp [Event.lastShareOf?] at this
  cases hm with
  | report e hr =>
    exact absurd_of [e] (by simpa using Event.lastShareOf?_report hr) rfl
  | publish t' ht =>
    exact absurd_of [.published t'] (by simp [Event.lastShareOf?]) rfl
  | release hh =>
    subst hh
    exact lastShareBetween_release hs he hl
  | _ => exact absurd_of [] (by simp) (List.append_nil _).symm

/-- Every record of a last share in the trace of a run stands where the last share went. -/
theorem lastShareBetween_of_moves {S : Scope} {c d : Config} (hm : Moves S c d) (hs : c.Sound)
    (hc : c.world.trace = []) {before after : List Event} {id : Nat} {t : Ty}
    (he : d.world.trace = before ++ .lastShare id t :: after) :
    LastShareBetween c d before id t := by
  induction hm generalizing after with
  | refl => simp [hc] at he
  | @tail d e hm h ih =>
    obtain ⟨s, -, h⟩ := h
    by_cases hl : d.world.trace.length ≤ before.length
    · exact (h.lastShareBetween (hs.moves hm) he hl).head (.moves hm)
    · obtain ⟨more, hmore⟩ := h.trace_grows
      have hlen : (before ++ [Event.lastShare id t]).length ≤ d.world.trace.length := by
        simp
        omega
      have he' : (before ++ [.lastShare id t]) ++ after = d.world.trace ++ more := by
        simpa using (hmore.trans he).symm
      obtain ⟨x, hx, -⟩ := append_split he' hlen
      exact (ih (by simpa using hx)).tail (.move h)

theorem Move.created_grows {s : Scope} {c d : Config} (h : Move s c d) :
    c.world.created <+: d.world.created := by
  cases h with
  | create | allocate => exact List.prefix_append _ _
  | @release w _ _ vs => exact (World.sameBut_release vs w).created ▸ List.prefix_rfl
  | _ => exact List.prefix_rfl

theorem Moves.created_grows {S : Scope} {c d : Config} (h : Moves S c d) :
    c.world.created <+: d.world.created :=
  h.invariant (P := fun e => c.world.created <+: e.world.created)
    (fun _ _ _ _ hm he => he.trans hm.created_grows) List.prefix_rfl

/-- Between two states of a run the end of an allocation is recorded exactly if it was alive at
first, or not born yet, and is not alive in the end. -/
theorem World.Recorded.between {w v : World} (hw : w.Recorded) (hv : v.Recorded)
    (hc : w.created <+: v.created) {events : List Event} (ht : v.trace = w.trace ++ events)
    {id : Nat} {r : Role} (hr : .allocation id r ∈ v.created) :
    events.filterMap (Event.lastShareOf? id) =
      if v.store.role? id = none ∧ (w.store.role? id ≠ none ∨ w.store.next ≤ id) then r.reported
      else [] := by
  have hl : v.lastShares id = w.lastShares id ++ events.filterMap (Event.lastShareOf? id) := by
    simp [lastShares, ht]
  have hend := hv.ended id r hr
  rw [hl] at hend
  by_cases hn : w.store.next ≤ id
  · rw [hw.unborn id hn, List.nil_append] at hend
    simp [hend, hn]
  · obtain ⟨r', hr'⟩ := hw.given id (by omega)
    obtain rfl : r' = r := hv.unique id r' r (hc.subset hr') hr
    rw [hw.ended id r' hr'] at hend
    by_cases ha : w.store.role? id = none
    · rw [if_pos ha] at hend
      have : events.filterMap (Event.lastShareOf? id) = [] := by
        split at hend
        · exact List.append_right_eq_self.mp hend
        · exact (List.append_eq_nil_iff.mp hend).2
      simp [this, ha, hn]
    · rw [if_neg ha, List.nil_append] at hend
      simp [hend, ha]

/-- What is in hand has not ended. -/
theorem Config.Chronicled.lastShares_eq_nil {c : Config} (hc : c.Chronicled) {h : Handle}
    (hh : .handle h ∈ c.hand) : c.world.lastShares h.target = [] := by
  obtain ⟨a, ha, -⟩ := hc.sound.counted.alive h (Config.mem_total_of_hand hh)
  have hr := Store.role?_of_get? ha
  rw [hc.recorded.ended _ _ (hc.recorded.alive _ _ hr), hr]
  simp

/-- The action, finished or abandoned, records no end of the slot. -/
def Run.Spares {α : Type} (act : Run α) (w : World) (id : Nat) : Prop :=
  (act.after w).lastShares id = w.lastShares id

theorem Accounts.spares {α : Type} {S : Scope} {act : Run α} {c : Config} {h : Handle}
    (ha : Accounts S act c (fun _ d => .handle h ∈ d.hand) fun d => .handle h ∈ d.hand)
    (hc : c.Chronicled) (hh : .handle h ∈ c.hand) : act.Spares c.world h.target := by
  have h₁ := ha hc.sound
  unfold Run.Spares Run.after
  rw [hc.lastShares_eq_nil hh]
  cases hr : act c.world with
  | ok a v =>
    rw [hr] at h₁
    obtain ⟨hand, hm, -, hv⟩ := h₁
    exact (hc.moves hm).lastShares_eq_nil hv
  | error e v =>
    rw [hr] at h₁
    obtain ⟨hand, hm, -, hv⟩ := h₁
    exact (hc.moves hm).lastShares_eq_nil hv

section sparing

variable {w : World} {x y : String} {current : Option Nat} {id : Nat}

theorem World.Holds.mem_owned {k : HandleKind} (h : w.Holds y k (some id)) :
    .handle ⟨k, id⟩ ∈ w.owned := by
  obtain ⟨t, hv⟩ := h
  exact Multiset.mem_of_le (find?_le_owned hv) (by simp)

theorem spares_clone (hc : Config.Chronicled ⟨w, w.owned⟩) (hy : w.Holds y .slot (some id)) :
    (Value.handle .slot (some id)).clone.Spares w id := by
  refine Accounts.spares (S := .grow) (h := ⟨.slot, id⟩) ?_ hc hy.mem_owned
  have hal := hc.sound.alive_of_holds (zero_add w.owned).symm hy
  refine (accounts_cloneHandle rfl hal).mono ?_ fun _ _ _ h => h
  rintro v d - - - ⟨-, hd⟩
  rw [hd]
  simp

theorem spares_adopt (hc : Config.Chronicled ⟨w, w.owned⟩) (hx : w.Holds x .slot current)
    (hy : w.Holds y .slot (some id)) :
    Run.Spares (do
      let copy ← (Value.handle .slot (some id)).clone
      Erased.set current .erased copy) w id := by
  refine Accounts.spares (S := .shrink) (h := ⟨.slot, id⟩) ?_ hc hy.mem_owned
  have hal := hc.sound.alive_of_holds (zero_add w.owned).symm hy
  obtain ⟨t, hx⟩ := hx
  obtain ⟨rest, hrest⟩ := Multiset.le_iff_exists_add.mp (World.find?_le_owned hx)
  refine .bind (accounts_cloneHandle hrest hal) ?_
  rintro _ d - - - ⟨rfl, hd⟩
  have hd' : d.hand = (Value.handle .slot current).pieces +
      ((Value.handle .slot (some id)).pieces + rest) := by
    rw [hd]
    abel
  refine (accounts_assignVia hd').mono ?_ fun _ _ _ h => h
  rintro _ e - - - ⟨-, he⟩
  rw [he]
  simp

/-- Extracting, successfully or not, keeps what is in hand. -/
theorem accounts_tryExtract (hc : Config.Chronicled ⟨w, w.owned⟩) (hl : w.locks = [])
    (hy : w.Holds y .slot (some id)) (type : Ty) :
    Accounts .grow (Erased.tryExtract (some id) type) ⟨w, w.owned⟩
      (fun _ d => .handle ⟨.slot, id⟩ ∈ d.hand) fun d => .handle ⟨.slot, id⟩ ∈ d.hand := by
  have hal := hc.sound.alive_of_holds (zero_add w.owned).symm hy
  refine Accounts.mono (extracts_erased hc.sound hl hal) ?_ fun d _ _ hd => ?_
  · rintro r d - - - ⟨hd, -⟩
    rw [hd]
    exact Multiset.mem_add.mpr (.inr hy.mem_owned)
  · rw [hd]
    exact hy.mem_owned

theorem spares_extract (hc : Config.Chronicled ⟨w, w.owned⟩) (hl : w.locks = [])
    (hy : w.Holds y .slot (some id)) (type : Ty) :
    (Erased.tryExtract (some id) type).Spares w id ∧ (Erased.extract (some id) type).Spares w id := by
  have h := accounts_tryExtract hc hl hy type
  refine ⟨h.spares hc hy.mem_owned, Accounts.spares (S := .grow) (h := ⟨.slot, id⟩) ?_ hc hy.mem_owned⟩
  refine .bind h fun r d _ _ _ hd => ?_
  cases r with
  | error e =>
    refine Accounts.mono (.fatal rfl) (fun _ _ _ _ _ h => h) fun _ _ _ h => ?_
    rw [h]
    exact hd
  | ok v => exact .pure hd

end sparing

/-- In every run, the end of a slot is recorded once, with the type that it was born with, and not
while it is alive. A step records it exactly if the slot is alive before it or is born in it, and is
not alive after it. Where the record stands, one share was left and was given up: the record of its
table follows at once, and then the events of giving up the payload. No handle that is held leads to
a slot whose end is recorded; and cloning a handle to a slot, assigning it to one that shares the
slot, adopting the slot, and extracting from it record no end of it. -/
theorem last_share_recorded_once (fresh : Bool) (steps : List Step) :
    let w := Machine.after fresh steps
    (∀ id table type, .allocation id (.slot table type) ∈ w.created →
      w.lastShares id = if w.store.get? id = none then [table.type] else []) ∧
    (∀ step, ∃ events, (Machine.next fresh w step).trace = w.trace ++ events ∧
      ∀ id table type, .allocation id (.slot table type) ∈ (Machine.next fresh w step).created →
        events.filterMap (Event.lastShareOf? id) =
          if (Machine.next fresh w step).store.get? id = none ∧
            (w.store.get? id ≠ none ∨ w.store.next ≤ id) then [table.type] else []) ∧
    (∀ before id t after, w.trace = before ++ .lastShare id t :: after →
      ∃ c a rest table type, Passes ⟨{}, 0⟩ c ∧ c.world.trace = before ∧ c.AtLastShare id a rest ∧
        a.role = .slot table type ∧ table.type = t ∧
        Passes ⟨(c.world.destroy id a).release [a.content], rest⟩ ⟨w, w.owned⟩ ∧
        ∃ later, after = .destroying t :: ((c.world.destroy id a).drops a.content ++ later)) ∧
    (∀ h ∈ w.handles, w.lastShares h.target = []) ∧
    ∀ x y current id, w.Holds x .slot current → w.Holds y .slot (some id) →
      (Value.handle .slot (some id)).clone.Spares w id ∧
      (Erased.assign (some id) (some id)).Spares w id ∧
      Run.Spares (do
        let copy ← (Value.handle .slot (some id)).clone
        Erased.set current .erased copy) w id ∧
      ∀ type, (Erased.tryExtract (some id) type).Spares w id ∧
        (Erased.extract (some id) type).Spares w id := by
  intro w
  obtain ⟨hm, hw⟩ : Moves .bind ⟨{}, 0⟩ ⟨w, w.owned⟩ ∧ w.Settled := Machine.leads_after fresh steps
  have hc : Config.Chronicled ⟨w, w.owned⟩ := Machine.chronicled_after fresh steps
  have hnone : ∀ (v : World) id, v.store.role? id = none ↔ v.store.get? id = none := by
    simp [Store.role?]
  refine ⟨fun id table type hb => ?_, fun step => ?_, fun before id t after he => ?_,
    fun h hh => ?_, fun x y current id hx hy => ?_⟩
  · simpa [hnone, Role.reported] using hc.recorded.ended id _ hb
  · obtain ⟨hm', -⟩ := Machine.leads_next fresh step hw
    obtain ⟨events, he⟩ := (Passes.moves hm').trace_grows
    refine ⟨events, he.symm, fun id table type hb => ?_⟩
    have := hc.recorded.between (hc.moves hm').recorded hm'.created_grows he.symm hb
    simpa [hnone, Role.reported] using this
  · have hs : Config.Sound ⟨{}, 0⟩ := World.settled_empty.sound
    obtain ⟨c, a, rest, table, type, hp, hb, hl, hr, ht, hd⟩ := lastShareBetween_of_moves hm hs rfl he
    refine ⟨c, a, rest, table, type, hp, hb, hl, hr, ht, hd, ?_⟩
    obtain ⟨later, hlater⟩ := hd.trace_grows
    refine ⟨later, ?_⟩
    rw [World.trace_release_one, World.trace_destroy_slot _ _ hr, he, hb, ht] at hlater
    simpa using hlater.symm
  · obtain ⟨a, ha, -⟩ := hw.alive_of_held hh
    have hr := Store.role?_of_get? ha
    rw [hc.recorded.ended _ _ (hc.recorded.alive _ _ hr), hr]
    simp
  · refine ⟨spares_clone hc hy, ?_, spares_adopt hc hx hy, spares_extract hc hw.locks hy⟩
    rw [Erased.assign, if_pos rfl]
    rfl

end SharedValues
