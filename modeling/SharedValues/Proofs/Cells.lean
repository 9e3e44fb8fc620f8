import SharedValues.Proofs.Building

/-!
Changing what a cell holds. While a cell is locked, whoever has locked it holds its content in hand
and the lock holds the handle; afterwards the handle is in hand again, and the content is back in
its place, changed or, if the change was abandoned, as it was.
-/
namespace SharedValues

theorem HasType.role_eq {s : Store} {elem : Ty} {id : Nat} {a : Allocation}
    (h : HasType s (.cell elem) (.handle .cell (some id))) (ha : s.get? id = some a) :
    a.role = .cell elem := by
  obtain ⟨t, ht, -, hp⟩ := h
  cases ht
  have hr := (hp id rfl).2 a ha
  cases hk : a.role with
  | cell elem' =>
    rw [hk] at hr
    simp only [Ty.admits, decide_eq_true_eq] at hr
    rw [hr]
  | _ => simp [hk, Ty.admits] at hr

theorem accounts_address {S : Scope} {target : Option Nat} {c : Config} {kept : Multiset Piece}
    (h : c.hand = kept) :
    Accounts S (Cell.address target) c
      (fun id d => d = c ∧ target = some id ∧ id ∉ c.world.locks) (fun d => d.hand = kept) := by
  cases target with
  | none => exact .fatal h
  | some id =>
    unfold Cell.address
    refine .bind (Q := fun w d => d = c ∧ w = c.world) (.get ⟨rfl, rfl⟩) ?_
    rintro w _ - - - ⟨rfl, rfl⟩
    split
    next => exact .bind (Q := fun _ _ => False) (.throw h) nofun
    next hl => exact .pure ⟨rfl, rfl, hl⟩

/-- The content of an allocation that is not locked is replaced by something in hand. -/
theorem accounts_exchange {S : Scope} {c : Config} {id : Nat} {a : Allocation} {content : Value}
    {r : Multiset Piece} {err : Config → Prop} (hS : Scope.write ≤ S)
    (ha : c.world.store.get? id = some a) (hk : a.role.kind ≠ .slot) (hl : id ∉ c.world.locks)
    (hc : HasType c.world.store a.role.content content)
    (hh : c.hand + a.content.pieces = content.pieces + r) :
    Accounts S (Run.write id { a with content }) c (fun _ d => d.hand = r) err := by
  intro _
  refine ⟨r, .one hS (.exchange ha hk hl hc hh), ⟨rfl, fun other ho b hb => ⟨b, ?_, rfl⟩⟩, rfl⟩
  have hne : other ≠ id := fun e => hl (e ▸ ho)
  rw [← hb]
  exact Store.get?_put_other _ _ hne

/-- Putting a value into a cell gives up what the cell held. -/
theorem turns_put (elem : Ty) (target : Option Nat) (content : Value) :
    Turns .write ((Value.handle .cell target).pieces + content.pieces)
      (fun s => HasType s (.cell elem) (.handle .cell target) ∧ HasType s elem content)
      (Cell.put target content) (fun _ => (Value.handle .cell target).pieces)
      (fun _ s => HasType s (.cell elem) (.handle .cell target))
      (Value.handle .cell target).pieces := by
  refine Turns.of_accounts (by decide) fun kept c hh hc => ?_
  refine .bind (.unwinding ((accounts_address rfl).mono (fun _ _ _ _ _ h => h) ?_)) ?_
  · intro d _ _ hd
    rw [hd, hh]
    simp only [Value.piecesOf_cons, Value.piecesOf_nil]
    abel
  · rintro id c - hs - ⟨rfl, rfl, hl⟩
    have hal : c.world.store.Alive ⟨.cell, id⟩ := hs.alive_of_hand (by simp [hh])
    refine .bind (Q := fun a d => d = c ∧ c.world.store.get? id = some a)
      (.read hal fun a ha _ => ⟨rfl, ha⟩) ?_
    rintro a c - - - ⟨rfl, ha⟩
    have hr := hc.1.role_eq ha
    refine .bind (accounts_exchange (r := (Value.handle .cell (some id)).pieces +
      (a.content.pieces + kept)) (by decide) ha (by simp [hr, Role.kind]) hl ?_ ?_) ?_
    · rw [hr]
      exact hc.2
    · rw [hh]
      abel
    · intro _ d hm _ _ hd
      have hd' : d.hand = Value.piecesOf [a.content] +
          ((Value.handle .cell (some id)).pieces + kept) := by
        rw [hd]
        simp only [Value.piecesOf_cons, Value.piecesOf_nil]
        abel
      refine (Accounts.drop (by decide) hd').mono ?_ fun _ _ _ h => h
      intro _ e hm' _ _ he
      exact ⟨he, hc.1.evolve (hm.evolves.trans hm'.evolves)⟩

section updating

variable {α : Type} {c : Config} {id : Nat} {a : Allocation}

/-- The configuration in which the cell is locked and its content in hand. -/
def Config.locking (c : Config) (id : Nat) (a : Allocation) (rest : Multiset Piece) : Config :=
  ⟨{ c.world with locks := id :: c.world.locks }, a.content.pieces + rest⟩

theorem moves_locking {rest : Multiset Piece} (ha : c.world.store.get? id = some a)
    (hl : id ∉ c.world.locks) (hh : c.hand = {.handle ⟨.cell, id⟩} + rest) :
    Moves .write c (c.locking id a rest) :=
  .one (Scope.le_refl _) (.lock ha hl hh)

/-- Unlocking the cell, whatever its content is now. -/
theorem moves_unlocking {rest r : Multiset Piece} {v : World} {content : Value}
    {b : Allocation} (hk : (c.locking id a rest).Keeps ⟨v, content.pieces + r⟩)
    (hb : v.store.get? id = some b) (hc : HasType v.store b.role.content content)
    (hid : id < v.store.next) :
    Moves .write ⟨v, content.pieces + r⟩
      ⟨{ v with store := v.store.put id { b with content }, locks := v.locks.erase id },
        {.handle ⟨.cell, id⟩} + r⟩ := by
  have hl : id ∈ v.locks := by
    rw [hk.locks]
    exact List.mem_cons_self
  have h₁ : Moves .write ⟨v, content.pieces + r⟩
      ⟨{ v with store := v.store.put id { b with content } }, content.pieces + r⟩ :=
    .one (Scope.le_refl _) (.rewrite hb hl hc)
  exact h₁.trans (.one (Scope.le_refl _) (.unlock (Store.get?_put_same _ hid) hl rfl))

/-- What was locked before is still locked after the cell is unlocked. -/
theorem keeps_unlocking {rest h h' : Multiset Piece} {v u : World} (hl : id ∉ c.world.locks)
    (hk : (c.locking id a rest).Keeps ⟨v, h⟩) (hu : u.locks = v.locks.erase id)
    (hs : ∀ other, other ≠ id → u.store.get? other = v.store.get? other) :
    c.Keeps ⟨u, h'⟩ := by
  refine ⟨?_, fun other ho b hb => ?_⟩
  · have : v.locks = id :: c.world.locks := hk.locks
    rw [hu, this, List.erase_cons_head]
  · obtain ⟨b', hb', e⟩ := hk.content other (List.mem_cons_of_mem _ ho) b hb
    have hne : other ≠ id := fun e => hl (e ▸ ho)
    exact ⟨b', by rw [hs other hne]; exact hb', e⟩

theorem locking_error {change : Run (Value × α)} {e : Stop} {v : World} {w : World}
    (h : change { w with locks := id :: w.locks } = .error e v) :
    Run.locking id (do
      let x ← change
      Cell.write id x.1
      pure x.2) w = .error e { v with locks := v.locks.erase id } := by
  rw [Run.locking, Run.bind_of_error h]

theorem locking_ok {change : Run (Value × α)} {x : Value × α} {v : World} {w : World}
    {b : Allocation} (h : change { w with locks := id :: w.locks } = .ok x v)
    (hb : v.store.get? id = some b) (hk : b.role.kind = .cell) :
    Run.locking id (do
      let x ← change
      Cell.write id x.1
      pure x.2) w =
    .ok x.2 { v with
      store := v.store.put id { b with content := x.1 }, locks := v.locks.erase id } := by
  have hw : Cell.write id x.1 v = .ok () { v with store := v.store.put id { b with content := x.1 } } :=
    Run.bind_of_ok (hk ▸ Run.read_of_get? hb)
  rw [Run.locking, Run.bind_of_ok h, Run.bind_of_ok hw]
  rfl

/-- A change that accounts for every piece of the content accounts for every piece when it is made
to a locked cell. -/
theorem accounts_locking {change : Run (Value × α)} {rest : Multiset Piece}
    {G : α → Multiset Piece} (ha : c.world.store.get? id = some a) (hk : a.role.kind = .cell)
    (hl : id ∉ c.world.locks) (hh : c.hand = {.handle ⟨.cell, id⟩} + rest)
    (h : Accounts .write change (c.locking id a rest)
      (fun x d => d.hand = x.1.pieces + (G x.2 + rest) ∧
        HasType d.world.store a.role.content x.1)
      (fun d => d.hand = a.content.pieces + rest)) :
    Accounts .write
      (Run.locking id (do
        let x ← change
        Cell.write id x.1
        pure x.2)) c
      (fun y d => d.hand = {.handle ⟨.cell, id⟩} + (G y + rest))
      (fun d => d.hand = {.handle ⟨.cell, id⟩} + rest) := by
  intro hs
  have hm := moves_locking ha hl hh
  have h₁ := h (hs.moves hm)
  cases hx : change (c.locking id a rest).world with
  | error e v =>
    rw [hx] at h₁
    obtain ⟨_, hmv, hkv, rfl⟩ := h₁
    obtain ⟨b, hb, e'⟩ := hkv.content id List.mem_cons_self a ha
    have hlv : id ∈ v.locks := by
      rw [hkv.locks]
      exact List.mem_cons_self
    have hu : Moves .write ⟨v, a.content.pieces + rest⟩
        ⟨{ v with locks := v.locks.erase id }, {.handle ⟨.cell, id⟩} + rest⟩ :=
      .one (Scope.le_refl _) (.unlock hb hlv (by rw [e']))
    rw [locking_error hx]
    exact ⟨_, hm.trans (hmv.trans hu), keeps_unlocking hl hkv rfl fun _ _ => rfl, rfl⟩
  | ok x v =>
    rw [hx] at h₁
    obtain ⟨_, hmv, hkv, rfl, ht⟩ := h₁
    obtain ⟨b, hb, -⟩ := hkv.content id List.mem_cons_self a ha
    obtain ⟨a', ha', hr⟩ := hmv.evolves.role_eq id (Store.lt_next_of_get? ha) b hb
    obtain rfl : a = a' := Option.some.inj (ha.symm.trans ha')
    rw [hr] at ht
    have hu := moves_unlocking hkv hb ht (Store.lt_next_of_get? hb)
    rw [locking_ok hx hb (by rw [← hr, hk])]
    refine ⟨_, hm.trans (hmv.trans hu), keeps_unlocking hl hkv rfl ?_, rfl⟩
    intro other hne
    exact Store.get?_put_other _ _ hne

end updating

/-- Changing a cell through a handle in hand. -/
theorem turns_update {α : Type} (elem : Ty) (target : Option Nat)
    {change : Value → Run (Value × α)} {G : α → Multiset Piece}
    (h : ∀ content, Turns .write content.pieces (fun s => HasType s elem content) (change content)
      (fun x => x.1.pieces + G x.2) (fun x s => HasType s elem x.1) content.pieces) :
    Turns .write (Value.handle .cell target).pieces
      (fun s => HasType s (.cell elem) (.handle .cell target)) (Cell.update target change)
      (fun y => (Value.handle .cell target).pieces + G y)
      (fun _ s => HasType s (.cell elem) (.handle .cell target))
      (Value.handle .cell target).pieces := by
  intro frame c hh ho hc
  refine .bind (accounts_address hh) ?_
  rintro id c - hs - ⟨rfl, rfl, hl⟩
  have hal : c.world.store.Alive ⟨.cell, id⟩ := hs.alive_of_hand (by simp [hh])
  refine .bind (Q := fun a d => d = c ∧ c.world.store.get? id = some a)
    (.read hal fun a ha _ => ⟨rfl, ha⟩) ?_
  rintro a c - hs - ⟨rfl, ha⟩
  have hr := hc.role_eq ha
  have ht := hs.typed id a ha
  rw [hr] at ht
  have h₁ := h a.content frame (c.locking id a frame) rfl ho ht
  refine (accounts_locking (G := G) ha (by rw [hr]; rfl) hl hh (h₁.mono ?_ fun _ _ _ h => h)).mono
    ?_ fun _ _ _ h => h
  · rintro x d - - - ⟨hd, -, hx⟩
    exact ⟨by rw [hd, add_assoc], by rw [hr]; exact hx⟩
  · intro y d hm _ _ hd
    exact ⟨by rw [hd, ← add_assoc]; rfl, hm.bindings_eq (by decide), hc.evolve hm.evolves⟩

/-- A change that moves nothing in or out needs no handle in hand: nothing is in hand meanwhile. -/
theorem accounts_update_same {α : Type} {elem : Ty} {target : Option Nat}
    {change : Value → Run (Value × α)} {c : Config}
    (hc : HasType c.world.store (.cell elem) (.handle .cell target))
    (hal : ∀ id, target = some id → c.world.store.Alive ⟨.cell, id⟩)
    (h : ∀ content, HasType c.world.store elem content →
      ∃ new y, change content = pure (new, y) ∧ new.pieces = content.pieces ∧
        HasType c.world.store elem new) :
    Accounts .write (Cell.update target change) c (fun _ d => d.hand = c.hand)
      (fun d => d.hand = c.hand) := by
  refine .bind (accounts_address rfl) ?_
  rintro id c - hs - ⟨rfl, rfl, hl⟩
  refine .bind (Q := fun a d => d = c ∧ c.world.store.get? id = some a)
    (.read (hal id rfl) fun a ha _ => ⟨rfl, ha⟩) ?_
  rintro a c - hs - ⟨rfl, ha⟩
  have hr := hc.role_eq ha
  have ht := hs.typed id a ha
  rw [hr] at ht
  obtain ⟨new, y, he, hp, hn⟩ := h a.content ht
  have hn' : HasType c.world.store a.role.content new := by
    rw [hr]
    exact hn
  have hw : Accounts .write (Run.write id { a with content := new }) c
      (fun _ d => d.hand = c.hand) (fun d => d.hand = c.hand) :=
    accounts_exchange (Scope.le_refl _) ha (by simp [hr, Role.kind]) hl hn' (by rw [hp, add_comm])
  refine Accounts.of_eq (.bind hw fun _ _ _ _ _ hd => .pure (a := y) hd) ?_
  have hx : change a.content { c.world with locks := id :: c.world.locks } =
      .ok (new, y) { c.world with locks := id :: c.world.locks } := by
    rw [he]
    rfl
  refine (locking_ok hx ha (by rw [hr]; rfl)).trans ?_
  rw [List.erase_cons_head]
  rfl

end SharedValues
