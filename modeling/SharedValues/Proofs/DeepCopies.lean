import Mathlib
import SharedValues.Proofs.Copies
import SharedValues.Proofs.Paths

/-!
What a deep copy adds to the store. The handles at the owned positions of a value are listed with
repetitions, one for each position. Every cell and object on the list of a copy is new, no two of
them are the same, and what was in the store before only gains one share for each slot or function
on the list.
-/
namespace SharedValues

/-- A deep copy is a node of the same meaning. -/
theorem Depth.meaning_shape (d : Depth) (shape : Shape) : (d.shape shape).meaning = shape.meaning := by
  cases d <;> cases shape <;> rfl

theorem Value.mem_probesOf {vs : List Value} {p : Probe} :
    p ∈ probesOf vs ↔ ∃ v ∈ vs, p ∈ v.probes := by
  induction vs with
  | nil => simp [probesOf]
  | cons v vs ih => simp [probesOf, ih]

namespace Store

/-- No probe on an owned path of the value refuses the operation. -/
structure Consents (s : Store) (k : Hook) (v : Value) : Prop where
  held : ∀ p ∈ v.probes, p.boom ≠ some k
  enclosed : ∀ id a, s.Encloses v id → s.get? id = some a → ∀ p ∈ a.content.probes, p.boom ≠ some k

/-- No hook refuses where no probe does, reached or not. -/
theorem Consents.of_probes {s : Store} {k : Hook} {v : Value}
    (held : ∀ p ∈ v.probes, p.boom ≠ some k)
    (stored : ∀ id < s.next, ∀ a ∈ s.get? id, ∀ p ∈ a.content.probes, p.boom ≠ some k) :
    s.Consents k v where
  held := held
  enclosed id a _ ha := stored id (lt_next_of_get? ha) a ha

/-- The handles at the owned positions of values, in order: after a cell or an object follow the
handles of what it owns. -/
inductive Spans (s : Store) : List Value → List Handle → Prop where
  | nil : Spans s [] []
  | scalar {x : Scalar} {vs : List Value} {hs : List Handle} (h : Spans s vs hs) :
    Spans s (.scalar x :: vs) hs
  | probe {p : Probe} {vs : List Value} {hs : List Handle} (h : Spans s vs hs) :
    Spans s (.probe p :: vs) hs
  | absent {k : HandleKind} {vs : List Value} {hs : List Handle} (h : Spans s vs hs) :
    Spans s (.handle k none :: vs) hs
  | shared {k : HandleKind} {id : Nat} {vs : List Value} {hs : List Handle}
    (hk : k.owning = false) (h : Spans s vs hs) : Spans s (.handle k (some id) :: vs) (⟨k, id⟩ :: hs)
  | owned {k : HandleKind} {id : Nat} {a : Allocation} {vs : List Value} {hs : List Handle}
    (hk : k.owning = true) (ha : s.get? id = some a) (h : Spans s (a.content :: vs) hs) :
    Spans s (.handle k (some id) :: vs) (⟨k, id⟩ :: hs)
  | node {shape : Shape} {parts vs : List Value} {hs : List Handle} (h : Spans s (parts ++ vs) hs) :
    Spans s (.node shape parts :: vs) hs

/-- The values of the second store mirror those of the first: they are alike at every owned position,
with the same slots and functions and with cells and objects of the same roles. -/
inductive Mirrors (s s' : Store) : List Value → List Value → Prop where
  | nil : Mirrors s s' [] []
  | scalar {x : Scalar} {vs cs : List Value} (h : Mirrors s s' vs cs) :
    Mirrors s s' (.scalar x :: vs) (.scalar x :: cs)
  | probe {p : Probe} {vs cs : List Value} (h : Mirrors s s' vs cs) :
    Mirrors s s' (.probe p :: vs) (.probe p :: cs)
  | absent {k : HandleKind} {vs cs : List Value} (h : Mirrors s s' vs cs) :
    Mirrors s s' (.handle k none :: vs) (.handle k none :: cs)
  | shared {k : HandleKind} {id : Nat} {vs cs : List Value} (hk : k.owning = false)
    (h : Mirrors s s' vs cs) : Mirrors s s' (.handle k (some id) :: vs) (.handle k (some id) :: cs)
  | owned {k : HandleKind} {i j : Nat} {a b : Allocation} {vs cs : List Value}
    (hk : k.owning = true) (ha : s.get? i = some a) (hb : s'.get? j = some b) (hr : b.role = a.role)
    (h : Mirrors s s' (a.content :: vs) (b.content :: cs)) :
    Mirrors s s' (.handle k (some i) :: vs) (.handle k (some j) :: cs)
  | node {shape shape' : Shape} {parts parts' vs cs : List Value}
    (hm : shape'.meaning = shape.meaning) (hl : parts'.length = parts.length)
    (h : Mirrors s s' (parts ++ vs) (parts' ++ cs)) :
    Mirrors s s' (.node shape parts :: vs) (.node shape' parts' :: cs)

/-- The second store has gained the listed handles: new allocations for the cells and objects, one
share each, and one more share of the old allocation for every slot and function. -/
structure Gains (s s' : Store) (hs : List Handle) : Prop where
  next_le : s.next ≤ s'.next
  old : ∀ id < s.next, s'.get? id =
    (s.get? id).map fun a => { a with shares := a.shares + hs.countP (·.target == id) }
  new : ∀ id, s.next ≤ id → id < s'.next →
    ∃ a, s'.get? id = some a ∧ a.role.kind.owning = true ∧ a.shares = 1
  owned : ((hs.filter (·.kind.owning)).map (·.target)).Perm (List.range' s.next (s'.next - s.next))
  alive : ∀ h ∈ hs, s'.Alive h

section

variable {s s' s'' : Store} {hs ks : List Handle} {vs ws cs ds : List Value}

theorem Spans.append (h : s.Spans vs hs) (h' : s.Spans ws ks) : s.Spans (vs ++ ws) (hs ++ ks) := by
  induction h with
  | nil => exact h'
  | scalar _ ih => exact .scalar ih
  | probe _ ih => exact .probe ih
  | absent _ ih => exact .absent ih
  | shared hk _ ih => exact .shared hk ih
  | owned hk ha _ ih => exact .owned hk ha ih
  | node _ ih => exact .node (by simpa using ih)

theorem Spans.persist (h : s.Spans vs hs) (hp : s.Persists s') : s'.Spans vs hs := by
  induction h with
  | nil => exact .nil
  | scalar _ ih => exact .scalar ih
  | probe _ ih => exact .probe ih
  | absent _ ih => exact .absent ih
  | shared hk _ ih => exact .shared hk ih
  | owned hk ha _ ih =>
    obtain ⟨b, hb, -, hc⟩ := hp _ _ ha
    exact .owned hk hb (hc ▸ ih)
  | node _ ih => exact .node ih

theorem Mirrors.length_eq (h : Mirrors s s' vs cs) : cs.length = vs.length := by
  induction h with
  | nil => rfl
  | node _ hl _ ih =>
    simp only [List.length_append, List.length_cons] at ih ⊢
    omega
  | scalar _ ih | probe _ ih | absent _ ih | shared _ _ ih => simp [ih]
  | owned _ _ _ _ _ ih => simpa using ih

theorem Mirrors.append (h : Mirrors s s' vs cs) (h' : Mirrors s s' ws ds) :
    Mirrors s s' (vs ++ ws) (cs ++ ds) := by
  induction h with
  | nil => exact h'
  | scalar _ ih => exact .scalar ih
  | probe _ ih => exact .probe ih
  | absent _ ih => exact .absent ih
  | shared hk _ ih => exact .shared hk ih
  | owned hk ha hb hr _ ih => exact .owned hk ha hb hr ih
  | node hm hl _ ih => exact .node hm hl (by simpa using ih)

theorem Mirrors.persist (h : Mirrors s s' vs cs) (hp : s'.Persists s'') : Mirrors s s'' vs cs := by
  induction h with
  | nil => exact .nil
  | scalar _ ih => exact .scalar ih
  | probe _ ih => exact .probe ih
  | absent _ ih => exact .absent ih
  | shared hk _ ih => exact .shared hk ih
  | owned hk ha hb hr _ ih =>
    obtain ⟨b', hb', hr', hc⟩ := hp _ _ hb
    exact .owned hk ha hb' (hr'.trans hr) (hc ▸ ih)
  | node hm hl _ ih => exact .node hm hl ih

theorem persists_push (s : Store) (a : Allocation) : s.Persists (s.push a) := by
  intro id b hb
  have hne : id ≠ s.next := Nat.ne_of_lt (lt_next_of_get? hb)
  exact ⟨b, by rw [get?_push_of_ne _ _ hne, hb], rfl, rfl⟩

namespace Gains

theorem refl (s : Store) : s.Gains s [] where
  next_le := Nat.le_refl _
  old id _ := by simp
  new id h h' := absurd h' (Nat.not_lt.mpr h)
  owned := by simp
  alive := by simp

theorem get? (h : s.Gains s' hs) {id : Nat} {a : Allocation} (ha : s.get? id = some a) :
    s'.get? id = some { a with shares := a.shares + hs.countP (·.target == id) } := by
  rw [h.old id (lt_next_of_get? ha), ha, Option.map_some]

theorem persists (h : s.Gains s' hs) : s.Persists s' :=
  fun _ _ ha => ⟨_, h.get? ha, rfl, rfl⟩

theorem mem_owned (h : s.Gains s' hs) {id : Nat} :
    (∃ x ∈ hs, x.kind.owning = true ∧ x.target = id) ↔ s.next ≤ id ∧ id < s'.next := by
  have hn := h.next_le
  have hm : id ∈ (hs.filter (·.kind.owning)).map (·.target) ↔ _ := h.owned.mem_iff
  simp only [List.mem_map, List.mem_filter, List.mem_range'_1, and_assoc] at hm
  rw [hm]
  omega

/-- What is not owned is old. -/
theorem alive_of_alive (h : s.Gains s' hs) {x : Handle} (hx : s'.Alive x)
    (hk : x.kind.owning = false) : s.Alive x := by
  obtain ⟨b, hb, hr⟩ := hx
  have hlt : x.target < s.next := by
    by_contra hge
    obtain ⟨a, ha, ho, -⟩ := h.new x.target (by omega) (lt_next_of_get? hb)
    obtain rfl := Option.some.inj (ha.symm.trans hb)
    simp [hr, hk] at ho
  rw [h.old _ hlt, Option.map_eq_some_iff] at hb
  obtain ⟨a, ha, rfl⟩ := hb
  exact ⟨a, ha, hr⟩

theorem trans (h : s.Gains s' hs) (h' : s'.Gains s'' ks) : s.Gains s'' (hs ++ ks) where
  next_le := h.next_le.trans h'.next_le
  old id hid := by
    rw [h'.old id (Nat.lt_of_lt_of_le hid h.next_le), h.old id hid, Option.map_map]
    simp [Function.comp_def, Nat.add_assoc]
  new id hge hlt := by
    by_cases hid : id < s'.next
    · obtain ⟨a, ha, hk, hs⟩ := h.new id hge hid
      refine ⟨_, h'.get? ha, hk, ?_⟩
      -- the later handles are newer than this allocation or older than it
      have hz : ks.countP (·.target == id) = 0 := by
        rw [List.countP_eq_zero]
        intro x hx he
        obtain rfl : x.target = id := by simpa using he
        cases hxk : x.kind.owning with
        | true => exact absurd hid (Nat.not_lt.mpr (h'.mem_owned.mp ⟨x, hx, hxk, rfl⟩).1)
        | false =>
          have hold := h.alive_of_alive (h'.alive_of_alive (h'.alive x hx) hxk) hxk
          exact absurd hold.lt_next (Nat.not_lt.mpr hge)
      simp [hs, hz]
    · exact h'.new id (Nat.not_lt.mp hid) hlt
  owned := by
    have hr : s''.next - s.next = (s'.next - s.next) + (s''.next - s'.next) := by
      have := h.next_le
      have := h'.next_le
      omega
    have hn : s.next + (s'.next - s.next) = s'.next := Nat.add_sub_cancel' h.next_le
    rw [List.filter_append, List.map_append, hr, ← List.range'_append_1, hn]
    exact h.owned.append h'.owned
  alive x hx := by
    rcases List.mem_append.mp hx with hx | hx
    · exact h'.persists.alive (h.alive x hx)
    · exact h'.alive x hx

theorem share {k : HandleKind} {id : Nat} {a : Allocation} (ha : s.get? id = some a)
    (hr : a.role.kind = k) (hk : k.owning = false) :
    s.Gains (s.put id { a with shares := a.shares + 1 }) [⟨k, id⟩] where
  next_le := by simp
  old other ho := by
    by_cases e : other = id
    · subst e
      simp [get?_put_same _ ho, ha]
    · simp [get?_put_other s _ e, Ne.symm e]
  new other hge hlt := absurd hlt (by simpa using hge)
  owned := by simp [hk]
  alive x hx := by
    obtain rfl : x = ⟨k, id⟩ := by simpa using hx
    exact ⟨_, get?_put_same _ (lt_next_of_get? ha), hr⟩

/-- A new cell or object for what has been gained. -/
theorem push (h : s.Gains s' hs) {role : Role} (hk : role.kind.owning = true) (content : Value) :
    s.Gains (s'.push ⟨role, content, 1⟩) (⟨role.kind, s'.next⟩ :: hs) where
  next_le := by
    have := h.next_le
    simp only [next_push]
    omega
  old id hid := by
    have hne : id ≠ s'.next := Nat.ne_of_lt (Nat.lt_of_lt_of_le hid h.next_le)
    rw [get?_push_of_ne _ _ hne, h.old id hid]
    simp [Ne.symm hne]
  new id hge hlt := by
    by_cases e : id = s'.next
    · subst e
      exact ⟨_, get?_push_next _ _, hk, rfl⟩
    · rw [get?_push_of_ne _ _ e]
      exact h.new id hge (by simp only [next_push] at hlt; omega)
  owned := by
    have hn : s'.next = s.next + (s'.next - s.next) := (Nat.add_sub_cancel' h.next_le).symm
    have hr : s'.next + 1 - s.next = (s'.next - s.next) + 1 := by
      have := h.next_le
      omega
    have hf : (Handle.mk role.kind s'.next :: hs).filter (·.kind.owning) =
        ⟨role.kind, s'.next⟩ :: hs.filter (·.kind.owning) := List.filter_cons_of_pos (by exact hk)
    rw [next_push, hr, List.range'_1_concat, ← hn, hf, List.map_cons]
    exact (h.owned.cons _).trans (List.perm_append_singleton _ _).symm
  alive x hx := by
    rcases List.mem_cons.mp hx with rfl | hx
    · exact ⟨_, get?_push_next _ _, rfl⟩
    · exact (persists_push s' _).alive (h.alive x hx)

theorem nodup_owned (h : s.Gains s' hs) : ((hs.filter (·.kind.owning)).map (·.target)).Nodup :=
  h.owned.nodup_iff.mpr List.nodup_range'

/-- The new allocations have one share each. -/
theorem get?_owned (h : s.Gains s' hs) {x : Handle} (hx : x ∈ hs) (hk : x.kind.owning = true) :
    s.next ≤ x.target ∧ ∃ b, s'.get? x.target = some b ∧ b.role.kind = x.kind ∧ b.shares = 1 := by
  obtain ⟨hge, hlt⟩ := h.mem_owned.mp ⟨x, hx, hk, rfl⟩
  obtain ⟨b, hb, hkind⟩ := h.alive x hx
  obtain ⟨b', hb', -, hs⟩ := h.new x.target hge hlt
  obtain rfl := Option.some.inj (hb'.symm.trans hb)
  exact ⟨hge, b', hb', hkind, hs⟩

/-- The handles to an old allocation are all of its kind. -/
theorem countP_target (h : s.Gains s' hs) {id : Nat} {a : Allocation} (ha : s.get? id = some a) :
    hs.countP (·.target == id) = hs.count ⟨a.role.kind, id⟩ := by
  refine List.countP_congr fun x hx => ?_
  simp only [beq_iff_eq]
  constructor
  · rintro rfl
    obtain ⟨b, hb, hk⟩ := h.alive x hx
    rw [h.get? ha, Option.some.injEq] at hb
    have hkind : x.kind = a.role.kind := by rw [← hk, ← hb]
    rw [← hkind]
  · rintro rfl
    rfl

/-- Old cells and objects gain nothing. -/
theorem count_eq_zero (h : s.Gains s' hs) {id : Nat} (hid : id < s.next) {k : HandleKind}
    (hk : k.owning = true) : hs.count ⟨k, id⟩ = 0 := by
  rw [List.count_eq_zero]
  intro hm
  exact absurd hid (Nat.not_lt.mpr (h.mem_owned.mp ⟨_, hm, hk, rfl⟩).1)

end Gains

end

/-- Deep copies of values of the original store have been added to the second store. -/
def Adds (origin s s' : Store) (vs cs : List Value) : Prop :=
  ∃ hs, s.Gains s' hs ∧ s'.Spans cs hs ∧ Mirrors origin s' vs cs

namespace Adds

variable {origin s s' s'' : Store} {vs ws cs ds : List Value}

theorem persists (h : Adds origin s s' vs cs) : s.Persists s' := by
  obtain ⟨hs, hg, -⟩ := h
  exact hg.persists

theorem append (h : Adds origin s s' vs cs) (h' : Adds origin s' s'' ws ds) :
    Adds origin s s'' (vs ++ ws) (cs ++ ds) := by
  obtain ⟨hs, hg, hsp, hm⟩ := h
  obtain ⟨ks, hg', hsp', hm'⟩ := h'
  exact ⟨hs ++ ks, hg.trans hg', (hsp.persist hg'.persists).append hsp',
    (hm.persist hg'.persists).append hm'⟩

theorem nil : Adds origin s s [] [] := ⟨[], .refl s, .nil, .nil⟩

theorem scalar (x : Scalar) : Adds origin s s [.scalar x] [.scalar x] :=
  ⟨[], .refl s, .scalar .nil, .scalar .nil⟩

theorem probe (p : Probe) : Adds origin s s [.probe p] [.probe p] :=
  ⟨[], .refl s, .probe .nil, .probe .nil⟩

theorem absent (k : HandleKind) : Adds origin s s [.handle k none] [.handle k none] :=
  ⟨[], .refl s, .absent .nil, .absent .nil⟩

theorem share {k : HandleKind} {id : Nat} {a : Allocation} (ha : s.get? id = some a)
    (hr : a.role.kind = k) (hk : k.owning = false) :
    Adds origin s (s.put id { a with shares := a.shares + 1 }) [.handle k (some id)]
      [.handle k (some id)] :=
  ⟨[⟨k, id⟩], .share ha hr hk, .shared hk .nil, .shared hk .nil⟩

/-- A new allocation for the copy of what an allocation owns. -/
theorem push {id : Nat} {a : Allocation} {content : Value} (ha : origin.get? id = some a)
    (hk : a.role.kind.owning = true) (h : Adds origin s s' [a.content] [content]) :
    Adds origin s (s'.push ⟨a.role, content, 1⟩) [.handle a.role.kind (some id)]
      [.handle a.role.kind (some s'.next)] := by
  obtain ⟨hs, hg, hsp, hm⟩ := h
  have hp : s'.Persists (s'.push ⟨a.role, content, 1⟩) := persists_push s' _
  exact ⟨_, hg.push hk content, .owned hk (get?_push_next _ _) (hsp.persist hp),
    .owned hk ha (get?_push_next _ _) rfl (hm.persist hp)⟩

theorem node {shape shape' : Shape} {parts parts' : List Value}
    (hm : shape'.meaning = shape.meaning) (h : Adds origin s s' parts parts') :
    Adds origin s s' [.node shape parts] [.node shape' parts'] := by
  obtain ⟨hs, hg, hsp, hmi⟩ := h
  exact ⟨hs, hg, .node (by simpa using hsp), .node hm hmi.length_eq (by simpa using hmi)⟩

end Adds

/-- A value that a deep copy gets through within the given number of hops. -/
structure Copyable (s : Store) (rank : Nat → Nat) (hops : Nat) (v : Value) : Prop where
  alive : ∀ h ∈ v.handles, s.Alive h
  near : ∀ h ∈ v.handles, rank h.target < hops
  consents : s.Consents .deep v

namespace Copyable

variable {s : Store} {rank : Nat → Nat} {hops : Nat}

theorem part {shape : Shape} {parts : List Value}
    (h : s.Copyable rank hops (.node shape parts)) {v : Value} (hv : v ∈ parts) :
    s.Copyable rank hops v := by
  have hh : ∀ x ∈ v.handles, x ∈ (Value.node shape parts).handles := by
    intro x hx
    rw [Value.handles]
    exact Value.mem_handlesOf.mpr ⟨v, hv, hx⟩
  have hp : ∀ p ∈ v.probes, p ∈ (Value.node shape parts).probes := by
    intro p hp
    rw [Value.probes]
    exact Value.mem_probesOf.mpr ⟨v, hv, hp⟩
  exact
    { alive := fun x hx => h.alive x (hh x hx)
      near := fun x hx => h.near x (hh x hx)
      consents :=
        { held := fun p hpv => h.consents.held p (hp p hpv)
          enclosed := fun id a he => h.consents.enclosed id a (he.mono hh) } }

/-- What a cell or an object owns takes one hop less. -/
theorem content {id : Nat} {a : Allocation} (hc : s.Closed)
    (hr : ∀ x y, s.Owns x y → y < s.next → rank y < rank x) (ha : s.get? id = some a)
    (hk : a.role.kind.owning = true)
    (h : s.Copyable rank (hops + 1) (.handle a.role.kind (some id))) :
    s.Copyable rank hops a.content := by
  have he : s.Encloses (.handle a.role.kind (some id)) id := .handle hk
  have hid : rank id < hops + 1 := h.near ⟨a.role.kind, id⟩ (by simp [Value.handles])
  exact
    { alive := hc id a ha
      near := by
        intro x hx
        have := hr id x.target ⟨a, ha, x, hx, rfl⟩ (hc id a ha x hx).lt_next
        omega
      consents :=
        { held := h.consents.enclosed id a he ha
          enclosed := fun id' b hb => h.consents.enclosed id' b (he.trans ha hb) } }

end Copyable

end Store

section

variable {origin : Store} {rank : Nat → Nat} {hops : Nat} {through : HandleKind → Nat → Run Nat}

/-- The handles of copyable values are copied deeply, whatever has been added to the store. -/
def Follows (origin : Store) (rank : Nat → Nat) (hops : Nat) (through : HandleKind → Nat → Run Nat) :
    Prop :=
  ∀ (k : HandleKind) (id : Nat) (w : World), origin.Copyable rank hops (.handle k (some id)) →
    origin.Persists w.store → ∃ i w', through k id w = .ok i w' ∧
      Store.Adds origin w.store w'.store [.handle k (some id)] [.handle k (some i)]

theorem Run.callHook_of_ne {k : Hook} {p : Probe} (h : p.boom ≠ some k) (w : World) :
    Run.callHook k p w = .ok () (w.record (.hook k p)) := by
  have hr : Run.record (.hook k p) w = .ok () (w.record (.hook k p)) := rfl
  rw [Run.callHook, Run.bind_of_ok hr, if_neg h]
  rfl

theorem Run.unwinding_of_ok {α : Type} {act : Run α} {a : α} {w w' : World} (h : act w = .ok a w')
    (built : List Value) : Run.unwinding built act w = .ok a w' := by
  simp only [Run.unwinding, h]

mutual

theorem adds_copyWith (hf : Follows origin rank hops through) :
    (v : Value) → ∀ w : World, origin.Copyable rank hops v → origin.Persists w.store →
      ∃ c w', v.copyWith .deep through w = .ok c w' ∧ Store.Adds origin w.store w'.store [v] [c]
  | .scalar x, w, _, _ => by
    rw [Value.copyWith]
    exact ⟨_, w, rfl, .scalar x⟩
  | .probe p, w, hv, _ => by
    have hp : p.boom ≠ some Depth.deep.hook := hv.consents.held p (by simp [Value.probes])
    rw [Value.copyWith, Run.bind_of_ok (Run.callHook_of_ne hp w)]
    exact ⟨_, _, rfl, .probe p⟩
  | .handle k none, w, _, _ => by
    rw [Value.copyWith]
    exact ⟨_, w, rfl, .absent k⟩
  | .handle k (some id), w, hv, hw => by
    obtain ⟨i, w', he, ha⟩ := hf k id w hv hw
    rw [Value.copyWith, Run.bind_of_ok he]
    exact ⟨_, w', rfl, ha⟩
  | .node shape parts, w, hv, hw => by
    obtain ⟨cs, w', he, ha⟩ :=
      adds_copyParts hf shape parts [] w (fun v hm => hv.part hm) hw
    rw [Value.copyWith, Run.bind_of_ok he]
    exact ⟨_, w', rfl, ha.node (Depth.meaning_shape .deep shape)⟩

theorem adds_copyParts (hf : Follows origin rank hops through) (shape : Shape) :
    (vs : List Value) → ∀ (done : List Value) (w : World),
      (∀ v ∈ vs, origin.Copyable rank hops v) → origin.Persists w.store →
      ∃ cs w', Value.copyParts .deep through shape done vs w = .ok (done ++ cs) w' ∧
        Store.Adds origin w.store w'.store vs cs
  | [], done, w, _, _ => by
    rw [Value.copyParts]
    exact ⟨[], w, by rw [List.append_nil]; rfl, .nil⟩
  | v :: vs, done, w, hv, hw => by
    obtain ⟨c, w₁, he, ha⟩ := adds_copyWith hf v w (hv v (by simp)) hw
    obtain ⟨cs, w₂, he', ha'⟩ := adds_copyParts hf shape vs (done ++ [c]) w₁
      (fun u hu => hv u (by simp [hu])) (hw.trans ha.persists)
    rw [Value.copyParts, Run.bind_of_ok (Run.unwinding_of_ok he _), he']
    exact ⟨c :: cs, w₂, by simp, ha.append ha'⟩

end

theorem adds_share {k : HandleKind} (hk : k.owning = false) {id : Nat} {w : World}
    (ha : w.store.Alive ⟨k, id⟩) :
    ∃ i w', Value.share k id w = .ok i w' ∧
      Store.Adds origin w.store w'.store [.handle k (some id)] [.handle k (some i)] := by
  obtain ⟨a, hg, rfl⟩ := ha
  rw [Value.share, Run.bind_of_ok (Run.retain_of_get? hg)]
  exact ⟨id, _, rfl, .share hg rfl hk⟩

/-- The copy of what a cell or an object owns goes into a new allocation. -/
theorem adds_deepContent (hc : origin.Closed)
    (hr : ∀ x y, origin.Owns x y → y < origin.next → rank y < rank x)
    (ih : Follows origin rank hops (Value.deepThrough hops)) {k : HandleKind}
    (hk : k.owning = true) {id : Nat} {w : World}
    (hv : origin.Copyable rank (hops + 1) (.handle k (some id))) (hw : origin.Persists w.store) :
    ∃ i w', Value.deepThrough (hops + 1) k id w = .ok i w' ∧
      Store.Adds origin w.store w'.store [.handle k (some id)] [.handle k (some i)] := by
  obtain ⟨a, ha, rfl⟩ := hv.alive ⟨k, id⟩ (by simp [Value.handles])
  obtain ⟨b, hb, hrole, hcontent⟩ := hw id a ha
  obtain ⟨c, w₁, he, hadd⟩ := adds_copyWith ih a.content w (hv.content hc hr ha hk) hw
  have hread : Run.read a.role.kind id w = .ok b w := hrole ▸ Run.read_of_get? hb
  have hdeep : Value.deepThrough (hops + 1) a.role.kind id = (do
      let a ← Run.read a.role.kind id
      let content ← a.content.copyWith .deep (Value.deepThrough hops)
      Run.allocate a.role content) := by
    cases hkind : a.role.kind <;> simp_all [Value.deepThrough, HandleKind.owning]
  rw [hdeep, Run.bind_of_ok hread, hcontent, hrole, Run.bind_of_ok he]
  exact ⟨_, _, rfl, .push ha hk hadd⟩

theorem follows_deepThrough (hc : origin.Closed)
    (hr : ∀ x y, origin.Owns x y → y < origin.next → rank y < rank x) (hops : Nat) :
    Follows origin rank hops (Value.deepThrough hops) := by
  induction hops with
  | zero =>
    intro k id w hv _
    exact absurd (hv.near ⟨k, id⟩ (by simp [Value.handles])) (Nat.not_lt_zero _)
  | succ hops ih =>
    intro k id w hv hw
    have ha : w.store.Alive ⟨k, id⟩ := hw.alive (hv.alive ⟨k, id⟩ (by simp [Value.handles]))
    cases k with
    | slot | callable =>
      rw [Value.deepThrough]
      exact adds_share rfl ha
    | cell | object => exact adds_deepContent hc hr ih rfl hv hw

end

/-- Where the store has a part that is closed and without cycles, a deep copy of what is found in it is
made, unless a probe on an owned path refuses. -/
theorem Value.adds_deepCopy_within {origin : Store} {v : Value} {w : World}
    (hw : origin.Persists w.store) (hn : origin.next ≤ w.store.next) (hc : origin.Closed)
    (ha : origin.Acyclic) (hv : ∀ h ∈ v.handles, origin.Alive h) (hp : origin.Consents .deep v) :
    ∃ c w', v.deepCopy w = .ok c w' ∧ Store.Adds origin w.store w'.store [v] [c] := by
  obtain ⟨rank, hr, hlt⟩ := ha.exists_rank
  have hcopy : origin.Copyable rank w.hops v :=
    ⟨hv, fun h hh => Nat.lt_of_lt_of_le (hlt _ (hv h hh).lt_next) hn, hp⟩
  rw [Value.deepCopy, Run.bind_get]
  exact adds_copyWith (follows_deepThrough hc hr w.hops) v w hcopy hw

/-- Without cycles, a deep copy is made unless a probe on an owned path refuses. -/
theorem Value.adds_deepCopy {v : Value} {w : World} (hc : w.store.Closed) (ha : w.store.Acyclic)
    (hv : ∀ h ∈ v.handles, w.store.Alive h) (hp : w.store.Consents .deep v) :
    ∃ c w', v.deepCopy w = .ok c w' ∧ Store.Adds w.store w.store w'.store [v] [c] :=
  adds_deepCopy_within (.refl _) (Nat.le_refl _) hc ha hv hp

/-- A deep copy shares nothing that it should own. In a store without cycles, and if no probe on an
owned path refuses, the copy is made and mirrors the value, so what was absent is absent. The cells
and objects at its owned positions are new allocations with one share each, no two positions have the
same one, and nothing else is new. What was there before keeps its role and its content, and gains
one share for every owned position of the copy at which it stands, which only slots and functions
do. -/
theorem deep_copy_unshared {v : Value} {w : World} (hc : w.store.Closed) (hac : w.store.Acyclic)
    (hv : ∀ h ∈ v.handles, w.store.Alive h) (hp : w.store.Consents .deep v) :
    ∃ c w' hs, v.deepCopy w = .ok c w' ∧ w'.store.Spans [c] hs ∧
      Store.Mirrors w.store w'.store [v] [c] ∧
      (∀ h ∈ hs, h.kind.owning = true → w.store.next ≤ h.target ∧
        ∃ b, w'.store.get? h.target = some b ∧ b.role.kind = h.kind ∧ b.shares = 1) ∧
      ((hs.filter (·.kind.owning)).map (·.target)).Nodup ∧
      (∀ id b, w'.store.get? id = some b → w.store.next ≤ id →
        ∃ h ∈ hs, h.kind.owning = true ∧ h.target = id) ∧
      (∀ id < w.store.next, w'.store.get? id = (w.store.get? id).map fun a =>
        { a with shares := a.shares + hs.count ⟨a.role.kind, id⟩ }) ∧
      ∀ id < w.store.next, ∀ k, k.owning = true → hs.count ⟨k, id⟩ = 0 := by
  obtain ⟨c, w', he, hs, hg, hsp, hm⟩ := v.adds_deepCopy hc hac hv hp
  refine ⟨c, w', hs, he, hsp, hm, fun h hh hk => hg.get?_owned hh hk, hg.nodup_owned, ?_, ?_,
    fun id hid k hk => hg.count_eq_zero hid hk⟩
  · intro id b hb hge
    exact hg.mem_owned.mpr ⟨hge, Store.lt_next_of_get? hb⟩
  · intro id hid
    cases ha : w.store.get? id with
    | none => rw [hg.old id hid, ha, Option.map_none, Option.map_none]
    | some a => rw [hg.get? ha, hg.countP_target ha, Option.map_some]

/-- Two handles to a list of two handles to one cell, a function, an absent cell, an object and a
probe that only refuses to be cloned. -/
theorem deep_copy_unshared_nested :
    let w : World :=
      { store :=
          ⟨#[some ⟨.cell (.int .i32), .int 7, 2⟩, some ⟨.callable (.add 1), .unit, 1⟩,
            some ⟨.cell (.list (.cell (.int .i32))),
              .node .sequence [.handle .cell (some 0), .handle .cell (some 0)], 2⟩,
            some ⟨.cell (.list .string), .node .sequence [.text "sit"], 1⟩,
            some ⟨.object .pet .dog, .node .dog [.text "Rex", .handle .cell (some 3)], 1⟩]⟩ }
    let v : Value := .node .tuple
      [.handle .cell (some 2), .handle .cell (some 2), .handle .callable (some 1),
        .handle .cell none, .handle .object (some 4), .probe ⟨5, some .clone⟩]
    w.store.Closed ∧ w.store.Acyclic ∧ (∀ h ∈ v.handles, w.store.Alive h) ∧
      w.store.Consents .deep v ∧
      ∃ c w' hs, v.deepCopy w = .ok c w' ∧ w'.store.Spans [c] hs ∧
        ((hs.filter (·.kind.owning)).map (·.target)).Nodup ∧
        w'.store.get? 1 = some ⟨.callable (.add 1), .unit, 1 + hs.count ⟨.callable, 1⟩⟩ := by
  intro w v
  have hc : w.store.Closed := by decide
  have hac : w.store.Acyclic := Store.acyclic_of_lt (by decide)
  have hv : ∀ h ∈ v.handles, w.store.Alive h := by decide
  have hp : w.store.Consents .deep v := .of_probes (by decide) (by decide)
  obtain ⟨c, w', hs, he, hsp, -, -, hn, -, hold, -⟩ := deep_copy_unshared hc hac hv hp
  exact ⟨hc, hac, hv, hp, c, w', hs, he, hsp, hn, hold 1 (by decide)⟩

end SharedValues
