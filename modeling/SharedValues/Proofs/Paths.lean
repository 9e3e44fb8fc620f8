import Mathlib
import SharedValues.Proofs.Reachability

/-!
Paths through the store. A path starts at a value and follows handles, all of them or only those of
some kinds; an owned path follows cells and objects, which a deep copy builds anew, and stops at slots
and functions. Where no allocation owns itself, paths are shorter than there are allocations.
-/
namespace SharedValues

/-- Allocations of this kind belong to the value that holds them: a deep copy builds them anew. -/
def HandleKind.owning : HandleKind → Bool
  | .cell | .object => true
  | .slot | .callable => false

namespace Store

/-- Handles of the kinds to be followed lead from one of the starting handles to the address. -/
inductive Leads (s : Store) (follow : HandleKind → Bool) (start : Handle → Prop) : Nat → Prop where
  | held {h : Handle} {id : Nat} (hh : start h) (hf : follow h.kind) (ht : h.target = id) :
    Leads s follow start id
  | through {id id' : Nat} {a : Allocation} {h : Handle} (hl : Leads s follow start id)
    (ha : s.get? id = some a) (hh : h ∈ a.content.handles) (hf : follow h.kind)
    (ht : h.target = id') : Leads s follow start id'

/-- An owned path of the value leads to the cell or object. -/
abbrev Encloses (s : Store) (v : Value) (id : Nat) : Prop :=
  s.Leads HandleKind.owning (· ∈ v.handles) id

/-- Some path of the value leads to the allocation. -/
abbrev Sees (s : Store) (v : Value) (id : Nat) : Prop :=
  s.Leads (fun _ => true) (· ∈ v.handles) id

/-- What live allocations hold is alive. -/
def Closed (s : Store) : Prop :=
  ∀ id a, s.get? id = some a → ∀ h ∈ a.content.handles, s.Alive h

instance (s : Store) (h : Handle) : Decidable (s.Alive h) :=
  decidable_of_iff (∃ a ∈ s.get? h.target, a.role.kind = h.kind) Iff.rfl

instance (s : Store) : Decidable s.Closed :=
  decidable_of_iff (∀ id < s.next, ∀ a ∈ s.get? id, ∀ h ∈ a.content.handles, s.Alive h)
    ⟨fun h id a ha => h id (lt_next_of_get? ha) a ha, fun h id _ a ha => h id a ha⟩

/-- The allocations of the first store are there in the second, with their roles and contents. -/
def Persists (s s' : Store) : Prop :=
  ∀ id a, s.get? id = some a →
    ∃ b, s'.get? id = some b ∧ b.role = a.role ∧ b.content = a.content

theorem Alive.lt_next {s : Store} {h : Handle} (ha : s.Alive h) : h.target < s.next := by
  obtain ⟨a, hg, -⟩ := ha
  exact lt_next_of_get? hg

namespace Persists

variable {s s' s'' : Store}

theorem refl (s : Store) : s.Persists s := fun _ a ha => ⟨a, ha, rfl, rfl⟩

theorem trans (h : s.Persists s') (h' : s'.Persists s'') : s.Persists s'' := by
  intro id a ha
  obtain ⟨b, hb, hr, hc⟩ := h id a ha
  obtain ⟨b', hb', hr', hc'⟩ := h' id b hb
  exact ⟨b', hb', hr'.trans hr, hc'.trans hc⟩

theorem alive (h : s.Persists s') {x : Handle} (hx : s.Alive x) : s'.Alive x := by
  obtain ⟨a, ha, hk⟩ := hx
  obtain ⟨b, hb, hr, -⟩ := h _ a ha
  exact ⟨b, hb, by rw [hr, hk]⟩

end Persists

namespace Leads

variable {s : Store} {follow : HandleKind → Bool} {start more : Handle → Prop} {id : Nat}

/-- A path goes on where another one ends. -/
theorem of_start (h : s.Leads follow start id)
    (hs : ∀ x, start x → follow x.kind → s.Leads follow more x.target) : s.Leads follow more id := by
  induction h with
  | held hh hf ht => exact ht ▸ hs _ hh hf
  | through _ ha hh hf ht ih => exact .through ih ha hh hf ht

theorem mono (h : s.Leads follow start id) (hs : ∀ x, start x → more x) : s.Leads follow more id :=
  h.of_start fun x hx hf => .held (hs x hx) hf rfl

theorem trans {a : Allocation} {id' : Nat} (h : s.Leads follow start id) (ha : s.get? id = some a)
    (h' : s.Leads follow (· ∈ a.content.handles) id') : s.Leads follow start id' :=
  h'.of_start fun _ hx hf => .through h ha hx hf rfl

/-- A path stays among places that it starts in and that no hop leaves. -/
theorem within {P : Nat → Prop} (h : s.Leads follow start id)
    (hs : ∀ x, start x → follow x.kind → P x.target)
    (hp : ∀ j < s.next, P j → ∀ a ∈ s.get? j, ∀ x ∈ a.content.handles, follow x.kind → P x.target) :
    P id := by
  induction h with
  | held hh hf ht => exact ht ▸ hs _ hh hf
  | through _ ha hh hf ht ih => exact ht ▸ hp _ (lt_next_of_get? ha) ih _ ha _ hh hf

theorem handle {k : HandleKind} (hk : follow k) :
    s.Leads follow (· ∈ (Value.handle k (some id)).handles) id :=
  .held (h := ⟨k, id⟩) (by simp [Value.handles]) hk rfl

/-- Every path starts with one of the handles. -/
theorem exists_start (h : s.Leads follow start id) : ∃ x, start x ∧ s.Leads follow (· = x) id := by
  induction h with
  | held hh hf ht => exact ⟨_, hh, .held rfl hf ht⟩
  | through _ ha hh hf ht ih =>
    obtain ⟨x, hx, hl⟩ := ih
    exact ⟨x, hx, .through hl ha hh hf ht⟩

/-- What a path leads to is alive if all that is held is alive. -/
theorem get?_eq_some (h : s.Leads follow start id) (hc : s.Closed)
    (hv : ∀ x, start x → s.Alive x) : ∃ a, s.get? id = some a := by
  cases h with
  | held hh hf ht =>
    obtain ⟨a, ha, -⟩ := hv _ hh
    exact ⟨a, ht ▸ ha⟩
  | through _ hb hh hf ht =>
    obtain ⟨a, ha, -⟩ := hc _ _ hb _ hh
    exact ⟨a, ht ▸ ha⟩

/-- Where contents are the same or gone, there are no new paths. -/
theorem reflect {s' : Store} (h : s'.Leads follow start id)
    (hc : ∀ id b, s'.get? id = some b → ∃ a, s.get? id = some a ∧ b.content = a.content) :
    s.Leads follow start id := by
  induction h with
  | held hh hf ht => exact .held hh hf ht
  | through _ hb hh hf ht ih =>
    obtain ⟨a, ha, he⟩ := hc _ _ hb
    exact .through ih ha (he ▸ hh) hf ht

/-- No new path comes up where the allocations on the old ones stay. -/
theorem of_persists {s' : Store} (h : s'.Leads follow start id) (hp : s.Persists s') (hc : s.Closed)
    (hv : ∀ x, start x → s.Alive x) : s.Leads follow start id := by
  induction h with
  | held hh hf ht => exact .held hh hf ht
  | through _ hb hh hf ht ih =>
    obtain ⟨a, ha⟩ := ih.get?_eq_some hc hv
    obtain ⟨b', hb', -, he⟩ := hp _ a ha
    obtain rfl := Option.some.inj (hb'.symm.trans hb)
    exact .through ih ha (he ▸ hh) hf ht

end Leads

/-- Without cycles every allocation has a rank above those of the allocations that it owns, and the
ranks are below the number of addresses. -/
theorem Acyclic.exists_rank {s : Store} (h : s.Acyclic) :
    ∃ rank : Nat → Nat, (∀ x y, s.Owns x y → y < s.next → rank y < rank x) ∧
      ∀ x < s.next, rank x < s.next := by
  classical
  let below (x : Nat) : Finset Nat := (Finset.range s.next).filter (Relation.TransGen s.Owns x)
  have hself : ∀ x, x ∉ below x := fun x hx => h x (Finset.mem_filter.mp hx).2
  refine ⟨fun x => (below x).card, fun x y ho hy => ?_, fun x hx => ?_⟩
  · refine Finset.card_lt_card (Finset.ssubset_iff_of_subset ?_ |>.mpr ⟨y, ?_, hself y⟩)
    · intro z hz
      obtain ⟨hz, ht⟩ := Finset.mem_filter.mp hz
      exact Finset.mem_filter.mpr ⟨hz, .head ho ht⟩
    · exact Finset.mem_filter.mpr ⟨Finset.mem_range.mpr hy, .single ho⟩
  · rw [← Finset.card_range s.next]
    exact Finset.card_lt_card (Finset.ssubset_iff_of_subset (Finset.filter_subset _ _) |>.mpr
      ⟨x, Finset.mem_range.mpr hx, hself x⟩)

/-- A new allocation makes no cycle: nothing points at it yet. -/
theorem Acyclic.push {s : Store} (h : s.Acyclic) (hc : s.Closed) {a : Allocation}
    (ha : ∀ x ∈ a.content.handles, s.Alive x) : (s.push a).Acyclic := by
  have ho : ∀ {x y}, (s.push a).Owns x y → y < s.next ∧ (x < s.next → s.Owns x y) := by
    rintro x y ⟨b, hb, k, hk, rfl⟩
    rcases get?_push_cases hb with ⟨rfl, rfl⟩ | hb
    · exact ⟨(ha k hk).lt_next, fun hx => absurd hx (Nat.lt_irrefl _)⟩
    · exact ⟨(hc x b hb k hk).lt_next, fun _ => ⟨b, hb, k, hk, rfl⟩⟩
  have ht : ∀ {x y}, Relation.TransGen (s.push a).Owns x y →
      y < s.next ∧ (x < s.next → Relation.TransGen s.Owns x y) := by
    intro x y hxy
    induction hxy with
    | single h => exact ⟨(ho h).1, fun hx => .single ((ho h).2 hx)⟩
    | tail _ h ih => exact ⟨(ho h).1, fun hx => .tail (ih.2 hx) ((ho h).2 ih.1)⟩
  exact fun id hid => h id ((ht hid).2 (ht hid).1)

end Store

namespace Config.Sound

variable {c : Config}

/-- While nothing is locked, what live allocations hold is alive. -/
theorem closed (hs : c.Sound) (hl : c.world.locks = []) : c.world.store.Closed :=
  fun _ _ ha _ hh => hs.alive_of_stored (by simp [hl]) ha hh

/-- What a value in hand holds is alive. -/
theorem alive_of_le (hs : c.Sound) {v : Value} (hv : v.pieces ≤ c.hand) :
    ∀ x ∈ v.handles, c.world.store.Alive x :=
  fun _ hx => hs.alive_of_hand (Multiset.mem_of_le hv (Value.handle_mem_pieces.mpr hx))

end Config.Sound

theorem Move.acyclic {s : Scope} {c d : Config} (hm : Move s c d) (hs : s ≤ .shrink)
    (hc : c.Sound) (hl : c.world.locks = []) (ha : c.world.store.Acyclic) :
    d.world.store.Acyclic := by
  cases hm with
  | @retain w h id a hg =>
    refine ha.of_content fun other b hb => ?_
    exact (World.sameBut_putShares hg).content other b hb
  | @allocate w h h' role content hr ht hh =>
    refine ha.push (hc.closed hl) fun x hx => hc.alive_of_hand ?_
    have hp : Piece.handle x ∈ content.pieces := Value.handle_mem_pieces.mpr hx
    rw [hh]
    exact Multiset.mem_add.mpr (.inl hp)
  | @release w _ _ vs => exact ha.of_content (World.sameBut_release vs w).content
  | exchange | lock | rewrite | unlock | bind => exact absurd hs (by decide)
  | _ => exact ha

theorem Moves.locks_eq {S : Scope} {c d : Config} (h : Moves S c d) (hs : S ≤ .shrink) :
    d.world.locks = c.world.locks :=
  h.invariant (P := fun e => e.world.locks = c.world.locks)
    (fun _ _ _ hle hm he => (hm.locks_eq (Scope.le_trans hle hs)).trans he) rfl

/-- What only adds and gives up makes no cycle. -/
theorem Moves.acyclic {c d : Config} (h : Moves .shrink c d) (hc : c.Sound)
    (hl : c.world.locks = []) (ha : c.world.store.Acyclic) : d.world.store.Acyclic := by
  have hall : d.Sound ∧ d.world.locks = [] ∧ d.world.store.Acyclic := by
    refine h.invariant (P := fun e => e.Sound ∧ e.world.locks = [] ∧ e.world.store.Acyclic) ?_
      ⟨hc, hl, ha⟩
    rintro s e f hs hm ⟨he, hle, hae⟩
    exact ⟨he.move hm, (hm.locks_eq hs).trans hle, hm.acyclic hs he hle hae⟩
  exact hall.2.2

end SharedValues
