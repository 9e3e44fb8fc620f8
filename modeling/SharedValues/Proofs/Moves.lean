import Mathlib.Logic.Relation
import SharedValues.Proofs.Pieces
import SharedValues.Proofs.Typing

/-!
What a run can do, in small moves. A configuration is a state together with the pieces in hand:
those of the variables and those that the operation in progress holds. Every operation is a
sequence of moves, so a fact about all runs is a fact about each move.
-/
namespace SharedValues

structure Config where
  world : World
  hand : Multiset Piece

/-- All pieces there are: in live allocations, behind locks, and in hand. -/
def Config.total (c : Config) : Multiset Piece :=
  c.world.stored + c.world.pins + c.hand

/-- What an allocation may be, given the published tables. -/
def Role.Allowed (r : Registry) : Role → Prop
  | .slot table type => r.find? type = some table ∧ type ≠ .erased
  | .object interface type => interface.accepts type
  | .cell _ | .callable _ => True

/-- Events that an operation reports without giving anything up. -/
def Event.isReport : Event → Bool
  | .hook .. | .fatal _ => true
  | _ => false

/-- How far moves may go: additions only; also giving things up; also changing what allocations
own; also changing variables. -/
inductive Scope where
  | grow | shrink | write | bind
  deriving DecidableEq, Repr

namespace Scope

def rank : Scope → Nat
  | .grow => 0
  | .shrink => 1
  | .write => 2
  | .bind => 3

instance : LE Scope := ⟨fun s t => s.rank ≤ t.rank⟩

theorem le_refl (s : Scope) : s ≤ s := Nat.le_refl s.rank

theorem le_trans {s t u : Scope} (h : s ≤ t) (h' : t ≤ u) : s ≤ u := Nat.le_trans h h'

/-- What an abandoned operation may do beyond a finished one: give up what it has built. -/
def failing : Scope → Scope
  | .grow => .shrink
  | s => s

theorem le_failing (s : Scope) : s ≤ s.failing := by cases s <;> decide

theorem failing_mono {s t : Scope} (h : s ≤ t) : s.failing ≤ t.failing := by
  revert h
  cases s <;> cases t <;> decide

end Scope

/-- One move. -/
inductive Move : Scope → Config → Config → Prop where
  | report {w : World} {h : Multiset Piece} (e : Event) (he : e.isReport) :
    Move .grow ⟨w, h⟩ ⟨w.record e, h⟩
  | publish {w : World} {h : Multiset Piece} (t : Ty) (ht : w.registry.find? t = none) :
    Move .grow ⟨w, h⟩
      ⟨{ w with registry := (w.registry.enter t).2 }.record (.published t), h⟩
  | create {w : World} {h : Multiset Piece} (p : Probe) :
    Move .grow ⟨w, h⟩ ⟨{ w with created := w.created ++ [.probe p] }, {.probe p} + h⟩
  | retain {w : World} {h : Multiset Piece} {id : Nat} {a : Allocation}
    (ha : w.store.get? id = some a) :
    Move .grow ⟨w, h⟩
      ⟨{ w with store := w.store.put id { a with shares := a.shares + 1 } },
        {.handle ⟨a.role.kind, id⟩} + h⟩
  | allocate {w : World} {h h' : Multiset Piece} {role : Role} {content : Value}
    (hr : role.Allowed w.registry) (hc : HasType w.store role.content content)
    (hh : h = content.pieces + h') :
    Move .grow ⟨w, h⟩
      ⟨w.allocate role content, {.handle ⟨role.kind, w.store.next⟩} + h'⟩
  | release {w : World} {h h' : Multiset Piece} {vs : List Value}
    (hh : h = Value.piecesOf vs + h') : Move .shrink ⟨w, h⟩ ⟨w.release vs, h'⟩
  /-- The content of an allocation changes places with something in hand. -/
  | exchange {w : World} {h h' : Multiset Piece} {id : Nat} {a : Allocation} {content : Value}
    (ha : w.store.get? id = some a) (hk : a.role.kind ≠ .slot) (hl : id ∉ w.locks)
    (hc : HasType w.store a.role.content content)
    (hh : h + a.content.pieces = content.pieces + h') :
    Move .write ⟨w, h⟩ ⟨{ w with store := w.store.put id { a with content } }, h'⟩
  | lock {w : World} {h h' : Multiset Piece} {id : Nat} {a : Allocation}
    (ha : w.store.get? id = some a) (hl : id ∉ w.locks) (hh : h = {.handle ⟨.cell, id⟩} + h') :
    Move .write ⟨w, h⟩ ⟨{ w with locks := id :: w.locks }, a.content.pieces + h'⟩
  /-- The content of a locked cell is rewritten; what it owned is in hand. -/
  | rewrite {w : World} {h : Multiset Piece} {id : Nat} {a : Allocation} {content : Value}
    (ha : w.store.get? id = some a) (hl : id ∈ w.locks)
    (hc : HasType w.store a.role.content content) :
    Move .write ⟨w, h⟩ ⟨{ w with store := w.store.put id { a with content } }, h⟩
  | unlock {w : World} {h h' : Multiset Piece} {id : Nat} {a : Allocation}
    (ha : w.store.get? id = some a) (hl : id ∈ w.locks) (hh : h = a.content.pieces + h') :
    Move .write ⟨w, h⟩ ⟨{ w with locks := w.locks.erase id }, {.handle ⟨.cell, id⟩} + h'⟩
  | bind {w : World} {h : Multiset Piece} {vs : List (String × Variable)}
    (hv : ∀ x ∈ vs, HasType w.store x.2.type x.2.value) :
    Move .bind ⟨w, h⟩ ⟨{ w with bindings := vs }, h⟩

/-- A sequence of moves that go no further than the scope. -/
def Moves (S : Scope) : Config → Config → Prop :=
  Relation.ReflTransGen fun c d => ∃ s, s ≤ S ∧ Move s c d

namespace Moves

theorem refl {S : Scope} {c : Config} : Moves S c c := Relation.ReflTransGen.refl

theorem trans {S : Scope} {c d e : Config} (h : Moves S c d) (h' : Moves S d e) : Moves S c e :=
  Relation.ReflTransGen.trans h h'

theorem one {S s : Scope} {c d : Config} (hs : s ≤ S) (h : Move s c d) : Moves S c d :=
  Relation.ReflTransGen.single ⟨s, hs, h⟩

theorem widen {S T : Scope} {c d : Config} (h : Moves S c d) (hs : S ≤ T) : Moves T c d :=
  Relation.ReflTransGen.mono (fun _ _ ⟨s, hle, hm⟩ => ⟨s, Scope.le_trans hle hs, hm⟩) _ _ h

/-- What every move preserves is preserved by a sequence of moves. -/
theorem invariant {S : Scope} {P : Config → Prop} {c d : Config} (h : Moves S c d)
    (step : ∀ s c d, s ≤ S → Move s c d → P c → P d) (hc : P c) : P d := by
  induction h with
  | refl => exact hc
  | tail _ h ih =>
    obtain ⟨s, hs, hm⟩ := h
    exact step s _ _ hs hm ih

end Moves

end SharedValues
