/-!
Levels of entries. A map keeps its entries in a search tree whose nodes hold up to eleven of them,
and every node but the topmost one at least five. The level of an entry is the height of the node
that it stands in, and the levels in the order of the keys say all about the tree: the node of
level `l` at some place holds the entries of that level between the next ones of a higher level.

Main statements: inserting and erasing change the number of entries by one, and giving up the
finished part of a copy gives up all of it.
-/
namespace SharedValues.Levels

/-- The most entries that a node holds. -/
def capacity : Nat := 11

/-- The fewest entries that a node below the topmost one holds. -/
def least : Nat := 5

/-- The entries on the left of a place, the nearest first, each with its level and its position. -/
def leftOf (levels : List Nat) (place : Nat) : List (Nat × Nat) :=
  (levels.zipIdx.take place).reverse

/-- The entries on the right of a place, the nearest first. -/
def rightOf (levels : List Nat) (place : Nat) : List (Nat × Nat) :=
  levels.zipIdx.drop place

/-- Where the entries of a node of the given level stand, looking one way from a place in it. -/
def own (level : Nat) (side : List (Nat × Nat)) : List Nat :=
  ((side.takeWhile (·.1 ≤ level)).filter (·.1 = level)).map (·.2)

/-- The entry of the node above that divides a node of the given level from its neighbour. -/
def divider? (level : Nat) (side : List (Nat × Nat)) : Option Nat :=
  match side.find? (level < ·.1) with
  | some (above, position) => if above = level + 1 then some position else none
  | none => none

/-- Which entry of an overfull node goes up, given which one has just come in. The newcomer never
goes up itself, and both halves keep the least number of entries. -/
def middle (newcomer : Nat) : Nat :=
  if newcomer = 5 ∨ 7 ≤ newcomer then 6 else 5

/-- Relieve the node of the given level to which the entry at `place` has come: if it is overfull,
its middle entry goes up, and so on with the node above. -/
def relieve : Nat → Nat → Nat → List Nat → List Nat
  | 0, _, _, levels => levels
  | fuel + 1, level, place, levels =>
    let before := own level (leftOf levels place)
    let all := before.reverse ++ own level (rightOf levels place)
    if all.length ≤ capacity then levels
    else
      match all[middle before.length]? with
      | some position => relieve fuel (level + 1) position (levels.set position (level + 1))
      | none => levels

/-- The levels after a new entry has been put at a position. -/
def insert (position : Nat) (levels : List Nat) : List Nat :=
  relieve (levels.length + 1) 0 position (levels.insertIdx position 0)

/-- What becomes of a node that holds too few entries. -/
inductive Refill where
  | enough
  | borrowed (levels : List Nat)
  | merged (levels : List Nat)
  deriving DecidableEq, Repr

/-- The levels that a refill leaves, given those before it. -/
def Refill.levels (before : List Nat) : Refill → List Nat
  | .enough => before
  | .borrowed after => after
  | .merged after => after

/-- Refill a node of the given level that holds `count` entries from the neighbour behind the entry
at `divider`, whose entries stand at `neighbour`, the nearest first. The two nodes become one if
that is not too full; otherwise entries move over through the divider. -/
def refillFrom (level count divider : Nat) (neighbour levels : List Nat) : Refill :=
  if count + 1 + neighbour.length ≤ capacity then .merged (levels.set divider level)
  else
    match neighbour[least - count - 1]? with
    | some position => .borrowed ((levels.set divider level).set position (level + 1))
    | none => .enough

/-- Refill the node of the given level around a place, from the left neighbour if there is one. -/
def refill (level place : Nat) (levels : List Nat) : Refill :=
  let left := leftOf levels place
  let right := rightOf levels place
  let count := (own level left).length + (own level right).length
  if least ≤ count then .enough
  else
    match divider? level left, divider? level right with
    | some d, _ => refillFrom level count d (own level (leftOf levels d)) levels
    | none, some d => refillFrom level count d (own level (rightOf levels (d + 1))) levels
    | none, none => .enough

/-- Refill the nodes around a place, from the given level upwards, as long as nodes merge. -/
def restore : Nat → Nat → Nat → List Nat → List Nat
  | 0, _, _, levels => levels
  | fuel + 1, level, place, levels =>
    match refill level place levels with
    | .enough => levels
    | .borrowed levels => levels
    | .merged levels => restore fuel (level + 1) place levels

/-- The levels after the entry at a position has been taken out. An entry above the lowest level is
replaced by the one before it. -/
def erase (position : Nat) (levels : List Nat) : List Nat :=
  let place := if levels[position]? = some 0 then position else position - 1
  restore levels.length 0 place (levels.eraseIdx place)

/-- How often twelve divides a number. -/
def twelves : Nat → Nat → Nat
  | 0, _ => 0
  | fuel + 1, n => if n % (capacity + 1) = 0 then twelves fuel (n / (capacity + 1)) + 1 else 0

/-- Refill the last node of every level below the given one, from the top down. -/
def restoreLast : Nat → List Nat → List Nat
  | 0, levels => levels
  | level + 1, levels => restoreLast level ((refill level levels.length levels).levels levels)

/-- The levels of entries that came in the order of their keys and filled one node after the
other. -/
def packed (count : Nat) : List Nat :=
  let levels := (List.range count).map fun i => twelves count (i + 1)
  restoreLast (levels.foldl max 0) levels

/-- Give up finished entries, the last one first in the list. Those that follow the last one above
the given level go first, then that one, and then what came before it. -/
def unwind {α : Type} (level : Nat) (segment : List α) : List (α × Nat) → List α
  | [] => segment
  | (x, l) :: rest =>
    if l ≤ level then unwind level (x :: segment) rest else segment ++ x :: unwind l [] rest

/-- In which order the finished entries of an unfinished copy are given up. A node is copied part
by part, so the innermost unfinished node goes first, then the entry before it, then the node
above. -/
def giveUp {α : Type} (levels : List Nat) (finished : List α) : List α :=
  unwind (levels[finished.length]?.getD 0) []
    (finished.zipIdx.map fun (x, i) => (x, levels[i]?.getD 0)).reverse

theorem length_relieve (fuel level place : Nat) (levels : List Nat) :
    (relieve fuel level place levels).length = levels.length := by
  induction fuel generalizing level place levels with
  | zero => rfl
  | succ fuel ih =>
    simp only [relieve]
    split
    · rfl
    · split
      · rw [ih, List.length_set]
      · rfl

theorem length_insert {position : Nat} {levels : List Nat} (h : position ≤ levels.length) :
    (insert position levels).length = levels.length + 1 := by
  rw [insert, length_relieve, List.length_insertIdx_of_le_length h]

theorem length_refillFrom (level count divider : Nat) (neighbour levels : List Nat) :
    ((refillFrom level count divider neighbour levels).levels levels).length = levels.length := by
  unfold refillFrom
  split
  · simp [Refill.levels]
  · split <;> simp [Refill.levels]

theorem length_refill (level place : Nat) (levels : List Nat) :
    ((refill level place levels).levels levels).length = levels.length := by
  unfold refill
  simp only
  split
  · rfl
  · split
    · exact length_refillFrom ..
    · exact length_refillFrom ..
    · rfl

theorem length_restore (fuel level place : Nat) (levels : List Nat) :
    (restore fuel level place levels).length = levels.length := by
  induction fuel generalizing level levels with
  | zero => rfl
  | succ fuel ih =>
    have h := length_refill level place levels
    rw [restore]
    split
    · rfl
    · next after e => simpa [e, Refill.levels] using h
    · next after e =>
      rw [ih]
      simpa [e, Refill.levels] using h

theorem length_restoreLast (level : Nat) (levels : List Nat) :
    (restoreLast level levels).length = levels.length := by
  induction level generalizing levels with
  | zero => rfl
  | succ level ih => rw [restoreLast, ih, length_refill]

theorem length_erase {position : Nat} {levels : List Nat} (h : position < levels.length) :
    (erase position levels).length = levels.length - 1 := by
  have place : (if levels[position]? = some 0 then position else position - 1) < levels.length := by
    split <;> omega
  rw [erase, length_restore, List.length_eraseIdx_of_lt place]

theorem length_packed (count : Nat) : (packed count).length = count := by
  simp [packed, length_restoreLast]

theorem perm_unwind {α : Type} (level : Nat) (segment : List α) (rest : List (α × Nat)) :
    (unwind level segment rest).Perm (segment ++ rest.map (·.1)) := by
  induction rest generalizing level segment with
  | nil => simp [unwind]
  | cons p rest ih =>
    obtain ⟨x, l⟩ := p
    rw [unwind]
    split
    · exact (ih level (x :: segment)).trans List.perm_middle.symm
    · exact ((ih l []).cons x).append_left segment

/-- Nothing is given up twice, and nothing is kept. -/
theorem perm_giveUp {α : Type} (levels : List Nat) (finished : List α) :
    (giveUp levels finished).Perm finished := by
  refine (perm_unwind _ _ _).trans ?_
  simp [List.map_reverse, Function.comp_def]

end SharedValues.Levels
