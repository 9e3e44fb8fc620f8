import SharedValues.Registry.Basic

/-!
Threads that ask one registry for tables. Each atomic step of a thread is the look-up or the entry
of its current request, and a schedule names the thread that moves next.
-/
namespace SharedValues.Registry

structure Thread where
  /-- The types still to be asked for; the first is the current request. -/
  pending : List Ty
  /-- Has the look-up of the current request found nothing? -/
  missed : Bool := false
  /-- The answered requests, the latest first. -/
  answers : List (Ty × Table) := []
  deriving DecidableEq, Repr

structure System where
  registry : Registry
  threads : List Thread
  /-- The types published so far, in order. -/
  published : List Ty := []
  deriving DecidableEq, Repr

namespace System

/-- One atomic step of a thread. -/
def advance (s : System) (i : Nat) (t : Thread) : System :=
  match t.pending with
  | [] => s
  | type :: rest =>
    if t.missed then
      let (table, registry) := s.registry.enter type
      { registry
        threads := s.threads.set i ⟨rest, false, (type, table) :: t.answers⟩
        published := s.published ++ (if s.registry.find? type = none then [type] else []) }
    else
      match s.registry.find? type with
      | some table =>
        { s with threads := s.threads.set i ⟨rest, false, (type, table) :: t.answers⟩ }
      | none => { s with threads := s.threads.set i { t with missed := true } }

def step (s : System) (i : Nat) : System :=
  match s.threads[i]? with
  | some t => s.advance i t
  | none => s

def run (s : System) (schedule : List Nat) : System :=
  schedule.foldl step s

end System

/-- As many threads as given ask for one type at once: all of them look before any enters. The
caller, which is the last thread, asks when they are done. -/
def race (r : Registry) (t : Ty) (threads : Nat) : System :=
  let all := List.replicate (threads + 1) { pending := [t] : Thread }
  let start : System := { registry := r, threads := all }
  start.run (List.range threads ++ List.range threads ++ [threads, threads])

/-- Were all requests answered with one table? -/
def System.agrees (s : System) : Bool :=
  match s.threads.flatMap (·.answers.map (·.2)) with
  | [] => true
  | table :: rest => rest.all (· == table)

end SharedValues.Registry
