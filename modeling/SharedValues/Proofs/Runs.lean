import SharedValues.Program.Run
import SharedValues.Proofs.Calls
import SharedValues.Proofs.Chronicle

/-!
Runs of the machine. Between two steps nothing is locked and nothing is in hand but what the
variables own; every step leads by moves from such a state to such a state, finished or abandoned,
so every run does.
-/
namespace SharedValues

/-- What holds between two steps. -/
structure World.Settled (w : World) : Prop where
  sound : Config.Sound ⟨w, w.owned⟩
  locks : w.locks = []
  ascending : World.Ascending w.bindings

theorem World.settled_empty : World.Settled {} := by
  refine ⟨⟨?_, ?_, ?_, nofun, .nil⟩, rfl, .nil⟩
  · simpa [Config.total, World.stored, World.pins, World.owned, Store.next] using counted_empty
  · simp [Store.get?]
  · simp [Store.get?]

/-- Where an action that settles leads from a settled state. -/
theorem Settles.leads {α : Type} {act : Run α} {w : World} (h : Settles act) (hw : w.Settled) :
    Moves .bind ⟨w, w.owned⟩ ⟨act.after w, (act.after w).owned⟩ ∧ (act.after w).Settled := by
  have h₁ := h ⟨w, w.owned⟩ (zero_add _).symm hw.locks hw.ascending trivial hw.sound
  -- what is in hand at the end is what the variables own then
  have finish : ∀ {v : World} {hand : Multiset Piece}, Moves .bind ⟨w, w.owned⟩ ⟨v, hand⟩ →
      Config.Keeps ⟨w, w.owned⟩ ⟨v, hand⟩ → hand = 0 + v.owned → World.Ascending v.bindings →
      Moves .bind ⟨w, w.owned⟩ ⟨v, v.owned⟩ ∧ v.Settled := by
    intro v hand hm hk hh ha
    rw [zero_add] at hh
    subst hh
    exact ⟨hm, hw.sound.moves hm, hk.locks.trans hw.locks, ha⟩
  unfold Run.after
  simp only at h₁
  cases hr : act w with
  | ok a v =>
    rw [hr] at h₁
    obtain ⟨hand, hm, hk, hh, ha, -⟩ := h₁
    exact finish hm hk hh ha
  | error e v =>
    rw [hr] at h₁
    obtain ⟨hand, hm, hk, hh, ha⟩ := h₁
    exact finish hm hk hh ha

namespace Machine

/-- The state that a step leaves, whether it yields an answer or is abandoned. -/
def next (fresh : Bool) (w : World) (step : Step) : World :=
  (perform fresh step).after w

/-- The state after a run that starts from nothing. -/
def after (fresh : Bool) (steps : List Step) : World :=
  steps.foldl (next fresh) {}

theorem after_concat (fresh : Bool) (steps : List Step) (step : Step) :
    after fresh (steps ++ [step]) = next fresh (after fresh steps) step := by
  simp [after]

theorem leads_next (fresh : Bool) (step : Step) {w : World} (hw : w.Settled) :
    Moves .bind ⟨w, w.owned⟩ ⟨next fresh w step, (next fresh w step).owned⟩ ∧
      (next fresh w step).Settled :=
  (settles_perform fresh step).leads hw

theorem leads_after (fresh : Bool) (steps : List Step) :
    Moves .bind ⟨{}, 0⟩ ⟨after fresh steps, (after fresh steps).owned⟩ ∧
      (after fresh steps).Settled := by
  induction steps using List.reverseRecOn with
  | nil => exact ⟨.refl, World.settled_empty⟩
  | append_singleton steps step ih =>
    rw [after_concat]
    obtain ⟨hm, hw⟩ := leads_next fresh step ih.2
    exact ⟨ih.1.trans hm, hw⟩

theorem settled_after (fresh : Bool) (steps : List Step) : (after fresh steps).Settled :=
  (leads_after fresh steps).2

theorem chronicled_after (fresh : Bool) (steps : List Step) :
    Config.Chronicled ⟨after fresh steps, (after fresh steps).owned⟩ :=
  have h : Config.Chronicled ⟨{}, 0⟩ := ⟨World.settled_empty.sound, .empty, .empty⟩
  h.moves (leads_after fresh steps).1

end Machine

namespace Program

theorem ofRun_performDatum (fresh : Bool) (d : Datum) (w : World) :
    (Answer.ofRun fresh (performDatum fresh d) w).2 =
      (Step.ofDatum? d).elim w (Machine.next fresh w) := by
  unfold performDatum
  cases Step.ofDatum? d with
  | none => rfl
  | some step =>
    simp only [Answer.ofRun, Option.elim, Machine.next, Run.after]
    split <;> rename_i h <;> rw [h]

/-- A program passes through the states of the steps that it holds; what is no step is refused and
changes nothing. -/
theorem runSteps_eq_after (fresh : Bool) (ds : List Datum) :
    (runSteps fresh ds {}).2 = Machine.after fresh (ds.filterMap Step.ofDatum?) := by
  unfold Machine.after
  generalize ({} : World) = w
  induction ds generalizing w with
  | nil => rfl
  | cons d ds ih =>
    simp only [runSteps, ofRun_performDatum, ih]
    cases h : Step.ofDatum? d <;> simp [h]

/-- Giving up all variables. -/
theorem leads_releaseAll (w : World) : Moves .bind ⟨w, w.owned⟩ ⟨releaseAll w, 0⟩ := by
  have hb : Move .bind ⟨w, w.owned⟩ ⟨{ w with bindings := [] }, w.owned⟩ := .bind nofun
  have hr : Move .shrink ⟨{ w with bindings := [] }, w.owned⟩ ⟨releaseAll w, 0⟩ :=
    .release (add_zero _).symm
  exact (Moves.one (Scope.le_refl _) hb).trans (.one (by decide) hr)

end Program

end SharedValues
