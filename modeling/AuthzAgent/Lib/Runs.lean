/-
  AuthzAgent.Lib.Runs

  Runs of a system with a step function.  A property of steps is asked of every
  step of a run, in the state in which the step is taken.  Where an invariant
  of the states makes two such properties equivalent, they are equivalent for
  whole runs.

  An observer sees a view of the state.  Where a step changes the view by what
  the observer sees of the event only, and not at all for the events it does not
  see, the view of a whole run is a run over the events that it sees.

  An invariant may also speak of the events so far.
-/

import Mathlib

namespace Runs

variable {σ ε : Type}

/-- Every step of a run has a property, in the state it is taken in. -/
def AllSteps (step : σ → ε → σ) (P : σ → ε → Prop) : σ → List ε → Prop
  | _, [] => True
  | s, e :: es => P s e ∧ AllSteps step P (step s e) es

/-- Two properties that are equivalent under an invariant, which a step with
    the property keeps, are equivalent for whole runs. -/
theorem allSteps_iff {step : σ → ε → σ} (Inv : σ → Prop) {P Q : σ → ε → Prop}
    (hiff : ∀ s e, Inv s → (P s e ↔ Q s e)) (hinv : ∀ s e, Inv s → P s e → Inv (step s e))
    {s : σ} (hs : Inv s) (es : List ε) : AllSteps step P s es ↔ AllSteps step Q s es := by
  induction es generalizing s with
  | nil => exact Iff.rfl
  | cons e es ih =>
    rw [AllSteps, AllSteps, ← hiff s e hs]
    exact and_congr_right fun hP => ih (hinv s e hs hP)

/-- The view of a run is a run over the events that are seen. -/
theorem foldl_view {ν β : Type} {step : σ → ε → σ} {view : σ → ν} {seen : ε → Option β}
    {viewStep : ν → β → ν}
    (h : ∀ s e, view (step s e) = (seen e).elim (view s) (viewStep (view s))) (s : σ)
    (es : List ε) : view (es.foldl step s) = (es.filterMap seen).foldl viewStep (view s) := by
  induction es generalizing s with
  | nil => rfl
  | cons e es ih =>
    rw [List.foldl_cons, ih, h, List.filterMap_cons]
    cases seen e with
    | none => rfl
    | some b => rfl

end Runs
