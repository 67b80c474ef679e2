import Mathlib.Data.List.Basic

/-!
# Runs with visible events, and simulation

A step may show one event or none.  What is seen of a run is the list of the events that its steps
show.  If a relation between the states of two systems is kept by every step of the first (the
second answers with a step that shows the same, or stays where it is when nothing is shown), then
whatever is seen of the first may be seen of the second (`LabelledRun.simulated`).
-/

namespace ClawDesk.Foundations

variable {σ τ ε : Type} {step : σ → Option ε → σ → Prop} {step' : τ → Option ε → τ → Prop}

/-- A run, and the events it shows. -/
inductive LabelledRun (step : σ → Option ε → σ → Prop) (s : σ) : List ε → σ → Prop
  | nil : LabelledRun step s [] s
  | concat {trace s' shown s''} (hrun : LabelledRun step s trace s') (hstep : step s' shown s'') :
      LabelledRun step s (trace ++ shown.toList) s''

variable {s s' : σ} {t : τ} {trace : List ε}

/-- What every step keeps, along with what the run has shown so far, holds at its end. -/
theorem LabelledRun.induct {P : List ε → σ → Prop} (hrun : LabelledRun step s trace s') (h : P [] s)
    (hkeep : ∀ trace s' shown s'', P trace s' → step s' shown s'' → P (trace ++ shown.toList) s'') :
    P trace s' := by
  induction hrun with
  | nil => exact h
  | concat _ hstep ih => exact hkeep _ _ _ _ ih hstep

/-- The second system answers a step of the first. -/
def Answers (step' : τ → Option ε → τ → Prop) (t : τ) (shown : Option ε) (t' : τ) : Prop :=
  step' t shown t' ∨ shown = none ∧ t' = t

/-- **What is seen of the first system may be seen of the second.** -/
theorem LabelledRun.simulated {R : σ → τ → Prop} (hrun : LabelledRun step s trace s') (h : R s t)
    (hsim : ∀ s t shown s', R s t → step s shown s' → ∃ t', Answers step' t shown t' ∧ R s' t') :
    ∃ t', LabelledRun step' t trace t' ∧ R s' t' := by
  induction hrun with
  | nil => exact ⟨t, .nil, h⟩
  | concat _ hstep ih =>
      obtain ⟨t₁, hrun, hrel⟩ := ih
      obtain ⟨t₂, hanswer, hrel'⟩ := hsim _ _ _ _ hrel hstep
      rcases hanswer with hanswer | ⟨rfl, rfl⟩
      · exact ⟨t₂, hrun.concat hanswer, hrel'⟩
      · exact ⟨t₂, by simpa using hrun, hrel'⟩

end ClawDesk.Foundations
