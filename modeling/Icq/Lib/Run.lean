import Mathlib.Logic.Basic

namespace Icq.Lib

section

variable {σ ι : Type} {step : σ → ι → Option σ} {allowed : σ → ι → Prop} {start s : σ}

/-- The states that allowed actions lead to from a start. -/
inductive Run (step : σ → ι → Option σ) (allowed : σ → ι → Prop) (start : σ) : σ → Prop where
  | start : Run step allowed start start
  | step {s s' : σ} (action : ι) : Run step allowed start s → allowed s action →
      step s action = some s' → Run step allowed start s'

/-- What the start has and every allowed action keeps, every state of a run has. -/
theorem Run.invariant {P : σ → Prop} (h : Run step allowed start s) (hs : P start)
    (keep : ∀ {s action s'}, P s → allowed s action → step s action = some s' → P s') : P s := by
  induction h with
  | start => exact hs
  | step _ _ ha he ih => exact keep ih ha he

end

end Icq.Lib
