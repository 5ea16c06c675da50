import Mathlib.Logic.Basic

namespace Hcdb.Lib.Transition

variable {σ α : Type*} {step : σ → α → σ → Prop} {may : σ → α → Prop} {start : σ}

/-- The states of all runs from `start` whose steps meet the condition. -/
inductive Reaches (step : σ → α → σ → Prop) (may : σ → α → Prop) (start : σ) : σ → Prop
  | start : Reaches step may start start
  | step {s s' : σ} {a : α} : Reaches step may start s → may s a → step s a s' →
      Reaches step may start s'

/-- What holds at the start and is kept by every step holds in every state of a run. -/
theorem Reaches.invariant (inv : σ → Prop) (hstart : inv start)
    (hstep : ∀ s a s', inv s → may s a → step s a s' → inv s') {s : σ}
    (h : Reaches step may start s) : inv s := by
  induction h with
  | start => exact hstart
  | step _ hmay hs ih => exact hstep _ _ _ ih hmay hs

end Hcdb.Lib.Transition
