import Mathlib.Logic.Basic

/-!
Refinement of one system by another.  Steps carry a label or none; what an observer of a
run sees is the list of its labels, and a simulation shows that everything that can be
seen of one system can be seen of the other.
-/

namespace Hcdb.Lib.Simulation

variable {σ τ ε ε' : Type*} {step : σ → Option ε → σ → Prop}
  {step' : τ → Option ε' → τ → Prop} {start : σ} {start' : τ}

/-- The labels and the last state of the runs from `start`. -/
inductive Traces (step : σ → Option ε → σ → Prop) (start : σ) : List ε → σ → Prop
  | start : Traces step start [] start
  | silent {trace : List ε} {s s' : σ} : Traces step start trace s → step s none s' →
      Traces step start trace s'
  | visible {trace : List ε} {s s' : σ} {e : ε} : Traces step start trace s →
      step s (some e) s' → Traces step start (trace ++ [e]) s'

/-- What holds at the start and is kept by every step holds after every run. -/
theorem Traces.invariant (inv : σ → Prop) (hstart : inv start)
    (hstep : ∀ s label s', inv s → step s label s' → inv s') {trace : List ε} {s : σ}
    (h : Traces step start trace s) : inv s := by
  induction h with
  | start => exact hstart
  | silent _ hs ih => exact hstep _ _ _ ih hs
  | visible _ hs ih => exact hstep _ _ _ ih hs

/-- The step is answered by one step with the same label, or by none if it has no label. -/
inductive Answers (step : σ → Option ε → σ → Prop) (s : σ) : Option ε → σ → Prop
  | stay : Answers step s none s
  | step {label : Option ε} {s' : σ} : step s label s' → Answers step s label s'

theorem Traces.append {trace : List ε} {s s' : σ} {label : Option ε}
    (h : Traces step start trace s) (ha : Answers step s label s') :
    Traces step start (trace ++ label.toList) s' := by
  cases ha with
  | stay => simpa using h
  | step hs =>
      cases label with
      | none => simpa using h.silent hs
      | some e => exact h.visible hs

/-- If every step from related states is answered and leads to related states, then
every trace of the first system is, in the view of the second, one of the second. -/
theorem Traces.simulate (view : ε → ε') (rel : σ → τ → Prop) (hstart : rel start start')
    (hstep : ∀ s label s' t, rel s t → step s label s' →
      ∃ t', Answers step' t (label.map view) t' ∧ rel s' t') {trace : List ε} {s : σ}
    (h : Traces step start trace s) :
    ∃ t, Traces step' start' (trace.map view) t ∧ rel s t := by
  induction h with
  | start => exact ⟨start', .start, hstart⟩
  | silent _ hs ih =>
      obtain ⟨t, htrace, hrel⟩ := ih
      obtain ⟨t', hanswer, hrel'⟩ := hstep _ _ _ _ hrel hs
      exact ⟨t', by simpa using htrace.append hanswer, hrel'⟩
  | visible _ hs ih =>
      obtain ⟨t, htrace, hrel⟩ := ih
      obtain ⟨t', hanswer, hrel'⟩ := hstep _ _ _ _ hrel hs
      exact ⟨t', by simpa using htrace.append hanswer, hrel'⟩

end Hcdb.Lib.Simulation
