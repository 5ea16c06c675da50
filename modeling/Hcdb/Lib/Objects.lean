import Hcdb.Lib.Simulation
import Mathlib.Logic.Function.Basic

/-!
Objects that any number of clients call at once.  A call is invoked and answered, and in
between it takes effect on the state of the object, in one step or in a few.
-/

namespace Hcdb.Lib.Objects

open Hcdb.Lib.Simulation

variable {Tid σ τ St St' Req Req' Rep Rep' : Type*}

/-- What can be seen of the calls. -/
inductive Event (Tid Req Rep : Type*) where
  | invoke (t : Tid) (req : Req)
  | respond (t : Tid) (rep : Rep)

def Event.map (onReq : Req → Req') (onRep : Rep → Rep') : Event Tid Req Rep → Event Tid Req' Rep'
  | .invoke t req => .invoke t (onReq req)
  | .respond t rep => .respond t (onRep rep)

/-- How far a call can be, what effect it takes from there, and what the object does of
its own accord. -/
structure Object (σ St Req Rep : Type*) where
  idle : St
  called : Req → St
  finished : Rep → St
  effect : σ → St → σ → St → Prop
  internal : σ → σ → Prop

/-- An object together with the calls of its clients. -/
structure Clients (Tid σ St : Type*) where
  state : σ
  status : Tid → St

def Object.start (obj : Object σ St Req Rep) (state : σ) : Clients Tid σ St where
  state
  status _ := obj.idle

/-- A call is invoked, takes effect or is answered, or the object moves by itself. -/
inductive Object.Step [DecidableEq Tid] (obj : Object σ St Req Rep) :
    Clients Tid σ St → Option (Event Tid Req Rep) → Clients Tid σ St → Prop
  | invoke {s t req} : s.status t = obj.idle →
      Step obj s (some (.invoke t req))
        { s with status := Function.update s.status t (obj.called req) }
  | respond {s t rep} : s.status t = obj.finished rep →
      Step obj s (some (.respond t rep)) { s with status := Function.update s.status t obj.idle }
  | effect {s t state st} : obj.effect s.state (s.status t) state st →
      Step obj s none { state, status := Function.update s.status t st }
  | internal {s state} : obj.internal s.state state → Step obj s none { s with state }

/-- Related states stay related: what the first object does, as long as its states are
`ok`, the second one does too, or it does nothing that a client could see. -/
structure Refines (obj : Object σ St Req Rep) (obj' : Object τ St' Req' Rep') (ok : σ → Prop)
    (rel : σ → τ → Prop) (view : St → St') (onReq : Req → Req') (onRep : Rep → Rep') : Prop where
  idle : view obj.idle = obj'.idle
  called : ∀ req, view (obj.called req) = obj'.called (onReq req)
  finished : ∀ rep, view (obj.finished rep) = obj'.finished (onRep rep)
  effect : ∀ s st s' st' t, rel s t → ok s' → obj.effect s st s' st' →
    ∃ t', rel s' t' ∧ (obj'.effect t (view st) t' (view st') ∨
      view st' = view st ∧ (t' = t ∨ obj'.internal t t'))
  internal : ∀ s s' t, rel s t → ok s' → obj.internal s s' →
    ∃ t', rel s' t' ∧ (t' = t ∨ obj'.internal t t')

section Refinement

variable {obj : Object σ St Req Rep} {obj' : Object τ St' Req' Rep'} {ok : σ → Prop}
  {rel : σ → τ → Prop} {view : St → St'} {onReq : Req → Req'} {onRep : Rep → Rep'}

/-- The second object, with the same calls. -/
structure Seen (rel : σ → τ → Prop) (view : St → St') (s : Clients Tid σ St)
    (t : Clients Tid τ St') : Prop where
  state : rel s.state t.state
  status : t.status = view ∘ s.status

theorem Refines.start (h : Refines obj obj' ok rel view onReq onRep) {s : σ} {t : τ}
    (hrel : rel s t) : Seen rel view (obj.start s : Clients Tid σ St) (obj'.start t) :=
  ⟨hrel, funext fun _ => h.idle.symm⟩

theorem Refines.step [DecidableEq Tid] (h : Refines obj obj' ok rel view onReq onRep)
    {s s' : Clients Tid σ St} {t : Clients Tid τ St'} {event : Option (Event Tid Req Rep)}
    (hseen : Seen rel view s t) (hstep : obj.Step s event s') (hok : ok s'.state) :
    ∃ t', Answers obj'.Step t (event.map (Event.map onReq onRep)) t' ∧ Seen rel view s' t' := by
  obtain ⟨hrel, hstatus⟩ := hseen
  have hself : ∀ u, t.status u = view (s.status u) := congrFun hstatus
  have hupdate : ∀ u st, Function.update t.status u (view st) =
      view ∘ Function.update s.status u st := fun u st => by
    rw [Function.comp_update, hstatus]
  cases hstep with
  | @invoke u req hidle =>
      refine ⟨_, .step (.invoke (t := u) ?_), hrel, ?_⟩
      · rw [hself, hidle, h.idle]
      · rw [← h.called, hupdate]
  | @respond u rep hfinished =>
      refine ⟨_, .step (.respond (t := u) ?_), hrel, ?_⟩
      · rw [hself, hfinished, h.finished]
      · rw [← h.idle, hupdate]
  | @effect u state st heffect =>
      obtain ⟨state', hrel', heffect' | ⟨hsame, rfl | hinternal⟩⟩ :=
        h.effect _ _ _ _ _ hrel hok heffect
      · rw [← hself] at heffect'
        exact ⟨_, .step (.effect heffect'), hrel', hupdate u st⟩
      · refine ⟨t, .stay, hrel', ?_⟩
        rw [← hupdate, hsame, ← hself, Function.update_eq_self]
      · refine ⟨_, .step (.internal hinternal), hrel', ?_⟩
        rw [← hupdate, hsame, ← hself, Function.update_eq_self]
  | internal hinternal =>
      obtain ⟨state', hrel', rfl | hinternal'⟩ := h.internal _ _ _ hrel hok hinternal
      · exact ⟨t, .stay, hrel', hstatus⟩
      · exact ⟨_, .step (.internal hinternal'), hrel', hstatus⟩

end Refinement

end Hcdb.Lib.Objects
