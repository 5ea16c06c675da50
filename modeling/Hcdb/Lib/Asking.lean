import Mathlib.Logic.Basic

/-!
Programs that compute with the answers to the questions they ask.  Who answers may keep
a state, which no program can see as long as every question is answered as a function
would answer it.
-/

namespace Hcdb.Lib.Asking

variable {Q R α β σ : Type}

/-- A computation that asks questions on its way. -/
inductive Program (Q R α : Type) where
  | done (a : α)
  | ask (q : Q) (k : R → Program Q R α)

namespace Program

/-- The second computation starts with the result of the first. -/
def bind : Program Q R α → (α → Program Q R β) → Program Q R β
  | .done a, f => f a
  | .ask q k, f => .ask q fun r => (k r).bind f

instance instMonadProgram : Monad (Program Q R) where
  pure := done
  bind := bind

def asking (q : Q) : Program Q R R := .ask q .done

/-- Run a program against somebody who answers from a state. -/
def run (respond : σ → Q → R × σ) : Program Q R α → σ → α × σ
  | .done a, s => (a, s)
  | .ask q k, s => (k (respond s q).1).run respond (respond s q).2

/-- One of the answers that the program gets is bad. -/
def Meets (answer : Q → R) (bad : R → Prop) : Program Q R α → Prop
  | .done _ => False
  | .ask q k => bad (answer q) ∨ (k (answer q)).Meets answer bad

theorem not_meets_pure {answer : Q → R} {bad : R → Prop} (a : α) :
    ¬ (pure a : Program Q R α).Meets answer bad := id

theorem meets_asking {answer : Q → R} {bad : R → Prop} (q : Q) :
    (asking q : Program Q R R).Meets answer bad ↔ bad (answer q) :=
  or_iff_left id

end Program

/-- When `answer` gives all answers, the program asks only questions that are `ok` and
returns the value. -/
inductive Computes (answer : Q → R) (ok : Q → Prop) : Program Q R α → α → Prop
  | done {a : α} : Computes answer ok (.done a) a
  | ask {q : Q} {k : R → Program Q R α} {a : α} : ok q → Computes answer ok (k (answer q)) a →
      Computes answer ok (.ask q k) a

namespace Computes

variable {answer : Q → R} {ok : Q → Prop}

theorem pure (a : α) : Computes answer ok (Pure.pure a) a := done

theorem asking {q : Q} (h : ok q) : Computes answer ok (Program.asking q) (answer q) := ask h done

theorem bind {p : Program Q R α} {f : α → Program Q R β} {a : α} {b : β}
    (hp : Computes answer ok p a) (hf : Computes answer ok (f a) b) :
    Computes answer ok (p >>= f) b := by
  induction hp with
  | done => exact hf
  | ask hok _ ih => exact ask hok (ih hf)

theorem meets_bind {bad : R → Prop} {p : Program Q R α} {a : α} (hp : Computes answer ok p a)
    (f : α → Program Q R β) : (p >>= f).Meets answer bad ↔
      p.Meets answer bad ∨ (f a).Meets answer bad := by
  induction hp with
  | done => exact (or_iff_right id).symm
  | @ask q k a _ _ ih =>
      have hcont : (Program.ask q k >>= f).Meets answer bad ↔
          bad (answer q) ∨ (k (answer q) >>= f).Meets answer bad := Iff.rfl
      rw [hcont, ih, Program.Meets, or_assoc]

theorem mono {ok' : Q → Prop} (hok : ∀ q, ok q → ok' q) {p : Program Q R α} {a : α}
    (h : Computes answer ok p a) : Computes answer ok' p a := by
  induction h with
  | done => exact done
  | ask hq _ ih => exact ask (hok _ hq) ih

/-- The state of whoever answers stays unseen. -/
theorem run {respond : σ → Q → R × σ} {inv : σ → Prop}
    (hrespond : ∀ s q, inv s → ok q → (respond s q).1 = answer q ∧ inv (respond s q).2)
    {p : Program Q R α} {a : α} (h : Computes answer ok p a) {s : σ} (hs : inv s) :
    (p.run respond s).1 = a ∧ inv (p.run respond s).2 := by
  induction h generalizing s with
  | done => exact ⟨rfl, hs⟩
  | @ask q k a hok _ ih =>
      obtain ⟨hanswer, hinv⟩ := hrespond s q hs hok
      rw [Program.run, hanswer]
      exact ih hinv

end Computes

end Hcdb.Lib.Asking
