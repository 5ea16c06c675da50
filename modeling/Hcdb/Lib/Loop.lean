import Mathlib.Data.Nat.Init

namespace Hcdb.Lib.Loop

variable {α β : Type*} {turn : α → β ⊕ α}

/-- The loop, started in a state, comes to an end and leaves with the result. -/
inductive Returns (turn : α → β ⊕ α) : α → β → Prop
  | exit {a : α} {b : β} : turn a = .inl b → Returns turn a b
  | again {a a' : α} {b : β} : turn a = .inr a' → Returns turn a' b → Returns turn a b

/-- A loop that is cut off after so many turns is the loop itself, if every turn
makes the state smaller and the number is not below the size of the state. -/
theorem returns_of_fuel (run : Nat → α → β) (inv : α → Prop) (size : α → Nat)
    (hrun : ∀ fuel a, run (fuel + 1) a = (turn a).elim id (run fuel))
    (hsmaller : ∀ a a', inv a → turn a = .inr a' → inv a' ∧ size a' < size a)
    (hzero : ∀ a, inv a → size a = 0 → turn a = .inl (run 0 a)) {fuel : Nat} {a : α}
    (ha : inv a) (hfuel : size a ≤ fuel) : Returns turn a (run fuel a) := by
  induction fuel generalizing a with
  | zero => exact .exit (hzero a ha (Nat.le_zero.mp hfuel))
  | succ fuel ih =>
      rw [hrun]
      cases hturn : turn a with
      | inl b => exact .exit hturn
      | inr a' =>
          obtain ⟨ha', hlt⟩ := hsmaller a a' ha hturn
          exact .again hturn (ih ha' (Nat.le_of_lt_succ (Nat.lt_of_lt_of_le hlt hfuel)))

end Hcdb.Lib.Loop
