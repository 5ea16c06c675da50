import Mathlib.Data.List.Basic

namespace Hcdb.Lib.Traversal

section Yields

variable {σ α : Type*} {current? : σ → Option α} {next : σ → σ}

/-- The cursor in state `s` goes through exactly the elements of the list and is
exhausted after them. -/
inductive Yields (current? : σ → Option α) (next : σ → σ) : σ → List α → Prop
  | nil {s : σ} : current? s = none → Yields current? next s []
  | cons {s : σ} {a : α} {l : List α} : current? s = some a →
      Yields current? next (next s) l → Yields current? next s (a :: l)

theorem Yields.current?_eq {s : σ} {l : List α} (h : Yields current? next s l) :
    current? s = l.head? := by
  cases h with
  | nil hnone => exact hnone
  | cons hsome _ => exact hsome

theorem Yields.unique {s : σ} {l l' : List α} (h : Yields current? next s l)
    (h' : Yields current? next s l') : l = l' := by
  induction h generalizing l' with
  | nil hnone =>
      cases h' with
      | nil _ => rfl
      | cons hsome _ => simp [hnone] at hsome
  | cons hsome _ ih =>
      cases h' with
      | nil hnone => simp [hsome] at hnone
      | cons hsome' hrest =>
          rw [Option.some.inj (hsome.symm.trans hsome'), ih hrest]

end Yields

/-- A kind of cursor whose states bound how much they still have to go through. -/
class Cursor (σ : Type*) (α : outParam (Type*)) where
  current? : σ → Option α
  next : σ → σ
  left : σ → Nat
  left_next : ∀ {s : σ} {a : α}, current? s = some a → left (next s) < left s

namespace Cursor

variable {σ α : Type*} [Cursor σ α]

instance : Cursor (List α) α where
  current? := List.head?
  next := List.tail
  left := List.length
  left_next := by
    intro s a h
    cases s with
    | nil => simp at h
    | cons b l => simp

/-- The first `fuel` elements the cursor goes through. -/
def takeFrom : Nat → σ → List α
  | 0, _ => []
  | fuel + 1, s =>
      match current? s with
      | none => []
      | some a => a :: takeFrom fuel (next s)

/-- All that the cursor has still to give. -/
def toList (s : σ) : List α :=
  takeFrom (left s) s

theorem takeFrom_eq {s : σ} {n m : Nat} (hn : left s ≤ n) (hm : left s ≤ m) :
    takeFrom n s = takeFrom m s := by
  induction n generalizing s m with
  | zero =>
      cases m with
      | zero => rfl
      | succ m =>
          cases hcur : current? s with
          | none => simp [takeFrom, hcur]
          | some a =>
              have := left_next hcur
              omega
  | succ n ih =>
      cases hcur : current? s with
      | none =>
          cases m with
          | zero => simp [takeFrom, hcur]
          | succ m => simp [takeFrom, hcur]
      | some a =>
          have hlt := left_next hcur
          cases m with
          | zero => omega
          | succ m =>
              simp only [takeFrom, hcur]
              rw [ih (by omega) (by omega : left (next s) ≤ m)]

theorem toList_of_none {s : σ} (h : current? s = none) : toList s = [] := by
  rw [toList, takeFrom_eq (Nat.le_refl _) (Nat.le_succ (left s))]
  simp [takeFrom, h]

theorem toList_of_some {s : σ} {a : α} (h : current? s = some a) :
    toList s = a :: toList (next s) := by
  have hlt := left_next h
  rw [toList, takeFrom_eq (Nat.le_refl _) (Nat.le_succ (left s)), takeFrom]
  simp only [h]
  rw [takeFrom_eq (Nat.le_of_lt hlt) (Nat.le_refl _), toList]

theorem current?_eq_head? (s : σ) : current? s = (toList s).head? := by
  cases h : current? s with
  | none => simp [toList_of_none h]
  | some a => simp [toList_of_some h]

theorem length_toList_le (s : σ) : (toList s).length ≤ left s := by
  generalize hn : left s = n
  induction n using Nat.strongRecOn generalizing s with
  | ind n ih =>
      cases h : current? s with
      | none => simp [toList_of_none h]
      | some a =>
          have hlt := left_next h
          have hrec := ih _ (hn ▸ hlt) (next s) rfl
          rw [toList_of_some h, List.length_cons]
          omega

end Cursor

end Hcdb.Lib.Traversal
