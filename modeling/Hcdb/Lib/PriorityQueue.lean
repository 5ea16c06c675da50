import Mathlib.Data.List.Perm.Basic
import Mathlib.Order.Lattice

namespace Hcdb.Lib.PriorityQueue

variable {α β : Type*}

/-- Take out the first element that no other one is less than. -/
def popMin (less : α → α → Bool) : List α → Option (α × List α)
  | [] => none
  | a :: q =>
      match popMin less q with
      | none => some (a, [])
      | some (m, rest) => if less m a then some (m, a :: rest) else some (a, q)

theorem popMin_eq_none {less : α → α → Bool} {q : List α} : popMin less q = none ↔ q = [] := by
  cases q with
  | nil => simp [popMin]
  | cons a q =>
      simp only [popMin, reduceCtorEq, iff_false]
      split
      · simp
      · split <;> simp

theorem popMin_perm {less : α → α → Bool} {q rest : List α} {m : α}
    (h : popMin less q = some (m, rest)) : q.Perm (m :: rest) := by
  induction q generalizing m rest with
  | nil => simp [popMin] at h
  | cons a q ih =>
      simp only [popMin] at h
      split at h
      · rename_i hnone
        simp only [Option.some.injEq, Prod.mk.injEq] at h
        obtain ⟨rfl, rfl⟩ := h
        rw [popMin_eq_none.mp hnone]
      · rename_i m' rest' hsome
        split at h
        · simp only [Option.some.injEq, Prod.mk.injEq] at h
          obtain ⟨rfl, rfl⟩ := h
          exact ((ih hsome).cons a).trans (List.Perm.swap _ _ _)
        · simp only [Option.some.injEq, Prod.mk.injEq] at h
          obtain ⟨rfl, rfl⟩ := h
          exact List.Perm.refl _

theorem popMin_le {κ : Type*} [LinearOrder κ] {less : α → α → Bool} {key : α → κ}
    (hless : ∀ a b, less a b = decide (key a < key b)) {q rest : List α} {m : α}
    (h : popMin less q = some (m, rest)) : ∀ a ∈ q, key m ≤ key a := by
  induction q generalizing m rest with
  | nil => simp [popMin] at h
  | cons a q ih =>
      simp only [popMin, hless] at h
      split at h
      · rename_i hnone
        simp only [Option.some.injEq, Prod.mk.injEq] at h
        obtain ⟨rfl, rfl⟩ := h
        have hnil : q = [] := popMin_eq_none.mp (by simpa only [hless] using hnone)
        simp [hnil]
      · rename_i m' rest' hsome
        have hle := ih (by simpa only [hless] using hsome)
        split at h
        · rename_i hlt
          simp only [Option.some.injEq, Prod.mk.injEq] at h
          obtain ⟨rfl, rfl⟩ := h
          intro b hb
          rcases List.mem_cons.mp hb with rfl | hb
          · exact (of_decide_eq_true hlt).le
          · exact hle b hb
        · rename_i hlt
          simp only [Option.some.injEq, Prod.mk.injEq] at h
          obtain ⟨rfl, rfl⟩ := h
          have hge : key a ≤ key m' := by simpa using hlt
          intro b hb
          rcases List.mem_cons.mp hb with rfl | hb
          · exact le_rfl
          · exact hge.trans (hle b hb)

end Hcdb.Lib.PriorityQueue
