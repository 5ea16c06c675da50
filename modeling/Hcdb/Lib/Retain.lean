import Mathlib.Data.List.Basic
import Mathlib.Data.List.Pairwise

namespace Hcdb.Lib.Retain

variable {α κ : Type*} [DecidableEq κ] (key : α → κ) (final : α → Bool)

/-- Keep an element unless a final element of its key was kept before.  `done`
lists the keys of which one was. -/
def retain : List κ → List α → List α
  | _, [] => []
  | done, a :: l =>
      if key a ∈ done then retain done l
      else a :: retain (if final a then key a :: done else done) l

variable {key final}

theorem retain_sublist (done : List κ) (l : List α) : (retain key final done l).Sublist l := by
  induction l generalizing done with
  | nil => exact List.Sublist.refl _
  | cons a l ih =>
      unfold retain
      split
      · exact (ih done).cons a
      · exact (ih _).cons_cons a

/-- A search for a key that accepts every final element of it finds the same
element in the thinned list. -/
theorem find?_retain {k : κ} {p : α → Bool} (hkey : ∀ a, p a = true → key a = k)
    (hfinal : ∀ a, key a = k → final a = true → p a = true) {done : List κ} (hdone : k ∉ done)
    (l : List α) : (retain key final done l).find? p = l.find? p := by
  induction l generalizing done with
  | nil => rfl
  | cons a l ih =>
      unfold retain
      split
      · rename_i hmem
        have hne : ¬ p a = true := fun hpa => hdone (hkey a hpa ▸ hmem)
        rw [List.find?_cons_of_neg hne, ih hdone]
      · by_cases hpa : p a = true
        · rw [List.find?_cons_of_pos hpa, List.find?_cons_of_pos hpa]
        · rw [List.find?_cons_of_neg hpa, List.find?_cons_of_neg hpa]
          apply ih
          split
          · rename_i hf
            rw [List.mem_cons, not_or]
            exact ⟨fun hk => hpa (hfinal a hk.symm hf), hdone⟩
          · exact hdone

theorem mem_retain_iff (lt : α → α → Prop) (hirrefl : ∀ a, ¬ lt a a)
    (htrans : ∀ {a b c}, lt a b → lt b c → lt a c) {l : List α}
    (h : l.Pairwise fun a b => key a = key b → lt a b) (done : List κ) (a : α) :
    a ∈ retain key final done l ↔
      a ∈ l ∧ key a ∉ done ∧ ∀ b ∈ l, key b = key a → lt b a → final b = false := by
  induction l generalizing done with
  | nil => simp [retain]
  | cons c l ih =>
      obtain ⟨hhead, htail⟩ := List.pairwise_cons.mp h
      have hlt : ∀ b ∈ l, key b = key c → ¬ lt b c := fun b hb hk hbc =>
        hirrefl b (htrans hbc (hhead b hb hk.symm))
      unfold retain
      split
      · -- the key is done: the element goes, and so it is not what decides over the others
        rename_i hc
        rw [ih htail]
        constructor
        · rintro ⟨ha, hd, hmin⟩
          refine ⟨List.mem_cons_of_mem _ ha, hd, fun b hb hk hba => ?_⟩
          rcases List.mem_cons.mp hb with rfl | hb
          · exact absurd (hk ▸ hc) hd
          · exact hmin b hb hk hba
        · rintro ⟨ha, hd, hmin⟩
          rcases List.mem_cons.mp ha with rfl | ha
          · exact absurd hc hd
          · exact ⟨ha, hd, fun b hb => hmin b (List.mem_cons_of_mem _ hb)⟩
      · rename_i hc
        rw [List.mem_cons, ih htail]
        constructor
        · rintro (rfl | ⟨ha, hd, hmin⟩)
          · refine ⟨List.mem_cons_self, hc, fun b hb hk hba => ?_⟩
            rcases List.mem_cons.mp hb with rfl | hb
            · exact absurd hba (hirrefl b)
            · exact absurd hba (hlt b hb hk)
          · have hd' : key a ∉ done := by
              intro hmem
              apply hd
              split
              · exact List.mem_cons_of_mem _ hmem
              · exact hmem
            refine ⟨List.mem_cons_of_mem _ ha, hd', fun b hb hk hba => ?_⟩
            rcases List.mem_cons.mp hb with rfl | hb
            · by_contra hf
              rw [if_pos (by simpa using hf)] at hd
              exact hd (by simp [hk])
            · exact hmin b hb hk hba
        · rintro ⟨ha, hd, hmin⟩
          rcases List.mem_cons.mp ha with rfl | ha
          · exact Or.inl rfl
          · refine Or.inr ⟨ha, ?_, fun b hb => hmin b (List.mem_cons_of_mem _ hb)⟩
            by_cases hk : key c = key a
            · rw [if_neg (by simp [hmin c List.mem_cons_self hk (hhead a ha hk)])]
              exact hd
            · split
              · rw [List.mem_cons, not_or]
                exact ⟨fun h => hk h.symm, hd⟩
              · exact hd

end Hcdb.Lib.Retain
