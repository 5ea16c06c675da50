import Mathlib.Data.List.Sort
import Mathlib.Data.List.Perm.Subperm
import Mathlib.Order.Compare
import Mathlib.Tactic.Linarith

/-!
Lists strictly sorted by a key into a linear order.  Such a list is a finite
ordered map: it has an insertion that replaces, a seek that is a filter, and it
is determined by its members.
-/

namespace Hcdb.Lib.SortedList

/-- On a list whose early elements satisfy `p` whenever a later one does,
skipping the leading elements that satisfy `p` skips all of them. -/
theorem dropWhile_eq_filter_not {α : Type*} {p : α → Bool} {l : List α}
    (h : l.Pairwise fun a b => p b = true → p a = true) :
    l.dropWhile p = l.filter fun a => !p a := by
  induction l with
  | nil => rfl
  | cons a l ih =>
      rw [List.pairwise_cons] at h
      by_cases ha : p a = true
      · simp [ha, ih h.2]
      · have hall : ∀ b ∈ l, p b = false := by
          intro b hb
          by_contra hpb
          exact ha (h.1 b hb (by simpa using hpb))
        have hfilter : l.filter (fun b => !p b) = l := by
          rw [List.filter_eq_self]
          intro b hb
          simp [hall b hb]
        simp [ha, hfilter]

theorem takeWhile_eq_filter {α : Type*} {p : α → Bool} {l : List α}
    (h : l.Pairwise fun a b => p b = true → p a = true) :
    l.takeWhile p = l.filter p := by
  induction l with
  | nil => rfl
  | cons a l ih =>
      rw [List.pairwise_cons] at h
      by_cases ha : p a = true
      · simp [ha, ih h.2]
      · have hnil : l.filter p = [] := by
          rw [List.filter_eq_nil_iff]
          intro b hb hpb
          exact ha (h.1 b hb hpb)
        simp [ha, hnil]

section Keyed

variable {α κ : Type*} [LinearOrder κ] (f : α → κ)

/-- The values of `f` go up along the list, and no two are equal. -/
def SortedBy (l : List α) : Prop :=
  l.Pairwise fun a b => f a < f b

instance (l : List α) : Decidable (SortedBy f l) :=
  inferInstanceAs (Decidable (l.Pairwise _))

variable {f} {l l₁ l₂ : List α}

@[simp] theorem sortedBy_nil : SortedBy f [] := List.Pairwise.nil

theorem sortedBy_cons {a : α} : SortedBy f (a :: l) ↔ (∀ b ∈ l, f a < f b) ∧ SortedBy f l :=
  List.pairwise_cons

theorem SortedBy.sublist (h : SortedBy f l₂) (hs : l₁.Sublist l₂) : SortedBy f l₁ :=
  List.Pairwise.sublist hs h

theorem SortedBy.filter (h : SortedBy f l) (p : α → Bool) : SortedBy f (l.filter p) :=
  h.sublist List.filter_sublist

theorem SortedBy.nodup (h : SortedBy f l) : l.Nodup :=
  h.imp fun hlt heq => absurd (heq ▸ hlt) (lt_irrefl _)

theorem SortedBy.eq_of_key_eq (h : SortedBy f l) {a b : α} (ha : a ∈ l) (hb : b ∈ l)
    (hab : f a = f b) : a = b := by
  induction l with
  | nil => simp at ha
  | cons c l ih =>
      rw [sortedBy_cons] at h
      rcases List.mem_cons.mp ha with rfl | ha'
      · rcases List.mem_cons.mp hb with rfl | hb'
        · rfl
        · exact absurd (h.1 b hb') (by simp [hab])
      · rcases List.mem_cons.mp hb with rfl | hb'
        · exact absurd (h.1 a ha') (by simp [hab])
        · exact ih h.2 ha' hb'

theorem SortedBy.eq_of_mem_iff (h₁ : SortedBy f l₁) (h₂ : SortedBy f l₂)
    (hmem : ∀ a, a ∈ l₁ ↔ a ∈ l₂) : l₁ = l₂ := by
  have hperm : l₁.Perm l₂ := (List.perm_ext_iff_of_nodup h₁.nodup h₂.nodup).mpr hmem
  apply hperm.eq_of_pairwise _ h₁ h₂
  intro a b _ _ hab hba
  exact absurd (hab.trans hba) (lt_irrefl _)

theorem SortedBy.dropWhile_lt (h : SortedBy f l) (p : κ) :
    l.dropWhile (fun a => decide (f a < p)) = l.filter fun a => decide (p ≤ f a) := by
  rw [dropWhile_eq_filter_not]
  · apply List.filter_congr
    intro a _
    by_cases hlt : f a < p
    · simp [hlt]
    · simp [hlt, not_lt.mp hlt]
  · apply List.Pairwise.imp _ h
    intro a b hab
    simp only [decide_eq_true_eq]
    exact fun hb => hab.trans hb

theorem SortedBy.head?_le (h : SortedBy f l) {a b : α} (ha : l.head? = some a)
    (hb : b ∈ l) : f a ≤ f b := by
  cases l with
  | nil => simp at ha
  | cons c l =>
      simp only [List.head?_cons, Option.some.injEq] at ha
      subst ha
      rw [sortedBy_cons] at h
      rcases List.mem_cons.mp hb with rfl | hb
      · exact le_rfl
      · exact (h.1 b hb).le

variable (f) in
/-- Insert into a sorted list, replacing the element with an equal key. -/
def insertBy (x : α) : List α → List α
  | [] => [x]
  | y :: ys =>
      if f x < f y then x :: y :: ys
      else if f x = f y then x :: ys
      else y :: insertBy x ys

theorem mem_insertBy_of_sortedBy (h : SortedBy f l) {x y : α} :
    y ∈ insertBy f x l ↔ y = x ∨ y ∈ l ∧ f y ≠ f x := by
  induction l with
  | nil => simp [insertBy]
  | cons z l ih =>
      rw [sortedBy_cons] at h
      unfold insertBy
      split
      · rename_i hlt
        have hne : ∀ w ∈ z :: l, f w ≠ f x := by
          intro w hw
          rcases List.mem_cons.mp hw with rfl | hw
          · exact hlt.ne'
          · exact (hlt.trans (h.1 w hw)).ne'
        simp only [List.mem_cons]
        constructor
        · rintro (rfl | hy)
          · exact Or.inl rfl
          · exact Or.inr ⟨hy, hne y (List.mem_cons.mpr hy)⟩
        · rintro (rfl | ⟨hy, -⟩)
          · exact Or.inl rfl
          · exact Or.inr hy
      · split
        · rename_i heq
          have hne : ∀ w ∈ l, f w ≠ f x := fun w hw => by
            rw [heq]
            exact (h.1 w hw).ne'
          simp only [List.mem_cons]
          constructor
          · rintro (rfl | hy)
            · exact Or.inl rfl
            · exact Or.inr ⟨Or.inr hy, hne y hy⟩
          · rintro (rfl | ⟨rfl | hy, hne'⟩)
            · exact Or.inl rfl
            · exact absurd heq.symm hne'
            · exact Or.inr hy
        · rename_i hne
          simp only [List.mem_cons, ih h.2]
          constructor
          · rintro (rfl | rfl | ⟨hy, hy'⟩)
            · exact Or.inr ⟨Or.inl rfl, fun hc => hne hc.symm⟩
            · exact Or.inl rfl
            · exact Or.inr ⟨Or.inr hy, hy'⟩
          · rintro (rfl | ⟨rfl | hy, hy'⟩)
            · exact Or.inr (Or.inl rfl)
            · exact Or.inl rfl
            · exact Or.inr (Or.inr ⟨hy, hy'⟩)

theorem SortedBy.insertBy (h : SortedBy f l) (x : α) : SortedBy f (insertBy f x l) := by
  induction l with
  | nil => simp [SortedList.insertBy, sortedBy_cons]
  | cons z l ih =>
      have hz := sortedBy_cons.mp h
      unfold SortedList.insertBy
      split
      · rename_i hlt
        rw [sortedBy_cons]
        refine ⟨fun b hb => ?_, h⟩
        rcases List.mem_cons.mp hb with rfl | hb
        · exact hlt
        · exact hlt.trans (hz.1 b hb)
      · split
        · rename_i heq
          exact sortedBy_cons.mpr ⟨fun b hb => heq ▸ hz.1 b hb, hz.2⟩
        · rename_i hnlt hne
          rw [sortedBy_cons]
          refine ⟨fun b hb => ?_, ih hz.2⟩
          rcases (mem_insertBy_of_sortedBy hz.2).mp hb with rfl | ⟨hb, -⟩
          · exact lt_of_le_of_ne (not_lt.mp hnlt) fun hc => hne hc.symm
          · exact hz.1 b hb

variable (f) in
/-- The list in the order of `f`, where equal elements keep theirs. -/
def sortBy (l : List α) : List α :=
  l.insertionSort fun a b => f a ≤ f b

theorem sortBy_perm (l : List α) : (sortBy f l).Perm l :=
  List.perm_insertionSort _ l

@[simp] theorem mem_sortBy {a : α} : a ∈ sortBy f l ↔ a ∈ l :=
  (sortBy_perm l).mem_iff

theorem sortBy_pairwise_le (l : List α) : (sortBy f l).Pairwise fun a b => f a ≤ f b :=
  haveI : Std.Total (fun a b : α => f a ≤ f b) := ⟨fun a b => le_total (f a) (f b)⟩
  haveI : IsTrans α (fun a b : α => f a ≤ f b) := ⟨fun _ _ _ => le_trans⟩
  List.pairwise_insertionSort _ l

theorem sortBy_sortedBy (h : l.Pairwise fun a b => f a ≠ f b) : SortedBy f (sortBy f l) := by
  have hne : (sortBy f l).Pairwise fun a b => f a ≠ f b :=
    ((sortBy_perm l).pairwise_iff fun hab => hab.symm).mpr h
  exact (hne.and (sortBy_pairwise_le l)).imp fun ⟨hn, hle⟩ => lt_of_le_of_ne hle hn

end Keyed

end Hcdb.Lib.SortedList
