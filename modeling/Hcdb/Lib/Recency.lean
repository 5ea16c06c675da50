import Mathlib.Data.Finset.Card

/-!
Elements in the order in which they were last used.  A list of uses has the last use in
front; of a bounded store that always drops what was not used for the longest time just
the beginning of that order is left.
-/

namespace Hcdb.Lib.Recency

variable {κ : Type*} [DecidableEq κ]

def without (k : κ) (l : List κ) : List κ := l.filter fun x => decide (x ≠ k)

/-- The element moves to the front. -/
def touch (k : κ) (l : List κ) : List κ := k :: without k l

/-- The used elements, the last used one in front. -/
def recency : List κ → List κ
  | [] => []
  | k :: uses => touch k (recency uses)

/-- The elements in front of this one. -/
def before (k : κ) (l : List κ) : List κ := l.takeWhile fun x => decide (x ≠ k)

@[simp] theorem mem_without {k x : κ} {l : List κ} : x ∈ without k l ↔ x ∈ l ∧ x ≠ k := by
  simp [without]

theorem without_eq_self {k : κ} {l : List κ} (h : k ∉ l) : without k l = l := by
  apply List.filter_eq_self.mpr
  rintro x hx
  rw [decide_eq_true_eq]
  rintro rfl
  exact h hx

@[simp] theorem before_cons_self (k : κ) (l : List κ) : before k (k :: l) = [] := by
  simp [before]

theorem before_cons_of_ne {k a : κ} (h : a ≠ k) (l : List κ) :
    before k (a :: l) = a :: before k l := by
  simp [before, h]

theorem before_filter {p : κ → Bool} {k : κ} (h : p k = true) (l : List κ) :
    before k (l.filter p) = (before k l).filter p := by
  induction l with
  | nil => rfl
  | cons a l ih =>
      by_cases hak : a = k
      · rw [hak, List.filter_cons_of_pos h, before_cons_self, before_cons_self, List.filter_nil]
      · rw [before_cons_of_ne hak]
        by_cases ha : p a = true
        · rw [List.filter_cons_of_pos ha, List.filter_cons_of_pos ha, before_cons_of_ne hak, ih]
        · rw [List.filter_cons_of_neg ha, List.filter_cons_of_neg ha, ih]

theorem nodup_touch (k : κ) {l : List κ} (h : l.Nodup) : (touch k l).Nodup :=
  List.nodup_cons.mpr ⟨by simp, h.filter _⟩

theorem mem_recency {k : κ} {uses : List κ} : k ∈ recency uses ↔ k ∈ uses := by
  induction uses with
  | nil => rfl
  | cons a uses ih =>
      rw [recency, touch, List.mem_cons, List.mem_cons, mem_without, ih]
      by_cases h : k = a
      · simp [h]
      · simp [h]

theorem nodup_recency (uses : List κ) : (recency uses).Nodup := by
  induction uses with
  | nil => exact List.nodup_nil
  | cons a uses ih => exact nodup_touch a ih

theorem length_recency (uses : List κ) : (recency uses).length = uses.toFinset.card := by
  rw [← List.toFinset_card_of_nodup (nodup_recency uses)]
  congr 1
  ext k
  simp [mem_recency]

theorem before_recency (k : κ) (uses : List κ) :
    before k (recency uses) = recency (before k uses) := by
  induction uses with
  | nil => rfl
  | cons a uses ih =>
      by_cases hak : a = k
      · simp [recency, touch, hak]
      · have hkeep := before_filter (p := fun x => decide (x ≠ a)) (k := k)
          (by simpa using Ne.symm hak) (recency uses)
        rw [recency, touch, before_cons_of_ne hak, before_cons_of_ne hak, without, hkeep, ih]
        rfl

theorem mem_take_iff {k : κ} {n : Nat} {l : List κ} :
    k ∈ l.take n ↔ k ∈ l ∧ (before k l).length < n := by
  induction l generalizing n with
  | nil => simp
  | cons a l ih =>
      cases n with
      | zero => simp
      | succ n =>
          by_cases hak : a = k
          · simp [hak]
          · rw [List.take_succ_cons, List.mem_cons, List.mem_cons, ih, before_cons_of_ne hak,
              List.length_cons, Nat.succ_lt_succ_iff]
            simp [Ne.symm hak]

/-- An element is among the `n` last used ones when fewer than `n` others were used since
its own last use. -/
theorem mem_take_recency {k : κ} {n : Nat} {uses : List κ} :
    k ∈ (recency uses).take n ↔ k ∈ uses ∧ (before k uses).toFinset.card < n := by
  rw [mem_take_iff, mem_recency, before_recency, length_recency]

theorem length_le_without (k : κ) {l : List κ} (h : l.Nodup) :
    l.length ≤ (without k l).length + 1 := by
  by_cases hk : k ∈ l
  · have herase : without k l = l.erase k := by
      rw [h.erase_eq_filter]
      apply List.filter_congr
      intro x _
      rw [Bool.eq_iff_iff, decide_eq_true_eq, bne_iff_ne]
    rw [herase, List.length_erase_of_mem hk]
    omega
  · rw [without_eq_self hk]
    omega

/-- What was dropped earlier makes no difference to what is dropped later. -/
theorem take_touch_take {n : Nat} (hn : 0 < n) (k : κ) {l : List κ} (h : l.Nodup) :
    (touch k (l.take n)).take n = (touch k l).take n := by
  obtain ⟨m, rfl⟩ : ∃ m, n = m + 1 := ⟨n - 1, by omega⟩
  rw [touch, touch, List.take_succ_cons, List.take_succ_cons]
  congr 1
  by_cases hlen : l.length ≤ m + 1
  · rw [List.take_of_length_le hlen]
  · have hmany := length_le_without k (h.sublist (List.take_sublist (m + 1) l))
    rw [List.length_take_of_le (by omega)] at hmany
    have hsplit : without k l = without k (l.take (m + 1)) ++ without k (l.drop (m + 1)) := by
      rw [without, without, without, ← List.filter_append, List.take_append_drop]
    rw [hsplit, List.take_append_of_le_length (by omega)]

end Hcdb.Lib.Recency
