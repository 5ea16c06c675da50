import Hcdb.Lib.PriorityQueue

/-!
A binary heap in an array.  An element that is too small for its place is sifted up, one
that is too large is sifted down, and what comes out of the heap is what comes out of the
list of its elements.
-/

namespace Hcdb.Lib.BinaryHeap

open Hcdb.Lib.PriorityQueue

variable {α κ : Type*}

def lessAt (less : α → α → Bool) (a : Array α) (i j : Nat) : Bool :=
  match a[i]?, a[j]? with
  | some x, some y => less x y
  | _, _ => false

/-- Move the element at `j` up as long as it is less than its parent. -/
def up (less : α → α → Bool) (a : Array α) (j : Nat) : Array α :=
  if 0 < j ∧ lessAt less a j ((j - 1) / 2) = true then
    up less (a.swapIfInBounds ((j - 1) / 2) j) ((j - 1) / 2)
  else a
termination_by j
decreasing_by omega

/-- The child of `i` that is less than the other one, if there are two within `n`. -/
def child (less : α → α → Bool) (a : Array α) (i n : Nat) : Nat :=
  if 2 * i + 2 < n ∧ lessAt less a (2 * i + 2) (2 * i + 1) = true then 2 * i + 2 else 2 * i + 1

/-- Move the element at `i` down as long as one of its children is less. -/
def down (less : α → α → Bool) (a : Array α) (i n : Nat) : Array α :=
  if 2 * i + 1 < n ∧ lessAt less a (child less a i n) i = true then
    down less (a.swapIfInBounds i (child less a i n)) (child less a i n) n
  else a
termination_by n - i
decreasing_by
  unfold child
  split <;> omega

/-- Append the element and move it up. -/
def push (less : α → α → Bool) (a : Array α) (x : α) : Array α := up less (a.push x) a.size

/-- Swap the first element to the end, restore the heap in front of it and take it off. -/
def pop (less : α → α → Bool) (a : Array α) : Option (α × Array α) :=
  let b := down less (a.swapIfInBounds 0 (a.size - 1)) 0 (a.size - 1)
  b.back?.map fun x => (x, b.pop)

theorem getElem?_swap {a : Array α} {i j : Nat} (hi : i < a.size) (hj : j < a.size) (k : Nat) :
    (a.swapIfInBounds i j)[k]? = if k = i then a[j]? else if k = j then a[i]? else a[k]? := by
  rw [Array.swapIfInBounds_def, dif_pos hi, dif_pos hj, Array.getElem?_swap]
  grind

theorem swap_perm (a : Array α) (i j : Nat) : (a.swapIfInBounds i j).Perm a := by
  rw [Array.swapIfInBounds_def]
  split
  · split
    · exact Array.swap_perm _ _
    · exact Array.Perm.refl _
  · exact Array.Perm.refl _

theorem up_perm (less : α → α → Bool) (a : Array α) (j : Nat) : (up less a j).Perm a := by
  fun_induction up less a j with
  | case1 a j _ ih => exact ih.trans (swap_perm _ _ _)
  | case2 a j _ => exact Array.Perm.refl _

theorem down_perm (less : α → α → Bool) (a : Array α) (i n : Nat) :
    (down less a i n).Perm a := by
  fun_induction down less a i n with
  | case1 a i _ ih => exact ih.trans (swap_perm _ _ _)
  | case2 a i _ => exact Array.Perm.refl _

section Order

variable [LinearOrder κ] {key : α → κ} {less : α → α → Bool} {a : Array α} {i j k n : Nat}

/-- The element at `i`, if there are elements at both places, is not above that at `j`. -/
def Below (key : α → κ) (a : Array α) (i j : Nat) : Prop :=
  ∀ x ∈ a[i]?, ∀ y ∈ a[j]?, key x ≤ key y

/-- No element is below its parent. -/
def IsHeap (key : α → κ) (a : Array α) (n : Nat) : Prop :=
  ∀ c, 0 < c → c < n → Below key a ((c - 1) / 2) c

theorem Below.trans (h : Below key a i j) (h' : Below key a j k)
    (hheld : k < a.size → j < a.size) : Below key a i k := by
  intro x hx z hz
  have hj : j < a.size := hheld (Array.getElem?_eq_some_iff.mp hz).1
  have hy : a[j] ∈ a[j]? := Array.getElem?_eq_getElem hj
  exact (h x hx _ hy).trans (h' _ hy z hz)

theorem Below.congr {b : Array α} {i' j' : Nat} (h : Below key a i j) (hi : b[i']? = a[i]?)
    (hj : b[j']? = a[j]?) : Below key b i' j' := by
  rw [Below, hi, hj]
  exact h

section Less

variable (hless : ∀ x y, less x y = decide (key x < key y))
include hless

theorem below_of_lessAt (h : lessAt less a i j = true) :
    i < a.size ∧ j < a.size ∧ Below key a i j := by
  unfold lessAt at h
  split at h
  · rename_i x y hx hy
    refine ⟨(Array.getElem?_eq_some_iff.mp hx).1, (Array.getElem?_eq_some_iff.mp hy).1, ?_⟩
    intro x' hx' y' hy'
    obtain rfl := Option.some.inj (hx.symm.trans hx')
    obtain rfl := Option.some.inj (hy.symm.trans hy')
    rw [hless] at h
    exact (of_decide_eq_true h).le
  · simp at h

theorem below_of_not_lessAt (h : lessAt less a i j ≠ true) : Below key a j i := by
  intro y hy x hx
  rw [Option.mem_def] at hx hy
  simp only [lessAt, hx, hy, hless] at h
  exact not_lt.mp fun hlt => h (decide_eq_true hlt)

end Less

/-- A heap but for the element at `j`, which may be below its parent; its children are
not. -/
structure UpOrder (key : α → κ) (a : Array α) (j : Nat) : Prop where
  others : ∀ c, 0 < c → c ≠ j → Below key a ((c - 1) / 2) c
  across : ∀ c, 0 < c → (c - 1) / 2 = j → 0 < j → Below key a ((j - 1) / 2) c

theorem UpOrder.swap (h : UpOrder key a j) (hj : 0 < j) (hsize : j < a.size)
    (hbelow : Below key a j ((j - 1) / 2)) :
    UpOrder key (a.swapIfInBounds ((j - 1) / 2) j) ((j - 1) / 2) := by
  have hget := getElem?_swap (show (j - 1) / 2 < a.size by omega) hsize
  refine ⟨fun c hc hne => ?_, fun c hc hparent hpos => ?_⟩
  · by_cases hcj : c = j
    · subst hcj
      exact hbelow.congr (by rw [hget, if_pos rfl])
        (by rw [hget, if_neg (by omega), if_pos rfl])
    · have hplace : (a.swapIfInBounds ((j - 1) / 2) j)[c]? = a[c]? := by
        rw [hget, if_neg hne, if_neg hcj]
      by_cases hp : (c - 1) / 2 = (j - 1) / 2
      · have hle := h.others c hc hcj
        rw [hp] at hle ⊢
        refine (hbelow.trans hle ?_).congr (by rw [hget, if_pos rfl]) hplace
        omega
      · by_cases hp' : (c - 1) / 2 = j
        · rw [hp']
          exact (h.across c hc hp' hj).congr (by rw [hget, if_neg (by omega), if_pos rfl]) hplace
        · exact (h.others c hc hcj).congr (by rw [hget, if_neg hp, if_neg hp']) hplace
  · have hgrand : (a.swapIfInBounds ((j - 1) / 2) j)[((j - 1) / 2 - 1) / 2]? =
        a[((j - 1) / 2 - 1) / 2]? := by
      rw [hget, if_neg (by omega), if_neg (by omega)]
    have hparent' := h.others ((j - 1) / 2) hpos (by omega)
    by_cases hcj : c = j
    · subst hcj
      exact hparent'.congr hgrand (by rw [hget, if_neg (by omega), if_pos rfl])
    · have hle := h.others c hc hcj
      rw [hparent] at hle
      exact (hparent'.trans hle (by omega)).congr hgrand
        (by rw [hget, if_neg (by omega), if_neg hcj])

theorem isHeap_up (hless : ∀ x y, less x y = decide (key x < key y)) (h : UpOrder key a j)
    (n : Nat) : IsHeap key (up less a j) n := by
  fun_induction up less a j with
  | case1 a j hstep ih =>
      obtain ⟨hj, -, hbelow⟩ := below_of_lessAt hless hstep.2
      exact ih (h.swap hstep.1 hj hbelow)
  | case2 a j hstop =>
      intro c hc _
      by_cases hcj : c = j
      · subst hcj
        exact below_of_not_lessAt hless fun hlt => hstop ⟨hc, hlt⟩
      · exact h.others c hc hcj

/-- The first `n` places are a heap but for the element at `i`, which may be above its
children; its parent is not. -/
structure DownOrder (key : α → κ) (a : Array α) (i n : Nat) : Prop where
  others : ∀ c, 0 < c → c < n → (c - 1) / 2 ≠ i → Below key a ((c - 1) / 2) c
  across : ∀ c, 0 < c → c < n → (c - 1) / 2 = i → 0 < i → Below key a ((i - 1) / 2) c

/-- The child that is taken is not above the other one. -/
structure IsChild (key : α → κ) (a : Array α) (i n j : Nat) : Prop where
  lt : j < n
  parent : (j - 1) / 2 = i
  gt : i < j
  held : ∀ c, 0 < c → (c - 1) / 2 = i → c < a.size → j < a.size
  least : ∀ c, 0 < c → c < n → (c - 1) / 2 = i → c ≠ j → Below key a j c

theorem isChild_child (hless : ∀ x y, less x y = decide (key x < key y)) (h : 2 * i + 1 < n) :
    IsChild key a i n (child less a i n) := by
  unfold child
  split
  · rename_i hright
    obtain ⟨hheld, -, hbelow⟩ := below_of_lessAt hless hright.2
    refine ⟨hright.1, by omega, by omega, fun _ _ _ _ => hheld, fun c hc hcn hparent hne => ?_⟩
    obtain rfl : c = 2 * i + 1 := by omega
    exact hbelow
  · rename_i hleft
    refine ⟨h, by omega, by omega, by omega, fun c hc hcn hparent hne => ?_⟩
    obtain rfl : c = 2 * i + 2 := by omega
    exact below_of_not_lessAt hless fun hlt => hleft ⟨hcn, hlt⟩

theorem DownOrder.swap (h : DownOrder key a i n) (hchild : IsChild key a i n j)
    (hi : i < a.size) (hj : j < a.size) (hbelow : Below key a j i) :
    DownOrder key (a.swapIfInBounds i j) j n := by
  have hget := getElem?_swap hi hj
  have hparent := hchild.parent
  have hlt := hchild.gt
  refine ⟨fun c hc hcn hne => ?_, fun c hc hcn hcj _ => ?_⟩
  · by_cases hcj : c = j
    · subst hcj
      rw [hparent]
      exact hbelow.congr (by rw [hget, if_pos rfl]) (by rw [hget, if_neg (by omega), if_pos rfl])
    · by_cases hci : c = i
      · subst hci
        exact (h.across j (by omega) hchild.lt hparent hc).congr
          (by rw [hget, if_neg (by omega), if_neg hne]) (by rw [hget, if_pos rfl])
      · have hplace : (a.swapIfInBounds i j)[c]? = a[c]? := by rw [hget, if_neg hci, if_neg hcj]
        by_cases hp : (c - 1) / 2 = i
        · rw [hp]
          exact (hchild.least c hc hcn hp hcj).congr (by rw [hget, if_pos rfl]) hplace
        · exact (h.others c hc hcn hp).congr (by rw [hget, if_neg hp, if_neg hne]) hplace
  · have hle := h.others c hc hcn (by omega)
    rw [hcj] at hle
    rw [hparent]
    exact hle.congr (by rw [hget, if_pos rfl]) (by rw [hget, if_neg (by omega), if_neg (by omega)])

theorem isHeap_down (hless : ∀ x y, less x y = decide (key x < key y))
    (h : DownOrder key a i n) : IsHeap key (down less a i n) n := by
  fun_induction down less a i n with
  | case1 a i hstep ih =>
      obtain ⟨hj, hi, hbelow⟩ := below_of_lessAt hless hstep.2
      exact ih (h.swap (isChild_child hless hstep.1) hi hj hbelow)
  | case2 a i hstop =>
      intro c hc hcn
      by_cases hp : (c - 1) / 2 = i
      · have hchild : IsChild key a i n (child less a i n) :=
          isChild_child hless (by omega)
        have hle : Below key a i (child less a i n) :=
          below_of_not_lessAt hless fun hlt => hstop ⟨by omega, hlt⟩
        rw [hp]
        by_cases hcj : c = child less a i n
        · rwa [hcj]
        · exact hle.trans (hchild.least c hc hcn hp hcj) (hchild.held c hc hp)
      · exact h.others c hc hcn hp

theorem getElem?_down (less : α → α → Bool) (a : Array α) (i : Nat) (hk : n ≤ k) :
    (down less a i n)[k]? = a[k]? := by
  fun_induction down less a i n with
  | case1 a i hstep ih =>
      have hlt : child less a i n < n := by
        unfold child
        split <;> omega
      rw [ih, Array.swapIfInBounds_def]
      split
      · split
        · rw [Array.getElem?_swap, if_neg (by omega), if_neg (by omega)]
        · rfl
      · rfl
  | case2 a i _ => rfl

theorem IsHeap.root_le (h : IsHeap key a a.size) (hk : k < a.size) : Below key a 0 k := by
  induction k using Nat.strong_induction_on with
  | _ k ih =>
      rcases Nat.eq_zero_or_pos k with rfl | hpos
      · intro x hx y hy
        rw [Option.mem_unique hx hy]
      · exact (ih ((k - 1) / 2) (by omega) (by omega)).trans (h k hpos hk) fun _ => by omega

/-- The array is a heap of the elements of the list. -/
structure Holds (key : α → κ) (a : Array α) (l : List α) : Prop where
  heap : IsHeap key a a.size
  perm : a.toList.Perm l

variable {l : List α}

theorem holds_empty : Holds key #[] [] where
  heap := by
    intro c _ hc
    simp at hc
  perm := List.Perm.refl _

theorem Holds.push (h : Holds key a l) (hless : ∀ x y, less x y = decide (key x < key y))
    (x : α) : Holds key (push less a x) (x :: l) where
  heap := by
    refine isHeap_up hless ⟨fun c hc hne => ?_, fun c hc hparent hpos => ?_⟩ _
    · rcases Nat.lt_or_ge c a.size with hlt | hge
      · have hsame : ∀ k < a.size, (a.push x)[k]? = a[k]? := fun k hk => by
          rw [Array.getElem?_push, if_neg (Nat.ne_of_lt hk)]
        exact (h.heap c hc hlt).congr (hsame _ (by omega)) (hsame c hlt)
      · intro y hy z hz
        have hsize := (Array.getElem?_eq_some_iff.mp hz).1
        rw [Array.size_push] at hsize
        omega
    · intro y hy z hz
      have hsize := (Array.getElem?_eq_some_iff.mp hz).1
      rw [Array.size_push] at hsize
      omega
  perm := by
    have hperm := (up_perm less (a.push x) a.size).toList
    rw [Array.toList_push] at hperm
    exact hperm.trans ((List.perm_append_singleton _ _).trans (h.perm.cons x))

theorem Holds.root_le (h : Holds key a l) {x : α} (hx : a[0]? = some x) :
    ∀ y ∈ l, key x ≤ key y := by
  intro y hy
  obtain ⟨k, hk, rfl⟩ := Array.mem_iff_getElem.mp (Array.mem_toList_iff.mp (h.perm.mem_iff.mpr hy))
  exact h.heap.root_le hk x hx _ (Array.getElem?_eq_getElem hk)

theorem Holds.pop_root (h : Holds key a l) (hless : ∀ x y, less x y = decide (key x < key y))
    {x : α} (hx : a[0]? = some x) :
    ∃ b, pop less a = some (x, b) ∧ IsHeap key b b.size ∧ l.Perm (x :: b.toList) := by
  have hpos : 0 < a.size := (Array.getElem?_eq_some_iff.mp hx).1
  have hget := getElem?_swap hpos (show a.size - 1 < a.size by omega)
  set b := down less (a.swapIfInBounds 0 (a.size - 1)) 0 (a.size - 1) with hb
  have hperm : b.Perm a := (down_perm _ _ _ _).trans (swap_perm _ _ _)
  have hlast : b.back? = some x := by
    rw [Array.back?_eq_getElem?, hperm.size_eq, hb, getElem?_down less _ _ le_rfl, hget]
    split
    · rename_i hzero
      rw [hzero, hx]
    · rw [if_pos rfl, hx]
  have hheap : IsHeap key b (a.size - 1) := by
    refine isHeap_down hless ⟨fun c hc hcn hne => ?_, fun c hc hcn hparent hpos => ?_⟩
    · exact (h.heap c hc (by omega)).congr (by rw [hget, if_neg hne, if_neg (by omega)])
        (by rw [hget, if_neg (by omega), if_neg (by omega)])
    · omega
  refine ⟨b.pop, ?_, ?_, ?_⟩
  · simp only [pop, ← hb, hlast, Option.map_some]
  · intro c hc hcn
    rw [Array.size_pop, hperm.size_eq] at hcn
    have hsame : ∀ k < a.size - 1, b.pop[k]? = b[k]? := fun k hk => by
      rw [Array.getElem?_pop, if_pos (by rw [hperm.size_eq]; exact hk)]
    exact (hheap c hc hcn).congr (hsame _ (by omega)) (hsame c hcn)
  · have hsplit : b.toList = b.pop.toList ++ [x] := by
      rw [Array.toList_pop, List.dropLast_append_getLast? x]
      rw [Option.mem_def, Array.getLast?_toList, hlast]
    exact h.perm.symm.trans (hperm.symm.toList.trans
      (hsplit ▸ List.perm_append_singleton x b.pop.toList))

/-- What a pop takes out of the list it takes out of the heap, if the keys tell the
elements apart. -/
theorem Holds.pop (h : Holds key a l) (hless : ∀ x y, less x y = decide (key x < key y))
    (hkeys : ∀ x ∈ l, ∀ y ∈ l, key x = key y → x = y) {m : α} {rest : List α}
    (hpop : popMin less l = some (m, rest)) :
    a[0]? = some m ∧ ∃ b, BinaryHeap.pop less a = some (m, b) ∧ Holds key b rest := by
  have hperm := popMin_perm hpop
  have hm : m ∈ l := hperm.mem_iff.mpr List.mem_cons_self
  have hpos : 0 < a.size := by
    rw [← Array.length_toList, h.perm.length_eq]
    exact List.length_pos_of_mem hm
  have hroot : a[0]? = some a[0] := Array.getElem?_eq_getElem hpos
  have hmem : a[0] ∈ l := h.perm.mem_iff.mp (Array.mem_toList_iff.mpr (Array.getElem_mem hpos))
  have hle := popMin_le hless hpop _ hmem
  have heq : a[0] = m := hkeys _ hmem m hm ((h.root_le hroot m hm).antisymm hle)
  rw [heq] at hroot
  obtain ⟨b, hb, hheap, hleft⟩ := h.pop_root hless hroot
  exact ⟨hroot, b, hb, hheap, (List.perm_cons m).mp (hleft.symm.trans hperm)⟩

theorem Holds.pop_nil (h : Holds key a []) (less : α → α → Bool) :
    a[0]? = none ∧ BinaryHeap.pop less a = none := by
  have hnil : a = #[] := Array.toList_eq_nil_iff.mp (List.perm_nil.mp h.perm)
  subst hnil
  refine ⟨rfl, ?_⟩
  have hempty : down less ((#[] : Array α).swapIfInBounds 0 0) 0 0 = #[] :=
    Array.eq_empty_of_size_eq_zero ((down_perm _ _ _ _).trans (swap_perm _ _ _)).size_eq
  rw [BinaryHeap.pop, Array.size_empty, Nat.zero_sub, hempty]
  rfl

end Order

end Hcdb.Lib.BinaryHeap
