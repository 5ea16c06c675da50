import Hcdb.Db.Pool

namespace Hcdb.Db

open Hcdb.Lib.ByteString
open Hcdb.Lib.SortedList
open Hcdb.Lib.Traversal
open Hcdb.Lib.PriorityQueue
open Hcdb.Base
open Hcdb.Memtable

theorem MergeItem.less_eq {σ : Type} (a b : MergeItem σ) : a.less b =
    decide ((toLex (decodeInternalKey a.key, a.priority) : InternalKey ×ₗ Nat) <
      toLex (decodeInternalKey b.key, b.priority)) := by
  unfold MergeItem.less
  rw [internalCompare_eq_cmp, Bool.eq_iff_iff, decide_eq_true_eq, Prod.Lex.toLex_lt_toLex]
  split
  · rename_i hlt
    simp [(cmp_eq_lt_iff _ _).mp hlt]
  · rename_i hgt
    have hgt' := (cmp_eq_gt_iff _ _).mp hgt
    simp [hgt'.not_gt, hgt'.ne']
  · rename_i heq
    simp [(cmp_eq_eq_iff _ _).mp heq]

section Heap

variable {σ : Type} [Cursor σ Entry]

/-- The priority of the item and what its source has still to give. -/
def MergeItem.entry (item : MergeItem σ) : Nat × List Entry :=
  (item.priority, Cursor.toList item.src)

def poolOf (h : List (MergeItem σ)) : Pool := h.map MergeItem.entry

/-- The heap holds sorted sources that are not exhausted, each under the key it
stands on. -/
structure HeapOk (h : List (MergeItem σ)) : Prop where
  pool : (poolOf h).WellFormed
  key : ∀ item ∈ h, ∀ e, Cursor.current? item.src = some e → item.key = e.key

theorem heapOk_nil : HeapOk ([] : List (MergeItem σ)) where
  pool := Pool.wellFormed_nil
  key := by simp

theorem HeapOk.perm {h h' : List (MergeItem σ)} (hok : HeapOk h) (hperm : h.Perm h') :
    HeapOk h' where
  pool := hok.pool.perm (hperm.map _)
  key item hitem := hok.key item (hperm.mem_iff.mpr hitem)

theorem HeapOk.current? {h : List (MergeItem σ)} (hok : HeapOk h) {item : MergeItem σ}
    (hitem : item ∈ h) : ∃ e, Cursor.current? item.src = some e ∧ item.key = e.key := by
  have hne : Cursor.toList item.src ≠ [] := hok.pool.ne_nil item.entry (List.mem_map_of_mem hitem)
  cases hcur : Cursor.current? item.src with
  | none => exact absurd (Cursor.toList_of_none hcur) hne
  | some e => exact ⟨e, rfl, hok.key item hitem e hcur⟩

theorem HeapOk.eq_nil {h : List (MergeItem σ)} (hok : HeapOk h) (hzero : (poolOf h).size = 0) :
    h = [] := by
  rw [List.eq_nil_iff_forall_not_mem]
  intro item hitem
  obtain ⟨e, hcur, -⟩ := hok.current? hitem
  have hle := List.single_le_sum (by simp) _
    (List.mem_map_of_mem (f := fun p : Nat × List Entry => p.2.length)
      (List.mem_map_of_mem (f := MergeItem.entry) hitem))
  have hlen : item.entry.2.length = 0 := Nat.le_zero.mp (hle.trans_eq hzero)
  rw [MergeItem.entry, Cursor.toList_of_some hcur] at hlen
  simp at hlen

theorem skipUserKey_toList (userKey : Bytes) {fuel : Nat} {src : σ}
    (hfuel : (Cursor.toList src).length ≤ fuel) :
    Cursor.toList (skipUserKey userKey fuel src) =
      (Cursor.toList src).dropWhile fun e => decide (e.userKey = userKey) := by
  induction fuel generalizing src with
  | zero =>
      have hnil : Cursor.toList src = [] := List.length_eq_zero_iff.mp (by omega)
      simp [skipUserKey, hnil]
  | succ fuel ih =>
      unfold skipUserKey
      cases hcur : Cursor.current? src with
      | none => simp [Cursor.toList_of_none hcur]
      | some e =>
          rw [Cursor.toList_of_some hcur, List.length_cons] at hfuel
          simp only
          split
          · rename_i hu
            rw [ih (by omega), Cursor.toList_of_some hcur, List.dropWhile_cons_of_pos (by simpa)]
          · rename_i hu
            rw [Cursor.toList_of_some hcur, List.dropWhile_cons_of_neg (by simpa)]

theorem poolOf_pushSource (priority : Nat) (src : σ) (h : List (MergeItem σ)) :
    poolOf (pushSource priority src h) =
      (if Cursor.toList src = [] then [] else [(priority, Cursor.toList src)]) ++ poolOf h := by
  unfold pushSource
  cases hcur : Cursor.current? src with
  | none => simp [Cursor.toList_of_none hcur]
  | some e =>
      have hne : Cursor.toList src ≠ [] := by simp [Cursor.toList_of_some hcur]
      simp [hne, poolOf, MergeItem.entry]

theorem poolOf_skipPast {userKey : Bytes} {item : MergeItem σ} {e : Entry}
    (hcur : Cursor.current? item.src = some e) (hu : e.userKey = userKey)
    (h : List (MergeItem σ)) :
    poolOf (skipPast userKey item h) = (Pool.advance userKey item.entry).toList ++ poolOf h := by
  have hdrop : Cursor.toList (skipUserKey userKey (Cursor.left (Cursor.next item.src))
      (Cursor.next item.src)) =
      (Cursor.toList item.src).dropWhile fun e => decide (e.userKey = userKey) := by
    rw [skipUserKey_toList userKey (Cursor.length_toList_le _), Cursor.toList_of_some hcur,
      List.dropWhile_cons_of_pos (by simpa)]
  rw [skipPast, poolOf_pushSource, hdrop]
  congr 1
  simp only [Pool.advance, MergeItem.entry]
  cases (Cursor.toList item.src).dropWhile fun e => decide (e.userKey = userKey) with
  | nil => rfl
  | cons a es => rfl

theorem key_pushSource {priority : Nat} {src : σ} {h : List (MergeItem σ)}
    (hkey : ∀ item ∈ h, ∀ e, Cursor.current? item.src = some e → item.key = e.key) :
    ∀ item ∈ pushSource priority src h, ∀ e, Cursor.current? item.src = some e →
      item.key = e.key := by
  unfold pushSource
  cases hcur : Cursor.current? src with
  | none => exact hkey
  | some a =>
      intro item hitem e he
      rcases List.mem_cons.mp hitem with rfl | hitem
      · rw [hcur, Option.some.injEq] at he
        rw [he]
      · exact hkey item hitem e he

theorem HeapOk.place_le {h rest : List (MergeItem σ)} (hok : HeapOk h) {top : MergeItem σ}
    (hpop : popMin MergeItem.less h = some (top, rest)) {e : Entry}
    (hcur : Cursor.current? top.src = some e) :
    ∀ p ∈ poolOf h, ∀ b ∈ p.2, Pool.place top.priority e ≤ Pool.place p.1 b := by
  intro p hp b hb
  obtain ⟨item, hitem, rfl⟩ := List.mem_map.mp hp
  have hle := popMin_le MergeItem.less_eq hpop item hitem
  have htop : top ∈ h := (popMin_perm hpop).mem_iff.mpr (by simp)
  obtain ⟨a, ha, hka⟩ := hok.current? hitem
  rw [hok.key top htop e hcur, hka] at hle
  refine hle.trans (Pool.place_le_place ?_ le_rfl)
  apply (hok.pool.sorted item.entry (List.mem_map_of_mem hitem)).head?_le _ hb
  exact (Cursor.current?_eq_head? item.src).symm.trans ha

/-- How many items of the heap are at this user key. -/
def standing (userKey : Bytes) (h : List (MergeItem σ)) : Nat :=
  h.countP fun item => decide ((decodeInternalKey item.key).userKey = userKey)

omit [Cursor σ Entry] in
theorem standing_popMin {userKey : Bytes} {h rest : List (MergeItem σ)} {top : MergeItem σ}
    (hpop : popMin MergeItem.less h = some (top, rest))
    (hu : (decodeInternalKey top.key).userKey = userKey) :
    standing userKey h = standing userKey rest + 1 := by
  rw [standing, (popMin_perm hpop).countP_eq]
  exact List.countP_cons_of_pos (decide_eq_true hu)

theorem standing_skipPast (userKey : Bytes) (item : MergeItem σ) (h : List (MergeItem σ)) :
    standing userKey (skipPast userKey item h) = standing userKey h := by
  unfold skipPast pushSource
  simp only
  cases hcur' : Cursor.current? (skipUserKey userKey (Cursor.left (Cursor.next item.src))
      (Cursor.next item.src)) with
  | none => rfl
  | some a =>
      rw [Cursor.current?_eq_head?, skipUserKey_toList userKey (Cursor.length_toList_le _)] at hcur'
      have hne := List.head?_dropWhile_not (fun e : Entry => decide (e.userKey = userKey))
        (Cursor.toList (Cursor.next item.src))
      rw [hcur'] at hne
      have hne' : ¬ a.userKey = userKey := by simpa using hne
      exact List.countP_cons_of_neg fun hc => hne' (of_decide_eq_true hc)

theorem HeapOk.skipPast {h rest : List (MergeItem σ)} (hok : HeapOk h) {top : MergeItem σ}
    (hpop : popMin MergeItem.less h = some (top, rest)) {e : Entry} {userKey : Bytes}
    (hcur : Cursor.current? top.src = some e) (hu : e.userKey = userKey) :
    HeapOk (Db.skipPast userKey top rest) := by
  have hperm := hok.perm (popMin_perm hpop)
  obtain ⟨hsorted, -, hfresh, hrest⟩ := Pool.wellFormed_cons.mp hperm.pool
  constructor
  · rw [poolOf_skipPast hcur hu]
    cases hadv : Pool.advance userKey top.entry with
    | none => exact hrest
    | some p =>
        obtain ⟨hfst, hes, hne⟩ := Pool.advance_eq_some.mp hadv
        refine Pool.wellFormed_cons.mpr ⟨?_, hne, ?_, hrest⟩
        · rw [hes]
          exact hsorted.sublist (List.dropWhile_sublist _)
        · rw [hfst]
          exact hfresh
  · exact key_pushSource fun item hitem => hperm.key item (List.mem_cons_of_mem _ hitem)

section Popped

variable {h rest : List (MergeItem σ)} {top : MergeItem σ} {e : Entry} {userKey : Bytes}

theorem skipPast_atLeast (hpop : popMin MergeItem.less h = some (top, rest))
    (hcur : Cursor.current? top.src = some e) (hu : e.userKey = userKey)
    (hle : (poolOf h).AtLeast userKey) : (poolOf (skipPast userKey top rest)).AtLeast userKey := by
  have hperm : (poolOf h).Perm (top.entry :: poolOf rest) := (popMin_perm hpop).map _
  intro p hp b hb
  rw [poolOf_skipPast hcur hu] at hp
  rcases List.mem_append.mp hp with hp | hp
  · rw [Option.mem_toList] at hp
    rw [(Pool.advance_eq_some.mp hp).2.1] at hb
    exact hle top.entry (hperm.mem_iff.mpr (by simp)) b ((List.dropWhile_sublist _).subset hb)
  · exact hle p (hperm.mem_iff.mpr (List.mem_cons_of_mem _ hp)) b hb

theorem skipPast_filterMap (hpop : popMin MergeItem.less h = some (top, rest))
    (hcur : Cursor.current? top.src = some e) (hu : e.userKey = userKey) :
    ((poolOf (skipPast userKey top rest)).filterMap (Pool.advance userKey)).Perm
      ((poolOf h).filterMap (Pool.advance userKey)) := by
  have hperm : (poolOf h).Perm (top.entry :: poolOf rest) := (popMin_perm hpop).map _
  refine List.Perm.trans ?_ (hperm.filterMap _).symm
  rw [poolOf_skipPast hcur hu, List.filterMap_append, List.filterMap_cons]
  cases hadv : Pool.advance userKey top.entry with
  | none => exact List.Perm.refl _
  | some p =>
      obtain ⟨-, hes, hne⟩ := Pool.advance_eq_some.mp hadv
      have hidem : Pool.advance userKey p = some p := by
        rw [Pool.advance_eq_some]
        refine ⟨rfl, ?_, hne⟩
        rw [hes, List.dropWhile_idempotent]
      simp [hidem]

end Popped

theorem filterMap_advance_of_standing {userKey : Bytes} {h : List (MergeItem σ)} (hok : HeapOk h)
    (hle : (poolOf h).AtLeast userKey)
    (hnone : ∀ item ∈ h, (decodeInternalKey item.key).userKey ≠ userKey) :
    (poolOf h).filterMap (Pool.advance userKey) = poolOf h := by
  have hall : ∀ p ∈ poolOf h, Pool.advance userKey p = some p := by
    intro p hp
    obtain ⟨item, hitem, rfl⟩ := List.mem_map.mp hp
    obtain ⟨a, ha, hka⟩ := hok.current? hitem
    have hhead : item.entry.2.head? = some a := (Cursor.current?_eq_head? item.src).symm.trans ha
    have hlt : userKey < a.userKey := by
      have hne := hnone item hitem
      rw [hka] at hne
      exact lt_of_le_of_ne (hle _ hp a (List.mem_of_mem_head? hhead)) (Ne.symm hne)
    apply Pool.advance_of_lt (hok.pool.ne_nil _ hp)
    intro e he
    refine hlt.trans_le ?_
    exact InternalKey.userKey_le_of_le ((hok.pool.sorted _ hp).head?_le hhead he)
  rw [List.filterMap_congr hall, List.filterMap_some]

theorem skipOlder_spec {userKey : Bytes} {fuel : Nat} {h : List (MergeItem σ)} (hok : HeapOk h)
    (hle : (poolOf h).AtLeast userKey) (hfuel : standing userKey h ≤ fuel) :
    HeapOk (skipOlder userKey fuel h) ∧
    (poolOf (skipOlder userKey fuel h)).Perm ((poolOf h).filterMap (Pool.advance userKey)) := by
  induction fuel generalizing h with
  | zero =>
      rw [filterMap_advance_of_standing hok hle]
      · exact ⟨hok, List.Perm.refl _⟩
      · intro item hitem heq
        have hzero := List.countP_eq_zero.mp (Nat.le_zero.mp hfuel) item hitem
        exact hzero (decide_eq_true heq)
  | succ fuel ih =>
      unfold skipOlder
      cases hpop : popMin MergeItem.less h with
      | none =>
          rw [popMin_eq_none.mp hpop]
          exact ⟨heapOk_nil, List.Perm.refl _⟩
      | some pair =>
          obtain ⟨top, rest⟩ := pair
          have hperm := popMin_perm hpop
          have htop : top ∈ h := hperm.mem_iff.mpr (by simp)
          obtain ⟨e, hcur, hkey⟩ := hok.current? htop
          simp only
          split
          · rename_i hu
            have hu' : e.userKey = userKey := by
              rw [hkey] at hu
              exact hu
            have hok' := hok.skipPast hpop hcur hu'
            have hcount := standing_popMin hpop hu
            obtain ⟨hokN, hpermN⟩ := ih hok' (skipPast_atLeast hpop hcur hu' hle) (by
              rw [standing_skipPast]
              omega)
            exact ⟨hokN, hpermN.trans (skipPast_filterMap hpop hcur hu')⟩
          · rename_i hu
            rw [filterMap_advance_of_standing hok hle]
            · exact ⟨hok, List.Perm.refl _⟩
            · -- the item on top has a later user key, and so has every other
              intro item hitem heq
              obtain ⟨a, ha, hka⟩ := hok.current? hitem
              have hhead : a ∈ item.entry.2 := List.mem_of_mem_head?
                ((Cursor.current?_eq_head? item.src).symm.trans ha)
              have hik := Pool.ik_le_of_place_le
                (hok.place_le hpop hcur _ (List.mem_map_of_mem hitem) a hhead)
              rw [hkey] at hu
              rw [hka] at heq
              have hlt : userKey < e.userKey := lt_of_le_of_ne
                (hle _ (List.mem_map_of_mem htop) e (List.mem_of_mem_head?
                  ((Cursor.current?_eq_head? top.src).symm.trans hcur))) (Ne.symm hu)
              exact absurd (hlt.trans_le (InternalKey.userKey_le_of_le hik))
                (heq ▸ lt_irrefl _)

/-- One turn of the loop of `Next`: the popped version wins its user key, which no
user key of the heap is below, and every other user key keeps its winner. -/
theorem HeapOk.step {h rest : List (MergeItem σ)} (hok : HeapOk h) {top : MergeItem σ}
    (hpop : popMin MergeItem.less h = some (top, rest)) {e : Entry}
    (hcur : Cursor.current? top.src = some e) {h' : List (MergeItem σ)}
    (hh' : h' = skipOlder e.userKey (Db.skipPast e.userKey top rest).length
      (Db.skipPast e.userKey top rest)) :
    HeapOk h' ∧ (poolOf h).Wins e.userKey e ∧ (poolOf h).AtLeast e.userKey ∧
    (∀ v b, (poolOf h').Wins v b ↔ (poolOf h).Wins v b ∧ e.userKey < v) ∧
    (poolOf h').size < (poolOf h).size := by
  have htop : top.entry ∈ poolOf h :=
    List.mem_map_of_mem ((popMin_perm hpop).mem_iff.mpr (by simp))
  have hhead : top.entry.2.head? = some e := (Cursor.current?_eq_head? top.src).symm.trans hcur
  have hplace := hok.place_le hpop hcur
  have hle : (poolOf h).AtLeast e.userKey := fun p hp b hb =>
    InternalKey.userKey_le_of_le (Pool.ik_le_of_place_le (hplace p hp b hb))
  obtain ⟨hok', hperm⟩ := skipOlder_spec (hok.skipPast hpop hcur rfl)
    (skipPast_atLeast hpop hcur rfl hle) (List.countP_le_length)
  have hperm' := hperm.trans (skipPast_filterMap hpop hcur rfl)
  rw [← hh'] at hok' hperm'
  refine ⟨hok', ⟨top.entry, htop, List.mem_of_mem_head? hhead, rfl,
    fun q hq b hb _ => hplace q hq b hb⟩, hle, ?_, ?_⟩
  · intro v b
    rw [Pool.Wins.congr_perm hperm', Pool.wins_advance hok.pool hle]
  · have hsize : (poolOf h').size =
        Pool.size ((poolOf h).filterMap (Pool.advance e.userKey)) :=
      (hperm'.map _).sum_nat
    rw [hsize]
    exact Pool.size_advance_lt htop hhead rfl

end Heap

end Hcdb.Db
