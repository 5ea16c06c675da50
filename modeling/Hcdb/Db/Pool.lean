import Hcdb.Db.Iterator
import Mathlib.Algebra.Order.BigOperators.Group.List
import Mathlib.Data.List.DropRight

namespace Hcdb.Db

open Hcdb.Lib.ByteString
open Hcdb.Lib.SortedList
open Hcdb.Base
open Hcdb.Memtable

/-- What is left of a heap: for every source its priority and the entries it
still holds. -/
abbrev Pool := List (Nat × List Entry)

namespace Pool

/-- The place of a version in a heap that holds it at this priority. -/
def place (priority : Nat) (e : Entry) : InternalKey ×ₗ Nat :=
  toLex (e.ik, priority)

theorem ik_le_of_place_le {n m : Nat} {e b : Entry} (h : place n e ≤ place m b) :
    e.ik ≤ b.ik := by
  unfold place at h
  rw [Prod.Lex.toLex_le_toLex] at h
  rcases h with h | ⟨h, -⟩
  · exact h.le
  · exact h.le

theorem place_le_place {n m : Nat} {e b : Entry} (hik : e.ik ≤ b.ik) (hnm : n ≤ m) :
    place n e ≤ place m b := by
  unfold place
  rw [Prod.Lex.toLex_le_toLex]
  rcases hik.lt_or_eq with h | h
  · exact Or.inl h
  · exact Or.inr ⟨h, hnm⟩

theorem place_succ_le {n m : Nat} {e b : Entry} :
    place (n + 1) e ≤ place (m + 1) b ↔ place n e ≤ place m b := by
  unfold place
  simp only [Prod.Lex.toLex_le_toLex, Nat.add_le_add_iff_right]

/-- The version of `userKey` that leaves the heap first. -/
def Wins (pool : Pool) (userKey : Bytes) (e : Entry) : Prop :=
  ∃ p ∈ pool, e ∈ p.2 ∧ e.userKey = userKey ∧
    ∀ q ∈ pool, ∀ b ∈ q.2, b.userKey = userKey → place p.1 e ≤ place q.1 b

/-- Drop everything of `userKey`, and the sources that hold nothing else. -/
def advance (userKey : Bytes) (p : Nat × List Entry) : Option (Nat × List Entry) :=
  match p.2.dropWhile fun e => decide (e.userKey = userKey) with
  | [] => none
  | e :: es => some (p.1, e :: es)

/-- Sorted sources that are not exhausted, under different priorities. -/
structure WellFormed (pool : Pool) : Prop where
  sorted : ∀ p ∈ pool, Sorted p.2
  ne_nil : ∀ p ∈ pool, p.2 ≠ []
  nodup : (pool.map Prod.fst).Nodup

/-- The entries that are left in all sources. -/
def size (pool : Pool) : Nat := (pool.map fun p => p.2.length).sum

theorem Wins.congr_perm {pool pool' : Pool} (h : pool.Perm pool') {userKey : Bytes} {e : Entry} :
    Wins pool userKey e ↔ Wins pool' userKey e := by
  unfold Wins
  simp only [h.mem_iff]

theorem Wins.unique {pool : Pool} (hp : pool.WellFormed) {userKey : Bytes} {e e' : Entry}
    (h : Wins pool userKey e) (h' : Wins pool userKey e') : e = e' := by
  obtain ⟨p, hpm, he, hu, hmin⟩ := h
  obtain ⟨q, hqm, he', hu', hmin'⟩ := h'
  have heq : place p.1 e = place q.1 e' := le_antisymm (hmin q hqm e' he' hu') (hmin' p hpm e he hu)
  have hpair := toLex.injective heq
  simp only [Prod.mk.injEq] at hpair
  have hsame : p = q := List.inj_on_of_nodup_map hp.nodup hpm hqm hpair.2
  subst hsame
  exact (hp.sorted p hpm).eq_of_key_eq he he' hpair.1

theorem WellFormed.perm {pool pool' : Pool} (h : pool.WellFormed) (hperm : pool.Perm pool') :
    pool'.WellFormed where
  sorted p hp := h.sorted p (hperm.mem_iff.mpr hp)
  ne_nil p hp := h.ne_nil p (hperm.mem_iff.mpr hp)
  nodup := (hperm.map Prod.fst).nodup_iff.mp h.nodup

theorem wellFormed_nil : WellFormed [] where
  sorted := by simp
  ne_nil := by simp
  nodup := List.nodup_nil

theorem wellFormed_cons {p : Nat × List Entry} {pool : Pool} : WellFormed (p :: pool) ↔
    Sorted p.2 ∧ p.2 ≠ [] ∧ p.1 ∉ pool.map Prod.fst ∧ WellFormed pool := by
  constructor
  · rintro ⟨hsorted, hne, hnodup⟩
    rw [List.forall_mem_cons] at hsorted hne
    rw [List.map_cons, List.nodup_cons] at hnodup
    exact ⟨hsorted.1, hne.1, hnodup.1, hsorted.2, hne.2, hnodup.2⟩
  · rintro ⟨hsorted, hne, hfresh, hpool⟩
    exact ⟨List.forall_mem_cons.mpr ⟨hsorted, hpool.sorted⟩,
      List.forall_mem_cons.mpr ⟨hne, hpool.ne_nil⟩,
      List.nodup_cons.mpr ⟨hfresh, hpool.nodup⟩⟩

section Advance

variable {pool : Pool} {userKey : Bytes}

/-- What is left does not come before the user key. -/
def AtLeast (pool : Pool) (userKey : Bytes) : Prop :=
  ∀ p ∈ pool, ∀ e ∈ p.2, userKey ≤ e.userKey

theorem dropWhile_eq_filter_ne {es : List Entry} (hs : Sorted es)
    (hle : ∀ e ∈ es, userKey ≤ e.userKey) :
    es.dropWhile (fun e => decide (e.userKey = userKey)) =
      es.filter fun e => !decide (e.userKey = userKey) := by
  apply dropWhile_eq_filter_not
  apply List.Pairwise.imp_of_mem _ hs
  intro a b ha _ hlt hb
  rw [decide_eq_true_eq] at hb ⊢
  exact le_antisymm (hb ▸ InternalKey.userKey_le_of_lt hlt) (hle a ha)

theorem advance_eq_some {p q : Nat × List Entry} : advance userKey p = some q ↔
    q.1 = p.1 ∧ q.2 = p.2.dropWhile (fun e => decide (e.userKey = userKey)) ∧ q.2 ≠ [] := by
  unfold advance
  obtain ⟨n, es⟩ := q
  split
  · rename_i hnil
    constructor
    · simp
    · rintro ⟨-, heq, hne⟩
      exact absurd (heq.trans hnil) hne
  · rename_i e es' hcons
    rw [hcons, Option.some.injEq, Prod.mk.injEq]
    constructor
    · rintro ⟨rfl, rfl⟩
      exact ⟨rfl, rfl, by simp⟩
    · rintro ⟨h₁, h₂, -⟩
      exact ⟨h₁.symm, h₂.symm⟩

theorem advance_of_lt {p : Nat × List Entry} (hne : p.2 ≠ [])
    (hlt : ∀ e ∈ p.2, userKey < e.userKey) : advance userKey p = some p := by
  rw [advance_eq_some]
  refine ⟨rfl, ?_, hne⟩
  cases hp : p.2 with
  | nil => exact absurd hp hne
  | cons e es =>
      rw [List.dropWhile_cons_of_neg]
      simpa using (hlt e (by simp [hp])).ne'

theorem WellFormed.advance (h : pool.WellFormed) :
    WellFormed (pool.filterMap (Pool.advance userKey)) where
  sorted q hq := by
    obtain ⟨p, hp, hadv⟩ := List.mem_filterMap.mp hq
    obtain ⟨-, hes, -⟩ := advance_eq_some.mp hadv
    rw [hes]
    exact (h.sorted p hp).sublist (List.dropWhile_sublist _)
  ne_nil q hq := by
    obtain ⟨p, hp, hadv⟩ := List.mem_filterMap.mp hq
    exact (advance_eq_some.mp hadv).2.2
  nodup := by
    have hsub : ((pool.filterMap (Pool.advance userKey)).map Prod.fst).Sublist
        (pool.map Prod.fst) := by
      clear h
      induction pool with
      | nil => simp
      | cons p pool ih =>
          rw [List.filterMap_cons]
          split
          · exact ih.cons _
          · rename_i q hq
            rw [List.map_cons, List.map_cons, (advance_eq_some.mp hq).1]
            exact ih.cons_cons _
    exact h.nodup.sublist hsub

theorem mem_advance (h : pool.WellFormed) (hle : pool.AtLeast userKey) {n : Nat} {e : Entry} :
    (∃ q ∈ pool.filterMap (Pool.advance userKey), q.1 = n ∧ e ∈ q.2) ↔
      ∃ p ∈ pool, p.1 = n ∧ e ∈ p.2 ∧ e.userKey ≠ userKey := by
  constructor
  · rintro ⟨q, hq, rfl, he⟩
    obtain ⟨p, hp, hadv⟩ := List.mem_filterMap.mp hq
    obtain ⟨hn, hes, -⟩ := advance_eq_some.mp hadv
    rw [hes, dropWhile_eq_filter_ne (h.sorted p hp) (hle p hp)] at he
    simp only [List.mem_filter, Bool.not_eq_true', decide_eq_false_iff_not] at he
    exact ⟨p, hp, hn.symm, he⟩
  · rintro ⟨p, hp, rfl, he, hne⟩
    have hmem : e ∈ p.2.dropWhile fun e => decide (e.userKey = userKey) := by
      rw [dropWhile_eq_filter_ne (h.sorted p hp) (hle p hp)]
      simp [he, hne]
    refine ⟨(p.1, p.2.dropWhile fun e => decide (e.userKey = userKey)), ?_, rfl, hmem⟩
    rw [List.mem_filterMap]
    exact ⟨p, hp, advance_eq_some.mpr ⟨rfl, rfl, List.ne_nil_of_mem hmem⟩⟩

theorem wins_advance (h : pool.WellFormed) (hle : pool.AtLeast userKey) {u : Bytes} {e : Entry} :
    Wins (pool.filterMap (Pool.advance userKey)) u e ↔ Wins pool u e ∧ userKey < u := by
  constructor
  · rintro ⟨q, hq, he, hu, hmin⟩
    obtain ⟨p, hp, hn, he', hne⟩ := (mem_advance h hle).mp ⟨q, hq, rfl, he⟩
    have hlt : userKey < u := hu ▸ lt_of_le_of_ne (hle p hp e he') (Ne.symm hne)
    refine ⟨⟨p, hp, he', hu, fun p' hp' b hb hbu => ?_⟩, hlt⟩
    obtain ⟨q', hq', hn', hb'⟩ := (mem_advance h hle).mpr
      ⟨p', hp', rfl, hb, by rw [hbu]; exact hlt.ne'⟩
    have := hmin q' hq' b hb' hbu
    rwa [hn', ← hn] at this
  · rintro ⟨⟨p, hp, he, hu, hmin⟩, hlt⟩
    obtain ⟨q, hq, hn, he'⟩ := (mem_advance h hle).mpr
      ⟨p, hp, rfl, he, by rw [hu]; exact hlt.ne'⟩
    refine ⟨q, hq, he', hu, fun q' hq' b hb hbu => ?_⟩
    obtain ⟨p', hp', hn', hb', -⟩ := (mem_advance h hle).mp ⟨q', hq', rfl, hb⟩
    have := hmin p' hp' b hb' hbu
    rwa [hn', ← hn] at this

theorem length_advance_le (userKey : Bytes) (p : Nat × List Entry) :
    (((Pool.advance userKey p).map fun q => q.2.length).getD 0) ≤ p.2.length := by
  cases hadv : Pool.advance userKey p with
  | none => simp
  | some q =>
      rw [Option.map_some, Option.getD_some, (advance_eq_some.mp hadv).2.1]
      exact (List.dropWhile_sublist _).length_le

theorem size_advance_le (userKey : Bytes) (pool : Pool) :
    size (pool.filterMap (Pool.advance userKey)) ≤ size pool := by
  induction pool with
  | nil => simp [size]
  | cons p pool ih =>
      have hle := length_advance_le userKey p
      unfold size at ih ⊢
      rw [List.filterMap_cons]
      split
      · rw [List.map_cons, List.sum_cons]
        omega
      · rename_i q hq
        rw [hq, Option.map_some, Option.getD_some] at hle
        rw [List.map_cons, List.sum_cons, List.map_cons, List.sum_cons]
        omega

theorem length_advance_lt {p : Nat × List Entry} {e : Entry} (hhead : p.2.head? = some e)
    (hu : e.userKey = userKey) :
    (((Pool.advance userKey p).map fun q => q.2.length).getD 0) < p.2.length := by
  cases hp : p.2 with
  | nil => simp [hp] at hhead
  | cons a es =>
      rw [hp, List.head?_cons, Option.some.injEq] at hhead
      have hle := length_advance_le userKey (p.1, es)
      have hsame : Pool.advance userKey p = Pool.advance userKey (p.1, es) := by
        simp [Pool.advance, hp, hhead, hu]
      rw [hsame, List.length_cons]
      exact Nat.lt_succ_of_le hle

theorem size_advance_lt {p : Nat × List Entry} (hp : p ∈ pool) {e : Entry}
    (hhead : p.2.head? = some e) (hu : e.userKey = userKey) :
    size (pool.filterMap (Pool.advance userKey)) < size pool := by
  have hlt := length_advance_lt hhead hu
  obtain ⟨front, back, rfl⟩ := List.append_of_mem hp
  have hfront := size_advance_le userKey front
  have hback := size_advance_le userKey back
  unfold size at *
  rw [List.filterMap_append, List.filterMap_cons]
  split
  · simp only [List.map_append, List.sum_append, List.map_cons, List.sum_cons]
    omega
  · rename_i q hq
    rw [hq, Option.map_some, Option.getD_some] at hlt
    simp only [List.map_append, List.sum_append, List.map_cons, List.sum_cons]
    omega

end Advance

end Pool

/-- `e` is the visible version of layer `i`, and no other layer's comes before it. -/
def FirstPlace (layers : List (List Entry)) (userKey : Bytes) (snapshot : Nat) (i : Nat)
    (e : Entry) : Prop :=
  (∃ layer, layers[i]? = some layer ∧ versionAt layer userKey snapshot = some e) ∧
    ∀ j layer b, layers[j]? = some layer → versionAt layer userKey snapshot = some b →
      Pool.place i e ≤ Pool.place j b

section FirstPlace

variable {layers : List (List Entry)} {userKey : Bytes} {snapshot : Nat}

theorem FirstPlace.unique {i j : Nat} {e b : Entry} (h : FirstPlace layers userKey snapshot i e)
    (h' : FirstPlace layers userKey snapshot j b) : e = b := by
  obtain ⟨⟨layer, hl, hv⟩, hmin⟩ := h
  obtain ⟨⟨layer', hl', hv'⟩, hmin'⟩ := h'
  have heq := le_antisymm (hmin j layer' b hl' hv') (hmin' i layer e hl hv)
  have hij : i = j := (Prod.mk.inj (toLex.injective heq)).2
  subst hij
  rw [hl, Option.some.injEq] at hl'
  rw [← hl', hv, Option.some.injEq] at hv'
  exact hv'

/-- The first place of the rest stays first unless the new layer's version is as new. -/
theorem FirstPlace.cons {i : Nat} {c : Entry} {layer : List Entry}
    (h : FirstPlace layers userKey snapshot i c)
    (hlt : ∀ a, versionAt layer userKey snapshot = some a → c.ik < a.ik) :
    FirstPlace (layer :: layers) userKey snapshot (i + 1) c := by
  obtain ⟨⟨l, hl, hv⟩, hmin⟩ := h
  refine ⟨⟨l, by simpa using hl, hv⟩, ?_⟩
  intro j l' b hl' hb
  cases j with
  | zero =>
      simp only [List.getElem?_cons_zero, Option.some.injEq] at hl'
      subst hl'
      exact Prod.Lex.toLex_le_toLex.mpr (Or.inl (hlt b hb))
  | succ j =>
      rw [List.getElem?_cons_succ] at hl'
      exact Pool.place_succ_le.mpr (hmin j l' b hl' hb)

theorem firstPlace_zero {a : Entry} {layer : List Entry}
    (ha : versionAt layer userKey snapshot = some a)
    (hle : ∀ l ∈ layers, ∀ b, versionAt l userKey snapshot = some b → a.ik ≤ b.ik) :
    FirstPlace (layer :: layers) userKey snapshot 0 a := by
  refine ⟨⟨layer, rfl, ha⟩, ?_⟩
  intro j l' b hl' hb
  refine Pool.place_le_place ?_ (Nat.zero_le j)
  cases j with
  | zero =>
      simp only [List.getElem?_cons_zero, Option.some.injEq] at hl'
      rw [← hl', ha, Option.some.injEq] at hb
      rw [hb]
  | succ j => exact hle l' (List.mem_of_getElem? hl') b hb

theorem newestAt_firstPlace {e : Entry} (h : newestAt layers userKey snapshot = some e) :
    ∃ i, FirstPlace layers userKey snapshot i e := by
  induction layers generalizing e with
  | nil => simp [newestAt] at h
  | cons layer layers ih =>
      rw [newestAt, List.foldr_cons, ← newestAt] at h
      cases hv : versionAt layer userKey snapshot with
      | none =>
          rw [hv, newer] at h
          obtain ⟨i, hi⟩ := ih h
          exact ⟨i + 1, hi.cons (by simp [hv])⟩
      | some a =>
          cases hn : newestAt layers userKey snapshot with
          | none =>
              rw [hv, hn, newer, Option.some.injEq] at h
              subst h
              refine ⟨0, firstPlace_zero hv fun l hl b hb => ?_⟩
              have hnone := newestAt_eq_none.mp hn b (List.mem_flatten_of_mem hl (versionAt_mem hb))
              rw [versionAt_matches hb] at hnone
              simp at hnone
          | some c =>
              obtain ⟨i, hi⟩ := ih hn
              rw [hv, hn, newer] at h
              split at h
              · rename_i hlt
                simp only [Option.some.injEq] at h
                subst h
                refine ⟨i + 1, hi.cons fun a' ha' => ?_⟩
                rw [hv, Option.some.injEq] at ha'
                exact ha' ▸ hlt
              · rename_i hge
                simp only [Option.some.injEq] at h
                subst h
                refine ⟨0, firstPlace_zero hv fun l hl b hb => ?_⟩
                obtain ⟨j, hj⟩ := List.getElem?_of_mem hl
                exact (not_lt.mp hge).trans (Pool.ik_le_of_place_le (hi.2 j l b hj hb))

theorem newestAt_eq_some_iff_firstPlace {e : Entry} :
    newestAt layers userKey snapshot = some e ↔
      ∃ i, FirstPlace layers userKey snapshot i e := by
  refine ⟨newestAt_firstPlace, ?_⟩
  rintro ⟨i, hi⟩
  cases hn : newestAt layers userKey snapshot with
  | none =>
      obtain ⟨⟨layer, hl, hv⟩, -⟩ := hi
      have hnone := newestAt_eq_none.mp hn e
        (List.mem_flatten_of_mem (List.mem_of_getElem? hl) (versionAt_mem hv))
      rw [versionAt_matches hv] at hnone
      simp at hnone
  | some c =>
      obtain ⟨j, hj⟩ := newestAt_firstPlace hn
      rw [hj.unique hi]

end FirstPlace

end Hcdb.Db
