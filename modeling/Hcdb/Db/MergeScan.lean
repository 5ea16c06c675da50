import Hcdb.Db.Heap

namespace Hcdb.Db

open Hcdb.Lib.ByteString
open Hcdb.Lib.SortedList
open Hcdb.Lib.Traversal
open Hcdb.Lib.PriorityQueue
open Hcdb.Base
open Hcdb.Memtable

/-- A pair a scan up to `upperBound` owes its caller. -/
def Pool.Live (pool : Pool) (upperBound : Option Bytes) (userKey value : Bytes) : Prop :=
  belowUpper upperBound userKey = true ∧
    ∃ e, pool.Wins userKey e ∧ e.kind ≠ internalKeyKindDelete ∧ e.value = value

theorem Pool.live_iff_of_wins_iff {pool pool' : Pool} {userKey : Bytes}
    (h : ∀ u b, pool'.Wins u b ↔ pool.Wins u b ∧ userKey < u) {upperBound : Option Bytes}
    (u v : Bytes) :
    pool'.Live upperBound u v ↔ pool.Live upperBound u v ∧ userKey < u := by
  unfold Pool.Live
  simp only [h]
  constructor
  · rintro ⟨hup, b, ⟨hb, hlt⟩, hk⟩
    exact ⟨⟨hup, b, hb, hk⟩, hlt⟩
  · rintro ⟨⟨hup, b, hb, hk⟩, hlt⟩
    exact ⟨hup, b, ⟨hb, hlt⟩, hk⟩

section Next

variable {σ : Type} [Cursor σ Entry]

theorem left_ge_size (m : MergeIterator σ) : (poolOf m.h).size ≤ m.left := by
  unfold Pool.size MergeIterator.left poolOf
  rw [List.map_map]
  apply List.sum_le_sum
  intro item _
  exact Cursor.length_toList_le item.src

/-- What a call of `Next` does: it moves to the least live key that is left and
takes everything up to that key out of the heap, or reports that there is none. -/
structure NextSpec (m m' : MergeIterator σ) (more : Bool) : Prop where
  heapOk : HeapOk m'.h
  upperBound : m'.upperBound = m.upperBound
  none : more = false → ∀ u v, ¬ (poolOf m.h).Live m.upperBound u v
  live : more = true → (poolOf m.h).Live m.upperBound m'.key m'.val
  least : more = true → ∀ u v, (poolOf m.h).Live m.upperBound u v → m'.key ≤ u
  rest : more = true → ∀ u v, (poolOf m'.h).Live m.upperBound u v ↔
    (poolOf m.h).Live m.upperBound u v ∧ m'.key < u
  size_lt : more = true → (poolOf m'.h).size < (poolOf m.h).size

theorem NextSpec.of_nil {m : MergeIterator σ} (hnil : m.h = []) :
    NextSpec m { m with valid := false } false where
  heapOk := hnil ▸ heapOk_nil
  upperBound := rfl
  none := by
    rintro - u v ⟨-, e, ⟨p, hp, -⟩, -⟩
    simp [hnil, poolOf] at hp
  live := by simp
  least := by simp
  rest := by simp
  size_lt := by simp

theorem nextLoop_spec {fuel : Nat} {m : MergeIterator σ} (hok : HeapOk m.h)
    (hfuel : (poolOf m.h).size ≤ fuel) :
    NextSpec m (m.nextLoop fuel).1 (m.nextLoop fuel).2 := by
  induction fuel generalizing m with
  | zero =>
      exact NextSpec.of_nil (hok.eq_nil (Nat.le_zero.mp hfuel))
  | succ fuel ih =>
      unfold MergeIterator.nextLoop
      cases hpop : popMin MergeItem.less m.h with
      | none => exact NextSpec.of_nil (popMin_eq_none.mp hpop)
      | some pair =>
          obtain ⟨top, rest⟩ := pair
          have htop : top ∈ m.h := (popMin_perm hpop).mem_iff.mpr (by simp)
          obtain ⟨e, hcur, hkey⟩ := hok.current? htop
          have huser : (decodeInternalKey top.key).userKey = e.userKey := by rw [hkey]; rfl
          have hkind : (decodeInternalKey top.key).kind = e.kind := by rw [hkey]; rfl
          simp only [huser, hkind, hcur, Option.elim_some]
          generalize hh' : skipOlder e.userKey (skipPast e.userKey top rest).length
            (skipPast e.userKey top rest) = h'
          obtain ⟨hok', hwins, hle, hrest, hsize⟩ := hok.step hpop hcur hh'.symm
          have hleast : ∀ u v, (poolOf m.h).Live m.upperBound u v → e.userKey ≤ u := by
            rintro u v ⟨-, b, ⟨p, hp, hb, rfl, -⟩, -⟩
            exact hle p hp b hb
          have hlive : ∀ u v, (poolOf h').Live m.upperBound u v ↔
              (poolOf m.h).Live m.upperBound u v ∧ e.userKey < u :=
            Pool.live_iff_of_wins_iff hrest
          split
          · -- past the upper bound: so is every user key that is left
            rename_i hpast
            rw [pastUpper_eq_not, Bool.not_eq_true'] at hpast
            refine ⟨hok', rfl, fun _ u v hu => ?_, by simp, by simp, by simp, by simp⟩
            rw [belowUpper_of_le (hleast u v hu) hu.1] at hpast
            simp at hpast
          · rename_i hpast
            rw [pastUpper_eq_not, Bool.not_eq_true, Bool.not_eq_false'] at hpast
            split
            · -- a tombstone: its user key is not live, all others are left
              rename_i hdel
              have hsame : ∀ u v, (poolOf h').Live m.upperBound u v ↔
                  (poolOf m.h).Live m.upperBound u v := by
                intro u v
                rw [hlive]
                constructor
                · exact And.left
                · intro hu
                  refine ⟨hu, lt_of_le_of_ne (hleast u v hu) ?_⟩
                  rintro rfl
                  obtain ⟨-, b, hb, hk, -⟩ := hu
                  rw [hb.unique hok.pool hwins] at hk
                  exact hk hdel
              obtain ⟨h₁, h₂, h₃, h₄, h₅, h₆, h₇⟩ := ih (m := { m with h := h' }) hok'
                (Nat.le_of_lt_succ (lt_of_lt_of_le hsize hfuel))
              simp only [hsame] at h₃ h₄ h₅ h₆
              exact ⟨h₁, h₂, h₃, h₄, h₅, h₆, fun h => (h₇ h).trans hsize⟩
            · rename_i hset
              exact ⟨hok', rfl, by simp, fun _ => ⟨hpast, e, hwins, hset, rfl⟩,
                fun _ => hleast, fun _ => hlive, fun _ => hsize⟩

theorem drainLoop_spec {fuel : Nat} {m : MergeIterator σ} (hok : HeapOk m.h)
    (hfuel : (poolOf m.h).size ≤ fuel) :
    SortedBy Prod.fst (m.drainLoop fuel) ∧
    ∀ u v, (u, v) ∈ m.drainLoop fuel ↔ (poolOf m.h).Live m.upperBound u v := by
  induction fuel generalizing m with
  | zero =>
      -- nothing is left, so `Next` finds nothing either
      have hnone := (nextLoop_spec hok hfuel).none rfl
      exact ⟨sortedBy_nil, fun u v => ⟨fun h => by simp [MergeIterator.drainLoop] at h,
        fun h => absurd h (hnone u v)⟩⟩
  | succ fuel ih =>
      have hspec : NextSpec m m.next.1 m.next.2 := nextLoop_spec hok (left_ge_size m)
      unfold MergeIterator.drainLoop
      rcases hnext : m.next with ⟨m', more⟩
      rw [hnext] at hspec
      cases more with
      | false =>
          exact ⟨sortedBy_nil, fun u v => ⟨fun h => by simp at h,
            fun h => absurd h (hspec.none rfl u v)⟩⟩
      | true =>
          obtain ⟨hsorted, hmem⟩ := ih hspec.heapOk
            (Nat.le_of_lt_succ (lt_of_lt_of_le (hspec.size_lt rfl) hfuel))
          rw [hspec.upperBound] at hmem
          have hrest := hspec.rest rfl
          simp only
          refine ⟨sortedBy_cons.mpr ⟨?_, hsorted⟩, ?_⟩
          · rintro ⟨u, v⟩ huv
            exact ((hrest u v).mp ((hmem u v).mp huv)).2
          · intro u v
            rw [List.mem_cons, hmem, hrest, Prod.mk.injEq]
            constructor
            · rintro (⟨rfl, rfl⟩ | ⟨h, -⟩)
              · exact hspec.live rfl
              · exact h
            · intro hlive
              rcases (hspec.least rfl u v hlive).lt_or_eq with h | rfl
              · exact Or.inr ⟨hlive, h⟩
              · obtain ⟨-, e, he, -, rfl⟩ := hlive
                obtain ⟨-, e', he', -, hval⟩ := hspec.live rfl
                rw [← hval, he.unique hok.pool he']
                exact Or.inl ⟨rfl, rfl⟩

theorem drain_spec {m : MergeIterator σ} (hok : HeapOk m.h) :
    SortedBy Prod.fst m.drain ∧
    ∀ u v, (u, v) ∈ m.drain ↔ (poolOf m.h).Live m.upperBound u v :=
  drainLoop_spec hok (left_ge_size m)

end Next

section Sources

variable {σ : Type} [Cursor σ Entry]

theorem mem_poolOf_pushSources {n : Nat} {srcs : List σ} {h : List (MergeItem σ)}
    {p : Nat × List Entry} : p ∈ poolOf (pushSources n srcs h) ↔
      (∃ i src, srcs[i]? = some src ∧ Cursor.toList src ≠ [] ∧ p = (n + i, Cursor.toList src)) ∨
        p ∈ poolOf h := by
  induction srcs generalizing n h with
  | nil => simp [pushSources]
  | cons src srcs ih =>
      rw [pushSources, ih, poolOf_pushSource, List.mem_append]
      constructor
      · rintro (⟨i, src', hsrc, hne, rfl⟩ | hp | hp)
        · exact Or.inl ⟨i + 1, src', by simpa using hsrc, hne, by rw [Nat.add_right_comm]; rfl⟩
        · split at hp
          · simp at hp
          · rename_i hne
            exact Or.inl ⟨0, src, rfl, hne, by simpa using hp⟩
        · exact Or.inr hp
      · rintro (⟨i, src', hsrc, hne, rfl⟩ | hp)
        · cases i with
          | zero =>
              simp only [List.getElem?_cons_zero, Option.some.injEq] at hsrc
              subst hsrc
              exact Or.inr (Or.inl (by simp [hne]))
          | succ i =>
              exact Or.inl ⟨i, src', by simpa using hsrc, hne, by rw [Nat.add_right_comm]; rfl⟩
        · exact Or.inr (Or.inr hp)

theorem heapOk_pushSources {n : Nat} {srcs : List σ} {h : List (MergeItem σ)} (hok : HeapOk h)
    (hlt : ∀ p ∈ poolOf h, p.1 < n) (hs : ∀ src ∈ srcs, Sorted (Cursor.toList src)) :
    HeapOk (pushSources n srcs h) := by
  induction srcs generalizing n h with
  | nil => exact hok
  | cons src srcs ih =>
      rw [pushSources]
      have hmem : ∀ p ∈ poolOf (pushSource n src h),
          p = (n, Cursor.toList src) ∧ Cursor.toList src ≠ [] ∨ p ∈ poolOf h := by
        intro p hp
        rw [poolOf_pushSource, List.mem_append] at hp
        rcases hp with hp | hp
        · split at hp
          · simp at hp
          · rename_i hne
            exact Or.inl ⟨by simpa using hp, hne⟩
        · exact Or.inr hp
      apply ih
      · refine ⟨?_, key_pushSource hok.key⟩
        rw [poolOf_pushSource]
        split
        · exact hok.pool
        · rename_i hne
          refine Pool.wellFormed_cons.mpr ⟨hs src (by simp), hne, ?_, hok.pool⟩
          intro hn
          obtain ⟨p, hp, hpn⟩ := List.mem_map.mp hn
          exact absurd (hlt p hp) (hpn ▸ lt_irrefl n)
      · intro p hp
        rcases hmem p hp with ⟨rfl, -⟩ | hp
        · exact Nat.lt_succ_self n
        · exact (hlt p hp).trans (Nat.lt_succ_self n)
      · exact fun s hs' => hs s (by simp [hs'])

/-- The source covers the visible entries of the layer inside the bounds, and has
no others of the layer from the lower bound on. -/
structure Covers (lowerBound : Bytes) (upperBound : Option Bytes) (snapshot : Nat)
    (layer : List Entry) (src : σ) : Prop where
  sublist : (Cursor.toList src).Sublist layer
  bound : ∀ e ∈ Cursor.toList src, lowerBound ≤ e.userKey ∧ e.seqNum ≤ snapshot
  complete : ∀ e ∈ layer, inRange lowerBound upperBound e.userKey = true →
    e.seqNum ≤ snapshot → e ∈ Cursor.toList src

section Covered

variable {lowerBound : Bytes} {upperBound : Option Bytes} {snapshot : Nat}
  {layers : List (List Entry)} {srcs : List σ}

theorem mem_poolOf_of_covers {i : Nat} {layer : List Entry} {src : σ} {e : Entry}
    (hl : srcs[i]? = some src) (hcov : Covers lowerBound upperBound snapshot layer src)
    (he : e ∈ layer) (hrange : inRange lowerBound upperBound e.userKey = true)
    (hseq : e.seqNum ≤ snapshot) :
    (i, Cursor.toList src) ∈ poolOf (pushSources 0 srcs []) ∧ e ∈ Cursor.toList src := by
  have hmem := hcov.complete e he hrange hseq
  refine ⟨mem_poolOf_pushSources.mpr (Or.inl ⟨i, src, hl, List.ne_nil_of_mem hmem, ?_⟩), hmem⟩
  rw [Nat.zero_add]

theorem exists_getElem?_of_forall₂ {α β : Type} {R : α → β → Prop} {as : List α} {bs : List β}
    (h : List.Forall₂ R as bs) {i : Nat} {a : α} (ha : as[i]? = some a) :
    ∃ b, bs[i]? = some b ∧ R a b := by
  obtain ⟨hlen, hget⟩ := List.forall₂_iff_get.mp h
  obtain ⟨hi, rfl⟩ := List.getElem?_eq_some_iff.mp ha
  have hi' : i < bs.length := hlen ▸ hi
  exact ⟨bs[i], List.getElem?_eq_getElem hi', hget i hi hi'⟩

theorem exists_covered (hcov : List.Forall₂ (Covers lowerBound upperBound snapshot) layers srcs)
    {i : Nat} {src : σ} (hsrc : srcs[i]? = some src) :
    ∃ layer, layers[i]? = some layer ∧ Covers lowerBound upperBound snapshot layer src := by
  have hflip : List.Forall₂ (flip (Covers lowerBound upperBound snapshot)) srcs layers :=
    List.Forall₂.flip hcov
  exact exists_getElem?_of_forall₂ hflip hsrc

theorem wins_pushSources (hcov : List.Forall₂ (Covers lowerBound upperBound snapshot) layers srcs)
    (hs : ∀ layer ∈ layers, Sorted layer) {userKey : Bytes}
    (hrange : inRange lowerBound upperBound userKey = true) {e : Entry} :
    (poolOf (pushSources 0 srcs [])).Wins userKey e ↔
      newestAt layers userKey snapshot = some e := by
  rw [newestAt_eq_some_iff_firstPlace]
  constructor
  · rintro ⟨p, hp, he, hu, hmin⟩
    rcases mem_poolOf_pushSources.mp hp with ⟨i, src, hi, -, rfl⟩ | hp
    · obtain ⟨layer, hl, hc⟩ := exists_covered hcov hi
      refine ⟨i, ⟨layer, hl, ?_⟩, ?_⟩
      · have hsorted := hs layer (List.mem_of_getElem? hl)
        rw [(newestFirst_of_sorted hsorted).versionAt_eq_some_iff]
        refine ⟨hc.sublist.subset he, Entry.matchesAt_iff.mpr ⟨hu, (hc.bound e he).2⟩, ?_⟩
        intro b hb hmb
        obtain ⟨hbu, hbs⟩ := Entry.matchesAt_iff.mp hmb
        have hin := hc.complete b hb (hbu ▸ hrange) hbs
        exact Pool.ik_le_of_place_le (hmin _ hp b hin hbu)
      · intro j layer' b hl' hv
        obtain ⟨src', hj, hc'⟩ := exists_getElem?_of_forall₂ hcov hl'
        obtain ⟨hbu, hbs⟩ := Entry.matchesAt_iff.mp (versionAt_matches hv)
        obtain ⟨hq, hb⟩ := mem_poolOf_of_covers hj hc' (versionAt_mem hv) (hbu ▸ hrange) hbs
        have hle := hmin _ hq b hb hbu
        rwa [Nat.zero_add] at hle
    · simp [poolOf] at hp
  · rintro ⟨i, ⟨layer, hl, hv⟩, hmin⟩
    obtain ⟨src, hi, hc⟩ := exists_getElem?_of_forall₂ hcov hl
    obtain ⟨heu, hes⟩ := Entry.matchesAt_iff.mp (versionAt_matches hv)
    obtain ⟨hp, he⟩ := mem_poolOf_of_covers hi hc (versionAt_mem hv) (heu ▸ hrange) hes
    refine ⟨_, hp, he, heu, ?_⟩
    intro q hq b hb hbu
    rcases mem_poolOf_pushSources.mp hq with ⟨j, src', hj, -, rfl⟩ | hq
    · obtain ⟨layer', hl', hc'⟩ := exists_covered hcov hj
      rw [Nat.zero_add]
      -- the layer's own newest version stands between the two
      have hmb : b.matchesAt userKey snapshot = true :=
        Entry.matchesAt_iff.mpr ⟨hbu, (hc'.bound b hb).2⟩
      cases hv' : versionAt layer' userKey snapshot with
      | none =>
          rw [versionAt_eq_none.mp hv' b (hc'.sublist.subset hb)] at hmb
          simp at hmb
      | some a =>
          have hsorted := hs layer' (List.mem_of_getElem? hl')
          have hab := ((newestFirst_of_sorted hsorted).versionAt_eq_some_iff.mp hv').2.2 b
            (hc'.sublist.subset hb) hmb
          exact (hmin j layer' a hl' hv').trans (Pool.place_le_place hab le_rfl)
    · simp [poolOf] at hq

theorem heapOk_of_covers
    (hcov : List.Forall₂ (Covers lowerBound upperBound snapshot) layers srcs)
    (hs : ∀ layer ∈ layers, Sorted layer) : HeapOk (pushSources 0 srcs []) := by
  apply heapOk_pushSources heapOk_nil (by simp [poolOf])
  intro src hsrc
  obtain ⟨i, hi⟩ := List.getElem?_of_mem hsrc
  obtain ⟨layer, hl, hc⟩ := exists_covered hcov hi
  exact (hs layer (List.mem_of_getElem? hl)).sublist hc.sublist

/-- A scan over sources that cover the layers yields, in ascending order, exactly
the user keys inside the bounds whose newest visible version is not a tombstone. -/
theorem drain_pushSources
    (hcov : List.Forall₂ (Covers lowerBound upperBound snapshot) layers srcs)
    (hs : ∀ layer ∈ layers, Sorted layer) (m : MergeIterator σ)
    (hh : m.h = pushSources 0 srcs []) (hup : m.upperBound = upperBound) :
    SortedBy Prod.fst m.drain ∧
    ∀ u v, (u, v) ∈ m.drain ↔ inRange lowerBound upperBound u = true ∧
      answer (newestAt layers u snapshot) = some v := by
  have hok : HeapOk m.h := hh ▸ heapOk_of_covers hcov hs
  obtain ⟨hsorted, hmem⟩ := drain_spec hok
  refine ⟨hsorted, fun u v => ?_⟩
  rw [hmem, hh, hup, answer_eq_some]
  constructor
  · rintro ⟨hbelow, e, hwins, hk⟩
    have hlow : lowerBound ≤ u := by
      obtain ⟨p, hp, he, rfl, -⟩ := hwins
      rcases mem_poolOf_pushSources.mp hp with ⟨i, src, hi, -, rfl⟩ | hp
      · obtain ⟨layer, -, hc⟩ := exists_covered hcov hi
        exact (hc.bound e he).1
      · simp [poolOf] at hp
    have hrange : inRange lowerBound upperBound u = true := by simp [inRange, hlow, hbelow]
    exact ⟨hrange, e, (wins_pushSources hcov hs hrange).mp hwins, hk⟩
  · rintro ⟨hrange, e, hnew, hk⟩
    refine ⟨?_, e, (wins_pushSources hcov hs hrange).mpr hnew, hk⟩
    rw [inRange, Bool.and_eq_true] at hrange
    exact hrange.2

end Covered

end Sources

end Hcdb.Db
