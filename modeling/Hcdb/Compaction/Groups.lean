import Hcdb.Compaction.Compact

/-!
What a compaction keeps.  The groups divide the tables among them, each in list
order, and a merge keeps of every user key the versions that a snapshot at or
above the floor can reach.
-/

namespace Hcdb.Compaction

open Hcdb.Lib.ByteString
open Hcdb.Lib.SortedList
open Hcdb.Lib.Retain
open Hcdb.Base
open Hcdb.Sstable

section Grouping

variable {α β : Type}

theorem groupLoop_map (f : α → β) (fuel : Nat) (l : List (α × Nat)) :
    groupLoop fuel (l.map fun p => (f p.1, p.2)) = (groupLoop fuel l).map (List.map f) := by
  induction fuel generalizing l with
  | zero => rfl
  | succ fuel ih =>
      cases l with
      | nil => rfl
      | cons p rest =>
          have hfilter : ∀ q : Nat → Bool,
              (rest.map fun p => (f p.1, p.2)).filter (fun p => q p.2) =
                (rest.filter fun p => q p.2).map fun p => (f p.1, p.2) := by
            intro q
            rw [List.filter_map]
            rfl
          simp only [List.map_cons, groupLoop, hfilter (isSimilarSize p.2),
            hfilter (fun n => !isSimilarSize p.2 n), ih, List.map_map]
          rfl

theorem groupBySize_map (f : α → β) (size : β → Nat) (l : List α) :
    groupBySize size (l.map f) = (groupBySize (size ∘ f) l).map (List.map f) := by
  unfold groupBySize
  rw [← groupLoop_map, List.length_map, List.map_map, List.map_map]
  rfl

theorem groupBySize_congr {size size' : α → Nat} {l : List α} (h : ∀ t ∈ l, size t = size' t) :
    groupBySize size l = groupBySize size' l := by
  unfold groupBySize
  rw [List.map_congr_left fun t ht => by rw [h t ht]]

theorem groupLoop_flatten_perm {fuel : Nat} {l : List (α × Nat)} (h : l.length ≤ fuel) :
    (groupLoop fuel l).flatten.Perm (l.map Prod.fst) := by
  induction fuel generalizing l with
  | zero =>
      have hnil : l = [] := List.length_eq_zero_iff.mp (by omega)
      simp [hnil, groupLoop]
  | succ fuel ih =>
      cases l with
      | nil => simp [groupLoop]
      | cons p rest =>
          rw [List.length_cons] at h
          have hrest := ih (l := rest.filter fun q => !isSimilarSize p.2 q.2)
            ((List.length_filter_le _ _).trans (by omega))
          simp only [groupLoop, List.flatten_cons, List.map_cons, List.cons_append]
          apply List.Perm.cons
          refine (hrest.append_left _).trans ?_
          rw [← List.map_append]
          exact (List.filter_append_perm _ rest).map _

theorem groupLoop_sublist {fuel : Nat} {l : List (α × Nat)} {g : List α}
    (h : g ∈ groupLoop fuel l) : g.Sublist (l.map Prod.fst) := by
  induction fuel generalizing l with
  | zero => simp [groupLoop] at h
  | succ fuel ih =>
      cases l with
      | nil => simp [groupLoop] at h
      | cons p rest =>
          simp only [groupLoop, List.mem_cons] at h
          rcases h with rfl | h
          · exact (List.filter_sublist.map _).cons_cons _
          · exact ((ih h).trans (List.filter_sublist.map _)).cons _

theorem groupLoop_ne_nil {fuel : Nat} {l : List (α × Nat)} {g : List α}
    (h : g ∈ groupLoop fuel l) : g ≠ [] := by
  induction fuel generalizing l with
  | zero => simp [groupLoop] at h
  | succ fuel ih =>
      cases l with
      | nil => simp [groupLoop] at h
      | cons p rest =>
          simp only [groupLoop, List.mem_cons] at h
          rcases h with rfl | h
          · simp
          · exact ih h

theorem groupBySize_flatten_perm (size : α → Nat) (l : List α) :
    (groupBySize size l).flatten.Perm l := by
  have h := groupLoop_flatten_perm (l := l.map fun t => (t, size t))
    (Nat.le_of_eq (List.length_map _))
  rw [List.map_map] at h
  simpa [groupBySize, Function.comp_def] using h

theorem groupBySize_sublist {size : α → Nat} {l g : List α} (h : g ∈ groupBySize size l) :
    g.Sublist l := by
  have hsub := groupLoop_sublist h
  rw [List.map_map] at hsub
  simpa [Function.comp_def] using hsub

theorem groupBySize_ne_nil {size : α → Nat} {l g : List α} (h : g ∈ groupBySize size l) :
    g ≠ [] :=
  groupLoop_ne_nil h

theorem groupLoop_flatten_of_small {fuel : Nat} {l : List (α × Nat)} (hfuel : l.length ≤ fuel)
    (h : ∀ g ∈ groupLoop fuel l, g.length < 2) : (groupLoop fuel l).flatten = l.map Prod.fst := by
  induction fuel generalizing l with
  | zero =>
      have hnil : l = [] := List.length_eq_zero_iff.mp (by omega)
      simp [hnil, groupLoop]
  | succ fuel ih =>
      cases l with
      | nil => simp [groupLoop]
      | cons p rest =>
          rw [List.length_cons] at hfuel
          simp only [groupLoop, List.forall_mem_cons, List.length_cons, List.length_map] at h
          have hnone : rest.filter (fun q => isSimilarSize p.2 q.2) = [] :=
            List.length_eq_zero_iff.mp (by omega)
          have hall : rest.filter (fun q => !isSimilarSize p.2 q.2) = rest := by
            apply List.filter_eq_self.mpr
            intro q hq
            have := List.filter_eq_nil_iff.mp hnone q hq
            simpa using this
          rw [hall] at h
          simp only [groupLoop, hnone, hall, List.map_nil, List.flatten_cons, List.map_cons,
            ih (by omega) h.2, List.singleton_append]

theorem groupBySize_flatten_of_small {size : α → Nat} {l : List α}
    (h : ∀ g ∈ groupBySize size l, g.length < 2) : (groupBySize size l).flatten = l := by
  have hflat := groupLoop_flatten_of_small (Nat.le_of_eq (List.length_map _)) h
  rw [List.map_map] at hflat
  simpa [groupBySize, Function.comp_def] using hflat

end Grouping

theorem foldl_mergeEntry (floor : Nat) (entries : List Entry) (kept : List Bytes)
    (result : List Entry) :
    (entries.foldl (mergeEntry floor) (kept, result)).2 =
      result ++ retain Entry.userKey (fun e => decide (e.seqNum ≤ floor)) kept entries := by
  induction entries generalizing kept result with
  | nil => simp [retain]
  | cons e entries ih =>
      rw [List.foldl_cons, mergeEntry]
      unfold retain
      split
      · exact ih kept result
      · rw [ih]
        simp only [decide_eq_true_eq, List.append_assoc, List.singleton_append]

theorem mergeIterators_eq (iterators : List (List Entry)) (floor : Nat) :
    mergeIterators iterators floor = sortBy Entry.ik
      (retain Entry.userKey (fun e => decide (e.seqNum ≤ floor)) [] iterators.flatten) := by
  have hfold : ∀ acc, iterators.foldl
      (fun acc entries => entries.foldl (mergeEntry floor) acc) acc =
      iterators.flatten.foldl (mergeEntry floor) acc := by
    intro acc
    rw [List.foldl_flatten]
  simp only [mergeIterators, sortEntries, hfold, foldl_mergeEntry, List.nil_append]

section Merge

variable {iterators : List (List Entry)} {floor : Nat}

theorem mem_mergeIterators (h : NewestFirst iterators.flatten) {e : Entry} :
    e ∈ mergeIterators iterators floor ↔ e ∈ iterators.flatten ∧
      ∀ b ∈ iterators.flatten, b.userKey = e.userKey → b.ik < e.ik → floor < b.seqNum := by
  rw [mergeIterators_eq, mem_sortBy, mem_retain_iff (fun a b : Entry => a.ik < b.ik)
    (fun _ => lt_irrefl _) (fun h₁ h₂ => h₁.trans h₂) h]
  simp

theorem mergeIterators_sorted (h : NewestFirst iterators.flatten) :
    Sorted (mergeIterators iterators floor) := by
  rw [mergeIterators_eq]
  apply sortBy_sortedBy
  refine List.Pairwise.sublist (retain_sublist _ _) (List.Pairwise.imp ?_ h)
  intro a b hlt heq
  exact absurd (hlt (congrArg InternalKey.userKey heq)) (heq ▸ lt_irrefl _)

/-- A merge shows every snapshot at or above its floor what its input showed. -/
theorem versionAt_mergeIterators (h : NewestFirst iterators.flatten) (userKey : Bytes)
    {snapshot : Nat} (hfloor : floor ≤ snapshot) :
    versionAt (mergeIterators iterators floor) userKey snapshot =
      versionAt iterators.flatten userKey snapshot := by
  have hretain : versionAt (retain Entry.userKey (fun e => decide (e.seqNum ≤ floor)) []
      iterators.flatten) userKey snapshot = versionAt iterators.flatten userKey snapshot := by
    apply find?_retain (k := userKey)
    · exact fun a ha => (Entry.matchesAt_iff.mp ha).1
    · intro a hk hf
      exact Entry.matchesAt_iff.mpr ⟨hk, (of_decide_eq_true hf).trans hfloor⟩
    · simp
  rw [← hretain]
  have hsub : NewestFirst (retain Entry.userKey (fun e => decide (e.seqNum ≤ floor)) []
      iterators.flatten) := List.Pairwise.sublist (retain_sublist _ _) h
  apply Option.ext
  intro e
  rw [(newestFirst_of_sorted (mergeIterators_sorted h)).versionAt_eq_some_iff,
    hsub.versionAt_eq_some_iff, mergeIterators_eq]
  simp only [mem_sortBy]

/-- A merge keeps, in internal-key order, every version above the floor and of each
user key the newest one at or below it, tombstones like all others. -/
theorem mergeIterators_exact (iterators : List (List Entry)) (floor : Nat)
    (hsorted : ∀ entries ∈ iterators, entries.Pairwise Entry.Before)
    (hnewest : iterators.Pairwise fun entries older => ∀ a ∈ entries, ∀ b ∈ older,
      a.userKey = b.userKey → a.Before b) :
    (mergeIterators iterators floor).Pairwise Entry.Before ∧
    ∀ e, e ∈ mergeIterators iterators floor ↔ e ∈ iterators.flatten ∧ (floor < e.seqNum ∨
      e.seqNum ≤ floor ∧ ∀ b ∈ iterators.flatten, b.userKey = e.userKey → b.seqNum ≤ floor →
        b = e ∨ e.Before b) := by
  have hnf : NewestFirst iterators.flatten := by
    refine List.pairwise_flatten.mpr ⟨fun entries hentries => ?_, ?_⟩
    · apply List.Pairwise.imp _ (hsorted entries hentries)
      intro a b hab _
      exact Entry.before_iff.mp hab
    · exact hnewest.imp fun hab a ha b hb hu => Entry.before_iff.mp (hab a ha b hb hu)
  refine ⟨(mergeIterators_sorted hnf).imp Entry.before_iff.mpr, fun e => ?_⟩
  rw [mem_mergeIterators hnf]
  refine and_congr_right fun he => ?_
  constructor
  · intro hkept
    rcases Nat.lt_or_ge floor e.seqNum with habove | hbelow
    · exact Or.inl habove
    · refine Or.inr ⟨hbelow, fun b hb hu hseq => ?_⟩
      rcases lt_trichotomy b.ik e.ik with hlt | heq | hgt
      · exact absurd (hkept b hb hu hlt) (not_lt.mpr hseq)
      · exact Or.inl (hnf.eq_of_ik_eq hb he heq)
      · exact Or.inr (Entry.before_iff.mpr hgt)
  · rintro (habove | ⟨-, hnewest⟩) b hb hu hlt
    · exact habove.trans_le (InternalKey.seqNum_le_of_lt hlt hu)
    · by_contra hseq
      rcases hnewest b hb hu (not_lt.mp hseq) with rfl | hbefore
      · exact lt_irrefl _ hlt
      · exact lt_asymm hlt (Entry.before_iff.mp hbefore)

/-- Of three versions of a key and a floor between the newest two, the oldest goes. -/
theorem mergeIterators_exact_threeVersions :
    mergeIterators [[setVersion [107] 3 [1]], [setVersion [107] 2 [2], setVersion [107] 1 [3]]] 2 =
      [setVersion [107] 3 [1], setVersion [107] 2 [2]] ∧
    (mergeIterators [[setVersion [107] 3 [1]],
      [setVersion [107] 2 [2], setVersion [107] 1 [3]]] 2).Pairwise Entry.Before := by
  exact ⟨by decide, (mergeIterators_exact _ 2 (by decide) (by decide)).1⟩

end Merge

/-- What the group leaves in the table list: a group of one table stays as it is. -/
def outEntries (floor : Nat) (group : List (List Entry)) : List Entry :=
  if group.length < 2 then group.flatten else mergeIterators group floor

/-- What a merge of the group keeps: a version without a newer one of its key at or below
the floor. A group of one table is not merged. -/
def Survives (floor : Nat) (group : List (List Entry)) (e : Entry) : Prop :=
  e ∈ group.flatten ∧ (2 ≤ group.length →
    ∀ b ∈ group.flatten, b.userKey = e.userKey → b.ik < e.ik → floor < b.seqNum)

section Output

variable {group : List (List Entry)} {floor : Nat}

theorem mem_outEntries (h : NewestFirst group.flatten) {e : Entry} :
    e ∈ outEntries floor group ↔ Survives floor group e := by
  unfold outEntries Survives
  split
  · constructor
    · exact fun he => ⟨he, fun hge => absurd hge (by omega)⟩
    · exact And.left
  · rw [mem_mergeIterators h]
    constructor
    · exact fun ⟨he, hmin⟩ => ⟨he, fun _ => hmin⟩
    · exact fun ⟨he, hmin⟩ => ⟨he, hmin (by omega)⟩

theorem outEntries_newestFirst (h : NewestFirst group.flatten) :
    NewestFirst (outEntries floor group) := by
  unfold outEntries
  split
  · exact h
  · exact newestFirst_of_sorted (mergeIterators_sorted h)

theorem versionAt_outEntries (h : NewestFirst group.flatten) (userKey : Bytes) {snapshot : Nat}
    (hfloor : floor ≤ snapshot) : versionAt (outEntries floor group) userKey snapshot =
      versionAt group.flatten userKey snapshot := by
  unfold outEntries
  split
  · rfl
  · exact versionAt_mergeIterators h userKey hfloor

end Output

/-- Compaction keeps the list newest first: what survives of a group is newer,
user key by user key, than what survives of every later group. -/
def KeepsRecency (floor : Nat) (groups : List (List (List Entry))) : Prop :=
  groups.Pairwise fun g g' => ∀ e e', Survives floor g e → Survives floor g' e' →
    e.userKey = e'.userKey → e.ik < e'.ik

/-- The groups divide the layers, each in the order of the list. -/
structure Divides (groups : List (List (List Entry))) (layers : List (List Entry)) : Prop where
  perm : groups.flatten.Perm layers
  sublist : ∀ g ∈ groups, g.Sublist layers

section Whole

variable {groups : List (List (List Entry))} {layers : List (List Entry)} {floor : Nat}

theorem Divides.newestFirst (hd : Divides groups layers) (h : NewestFirst layers.flatten)
    {g : List (List Entry)} (hg : g ∈ groups) : NewestFirst g.flatten := by
  have hflat := List.pairwise_flatten.mp h
  refine List.pairwise_flatten.mpr ⟨fun l hl => hflat.1 l ((hd.sublist g hg).subset hl), ?_⟩
  exact hflat.2.sublist (hd.sublist g hg)

theorem Divides.mem_flatten (hd : Divides groups layers) {e : Entry} :
    e ∈ layers.flatten ↔ ∃ g ∈ groups, e ∈ g.flatten := by
  simp only [List.mem_flatten]
  constructor
  · rintro ⟨l, hl, he⟩
    obtain ⟨g, hg, hlg⟩ := List.mem_flatten.mp (hd.perm.mem_iff.mpr hl)
    exact ⟨g, hg, l, hlg, he⟩
  · rintro ⟨g, hg, l, hl, he⟩
    exact ⟨l, (hd.sublist g hg).subset hl, he⟩

/-- The table list is newest first after a compaction exactly when the compaction
keeps recency. -/
theorem Divides.newestFirst_out_iff (hd : Divides groups layers)
    (h : NewestFirst layers.flatten) :
    NewestFirst (groups.map (outEntries floor)).flatten ↔ KeepsRecency floor groups := by
  unfold NewestFirst KeepsRecency
  rw [List.pairwise_flatten, List.pairwise_map]
  constructor
  · rintro ⟨-, hpair⟩
    apply List.Pairwise.imp_of_mem _ hpair
    intro g g' hg hg' hlt e e' he he'
    exact hlt e ((mem_outEntries (hd.newestFirst h hg)).mpr he) e'
      ((mem_outEntries (hd.newestFirst h hg')).mpr he')
  · intro hpair
    refine ⟨?_, ?_⟩
    · intro l hl
      obtain ⟨g, hg, rfl⟩ := List.mem_map.mp hl
      exact outEntries_newestFirst (hd.newestFirst h hg)
    · apply List.Pairwise.imp_of_mem _ hpair
      intro g g' hg hg' hlt e he e' he'
      exact hlt e e' ((mem_outEntries (hd.newestFirst h hg)).mp he)
        ((mem_outEntries (hd.newestFirst h hg')).mp he')

theorem outEntries_sorted {group : List (List Entry)} (hs : ∀ l ∈ group, Sorted l)
    (h : NewestFirst group.flatten) : Sorted (outEntries floor group) := by
  unfold outEntries
  split
  · rename_i hlt
    match group, hlt with
    | [], _ => exact sortedBy_nil
    | [l], _ =>
        rw [List.flatten_singleton]
        exact hs l (by simp)
  · exact mergeIterators_sorted h

theorem Divides.mem_out (hd : Divides groups layers) (h : NewestFirst layers.flatten) {e : Entry}
    (he : e ∈ (groups.map (outEntries floor)).flatten) : e ∈ layers.flatten := by
  obtain ⟨l, hl, hel⟩ := List.mem_flatten.mp he
  obtain ⟨g, hg, rfl⟩ := List.mem_map.mp hl
  exact hd.mem_flatten.mpr ⟨g, hg, ((mem_outEntries (hd.newestFirst h hg)).mp hel).1⟩

theorem Divides.newest_survives (hd : Divides groups layers) (h : NewestFirst layers.flatten)
    {userKey : Bytes} {snapshot : Nat} (hfloor : floor ≤ snapshot) {e : Entry}
    (he : versionAt layers.flatten userKey snapshot = some e) :
    e ∈ (groups.map (outEntries floor)).flatten := by
  obtain ⟨hmem, hmatch, hmin⟩ := h.versionAt_eq_some_iff.mp he
  obtain ⟨g, hg, heg⟩ := hd.mem_flatten.mp hmem
  have hnf := hd.newestFirst h hg
  have hv : versionAt g.flatten userKey snapshot = some e :=
    hnf.versionAt_eq_some_iff.mpr ⟨heg, hmatch, fun b hb => hmin b (hd.mem_flatten.mpr ⟨g, hg, hb⟩)⟩
  rw [← versionAt_outEntries hnf userKey hfloor] at hv
  exact List.mem_flatten.mpr ⟨_, List.mem_map_of_mem hg, versionAt_mem hv⟩

/-- Merged reads at a protected snapshot see the same before and after. -/
theorem Divides.newestAt_out (hd : Divides groups layers) (h : NewestFirst layers.flatten)
    (hs : ∀ l ∈ layers, Sorted l) (userKey : Bytes) {snapshot : Nat} (hfloor : floor ≤ snapshot) :
    newestAt (groups.map (outEntries floor)) userKey snapshot =
      newestAt layers userKey snapshot := by
  have hs' : ∀ l ∈ groups.map (outEntries floor), Sorted l := by
    intro l hl
    obtain ⟨g, hg, rfl⟩ := List.mem_map.mp hl
    exact outEntries_sorted (fun l hl => hs l ((hd.sublist g hg).subset hl)) (hd.newestFirst h hg)
  have hinj : ∀ a ∈ (groups.map (outEntries floor)).flatten,
      ∀ b ∈ (groups.map (outEntries floor)).flatten, a.ik = b.ik → a = b :=
    fun a ha b hb => h.eq_of_ik_eq (hd.mem_out h ha) (hd.mem_out h hb)
  apply Option.ext
  intro e
  rw [newestAt_eq_some_iff hs' hinj, h.newestAt_eq hs, h.versionAt_eq_some_iff]
  constructor
  · rintro ⟨he, hmatch, hmin⟩
    refine ⟨hd.mem_out h he, hmatch, fun b hb hmb => ?_⟩
    -- the newest of all survives, so it is not newer than the newest survivor
    cases hv : versionAt layers.flatten userKey snapshot with
    | none =>
        rw [versionAt_eq_none.mp hv b hb] at hmb
        simp at hmb
    | some c =>
        have hc := hmin c (hd.newest_survives h hfloor hv) (versionAt_matches hv)
        exact hc.trans ((h.versionAt_eq_some_iff.mp hv).2.2 b hb hmb)
  · rintro ⟨he, hmatch, hmin⟩
    refine ⟨hd.newest_survives h hfloor (h.versionAt_eq_some_iff.mpr ⟨he, hmatch, hmin⟩), hmatch,
      fun b hb => hmin b (hd.mem_out h hb)⟩

end Whole

end Hcdb.Compaction
