import Hcdb.Compaction.Files

/-!
The directories a process can leave behind when it stops inside `Compact`, and the
tables they open as.  A merged table carries the name of the moment it was written,
so it is listed before all tables that are older files, and the outputs of later
groups before those of earlier ones.
-/

namespace Hcdb.Compaction

open Hcdb.Lib.ByteString
open Hcdb.Lib.SortedList
open Hcdb.Lib.FiniteMap
open Hcdb.Lib.Retain
open Hcdb.Base
open Hcdb.Sstable

/-- Where the process stops: with this many groups handled by the first loop, or with
this many tables handled by the loop that deletes. -/
inductive StopPoint where
  | merging (groups : Nat)
  | removing (tables : Nat)
  deriving DecidableEq, Repr

def stoppedDir [Runtime] (env : Env) (dir : TableDir) (tables : List SSTable) (floor : Nat)
    (stop : StopPoint) : TableDir :=
  if tables.length < Config.defaultCompactionThreshold then dir
  else
    match stop with
    | .merging n => (mergeLoop env floor 0 dir ((groupBySimilarSize env.stat tables).take n)).1
    | .removing m =>
        match mergeLoop env floor 0 dir (groupBySimilarSize env.stat tables) with
        | (dir, .error _) => dir
        | (dir, .ok (_, compacted)) => (removeLoop env compacted 0 dir (tables.take m)).1

theorem stoppedDir_completed [Runtime] (env : Env) (dir : TableDir) (tables : List SSTable)
    (floor : Nat) :
    stoppedDir env dir tables floor (.removing tables.length) =
      (compact env dir tables floor).1 := by
  unfold stoppedDir compact
  split
  · rfl
  · simp only [List.take_length]
    rcases mergeLoop env floor 0 dir (groupBySimilarSize env.stat tables) with
      ⟨dir', _ | ⟨result, compacted⟩⟩
    · rfl
    · rcases hremove : removeLoop env compacted 0 dir' tables with ⟨dir'', _ | _⟩
      · simp only [hremove]
      · simp only [hremove]

/-- The groups whose merged tables are installed when the process stops. -/
def installedGroups (stat : Bytes → Option Nat) (ts : List Table) (stop : StopPoint) :
    List (List Table) :=
  if ts.length < Config.defaultCompactionThreshold then []
  else
    match stop with
    | .merging n => (groupsOf stat ts).take n
    | .removing _ => groupsOf stat ts

theorem installedGroups_sublist (stat : Bytes → Option Nat) (ts : List Table) (stop : StopPoint) :
    (installedGroups stat ts stop).Sublist (groupsOf stat ts) := by
  unfold installedGroups
  split
  · exact List.nil_sublist _
  · split
    · exact List.take_sublist _ _
    · exact List.Sublist.refl _

/-- The tables that were merged, those of the last group first. -/
def mergedLast (gs : List (List Table)) : List Table :=
  (gs.filter fun g => decide (2 ≤ g.length)).reverse.flatten

theorem mem_mergedLast {gs : List (List Table)} {t : Table} :
    t ∈ mergedLast gs ↔ t ∈ doomed gs := by
  simp only [mergedLast, doomed, List.mem_flatten, List.mem_reverse]

theorem mergedLast_cons (g : List Table) (gs : List (List Table)) :
    mergedLast (g :: gs) = mergedLast gs ++ if g.length < 2 then [] else g := by
  unfold mergedLast
  by_cases hlen : g.length < 2
  · simp [hlen, show ¬ 2 ≤ g.length by omega]
  · simp [hlen, show 2 ≤ g.length by omega]

/-- Reading the merged tables, last one first, is reading what went into them. -/
theorem versionAt_newTables {now : Nat → Nat} {floor snapshot : Nat} (hfloor : floor ≤ snapshot)
    {gs : List (List Table)} (hnf : ∀ g ∈ gs, NewestFirst (layersOf g).flatten) (n : Nat)
    (key : Bytes) :
    versionAt (layersOf (newTables now floor n gs).reverse).flatten key snapshot =
      versionAt (layersOf (mergedLast gs)).flatten key snapshot := by
  induction gs generalizing n with
  | nil => rfl
  | cons g gs ih =>
      have hrest := ih (fun g' hg' => hnf g' (by simp [hg'])) (n + 1)
      rw [newTables, mergedLast_cons, List.reverse_append, layersOf, layersOf, List.map_append,
        List.map_append, List.flatten_append, List.flatten_append, versionAt_append,
        versionAt_append, ← layersOf, hrest]
      congr 1
      split
      · rfl
      · have hg := hnf g (by simp)
        have hout : (List.map Table.entries [mergedTable (now n) floor g].reverse).flatten =
            mergeIterators (layersOf g) floor := by
          simp [mergedTable_entries _ _ hg]
        rw [hout, versionAt_mergeIterators hg key hfloor]

theorem versionAt_filter_tables {p : Table → Bool} {ts : List Table} {key : Bytes} {snapshot : Nat}
    (h : ∀ t ∈ ts, p t = false → versionAt t.entries key snapshot = none) :
    versionAt (layersOf (ts.filter p)).flatten key snapshot =
      versionAt (layersOf ts).flatten key snapshot := by
  induction ts with
  | nil => rfl
  | cons t ts ih =>
      have hrest := ih fun t' ht' => h t' (by simp [ht'])
      have hflat : (layersOf (t :: ts)).flatten = t.entries ++ (layersOf ts).flatten := rfl
      rw [hflat, versionAt_append, ← hrest]
      cases hp : p t with
      | false =>
          rw [List.filter_cons_of_neg (by simp [hp]), h t (by simp) hp, Option.none_or]
      | true =>
          have hkeep : (layersOf ((t :: ts).filter p)).flatten =
              t.entries ++ (layersOf (ts.filter p)).flatten := by
            rw [List.filter_cons_of_pos hp]
            rfl
          rw [hkeep, versionAt_append]

theorem length_mergeIterators_le (iterators : List (List Entry)) (floor : Nat) :
    (mergeIterators iterators floor).length ≤ iterators.flatten.length := by
  rw [mergeIterators_eq, (sortBy_perm _).length_eq]
  exact (retain_sublist _ _).length_le

theorem countable_mergedTable {g : List Table} (hnf : NewestFirst (layersOf g).flatten)
    (nanos floor : Nat) (hcount : (layersOf g).flatten.length < 2 ^ 32) :
    (mergedTable nanos floor g).Countable := by
  apply Table.countable_of_length_lt
  rw [mergedTable_entries _ _ hnf]
  exact (length_mergeIterators_le _ _).trans_lt hcount

/-- The clock readings of the compaction are later than the names of all tables. -/
structure LaterNames (now : Nat → Nat) (ts : List Table) : Prop where
  stamp : ∀ i < ts.length, Stamp (now i)
  increasing : ∀ i < ts.length, ∀ j < i, now j < now i
  later : ∀ t ∈ ts, ∃ nanos, Stamp nanos ∧ t.name = sstName nanos ∧ ∀ i < ts.length, nanos < now i

section Names

variable {now : Nat → Nat} {ts : List Table}

theorem LaterNames.name_lt (h : LaterNames now ts) {t : Table} (ht : t ∈ ts) {i : Nat}
    (hi : i < ts.length) : t.name < sstName (now i) := by
  obtain ⟨nanos, hstamp, hname, hlt⟩ := h.later t ht
  rw [hname]
  exact sstName_lt hstamp (h.stamp i hi) (hlt i hi)

theorem LaterNames.names_lt (h : LaterNames now ts) {i j : Nat} (hi : i < ts.length)
    (hj : j < i) : sstName (now j) < sstName (now i) :=
  sstName_lt (h.stamp j (by omega)) (h.stamp i hi) (h.increasing i hi j hj)

theorem newTables_names_lt (h : LaterNames now ts) (floor : Nat) {gs : List (List Table)} {n : Nat}
    (hlen : n + gs.length ≤ ts.length) :
    (newTables now floor n gs).Pairwise fun t t' => t.name < t'.name := by
  induction gs generalizing n with
  | nil => exact List.Pairwise.nil
  | cons g gs ih =>
      rw [List.length_cons] at hlen
      have hrest := ih (n := n + 1) (by omega)
      rw [newTables]
      split
      · exact hrest
      · refine List.Pairwise.cons (fun t ht => ?_) hrest
        obtain ⟨i, g', hi, hi', -, -, rfl⟩ := mem_newTables ht
        rw [mergedTable_name, mergedTable_name]
        exact h.names_lt (by omega) (by omega)

end Names

section Directory

variable [Runtime] {dir : TableDir} {ts news : List Table}

theorem stores_writeTables (h : Stores dir ts) (hnd : (news.map Table.name).Nodup)
    (hnew : ∀ t ∈ news, ∀ t' ∈ ts, t'.name ≠ t.name) :
    Stores (writeTables dir news) (news.reverse ++ ts) := by
  intro name content
  simp only [List.mem_append, List.mem_reverse]
  by_cases hname : ∃ t ∈ news, t.name = name
  · obtain ⟨t, ht, rfl⟩ := hname
    rw [read_writeTables_of_mem hnd ht, Option.some.injEq]
    constructor
    · rintro rfl
      exact ⟨t, Or.inl ht, rfl, rfl⟩
    · rintro ⟨t', ht' | ht', hsame, rfl⟩
      · rw [List.inj_on_of_nodup_map hnd ht' ht hsame]
      · exact absurd hsame (hnew t ht t' ht')
  · rw [read_writeTables_of_not_mem fun t ht heq => hname ⟨t, ht, heq⟩, h name content]
    constructor
    · rintro ⟨t, ht, hsame⟩
      exact ⟨t, Or.inr ht, hsame⟩
    · rintro ⟨t, ht | ht, hsame, hcontent⟩
      · exact absurd ⟨t, ht, hsame⟩ hname
      · exact ⟨t, ht, hsame, hcontent⟩

theorem stores_removeNames (h : Stores dir ts) (names : List Bytes) :
    Stores (removeNames dir names) (ts.filter fun t => !decide (t.name ∈ names)) := by
  intro name content
  rw [read_removeNames]
  simp only [List.mem_filter, Bool.not_eq_true', decide_eq_false_iff_not]
  split
  · rename_i hmem
    constructor
    · intro hnone
      simp at hnone
    · rintro ⟨t, ⟨-, hnot⟩, rfl, -⟩
      exact absurd hmem hnot
  · rename_i hnot
    rw [h name content]
    constructor
    · rintro ⟨t, ht, rfl, hcontent⟩
      exact ⟨t, ⟨ht, hnot⟩, rfl, hcontent⟩
    · rintro ⟨t, ⟨ht, -⟩, hsame⟩
      exact ⟨t, ht, hsame⟩

theorem LaterNames.freshNames {now : Nat → Nat} (h : LaterNames now ts) (hstores : Stores dir ts) :
    FreshNames now ts.length dir where
  fresh i hi := by
    cases hread : dir.read (sstName (now i)) with
    | none => rfl
    | some content =>
        obtain ⟨t, ht, hname, -⟩ := (hstores _ _).mp hread
        exact absurd hname (h.name_lt ht hi).ne
  inj i hi j hj heq := by
    rcases Nat.lt_trichotomy i j with hlt | rfl | hlt
    · exact absurd heq (h.names_lt hj hlt).ne
    · rfl
    · exact absurd heq (h.names_lt hi hlt).ne'

end Directory

section Stopped

variable [Runtime] {env : Env} {ts : List Table} {dir : TableDir}

theorem Ready.stoppedDir_eq (h : Ready env ts dir) (floor : Nat) (stop : StopPoint) :
    ∃ removed, (∀ name ∈ removed, ∃ t ∈ ts, t.name = name) ∧
      (∀ t ∈ ts, t.name ∈ removed → t ∈ mergedLast (installedGroups env.stat ts stop)) ∧
      stoppedDir env dir (ts.map Table.sst) floor stop = removeNames (writeTables dir
        (newTables env.now floor 0 (installedGroups env.stat ts stop))) removed := by
  unfold stoppedDir installedGroups
  rw [List.length_map]
  split
  · exact ⟨[], by simp, by simp, rfl⟩
  · cases stop with
    | merging n => exact ⟨[], by simp, by simp, by simp only [h.mergeLoop_take]; rfl⟩
    | removing m =>
        have hsub := List.take_sublist m ts
        refine ⟨(doomedOf ((doomed (groupsOf env.stat ts)).map Table.name) (ts.take m)).map
          Table.name, ?_, ?_, ?_⟩
        · intro name hname
          obtain ⟨t, ht, rfl⟩ := List.mem_map.mp hname
          exact ⟨t, hsub.subset (mem_doomedOf.mp ht).1, rfl⟩
        · intro t ht hname
          obtain ⟨t', ht', hsame⟩ := List.mem_map.mp hname
          have hdoomed := (mem_doomedOf.mp ht').2
          obtain ⟨d, hd, hdname⟩ := List.mem_map.mp hdoomed
          have hdts : d ∈ ts := mem_groupsOf_flatten.mp
            ((doomed_append_singles_perm _).mem_iff.mp (List.mem_append_left _ hd))
          rw [List.inj_on_of_nodup_map h.nodup ht hdts (hsame.symm.trans hdname.symm)]
          exact mem_mergedLast.mpr hd
        · simp only [h.mergeLoop_eq floor, ← List.map_take]
          rw [removeLoop_ok (fun k _ _ => h.noFault _) ((hsub.map Table.name).nodup h.nodup)]
          · rfl
          · intro t ht
            rw [h.read_mergedDir_old floor (hsub.subset ht)]
            simp

/-- What is on the disk opens as the outputs so far, the last one first, and then the
tables that are left. -/
theorem Ready.listed_stopped (h : Ready env ts dir) (hl : Listed dir ts)
    (hnames : LaterNames env.now ts) (hcount : (layersOf ts).flatten.length < 2 ^ 32)
    (floor : Nat) (stop : StopPoint) :
    ∃ removed : List Bytes,
      (∀ t ∈ ts, t.name ∈ removed → t ∈ mergedLast (installedGroups env.stat ts stop)) ∧
      Listed (stoppedDir env dir (ts.map Table.sst) floor stop)
        ((newTables env.now floor 0 (installedGroups env.stat ts stop)).reverse ++
          ts.filter fun t => !decide (t.name ∈ removed)) := by
  obtain ⟨removed, hold, hgone, hdir⟩ := h.stoppedDir_eq floor stop
  have hgroups := installedGroups_sublist env.stat ts stop
  have hlen : (installedGroups env.stat ts stop).length ≤ ts.length :=
    hgroups.length_le.trans (groupsOf_length_le env.stat ts)
  have hincreasing : (newTables env.now floor 0 (installedGroups env.stat ts stop)).Pairwise
      fun t t' => t.name < t'.name := newTables_names_lt hnames floor (by omega)
  have hlater : ∀ t ∈ newTables env.now floor 0 (installedGroups env.stat ts stop), ∀ t' ∈ ts,
      t'.name < t.name := by
    intro t ht t' ht'
    obtain ⟨i, g, -, hi, -, -, rfl⟩ := mem_newTables ht
    rw [mergedTable_name]
    exact hnames.name_lt ht' (by omega)
  have hnd : ((newTables env.now floor 0
      (installedGroups env.stat ts stop)).map Table.name).Nodup := by
    rw [List.Nodup, List.pairwise_map]
    exact hincreasing.imp fun hlt => hlt.ne
  -- what was deleted are old tables, so the filter leaves the merged ones alone
  have hkeep : (newTables env.now floor 0 (installedGroups env.stat ts stop)).reverse.filter
      (fun t => !decide (t.name ∈ removed)) =
      (newTables env.now floor 0 (installedGroups env.stat ts stop)).reverse := by
    apply List.filter_eq_self.mpr
    intro t ht
    simp only [Bool.not_eq_true', decide_eq_false_iff_not]
    intro hmem
    obtain ⟨t', ht', hsame⟩ := hold t.name hmem
    exact absurd hsame (hlater t (List.mem_reverse.mp ht) t' ht').ne
  have hstores := stores_removeNames (stores_writeTables hl.stores hnd
    fun t ht t' ht' => (hlater t ht t' ht').ne) removed
  rw [List.filter_append, hkeep, ← hdir] at hstores
  refine ⟨removed, hgone, hstores, ?_, ?_⟩
  · refine List.pairwise_append.mpr ⟨List.pairwise_reverse.mpr hincreasing,
      hl.descending.sublist List.filter_sublist, ?_⟩
    exact fun t ht t' ht' => hlater t (List.mem_reverse.mp ht) t' (List.mem_of_mem_filter ht')
  · intro t ht
    rcases List.mem_append.mp ht with ht | ht
    · obtain ⟨i, g, -, -, hg, -, rfl⟩ := mem_newTables (List.mem_reverse.mp ht)
      have hsub : g.Sublist ts := groupBySize_sublist (hgroups.subset hg)
      apply countable_mergedTable (h.newestFirst_group (hgroups.subset hg))
      exact (hsub.map Table.entries).flatten.length_le.trans_lt hcount
    · exact hl.countable t (List.mem_of_mem_filter ht)

end Stopped

end Hcdb.Compaction
