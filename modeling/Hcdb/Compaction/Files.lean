import Hcdb.Compaction.Groups

namespace Hcdb.Compaction

open Hcdb.Lib.ByteString
open Hcdb.Lib.SortedList
open Hcdb.Lib.FiniteMap
open Hcdb.Base
open Hcdb.Sstable

/-- The runs of versions in the tables. -/
abbrev layersOf (ts : List Table) : List (List Entry) := ts.map Table.entries

theorem sorted_of_mem_layersOf (ts : List Table) : ∀ l ∈ layersOf ts, Sorted l := by
  intro l hl
  obtain ⟨t, -, rfl⟩ := List.mem_map.mp hl
  exact t.sorted

theorem mergeIterators_wellFormed {ts : List Table} {floor : Nat}
    (h : NewestFirst (layersOf ts).flatten) :
    ∀ e ∈ mergeIterators (layersOf ts) floor, e.WellFormed := by
  intro e he
  obtain ⟨l, hl, hel⟩ := List.mem_flatten.mp ((mem_mergeIterators h).mp he).1
  obtain ⟨t, -, rfl⟩ := List.mem_map.mp hl
  exact t.wellFormed e hel

/-- The table that a group is merged into. -/
def mergedTable (nanos floor : Nat) (group : List Table) : Table :=
  if h : NewestFirst (layersOf group).flatten then
    { name := sstName nanos
      entries := mergeIterators (layersOf group) floor
      sorted := mergeIterators_sorted h
      wellFormed := mergeIterators_wellFormed h }
  else { name := sstName nanos, entries := [], sorted := sortedBy_nil, wellFormed := by simp }

theorem mergedTable_name (nanos floor : Nat) (group : List Table) :
    (mergedTable nanos floor group).name = sstName nanos := by
  unfold mergedTable
  split <;> rfl

theorem mergedTable_entries (nanos floor : Nat) {group : List Table}
    (h : NewestFirst (layersOf group).flatten) :
    (mergedTable nanos floor group).entries = mergeIterators (layersOf group) floor := by
  rw [mergedTable, dif_pos h]

/-- The tables that the groups, numbered from `n` on, put into the result. -/
def outTables (now : Nat → Nat) (floor : Nat) : Nat → List (List Table) → List Table
  | _, [] => []
  | n, g :: gs =>
      (if g.length < 2 then g else [mergedTable (now n) floor g]) ++ outTables now floor (n + 1) gs

/-- The merged tables, numbered from `n` on; groups of one table are not merged. -/
def newTables (now : Nat → Nat) (floor : Nat) : Nat → List (List Table) → List Table
  | _, [] => []
  | n, g :: gs =>
      (if g.length < 2 then [] else [mergedTable (now n) floor g]) ++ newTables now floor (n + 1) gs

/-- The tables that go into a merge. -/
def doomed (gs : List (List Table)) : List Table :=
  (gs.filter fun g => decide (2 ≤ g.length)).flatten

def removeNames (dir : TableDir) (names : List Bytes) : TableDir :=
  names.foldl (fun dir name => dir.remove name) dir

theorem read_removeNames (dir : TableDir) (names : List Bytes) (name : Bytes) :
    (removeNames dir names).read name = if name ∈ names then none else dir.read name := by
  induction names generalizing dir with
  | nil => simp [removeNames]
  | cons a names ih =>
      rw [removeNames, List.foldl_cons, ← removeNames, ih]
      by_cases hname : name ∈ names
      · simp [hname]
      · by_cases ha : name = a
        · simp [ha, FMap.read_remove_self]
        · simp [hname, ha, FMap.read_remove_of_ne dir ha]

section Disk

variable [Runtime]

def writeTables (dir : TableDir) (ts : List Table) : TableDir :=
  ts.foldl (fun dir t => dir.write t.name t.content) dir

theorem read_writeTables_of_not_mem {dir : TableDir} {ts : List Table} {name : Bytes}
    (h : ∀ t ∈ ts, t.name ≠ name) : (writeTables dir ts).read name = dir.read name := by
  induction ts generalizing dir with
  | nil => rfl
  | cons t ts ih =>
      have hne : name ≠ t.name := (h t (by simp)).symm
      rw [writeTables, List.foldl_cons, ← writeTables, ih fun t' ht' => h t' (by simp [ht']),
        FMap.read_write_of_ne _ _ hne]

theorem read_writeTables_of_mem {dir : TableDir} {ts : List Table} (hnd : (ts.map Table.name).Nodup)
    {t : Table} (ht : t ∈ ts) : (writeTables dir ts).read t.name = some t.content := by
  induction ts generalizing dir with
  | nil => simp at ht
  | cons a ts ih =>
      rw [List.map_cons, List.nodup_cons] at hnd
      rw [writeTables, List.foldl_cons, ← writeTables]
      rcases List.mem_cons.mp ht with rfl | ht
      · rw [read_writeTables_of_not_mem, FMap.read_write_self]
        intro t' ht' heq
        exact hnd.1 (heq ▸ List.mem_map_of_mem ht')
      · exact ih hnd.2 ht

theorem readAll_eq {dir : TableDir} {ts : List Table}
    (h : ∀ t ∈ ts, dir.read t.name = some t.content) :
    readAll dir (ts.map Table.sst) = .ok (layersOf ts) := by
  induction ts with
  | nil => rfl
  | cons t ts ih =>
      simp only [List.map_cons, readAll, Table.newBlockIterator_eq (h t (by simp)),
        ih fun t' ht' => h t' (by simp [ht'])]

theorem mergeGroup_eq {env : Env} (hok : ∀ c, env.fails c = false) (floor n : Nat)
    {dir : TableDir} {g : List Table} (hnf : NewestFirst (layersOf g).flatten)
    (h : ∀ t ∈ g, dir.read t.name = some t.content) :
    mergeGroup env floor n dir (g.map Table.sst) =
      (dir.write (mergedTable (env.now n) floor g).name (mergedTable (env.now n) floor g).content,
        .ok (mergedTable (env.now n) floor g).sst) := by
  simp only [mergeGroup, hok, readAll_eq h, writeSSTableFromBlockEntries_eq, Bool.false_eq_true,
    if_false, Table.sst, Table.content, mergedTable_name, mergedTable_entries _ _ hnf]

/-- The loop over the groups has come to reading `n` of the clock: the files of the
groups that are left are there, and no reading to come names one of them. -/
structure GroupsHeld (now : Nat → Nat) (n : Nat) (dir : TableDir) (gs : List (List Table)) :
    Prop where
  read : ∀ t ∈ gs.flatten, dir.read t.name = some t.content
  fresh : ∀ i, n ≤ i → i < n + gs.length → ∀ t ∈ gs.flatten, t.name ≠ sstName (now i)

section GroupsHeld

variable {now : Nat → Nat} {n : Nat} {dir : TableDir} {g : List Table} {gs : List (List Table)}

theorem GroupsHeld.head (h : GroupsHeld now n dir (g :: gs)) :
    ∀ t ∈ g, dir.read t.name = some t.content := by
  intro t ht
  apply h.read
  rw [List.flatten_cons]
  exact List.mem_append_left _ ht

theorem GroupsHeld.tail (h : GroupsHeld now n dir (g :: gs)) :
    GroupsHeld now (n + 1) dir gs := by
  have hflat : ∀ t ∈ gs.flatten, t ∈ (g :: gs).flatten := by
    intro t ht
    rw [List.flatten_cons]
    exact List.mem_append_right _ ht
  refine ⟨fun t ht => h.read t (hflat t ht), fun i hi hlt t ht => ?_⟩
  apply h.fresh i (by omega) _ t (hflat t ht)
  rw [List.length_cons]
  omega

theorem GroupsHeld.write (h : GroupsHeld now n dir (g :: gs)) (file : Bytes) :
    GroupsHeld now (n + 1) (dir.write (sstName (now n)) file) gs := by
  refine ⟨fun t ht => ?_, h.tail.fresh⟩
  rw [FMap.read_write_of_ne, h.tail.read t ht]
  apply h.fresh n le_rfl (by rw [List.length_cons]; omega)
  rw [List.flatten_cons]
  exact List.mem_append_right _ ht

end GroupsHeld

/-- The loop over the groups writes the merged tables and lists the outputs in
group order. -/
theorem mergeLoop_eq {env : Env} (hok : ∀ c, env.fails c = false) (floor : Nat)
    {gs : List (List Table)} (hnf : ∀ g ∈ gs, NewestFirst (layersOf g).flatten) {n : Nat}
    {dir : TableDir} (hheld : GroupsHeld env.now n dir gs) :
    mergeLoop env floor n dir (gs.map (List.map Table.sst)) =
      (writeTables dir (newTables env.now floor n gs),
        .ok ((outTables env.now floor n gs).map Table.sst, (doomed gs).map Table.name)) := by
  induction gs generalizing n dir with
  | nil => rfl
  | cons g gs ih =>
      rw [List.forall_mem_cons] at hnf
      rw [List.map_cons, mergeLoop]
      by_cases hlen : g.length < 2
      · have hsmall : ¬ 2 ≤ g.length := by omega
        rw [if_pos (by simpa using hlen), ih hnf.2 hheld.tail]
        simp [outTables, newTables, doomed, hlen, hsmall]
      · have hbig : 2 ≤ g.length := by omega
        have hwritten := hheld.write (mergedTable (env.now n) floor g).content
        rw [← mergedTable_name (env.now n) floor g] at hwritten
        rw [if_neg (by simpa using hlen), mergeGroup_eq hok floor n hnf.1 hheld.head]
        simp only [ih hnf.2 hwritten]
        simp [outTables, newTables, doomed, hlen, hbig, writeTables, Table.sst, tableOf]

theorem read_mergeGroup (env : Env) (floor n : Nat) (dir : TableDir) (g : List SSTable)
    {name : Bytes} (hne : name ≠ sstName (env.now n)) :
    (mergeGroup env floor n dir g).1.read name = dir.read name := by
  unfold mergeGroup
  split
  · rfl
  · split
    · rfl
    · simp only
      split
      · rfl
      · split
        · exact FMap.read_write_of_ne _ _ hne
        · exact FMap.read_write_of_ne _ _ hne

/-- The runs of the loop over the groups, from group `g` on. -/
inductive MergeRun (env : Env) (floor : Nat) : Nat → TableDir → List (List SSTable) → TableDir →
    Except CompactErr (List SSTable × List Bytes) → Prop
  | nil {g : Nat} {dir : TableDir} : MergeRun env floor g dir [] dir (.ok ([], []))
  | single {g : Nat} {dir dir' : TableDir} {group : List SSTable} {groups : List (List SSTable)}
      {res : Except CompactErr (List SSTable × List Bytes)} : group.length < 2 →
      MergeRun env floor (g + 1) dir groups dir' res →
      MergeRun env floor g dir (group :: groups) dir'
        (res.map fun out => (group ++ out.1, out.2))
  | failed {g : Nat} {dir dir' : TableDir} {group : List SSTable} {groups : List (List SSTable)}
      {e : CompactErr} : mergeGroup env floor g dir group = (dir', .error e) →
      MergeRun env floor g dir (group :: groups) dir' (.error e)
  | merged {g : Nat} {dir dir₁ dir' : TableDir} {group : List SSTable}
      {groups : List (List SSTable)} {sst : SSTable}
      {res : Except CompactErr (List SSTable × List Bytes)} :
      mergeGroup env floor g dir group = (dir₁, .ok sst) →
      MergeRun env floor (g + 1) dir₁ groups dir' res →
      MergeRun env floor g dir (group :: groups) dir'
        (res.map fun out => (sst :: out.1, group.map SSTable.filePath ++ out.2))

theorem mergeRun_mergeLoop (env : Env) (floor g : Nat) (dir : TableDir)
    (groups : List (List SSTable)) :
    MergeRun env floor g dir groups (mergeLoop env floor g dir groups).1
      (mergeLoop env floor g dir groups).2 := by
  induction groups generalizing g dir with
  | nil => exact .nil
  | cons group groups ih =>
      unfold mergeLoop
      split
      · rename_i hsmall
        have hrun := ih (g + 1) dir
        rcases hloop : mergeLoop env floor (g + 1) dir groups with ⟨dir', _ | ⟨result, compacted⟩⟩
        · rw [hloop] at hrun
          exact .single hsmall hrun
        · rw [hloop] at hrun
          exact .single hsmall hrun
      · rcases hmerge : mergeGroup env floor g dir group with ⟨dir₁, _ | sst⟩
        · exact .failed hmerge
        · have hrun := ih (g + 1) dir₁
          simp only
          rcases hloop : mergeLoop env floor (g + 1) dir₁ groups with
            ⟨dir', _ | ⟨result, compacted⟩⟩
          · rw [hloop] at hrun
            exact .merged hmerge hrun
          · rw [hloop] at hrun
            exact .merged hmerge hrun

theorem MergeRun.read_eq {env : Env} {floor g : Nat} {dir dir' : TableDir}
    {groups : List (List SSTable)} {res : Except CompactErr (List SSTable × List Bytes)}
    (h : MergeRun env floor g dir groups dir' res) {name : Bytes}
    (hfresh : ∀ i, g ≤ i → i < g + groups.length → name ≠ sstName (env.now i)) :
    dir'.read name = dir.read name := by
  induction h with
  | nil => rfl
  | single _ _ ih =>
      exact ih fun i h₁ h₂ => hfresh i (by omega) (by rw [List.length_cons]; omega)
  | @failed g dir _ group _ _ hmerge =>
      have hhere := read_mergeGroup env floor g dir group
        (hfresh g le_rfl (by rw [List.length_cons]; omega))
      rwa [hmerge] at hhere
  | @merged g dir _ _ group _ _ _ hmerge _ ih =>
      have hhere := read_mergeGroup env floor g dir group
        (hfresh g le_rfl (by rw [List.length_cons]; omega))
      rw [hmerge] at hhere
      exact (ih fun i h₁ h₂ => hfresh i (by omega) (by rw [List.length_cons]; omega)).trans hhere

theorem read_mergeLoop (env : Env) (floor : Nat) {gs : List (List SSTable)} {n : Nat}
    (dir : TableDir) {name : Bytes}
    (hfresh : ∀ i, n ≤ i → i < n + gs.length → name ≠ sstName (env.now i)) :
    (mergeLoop env floor n dir gs).1.read name = dir.read name :=
  (mergeRun_mergeLoop env floor n dir gs).read_eq hfresh

end Disk

/-- The tables whose files a compaction deletes. -/
def doomedOf (compacted : List Bytes) (ts : List Table) : List Table :=
  ts.filter fun t => compacted.contains t.name

theorem mem_doomedOf {compacted : List Bytes} {ts : List Table} {t : Table} :
    t ∈ doomedOf compacted ts ↔ t ∈ ts ∧ t.name ∈ compacted := by
  rw [doomedOf, List.mem_filter, List.contains_iff_mem]

theorem present_of_remove {dir : TableDir} {t : Table} {ts : List Table}
    (hname : t.name ∉ ts.map Table.name) (h : ∀ t' ∈ t :: ts, dir.read t'.name ≠ none) :
    ∀ t' ∈ ts, (dir.remove t.name).read t'.name ≠ none := by
  intro t' ht'
  rw [FMap.read_remove_of_ne]
  · exact h t' (by simp [ht'])
  · exact fun heq => hname (heq ▸ List.mem_map_of_mem ht')

section Remove

variable [Runtime] {env : Env} {compacted : List Bytes}

theorem removeLoop_ok {ts : List Table} {i : Nat}
    (hok : ∀ k, i ≤ k → k < i + (doomedOf compacted ts).length → env.fails (.remove k) = false)
    (hnd : (ts.map Table.name).Nodup) {dir : TableDir}
    (hread : ∀ t ∈ ts, dir.read t.name ≠ none) :
    removeLoop env compacted i dir (ts.map Table.sst) =
      (removeNames dir ((doomedOf compacted ts).map Table.name), .ok ()) := by
  induction ts generalizing i dir with
  | nil => rfl
  | cons t ts ih =>
      rw [List.map_cons, List.nodup_cons] at hnd
      have hpath : t.sst.filePath = t.name := rfl
      rw [List.map_cons, removeLoop, hpath]
      by_cases hmem : t.name ∈ compacted
      · have hcons : doomedOf compacted (t :: ts) = t :: doomedOf compacted ts := by
          simp [doomedOf, hmem]
        rw [hcons, List.length_cons] at hok
        have hnow := hok i le_rfl (by omega)
        rw [if_pos hmem, if_neg (by simp [hnow, hread t (by simp)]),
          ih (fun k h₁ h₂ => hok k (by omega) (by omega)) hnd.2 (present_of_remove hnd.1 hread),
          hcons]
        simp [removeNames]
      · have hcons : doomedOf compacted (t :: ts) = doomedOf compacted ts := by
          simp [doomedOf, hmem]
        rw [hcons] at hok ⊢
        rw [if_neg hmem, ih hok hnd.2 fun t' ht' => hread t' (by simp [ht'])]

theorem removeLoop_fails {j : Nat} (hj : ∀ k, env.fails (.remove k) = decide (k = j))
    {ts : List Table} (hnd : (ts.map Table.name).Nodup) {i : Nat} (hij : i ≤ j)
    {dir : TableDir} (hread : ∀ t ∈ ts, dir.read t.name ≠ none) {t : Table}
    (ht : (doomedOf compacted ts)[j - i]? = some t) :
    removeLoop env compacted i dir (ts.map Table.sst) =
      (removeNames dir (((doomedOf compacted ts).take (j - i)).map Table.name),
        .error (.removeFailed t.name)) := by
  induction ts generalizing i dir with
  | nil => simp [doomedOf] at ht
  | cons a ts ih =>
      rw [List.map_cons, List.nodup_cons] at hnd
      have hpath : a.sst.filePath = a.name := rfl
      rw [List.map_cons, removeLoop, hpath]
      by_cases hmem : a.name ∈ compacted
      · have hcons : doomedOf compacted (a :: ts) = a :: doomedOf compacted ts := by
          simp [doomedOf, hmem]
        rw [hcons] at ht ⊢
        rw [if_pos hmem]
        rcases Nat.eq_or_lt_of_le hij with rfl | hlt
        · rw [Nat.sub_self, List.getElem?_cons_zero, Option.some.injEq] at ht
          rw [if_pos (by simp [hj]), Nat.sub_self, ← ht]
          rfl
        · have hsub : j - i = j - (i + 1) + 1 := by omega
          rw [hsub, List.getElem?_cons_succ] at ht
          have hne : i ≠ j := by omega
          rw [if_neg (by simp [hj, hne, hread a (by simp)]),
            ih hnd.2 (by omega) (present_of_remove hnd.1 hread) ht, hsub]
          simp [removeNames]
      · have hcons : doomedOf compacted (a :: ts) = doomedOf compacted ts := by
          simp [doomedOf, hmem]
        rw [hcons] at ht ⊢
        rw [if_neg hmem, ih hnd.2 hij (fun t' ht' => hread t' (by simp [ht'])) ht]

end Remove

def groupsOf (stat : Bytes → Option Nat) (ts : List Table) : List (List Table) :=
  groupBySize (fun t => statSize stat t.name) ts

theorem groupBySimilarSize_eq [Runtime] (stat : Bytes → Option Nat) (ts : List Table) :
    groupBySimilarSize stat (ts.map Table.sst) = (groupsOf stat ts).map (List.map Table.sst) :=
  groupBySize_map Table.sst _ ts

theorem groupsOf_divides (stat : Bytes → Option Nat) (ts : List Table) :
    Divides ((groupsOf stat ts).map layersOf) (layersOf ts) where
  perm := by
    have h := (groupBySize_flatten_perm (fun t => statSize stat t.name) ts).map Table.entries
    rw [List.map_flatten] at h
    exact h
  sublist g hg := by
    obtain ⟨ts', hts', rfl⟩ := List.mem_map.mp hg
    exact (groupBySize_sublist hts').map _

/-- The table list that a compaction leaves. -/
def resultOf (env : Env) (floor : Nat) (ts : List Table) : List Table :=
  if ts.length < Config.defaultCompactionThreshold then ts
  else outTables env.now floor 0 (groupsOf env.stat ts)

theorem layersOf_outTables (now : Nat → Nat) (floor : Nat) {gs : List (List Table)}
    (hne : ∀ g ∈ gs, g ≠ []) (hnf : ∀ g ∈ gs, NewestFirst (layersOf g).flatten) (n : Nat) :
    layersOf (outTables now floor n gs) = (gs.map layersOf).map (outEntries floor) := by
  induction gs generalizing n with
  | nil => rfl
  | cons g gs ih =>
      have hrest := ih (fun g' hg' => hne g' (by simp [hg'])) (fun g' hg' => hnf g' (by simp [hg']))
        (n + 1)
      rw [outTables, layersOf, List.map_append, ← layersOf, ← layersOf, hrest]
      simp only [List.map_cons]
      have hlenE : (layersOf g).length = g.length := List.length_map _
      split
      · rename_i hlt
        match g, hlt, hne g (by simp) with
        | [t], _, _ => simp [outEntries]
      · rename_i hge
        rw [outEntries, if_neg (by omega)]
        simp [mergedTable_entries _ _ (hnf g (by simp))]

/-- The clock gives the groups names that are new and different. -/
structure FreshNames (now : Nat → Nat) (n : Nat) (dir : TableDir) : Prop where
  fresh : ∀ i < n, dir.read (sstName (now i)) = none
  inj : ∀ i < n, ∀ j < n, sstName (now i) = sstName (now j) → i = j

theorem mem_newTables {now : Nat → Nat} {floor : Nat} {gs : List (List Table)} {n : Nat}
    {t : Table} (h : t ∈ newTables now floor n gs) :
    ∃ i g, n ≤ i ∧ i < n + gs.length ∧ g ∈ gs ∧ 2 ≤ g.length ∧ t = mergedTable (now i) floor g := by
  induction gs generalizing n with
  | nil => simp [newTables] at h
  | cons g gs ih =>
      rw [newTables, List.mem_append] at h
      rw [List.length_cons]
      rcases h with h | h
      · split at h
        · simp at h
        · rename_i hlen
          exact ⟨n, g, le_rfl, by omega, by simp, by omega, by simpa using h⟩
      · obtain ⟨i, g', h₁, h₂, h₃, h₄, h₅⟩ := ih h
        exact ⟨i, g', by omega, by omega, by simp [h₃], h₄, h₅⟩

theorem newTables_names_nodup {now : Nat → Nat} {floor : Nat} {gs : List (List Table)} {n : Nat}
    (hinj : ∀ i < n + gs.length, ∀ j < n + gs.length, sstName (now i) = sstName (now j) → i = j) :
    ((newTables now floor n gs).map Table.name).Nodup := by
  induction gs generalizing n with
  | nil => simp [newTables]
  | cons g gs ih =>
      rw [List.length_cons] at hinj
      have hrest := ih (n := n + 1) fun i hi j hj => hinj i (by omega) j (by omega)
      rw [newTables]
      split
      · exact hrest
      · rw [List.singleton_append, List.map_cons, List.nodup_cons]
        refine ⟨?_, hrest⟩
        intro hmem
        obtain ⟨t, ht, heq⟩ := List.mem_map.mp hmem
        obtain ⟨i, g', h₁, h₂, -, -, rfl⟩ := mem_newTables ht
        rw [mergedTable_name, mergedTable_name] at heq
        have := hinj i (by omega) n (by omega) heq
        omega

/-- The tables that stay as they are. -/
def singles (gs : List (List Table)) : List Table :=
  (gs.filter fun g => !decide (2 ≤ g.length)).flatten

theorem doomed_append_singles_perm (gs : List (List Table)) :
    (doomed gs ++ singles gs).Perm gs.flatten := by
  rw [doomed, singles, ← List.flatten_append]
  exact (List.filter_append_perm _ gs).flatten

theorem outTables_perm (now : Nat → Nat) (floor n : Nat) (gs : List (List Table)) :
    (outTables now floor n gs).Perm (newTables now floor n gs ++ singles gs) := by
  induction gs generalizing n with
  | nil => exact List.Perm.refl _
  | cons g gs ih =>
      rw [outTables, newTables]
      by_cases hlen : g.length < 2
      · have hsingle : singles (g :: gs) = g ++ singles gs := by
          simp [singles, show ¬ 2 ≤ g.length by omega]
        rw [if_pos hlen, if_pos hlen, hsingle, List.nil_append]
        refine ((ih (n + 1)).append_left g).trans ?_
        rw [← List.append_assoc, ← List.append_assoc]
        exact List.perm_append_comm.append_right _
      · have hsingle : singles (g :: gs) = singles gs := by
          simp [singles, show 2 ≤ g.length by omega]
        rw [if_neg hlen, if_neg hlen, hsingle, List.append_assoc]
        exact (ih (n + 1)).append_left _

theorem mem_groupsOf_flatten {stat : Bytes → Option Nat} {ts : List Table} {t : Table} :
    t ∈ (groupsOf stat ts).flatten ↔ t ∈ ts :=
  (groupBySize_flatten_perm _ ts).mem_iff

theorem groupsOf_length_le (stat : Bytes → Option Nat) (ts : List Table) :
    (groupsOf stat ts).length ≤ ts.length := by
  have hperm := (groupBySize_flatten_perm (fun t => statSize stat t.name) ts).length_eq
  have hle := length_le_length_flatten fun g (hg : g ∈ groupsOf stat ts) => groupBySize_ne_nil hg
  exact hle.trans (Nat.le_of_eq hperm)

/-- The paths of the files that a compaction deletes, in that order. -/
def doomedNames (env : Env) (ts : List Table) : List Bytes :=
  (doomedOf ((doomed (groupsOf env.stat ts)).map Table.name) ts).map Table.name

theorem doomedNames_subset {env : Env} {ts : List Table} {name : Bytes}
    (h : name ∈ doomedNames env ts) :
    ∃ t ∈ ts, t.name = name ∧ name ∈ (doomed (groupsOf env.stat ts)).map Table.name := by
  obtain ⟨t, ht, rfl⟩ := List.mem_map.mp h
  obtain ⟨hts, hmem⟩ := mem_doomedOf.mp ht
  exact ⟨t, hts, rfl, hmem⟩

/-- No group has a second table, so nothing is merged. -/
def NoMerge (stat : Bytes → Option Nat) (ts : List Table) : Prop :=
  ts.length < Config.defaultCompactionThreshold ∨ ∀ g ∈ groupsOf stat ts, g.length < 2

theorem outTables_of_small {gs : List (List Table)} (h : ∀ g ∈ gs, g.length < 2)
    (now : Nat → Nat) (floor n : Nat) :
    outTables now floor n gs = gs.flatten ∧ newTables now floor n gs = [] := by
  induction gs generalizing n with
  | nil => exact ⟨rfl, rfl⟩
  | cons g gs ih =>
      obtain ⟨hout, hnew⟩ := ih (fun g' hg' => h g' (by simp [hg'])) (n + 1)
      have hg := h g (by simp)
      simp only [outTables, newTables, if_pos hg, hout, hnew, List.flatten_cons, List.append_nil,
        and_self]

theorem doomed_of_small {gs : List (List Table)} (h : ∀ g ∈ gs, g.length < 2) : doomed gs = [] := by
  have hnone : gs.filter (fun g => decide (2 ≤ g.length)) = [] := by
    apply List.filter_eq_nil_iff.mpr
    intro g hg
    have := h g hg
    simpa using this
  rw [doomed, hnone, List.flatten_nil]

section Whole

variable [Runtime] {env : Env} {floor : Nat} {ts : List Table} {dir : TableDir}

/-- The directory once all merged tables are written and none of the inputs is deleted. -/
def mergedDir (env : Env) (floor : Nat) (ts : List Table) (dir : TableDir) : TableDir :=
  writeTables dir (newTables env.now floor 0 (groupsOf env.stat ts))

/-- The directory that a compaction leaves. -/
def resultDir (env : Env) (floor : Nat) (ts : List Table) (dir : TableDir) : TableDir :=
  if ts.length < Config.defaultCompactionThreshold then dir
  else removeNames (mergedDir env floor ts dir) (doomedNames env ts)

theorem read_resultDir {name : Bytes} (h : (resultDir env floor ts dir).read name ≠ none) :
    dir.read name ≠ none ∨ ∃ i < ts.length, name = sstName (env.now i) := by
  unfold resultDir at h
  split at h
  · exact Or.inl h
  · rw [read_removeNames] at h
    split at h
    · exact absurd rfl h
    · by_cases hnew : ∃ t ∈ newTables env.now floor 0 (groupsOf env.stat ts), t.name = name
      · obtain ⟨t, ht, rfl⟩ := hnew
        obtain ⟨i, g, -, hi, -, -, rfl⟩ := mem_newTables ht
        have hle := groupsOf_length_le env.stat ts
        exact Or.inr ⟨i, by omega, mergedTable_name _ _ _⟩
      · rw [mergedDir, read_writeTables_of_not_mem fun t ht heq => hnew ⟨t, ht, heq⟩] at h
        exact Or.inl h

theorem NoMerge.result_eq (h : NoMerge env.stat ts) (floor : Nat) (dir : TableDir) :
    resultOf env floor ts = ts ∧ resultDir env floor ts dir = dir := by
  unfold resultOf resultDir
  split
  · exact ⟨rfl, rfl⟩
  · rename_i hlen
    have hsmall := h.resolve_left hlen
    obtain ⟨hout, hnew⟩ := outTables_of_small hsmall env.now floor 0
    have hdoomed : doomedNames env ts = [] := by
      simp [doomedNames, doomedOf, doomed_of_small hsmall]
    rw [hout, mergedDir, hnew, hdoomed]
    exact ⟨groupBySize_flatten_of_small hsmall, rfl⟩

/-- What a compaction without faults starts from. -/
structure Ready (env : Env) (ts : List Table) (dir : TableDir) : Prop where
  held : ∀ t ∈ ts, dir.read t.name = some t.content
  nodup : (ts.map Table.name).Nodup
  newestFirst : NewestFirst (layersOf ts).flatten
  fresh : FreshNames env.now ts.length dir
  noFault : ∀ c, env.fails c = false

theorem read_writeTables_empty {name : Bytes} (h : ∀ t ∈ ts, t.name ≠ name) :
    (writeTables FMap.empty ts).read name = none := by
  rw [read_writeTables_of_not_mem h, FMap.read_empty]

theorem ready_writeTables (stamps : List Nat) (hnames : ts.map Table.name = stamps.map sstName)
    (hstamps : stamps.Nodup) (hnew : ∀ i, env.now i ∉ stamps) (hinj : Function.Injective env.now)
    (hnf : NewestFirst (layersOf ts).flatten) (hok : ∀ c, env.fails c = false) :
    Ready env ts (writeTables FMap.empty ts) := by
  have hnodup : (ts.map Table.name).Nodup := by
    rw [hnames]
    exact hstamps.map sstName_injective
  refine ⟨fun t ht => read_writeTables_of_mem hnodup ht, hnodup, hnf, ?_, hok⟩
  refine ⟨fun i _ => read_writeTables_empty fun t ht heq => ?_,
    fun i _ j _ heq => hinj (sstName_injective heq)⟩
  have hmem : sstName (env.now i) ∈ stamps.map sstName := by
    rw [← hnames, ← heq]
    exact List.mem_map_of_mem ht
  obtain ⟨n, hn, hname⟩ := List.mem_map.mp hmem
  exact hnew i (sstName_injective hname ▸ hn)

theorem Ready.name_ne (h : Ready env ts dir) {t : Table} (ht : t ∈ ts) {i : Nat}
    (hi : i < ts.length) : t.name ≠ sstName (env.now i) := by
  intro heq
  have hheld := h.held t ht
  rw [heq, h.fresh.fresh i hi] at hheld
  simp at hheld

theorem Ready.newestFirst_group (h : Ready env ts dir) {g : List Table}
    (hg : g ∈ groupsOf env.stat ts) : NewestFirst (layersOf g).flatten :=
  (groupsOf_divides env.stat ts).newestFirst h.newestFirst (List.mem_map_of_mem hg)

theorem groupsHeld_take (hheld : ∀ t ∈ ts, dir.read t.name = some t.content)
    (hfresh : ∀ i < ts.length, ∀ t ∈ ts, t.name ≠ sstName (env.now i)) (n : Nat) :
    GroupsHeld env.now 0 dir ((groupsOf env.stat ts).take n) := by
  have hsub := List.take_sublist n (groupsOf env.stat ts)
  have hmem : ∀ t ∈ ((groupsOf env.stat ts).take n).flatten, t ∈ ts := fun t ht =>
    mem_groupsOf_flatten.mp (hsub.flatten.subset ht)
  have hle := groupsOf_length_le env.stat ts
  have hle' := hsub.length_le
  exact ⟨fun t ht => hheld t (hmem t ht), fun i _ hi t ht => hfresh i (by omega) t (hmem t ht)⟩

theorem Ready.mergeLoop_take (h : Ready env ts dir) (floor n : Nat) :
    mergeLoop env floor 0 dir ((groupBySimilarSize env.stat (ts.map Table.sst)).take n) =
      (writeTables dir (newTables env.now floor 0 ((groupsOf env.stat ts).take n)),
        .ok ((outTables env.now floor 0 ((groupsOf env.stat ts).take n)).map Table.sst,
          (doomed ((groupsOf env.stat ts).take n)).map Table.name)) := by
  have hheld := groupsHeld_take h.held (fun i hi t ht => h.name_ne ht hi) n
  rw [groupBySimilarSize_eq, ← List.map_take]
  exact Compaction.mergeLoop_eq h.noFault floor
    (fun g hg => h.newestFirst_group ((List.take_sublist n _).subset hg)) hheld

theorem Ready.mergeLoop_eq (h : Ready env ts dir) (floor : Nat) :
    mergeLoop env floor 0 dir (groupBySimilarSize env.stat (ts.map Table.sst)) =
      (mergedDir env floor ts dir,
        .ok ((outTables env.now floor 0 (groupsOf env.stat ts)).map Table.sst,
          (doomed (groupsOf env.stat ts)).map Table.name)) := by
  have htake := h.mergeLoop_take floor (groupsOf env.stat ts).length
  rw [groupBySimilarSize_eq, ← List.map_take, List.take_length] at htake
  rw [groupBySimilarSize_eq]
  exact htake

theorem Ready.new_name (h : Ready env ts dir) {t : Table}
    (ht : t ∈ newTables env.now floor 0 (groupsOf env.stat ts)) :
    (∀ t' ∈ ts, t'.name ≠ t.name) ∧ dir.read t.name = none := by
  obtain ⟨i, g, -, hi, -, -, rfl⟩ := mem_newTables ht
  have hle := groupsOf_length_le env.stat ts
  rw [mergedTable_name]
  exact ⟨fun t' ht' => h.name_ne ht' (by omega), h.fresh.fresh i (by omega)⟩

theorem Ready.nodup_new (h : Ready env ts dir) :
    ((newTables env.now floor 0 (groupsOf env.stat ts)).map Table.name).Nodup := by
  apply newTables_names_nodup
  have hle := groupsOf_length_le env.stat ts
  intro i hi j hj
  exact h.fresh.inj i (by omega) j (by omega)

theorem Ready.read_mergedDir_old (h : Ready env ts dir) (floor : Nat) {t : Table} (ht : t ∈ ts) :
    (mergedDir env floor ts dir).read t.name = some t.content := by
  rw [mergedDir, read_writeTables_of_not_mem fun t' ht' heq => (h.new_name ht').1 t ht heq.symm,
    h.held t ht]

theorem Ready.read_mergedDir_new (h : Ready env ts dir) {t : Table}
    (ht : t ∈ newTables env.now floor 0 (groupsOf env.stat ts)) :
    (mergedDir env floor ts dir).read t.name = some t.content :=
  read_writeTables_of_mem h.nodup_new ht

/-- A compaction without faults returns the outputs and leaves their files. -/
theorem Ready.compact_eq (h : Ready env ts dir) (floor : Nat) :
    compact env dir (ts.map Table.sst) floor =
      (resultDir env floor ts dir, .ok ((resultOf env floor ts).map Table.sst)) := by
  unfold compact resultDir resultOf
  rw [List.length_map]
  split
  · rfl
  · rw [h.mergeLoop_eq floor]
    simp only
    rw [removeLoop_ok (fun k _ _ => h.noFault _) h.nodup]
    · rfl
    · intro t ht
      rw [h.read_mergedDir_old floor ht]
      simp

theorem Ready.nodup_groups (h : Ready env ts dir) :
    ((doomed (groupsOf env.stat ts) ++ singles (groupsOf env.stat ts)).map Table.name).Nodup := by
  have hperm := (doomed_append_singles_perm (groupsOf env.stat ts)).trans
    (groupBySize_flatten_perm _ ts)
  exact ((hperm.map Table.name).nodup_iff).mpr h.nodup

theorem Ready.single_mem (h : Ready env ts dir) {t : Table}
    (ht : t ∈ singles (groupsOf env.stat ts)) : t ∈ ts ∧ t.name ∉ doomedNames env ts := by
  have hperm := (doomed_append_singles_perm (groupsOf env.stat ts)).trans
    (groupBySize_flatten_perm _ ts)
  refine ⟨hperm.mem_iff.mp (List.mem_append_right _ ht), ?_⟩
  intro hmem
  obtain ⟨-, -, -, hdoom⟩ := doomedNames_subset hmem
  have hnd := h.nodup_groups
  rw [List.map_append, List.nodup_append] at hnd
  exact hnd.2.2 _ hdoom _ (List.mem_map_of_mem ht) rfl

theorem Ready.held_result (h : Ready env ts dir) (floor : Nat) :
    ∀ t ∈ resultOf env floor ts, (resultDir env floor ts dir).read t.name = some t.content := by
  intro t ht
  unfold resultOf at ht
  unfold resultDir
  split
  · rename_i hlen
    rw [if_pos hlen] at ht
    exact h.held t ht
  · rename_i hlen
    rw [if_neg hlen, (outTables_perm _ _ _ _).mem_iff, List.mem_append] at ht
    rw [read_removeNames]
    rcases ht with ht | ht
    · rw [if_neg, h.read_mergedDir_new ht]
      intro hmem
      obtain ⟨t', ht', heq, -⟩ := doomedNames_subset hmem
      exact (h.new_name ht).1 t' ht' heq
    · obtain ⟨hts, hnot⟩ := h.single_mem ht
      rw [if_neg hnot, h.read_mergedDir_old floor hts]

theorem Ready.nodup_result (h : Ready env ts dir) (floor : Nat) :
    ((resultOf env floor ts).map Table.name).Nodup := by
  unfold resultOf
  split
  · exact h.nodup
  · rw [((outTables_perm _ _ _ _).map Table.name).nodup_iff, List.map_append, List.nodup_append]
    refine ⟨h.nodup_new, ?_, ?_⟩
    · have hnd := h.nodup_groups
      rw [List.map_append, List.nodup_append] at hnd
      exact hnd.2.1
    · intro a ha b hb hab
      obtain ⟨t, ht, rfl⟩ := List.mem_map.mp ha
      obtain ⟨t', ht', rfl⟩ := List.mem_map.mp hb
      exact (h.new_name ht).1 t' (h.single_mem ht').1 hab.symm

theorem Ready.layersOf_resultOf (h : Ready env ts dir) (floor : Nat)
    (hlen : ¬ ts.length < Config.defaultCompactionThreshold) :
    layersOf (resultOf env floor ts) =
      ((groupsOf env.stat ts).map layersOf).map (outEntries floor) := by
  rw [resultOf, if_neg hlen]
  exact layersOf_outTables _ _ (fun g hg => groupBySize_ne_nil hg)
    (fun g hg => h.newestFirst_group hg) 0

theorem Ready.newestAt_result (h : Ready env ts dir) (userKey : Bytes) {snapshot : Nat}
    (hfloor : floor ≤ snapshot) :
    newestAt (layersOf (resultOf env floor ts)) userKey snapshot =
      newestAt (layersOf ts) userKey snapshot := by
  by_cases hlen : ts.length < Config.defaultCompactionThreshold
  · rw [resultOf, if_pos hlen]
  · rw [h.layersOf_resultOf floor hlen]
    exact (groupsOf_divides env.stat ts).newestAt_out h.newestFirst (sorted_of_mem_layersOf ts)
      userKey hfloor

end Whole

end Hcdb.Compaction
