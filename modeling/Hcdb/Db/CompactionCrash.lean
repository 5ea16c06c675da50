import Hcdb.Compaction.Restart
import Hcdb.Db.CompactedScan
import Hcdb.Db.Levels

namespace Hcdb.Db

open Hcdb.Lib.ByteString
open Hcdb.Lib.FiniteMap
open Hcdb.Lib.SortedList
open Hcdb.Base
open Hcdb.Sstable
open Hcdb.Compaction

/-- For every key in one of the groups that are merged, the last of those groups that
has it answers as the whole list of tables. -/
def LastGroupAnswers (groups : List (List Table)) (ts : List Table) : Prop :=
  ∀ key, versionAt (layersOf (mergedLast groups)).flatten key seqNumMax ≠ none →
    answer (versionAt (layersOf ts).flatten key seqNumMax) =
      answer (versionAt (layersOf (mergedLast groups)).flatten key seqNumMax)

section Restart

variable [Runtime] {env : Compaction.Env} {ts : List Table} {dir : TableDir} {floor : Nat}

theorem search_listed (h : Listed dir ts) (key : Bytes) :
    searchSSTables (readBlock dir) (ts.map Table.sst) key seqNumMax =
      answer (versionAt (layersOf ts).flatten key seqNumMax) :=
  searchSSTables_eq (forall₂_serves fun t ht => Table.intact_readBlock (h.held t ht)) key le_rfl

/-- After a restart a key in a merged group reads as the last such group has it, any
other key as before. -/
theorem search_stopped (hl : Listed dir ts) (hnf : NewestFirst (layersOf ts).flatten)
    (hnames : LaterNames env.now ts) (hok : ∀ c, env.fails c = false)
    (hcount : (layersOf ts).flatten.length < 2 ^ 32) (hfloor : floor ≤ seqNumMax)
    (stop : StopPoint) :
    ∃ ssts, openAllInDir (stoppedDir env dir (ts.map Table.sst) floor stop) = .ok ssts ∧
      ∀ key, searchSSTables (readBlock (stoppedDir env dir (ts.map Table.sst) floor stop)) ssts key
          seqNumMax =
        answer ((versionAt (layersOf (mergedLast (installedGroups env.stat ts stop))).flatten key
          seqNumMax).or (versionAt (layersOf ts).flatten key seqNumMax)) := by
  have hready : Ready env ts dir :=
    ⟨hl.held, hl.nodup, hnf, hnames.freshNames hl.stores, hok⟩
  obtain ⟨removed, hgone, hlisted⟩ := hready.listed_stopped hl hnames hcount floor stop
  refine ⟨_, hlisted.openAllInDir_eq, fun key => ?_⟩
  have hnews : versionAt (layersOf (newTables env.now floor 0
        (installedGroups env.stat ts stop)).reverse).flatten key seqNumMax =
      versionAt (layersOf (mergedLast (installedGroups env.stat ts stop))).flatten key seqNumMax :=
    versionAt_newTables hfloor (fun g hg => hready.newestFirst_group
      ((installedGroups_sublist env.stat ts stop).subset hg)) 0 key
  rw [search_listed hlisted, layersOf, List.map_append, List.flatten_append, versionAt_append,
    ← layersOf, ← layersOf, hnews]
  cases hv : versionAt (layersOf (mergedLast (installedGroups env.stat ts stop))).flatten key
      seqNumMax with
  | some e => rfl
  | none =>
      -- the files that are gone have no version of the key
      rw [Option.none_or, Option.none_or, versionAt_filter_tables]
      intro t ht hp
      have hmem := hgone t ht (by simpa using hp)
      rw [versionAt_eq_none] at hv ⊢
      exact fun e he => hv e (List.mem_flatten.mpr ⟨_, List.mem_map_of_mem hmem, he⟩)

/-- After a restart point reads are what they were before the compaction exactly when,
for every key in a merged group, the last such group decides it. -/
theorem search_stopped_iff (hl : Listed dir ts) (hnf : NewestFirst (layersOf ts).flatten)
    (hnames : LaterNames env.now ts) (hok : ∀ c, env.fails c = false)
    (hcount : (layersOf ts).flatten.length < 2 ^ 32) (hfloor : floor ≤ seqNumMax)
    (stop : StopPoint) :
    ∃ ssts, openAllInDir (stoppedDir env dir (ts.map Table.sst) floor stop) = .ok ssts ∧
      ((∀ key, searchSSTables (readBlock (stoppedDir env dir (ts.map Table.sst) floor stop)) ssts
            key seqNumMax =
          searchSSTables (readBlock dir) (ts.map Table.sst) key seqNumMax) ↔
        LastGroupAnswers (installedGroups env.stat ts stop) ts) := by
  obtain ⟨ssts, hopen, hsearch⟩ := search_stopped hl hnf hnames hok hcount hfloor stop
  refine ⟨ssts, hopen, forall_congr' fun key => ?_⟩
  rw [hsearch, search_listed hl]
  cases versionAt (layersOf (mergedLast (installedGroups env.stat ts stop))).flatten key
      seqNumMax with
  | some e => simp [eq_comm]
  | none => simp

end Restart

section Stamped

variable {ts : List Table} {stamps : List Nat}

theorem descending_of_stamps (hnames : ts.map Table.name = stamps.map sstName)
    (hdesc : stamps.Pairwise fun a b => b < a) (hstamp : ∀ nanos ∈ stamps, Stamp nanos) :
    ts.Pairwise fun t t' => t'.name < t.name := by
  have hpair : (stamps.map sstName).Pairwise fun a b => b < a := by
    rw [List.pairwise_map]
    exact hdesc.imp_of_mem fun ha hb hlt => sstName_lt (hstamp _ hb) (hstamp _ ha) hlt
  rw [← hnames, List.pairwise_map] at hpair
  exact hpair

theorem listed_writeTables [Runtime] (hdesc : ts.Pairwise fun t t' => t'.name < t.name)
    (hcount : ∀ t ∈ ts, t.Countable) : Listed (writeTables FMap.empty ts) ts := by
  have hnd : (ts.map Table.name).Nodup := by
    rw [List.Nodup, List.pairwise_map]
    exact hdesc.imp fun hlt => hlt.ne'
  have hempty : Stores FMap.empty [] := by
    intro name content
    simp
  have hstores := stores_writeTables hempty hnd (by simp)
  refine ⟨fun name content => ?_, hdesc, hcount⟩
  rw [hstores name content]
  simp

def clockOn (i : Nat) : Nat := 10 ^ 18 + 5 + i

theorem laterNames_clockOn (hnames : ts.map Table.name = stamps.map sstName)
    (hlen : ts.length ≤ 10 ^ 18) (hstamp : ∀ nanos ∈ stamps, Stamp nanos ∧ nanos < 10 ^ 18 + 5) :
    LaterNames clockOn ts where
  stamp i hi := ⟨by unfold clockOn; omega, by unfold clockOn; omega⟩
  increasing i _ j hj := Nat.add_lt_add_left hj _
  later t ht := by
    have hmem : t.name ∈ stamps.map sstName := hnames ▸ List.mem_map_of_mem ht
    obtain ⟨nanos, hnanos, hname⟩ := List.mem_map.mp hmem
    refine ⟨nanos, (hstamp nanos hnanos).1, hname.symm, fun i _ => ?_⟩
    have hlt := (hstamp nanos hnanos).2
    unfold clockOn
    omega

end Stamped

def fourStamps : List Nat := [10 ^ 18 + 4, 10 ^ 18 + 3, 10 ^ 18 + 2, 10 ^ 18 + 1]

theorem fourStamps_stamp : ∀ nanos ∈ fourStamps, Stamp nanos ∧ nanos < 10 ^ 18 + 5 := by decide

def envOn (stat : Bytes → Option Nat) : Compaction.Env where
  now := clockOn
  stat
  fails _ := false

/-- Four tables of one size. -/
def evenTables : List Table :=
  [byteTable (10 ^ 18 + 4) 97 1 4,
   byteTable (10 ^ 18 + 3) 98 2 3,
   byteTable (10 ^ 18 + 2) 97 3 2,
   byteTable (10 ^ 18 + 1) 98 4 1]

theorem listed_evenTables [Runtime] : Listed (writeTables FMap.empty evenTables) evenTables :=
  listed_writeTables (descending_of_stamps (show evenTables.map Table.name =
      fourStamps.map sstName from rfl) (by decide) fun nanos h => (fourStamps_stamp nanos h).1)
    fun t ht => Table.countable_of_length_lt (by
      revert t
      decide)

/-- One group of all four tables, and the process stops with one of them deleted. -/
theorem search_stopped_evenTables :
    ∃ ssts, openAllInDir (stoppedDir (envOn fun _ => some 1) (writeTables FMap.empty evenTables)
        (evenTables.map Table.sst) seqNumMax (.removing 1)) = .ok ssts ∧
      ∀ key, searchSSTables (readBlock (stoppedDir (envOn fun _ => some 1)
          (writeTables FMap.empty evenTables) (evenTables.map Table.sst) seqNumMax (.removing 1)))
          ssts key seqNumMax =
        searchSSTables (readBlock (writeTables FMap.empty evenTables)) (evenTables.map Table.sst)
          key seqNumMax := by
  have hnames : evenTables.map Table.name = fourStamps.map sstName := rfl
  have hlater : LaterNames (envOn fun _ => some 1).now evenTables :=
    laterNames_clockOn hnames (by decide) fourStamps_stamp
  obtain ⟨ssts, hopen, hiff⟩ := search_stopped_iff listed_evenTables (by decide) hlater
    (fun _ => rfl) (by decide) le_rfl (.removing 1)
  exact ⟨ssts, hopen, hiff.mpr fun key _ => rfl⟩

section Swapped

variable {big : Bytes}

def smallTables : List Table :=
  [byteTable (10 ^ 18 + 4) 107 2 4,
   byteTable (10 ^ 18 + 3) 97 1 3]

def largeTables (hbig : big.length ≤ Config.maxValueLength) : List Table :=
  [keyTable (10 ^ 18 + 2) 107 big hbig 2,
   keyTable (10 ^ 18 + 1) 98 big hbig 1]

/-- Two small tables in front of two large ones that are older. -/
def swappedTables (hbig : big.length ≤ Config.maxValueLength) : List Table :=
  smallTables ++ largeTables hbig

theorem groupBySize_swappedTables (hbig : big.length ≤ Config.maxValueLength)
    (hlen : big.length = 400000) :
    groupBySize (fun t => fileSize t.entries) (swappedTables hbig) =
      [smallTables, largeTables hbig] := by
  have hput : ∀ nanos key value hvalue seqNum,
      fileSize (keyTable nanos key value hvalue seqNum).entries = value.length + 119896 := by
    intro nanos key value hvalue seqNum
    have hkeyLength : (setVersion [key] seqNum.toNat value).key.length = 9 :=
      InternalKey.encode_length _
    have hsize : entrySize (setVersion [key] seqNum.toNat value) =
        (setVersion [key] seqNum.toNat value).key.length + value.length + 8 := rfl
    have hbloom : (Runtime.bloomSize + 7) / 8 = 119814 := rfl
    change fileSize [setVersion [key] seqNum.toNat value] = _
    rw [fileSize_singleton, hsize, hkeyLength, hbloom]
    omega
  have hbyte : ∀ nanos key value seqNum,
      fileSize (byteTable nanos key value seqNum).entries = 119897 := by
    intro nanos key value seqNum
    rw [byteTable, hput, List.length_singleton]
  have hsmall : isSimilarSize 119897 119897 = true := by decide
  have hlarge : isSimilarSize 519896 519896 = true := by decide
  have hdiffer : isSimilarSize 119897 519896 = false := by decide
  simp [groupBySize, groupLoop, swappedTables, smallTables, largeTables, hbyte, hput, hlen,
    hsmall, hlarge, hdiffer]

def swappedDir (hbig : big.length ≤ Config.maxValueLength) : TableDir :=
  writeTables FMap.empty (swappedTables hbig)

theorem listed_swappedTables (hbig : big.length ≤ Config.maxValueLength) :
    Listed (swappedDir hbig) (swappedTables hbig) := by
  have hnames : (swappedTables hbig).map Table.name = fourStamps.map sstName := rfl
  apply listed_writeTables
  · exact descending_of_stamps hnames (by decide) fun nanos h => (fourStamps_stamp nanos h).1
  · intro t ht
    apply Table.countable_of_length_lt
    simp only [swappedTables, smallTables, largeTables, List.cons_append, List.nil_append,
      List.mem_cons, List.not_mem_nil, or_false] at ht
    rcases ht with rfl | rfl | rfl | rfl <;> exact (by decide : 1 < 2 ^ 32)

theorem newestFirst_swappedTables (hbig : big.length ≤ Config.maxValueLength) :
    NewestFirst (layersOf (swappedTables hbig)).flatten :=
  of_decide_eq_true rfl

theorem search_swapped (hbig : big.length ≤ Config.maxValueLength) (hlen : big.length = 400000) :
    ∃ ssts, openAllInDir (compact (envOn (fileSizes (swappedDir hbig))) (swappedDir hbig)
        ((swappedTables hbig).map Table.sst) seqNumMax).1 = .ok ssts ∧
      searchSSTables (readBlock (compact (envOn (fileSizes (swappedDir hbig))) (swappedDir hbig)
        ((swappedTables hbig).map Table.sst) seqNumMax).1) ssts [107] seqNumMax = some big := by
  have hlisted := listed_swappedTables hbig
  have hnames : (swappedTables hbig).map Table.name = fourStamps.map sstName := rfl
  have hlater : LaterNames (envOn (fileSizes (swappedDir hbig))).now (swappedTables hbig) :=
    laterNames_clockOn hnames (by decide : 4 ≤ 10 ^ 18) fourStamps_stamp
  have hgroups : installedGroups (fileSizes (swappedDir hbig)) (swappedTables hbig) (.removing 4) =
      [smallTables, largeTables hbig] :=
    (groupsOf_fileSizes hlisted.held).trans (groupBySize_swappedTables hbig hlen)
  obtain ⟨ssts, hopen, hsearch⟩ := search_stopped hlisted (newestFirst_swappedTables hbig) hlater
    (fun _ => rfl) (by decide : 4 < 2 ^ 32) le_rfl (.removing 4)
  have hend := stoppedDir_completed (envOn (fileSizes (swappedDir hbig))) (swappedDir hbig)
    ((swappedTables hbig).map Table.sst) seqNumMax
  rw [← hend]
  refine ⟨ssts, hopen, (hsearch [107]).trans ?_⟩
  change answer ((versionAt (layersOf (mergedLast (installedGroups (fileSizes (swappedDir hbig))
    (swappedTables hbig) (.removing 4)))).flatten [107] seqNumMax).or _) = _
  have hlast : mergedLast [smallTables, largeTables hbig] = largeTables hbig ++ smallTables := rfl
  have hmatch : (setVersion [107] 2 big).matchesAt [107] seqNumMax = true :=
    Entry.matchesAt_iff.mpr ⟨rfl, Entry.seqNum_le_seqNumMax _⟩
  have hversion : versionAt (layersOf (largeTables hbig ++ smallTables)).flatten [107] seqNumMax =
      some (setVersion [107] 2 big) := List.find?_cons_of_pos hmatch
  rw [hgroups, hlast, hversion, Option.some_or, answer_setVersion]

end Swapped

/-- The tables are newest first and listed in the order of their names, the compaction
runs to its end, and the next `OpenAllInDir` makes an old value readable again. -/
theorem restart_after_compact_stale :
    ∃ big : Bytes, ∃ hbig : big.length ≤ Config.maxValueLength,
      NewestFirst (layersOf (swappedTables hbig)).flatten ∧
      openAllInDir (swappedDir hbig) = .ok ((swappedTables hbig).map Table.sst) ∧
      searchSSTables (readBlock (swappedDir hbig)) ((swappedTables hbig).map Table.sst) [107]
        seqNumMax = some [2] ∧
      ∃ ssts, openAllInDir (compact (envOn (fileSizes (swappedDir hbig))) (swappedDir hbig)
          ((swappedTables hbig).map Table.sst) seqNumMax).1 = .ok ssts ∧
        searchSSTables (readBlock (compact (envOn (fileSizes (swappedDir hbig))) (swappedDir hbig)
          ((swappedTables hbig).map Table.sst) seqNumMax).1) ssts [107] seqNumMax = some big ∧
        big ≠ [2] := by
  have hlen : (List.replicate 400000 0 : Bytes).length = 400000 := List.length_replicate
  have hbig : (List.replicate 400000 0 : Bytes).length ≤ Config.maxValueLength := by
    rw [hlen]
    decide
  obtain ⟨ssts, hopen, hsearch⟩ := search_swapped hbig hlen
  refine ⟨_, hbig, newestFirst_swappedTables hbig, (listed_swappedTables hbig).openAllInDir_eq, ?_,
    ssts, hopen, hsearch, ?_⟩
  · rw [search_listed (listed_swappedTables hbig)]
    rfl
  · intro heq
    rw [heq] at hlen
    simp at hlen

end Hcdb.Db
