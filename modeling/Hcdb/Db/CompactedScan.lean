import Hcdb.Compaction.Files
import Hcdb.Db.Read

namespace Hcdb.Db

open Hcdb.Lib.ByteString
open Hcdb.Lib.SortedList
open Hcdb.Lib.FiniteMap
open Hcdb.Base
open Hcdb.Memtable
open Hcdb.Sstable
open Hcdb.Compaction

/-- For every user key the sequence numbers in an earlier table are greater than
those in a later one. -/
def SeqNumsDescend (ts : List Table) : Prop :=
  ts.Pairwise fun t t' => ∀ a ∈ t.entries, ∀ b ∈ t'.entries,
    a.userKey = b.userKey → b.seqNum < a.seqNum

theorem SeqNumsDescend.newestFirst {ts : List Table} (h : SeqNumsDescend ts) :
    NewestFirst (layersOf ts).flatten := by
  refine List.pairwise_flatten.mpr ⟨?_, ?_⟩
  · exact fun l hl => newestFirst_of_sorted (sorted_of_mem_layersOf ts l hl)
  · rw [List.pairwise_map]
    apply List.Pairwise.imp _ h
    intro t t' hlt a ha b hb huser
    exact (InternalKey.lt_iff_seqNum _ _).mpr (Or.inr ⟨huser, Or.inl (hlt a ha b hb huser)⟩)

theorem newestAt_cons (layer : List Entry) (layers : List (List Entry)) (userKey : Bytes)
    (snapshot : Nat) : newestAt (layer :: layers) userKey snapshot =
      newer (versionAt layer userKey snapshot) (newestAt layers userKey snapshot) := rfl

section Scan

variable [Runtime] {env : Compaction.Env} {ts : List Table} {dir : TableDir} {memtable : MemTable}
  {floor snapshot : Nat}

/-- What a compaction returns is scanned like what it was given, at every snapshot
its floor protects. -/
theorem scan_compact_eq (h : SeqNumsDescend ts)
    (hheld : ∀ t ∈ ts, dir.read t.name = some t.content) (hnodup : (ts.map Table.name).Nodup)
    (hfresh : FreshNames env.now ts.length dir) (hok : ∀ c, env.fails c = false)
    (hmem : ∀ e ∈ memtable.tree, e.ik.valid = true) (hfloor : floor ≤ snapshot)
    (hsnap : snapshot ≤ seqNumMax) (lowerBound : Bytes) (upperBound : Option Bytes) :
    ∃ dir' tables before after,
      compact env dir (ts.map Table.sst) floor = (dir', .ok tables) ∧
      scanFrom (readBlock dir) memtable (ts.map Table.sst) lowerBound upperBound snapshot =
        .ok before ∧
      scanFrom (readBlock dir') memtable tables lowerBound upperBound snapshot = .ok after ∧
      after.drain = before.drain := by
  have hready : Ready env ts dir := ⟨hheld, hnodup, h.newestFirst, hfresh, hok⟩
  have hintact : ∀ t ∈ ts, Table.Intact (readBlock dir) t := fun t ht =>
    Table.intact_readBlock (hheld t ht)
  have hintact' : ∀ t ∈ resultOf env floor ts,
      Table.Intact (readBlock (resultDir env floor ts dir)) t := fun t ht =>
    Table.intact_readBlock (hready.held_result floor t ht)
  obtain ⟨before, hbefore, hsorted, hpairs⟩ := scanFrom_serves hmem
    (forall₂_serves hintact) lowerBound upperBound hsnap
  obtain ⟨after, hafter, hsorted', hpairs'⟩ := scanFrom_serves hmem
    (forall₂_serves hintact') lowerBound upperBound hsnap
  refine ⟨_, _, before, after, hready.compact_eq floor, hbefore, hafter, ?_⟩
  apply hsorted'.eq_of_mem_iff hsorted
  rintro ⟨u, v⟩
  rw [hpairs' u v, hpairs u v, newestAt_cons, newestAt_cons, hready.newestAt_result u hfloor]

end Scan

def putTable (nanos : Nat) (userKey value : Bytes) (seqNum : Nat)
    (hkey : userKey.length ≤ Config.maxKeyLength) (hvalue : value.length ≤ Config.maxValueLength) :
    Table where
  name := sstName nanos
  entries := [{ key := (makeInternalKey userKey seqNum internalKeyKindSet).encode, value }]
  sorted := List.pairwise_singleton _ _
  wellFormed := by
    intro e he
    rw [List.mem_singleton] at he
    exact he ▸ Entry.wellFormed_encode hkey hvalue (le_refl _)

def keyTable (nanos : Nat) (key : UInt8) (value : Bytes)
    (hvalue : value.length ≤ Config.maxValueLength) (seqNum : UInt8) : Table :=
  putTable nanos [key] value seqNum.toNat (by rw [List.length_singleton]; decide) hvalue

/-- A table with one version, all of it single bytes. -/
def byteTable (nanos : Nat) (key value seqNum : UInt8) : Table :=
  keyTable nanos key [value] (by rw [List.length_singleton]; decide) seqNum

/-- Four tables with two keys, each of which was overwritten. -/
def fourTables : List Table :=
  [byteTable 4 97 1 4,
   byteTable 3 98 2 3,
   byteTable 2 97 3 2,
   byteTable 1 98 4 1]

def fiveOn : Compaction.Env where
  now i := 5 + i
  stat _ := some 1
  fails _ := false

theorem seqNumsDescend_fourTables : SeqNumsDescend fourTables := by
  unfold SeqNumsDescend
  decide

theorem ready_fourTables [Runtime] :
    Ready fiveOn fourTables (writeTables FMap.empty fourTables) :=
  ready_writeTables [4, 3, 2, 1] rfl (by decide) (fun i => by simp [fiveOn]; omega)
    (fun i j h => Nat.add_left_cancel h) seqNumsDescend_fourTables.newestFirst fun _ => rfl

theorem scan_compact_fourTables :
    SeqNumsDescend fourTables ∧ ∃ dir' tables before after,
      compact fiveOn (writeTables FMap.empty fourTables) (fourTables.map Table.sst) 2 =
        (dir', .ok tables) ∧
      scanFrom (readBlock (writeTables FMap.empty fourTables)) newMemTable
        (fourTables.map Table.sst) [97] none 3 = .ok before ∧
      scanFrom (readBlock dir') newMemTable tables [97] none 3 = .ok after ∧
      after.drain = before.drain :=
  ⟨seqNumsDescend_fourTables,
    scan_compact_eq seqNumsDescend_fourTables ready_fourTables.held ready_fourTables.nodup
      ready_fourTables.fresh ready_fourTables.noFault (by simp [newMemTable]) (by decide)
      (by decide) [97] none⟩

end Hcdb.Db
