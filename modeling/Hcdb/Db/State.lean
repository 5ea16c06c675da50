import Hcdb.Compaction.Files
import Hcdb.Db.Operations
import Hcdb.Sstable.Flush

/-!
What a database stands for: a memtable over a list of complete tables, each in its
file.  Reads depend on nothing else, and flushes and compactions that meet no
fault lead from one such list to another.
-/

namespace Hcdb.Db

open Hcdb.Lib.ByteString
open Hcdb.Lib.SortedList
open Hcdb.Lib.FiniteMap
open Hcdb.Base
open Hcdb.Memtable
open Hcdb.Sstable
open Hcdb.Compaction

/-- A flush that meets no fault. -/
def healthy (clock : Nat → Nat) (stat : TableDir → Bytes → Option Nat) : Env where
  clock
  stat
  fails _ := false

/-- A disk on which exactly this call fails. -/
def faulty (clock : Nat → Nat) (stat : TableDir → Bytes → Option Nat) (call : IoCall) : Env where
  clock
  stat
  fails c := decide (c = call)

/-- The new table gets to its place. -/
def Env.installs (env : Env) : Prop :=
  env.fails .flushWrite = false ∧ env.fails .flushDirSync = false

/-- The log is emptied. -/
def Env.resets (env : Env) : Prop :=
  env.fails .walTruncate = false ∧ env.fails .walSeek = false

/-- The clock of the runs on fixed inputs. -/
def stampedClock (i : Nat) : Nat :=
  10 ^ 18 + i

theorem stampedClock_strictMono : StrictMono stampedClock :=
  fun _ _ h => Nat.add_lt_add_left h _

theorem DB.sorted_of_mem_layers (db : DB) (ts : List Table) :
    ∀ l ∈ db.memtable.tree :: layersOf ts, Sorted l := by
  intro l hl
  rcases List.mem_cons.mp hl with rfl | hl
  · exact db.memtable.sorted
  · exact sorted_of_mem_layersOf ts l hl

section State

variable [Runtime]

/-- The table list of the database is `ts`, every one of them in its file, and all
files are named after readings of the clock. -/
structure Represents (clock : Nat → Nat) (db : DB) (ts : List Table) : Prop where
  sstables : db.sstables = ts.map Table.sst
  held : ∀ t ∈ ts, db.dir.read t.name = some t.content
  nodup : (ts.map Table.name).Nodup
  stamped : ∀ name, db.dir.read name ≠ none → ∃ i < db.ticks, name = sstName (clock i)
  wellFormed : ∀ e ∈ db.memtable.tree, e.WellFormed

/-- The stored versions in the order in which a point read meets them. -/
def stored (db : DB) (ts : List Table) : List Entry :=
  db.memtable.tree ++ (layersOf ts).flatten

/-- The entries of a table of the list, as `NewBlockIterator` reads them. -/
def entriesIn (dir : TableDir) (sst : SSTable) : List Entry :=
  (newBlockIterator dir sst).toOption.getD []

/-- The layers of the table list on the disk. -/
def DB.layers (db : DB) : List (List Entry) := db.sstables.map (entriesIn db.dir)

variable {clock : Nat → Nat} {db : DB} {ts : List Table}

theorem Represents.intact (h : Represents clock db ts) :
    ∀ t ∈ ts, Table.Intact (readBlock db.dir) t :=
  fun t ht => t.intact_readBlock (h.held t ht)

theorem Represents.valid (h : Represents clock db ts) : ∀ e ∈ db.memtable.tree, e.ik.valid = true :=
  fun e he => (h.wellFormed e he).valid

theorem Represents.entriesIn_eq (h : Represents clock db ts) {t : Table} (ht : t ∈ ts) :
    entriesIn db.dir t.sst = t.entries := by
  rw [entriesIn, t.newBlockIterator_eq (h.held t ht)]
  rfl

theorem Represents.layers_eq (h : Represents clock db ts) : db.layers = layersOf ts := by
  rw [DB.layers, h.sstables, List.map_map]
  exact List.map_congr_left fun t ht => h.entriesIn_eq ht

theorem Represents.getAt_eq (h : Represents clock db ts) (key : Bytes) {snapshot : Nat}
    (hsnap : snapshot ≤ seqNumMax) :
    db.getAt key snapshot = answer (versionAt (stored db ts) key snapshot) := by
  rw [DB.getAt, h.sstables, getFrom_eq h.valid (forall₂_serves h.intact) key hsnap, stored]

theorem Represents.scanAt_spec (h : Represents clock db ts) (lowerBound : Bytes)
    (upperBound : Option Bytes) {snapshot : Nat} (hsnap : snapshot ≤ seqNumMax) :
    ∃ m, db.scanAt lowerBound upperBound snapshot = .ok m ∧ SortedBy Prod.fst m.drain ∧
      ∀ u v, (u, v) ∈ m.drain ↔ inRange lowerBound upperBound u = true ∧
        answer (newestAt (db.memtable.tree :: layersOf ts) u snapshot) = some v := by
  rw [DB.scanAt, h.sstables]
  exact scanFrom_serves h.valid (forall₂_serves h.intact) lowerBound upperBound hsnap

theorem Represents.fresh (h : Represents clock db ts) (hclock : StrictMono clock) {i : Nat}
    (hi : db.ticks ≤ i) : db.dir.read (sstName (clock i)) = none := by
  by_contra hne
  obtain ⟨j, hj, heq⟩ := h.stamped _ hne
  have hij := hclock.injective (sstName_injective heq)
  omega

theorem represents_emptyDB : Represents clock emptyDB [] where
  sstables := rfl
  held := by simp
  nodup := List.nodup_nil
  stamped name hname := absurd (FMap.read_empty name) hname
  wellFormed := by simp [emptyDB, newMemTable]

/-- The table that a flush writes. -/
def flushedTable (clock : Nat → Nat) (h : Represents clock db ts) : Table :=
  tableOfMemtable (sstName (clock db.ticks)) db.memtable h.wellFormed

/-- The database between the flush and the compaction. -/
def flushedDB (clock : Nat → Nat) (db : DB) : DB :=
  { wal := { db.wal with writer := { file := [], buf := [] } }
    memtable := newMemTable
    sstables := tableOf (sstName (clock db.ticks)) db.memtable.tree :: db.sstables
    seqNum := db.seqNum
    watermark := db.watermark
    dir := db.dir.write (sstName (clock db.ticks)) (fileOf db.memtable.tree)
    ticks := db.ticks + 1 }

theorem DB.flushMemtableLocked_resets {env : Env} (h : env.installs) (hresets : env.resets)
    (db : DB) : db.flushMemtableLocked env = (flushedDB env.clock db).compactTables env := by
  simp only [flushMemtableLocked, flushTable, h.1, h.2, flush_eq, resetWAL, hresets.1, hresets.2,
    Bool.false_eq_true, if_false]
  rfl

theorem flushMemtableLocked_healthy (clock : Nat → Nat) (stat : TableDir → Bytes → Option Nat)
    (db : DB) :
    db.flushMemtableLocked (healthy clock stat) =
      (flushedDB clock db).compactTables (healthy clock stat) :=
  db.flushMemtableLocked_resets ⟨rfl, rfl⟩ ⟨rfl, rfl⟩

theorem Represents.flushedDB (h : Represents clock db ts) (hclock : StrictMono clock) :
    Represents clock (flushedDB clock db) (flushedTable clock h :: ts) := by
  have hne : ∀ t ∈ ts, t.name ≠ sstName (clock db.ticks) := by
    intro t ht heq
    have hheld := h.held t ht
    rw [heq, h.fresh hclock le_rfl] at hheld
    simp at hheld
  refine ⟨?_, ?_, ?_, ?_, ?_⟩
  · rw [List.map_cons, ← h.sstables]
    rfl
  · intro t ht
    rcases List.mem_cons.mp ht with rfl | ht
    · exact FMap.read_write_self _ _ _
    · exact (FMap.read_write_of_ne _ _ (hne t ht)).trans (h.held t ht)
  · rw [List.map_cons, List.nodup_cons]
    refine ⟨?_, h.nodup⟩
    intro hmem
    obtain ⟨t, ht, heq⟩ := List.mem_map.mp hmem
    exact hne t ht heq
  · intro name hname
    by_cases heq : name = sstName (clock db.ticks)
    · exact ⟨db.ticks, Nat.lt_succ_self _, heq⟩
    · have hold : (db.dir.write (sstName (clock db.ticks)) (fileOf db.memtable.tree)).read name ≠
          none := hname
      rw [FMap.read_write_of_ne _ _ heq] at hold
      obtain ⟨i, hi, hi'⟩ := h.stamped name hold
      exact ⟨i, Nat.lt_succ_of_lt hi, hi'⟩
  · simp [Db.flushedDB, newMemTable]

theorem Represents.stored_flushedDB (h : Represents clock db ts) :
    stored (Db.flushedDB clock db) (flushedTable clock h :: ts) = stored db ts := rfl

variable {stat : TableDir → Bytes → Option Nat}

/-- The tables that a compaction leaves. -/
def compactedTables (clock : Nat → Nat) (stat : TableDir → Bytes → Option Nat) (db : DB)
    (ts : List Table) : List Table :=
  resultOf ((healthy clock stat).compaction db) db.watermark.floor ts

/-- The database after a compaction in which nothing fails. -/
def compactedDB (clock : Nat → Nat) (stat : TableDir → Bytes → Option Nat) (db : DB)
    (ts : List Table) : DB :=
  { db with
    dir := resultDir ((healthy clock stat).compaction db) db.watermark.floor ts db.dir
    sstables := (compactedTables clock stat db ts).map Table.sst
    ticks := db.ticks + db.sstables.length }

theorem Represents.ready (h : Represents clock db ts) (hclock : StrictMono clock)
    (hnf : NewestFirst (layersOf ts).flatten) (stat : TableDir → Bytes → Option Nat) :
    Ready ((healthy clock stat).compaction db) ts db.dir where
  held := h.held
  nodup := h.nodup
  newestFirst := hnf
  fresh :=
    { fresh := fun i _ => h.fresh hclock (Nat.le_add_right _ i)
      inj := fun _ _ _ _ heq =>
        Nat.add_left_cancel (hclock.injective (sstName_injective heq)) }
  noFault _ := rfl

theorem Represents.compactTables_eq (h : Represents clock db ts) (hclock : StrictMono clock)
    (hnf : NewestFirst (layersOf ts).flatten) (stat : TableDir → Bytes → Option Nat) :
    db.compactTables (healthy clock stat) = (compactedDB clock stat db ts, .ok ()) := by
  rw [DB.compactTables, h.sstables, (h.ready hclock hnf stat).compact_eq db.watermark.floor]
  simp only [compactedDB, compactedTables, h.sstables, List.length_map]

theorem Represents.compactedDB (h : Represents clock db ts) (hclock : StrictMono clock)
    (hnf : NewestFirst (layersOf ts).flatten) (stat : TableDir → Bytes → Option Nat) :
    Represents clock (compactedDB clock stat db ts) (compactedTables clock stat db ts) := by
  have hready := h.ready hclock hnf stat
  refine ⟨rfl, hready.held_result _, hready.nodup_result _, ?_, h.wellFormed⟩
  intro name hname
  have hlen : ts.length = db.sstables.length := by rw [h.sstables, List.length_map]
  rcases read_resultDir hname with hold | ⟨i, hi, heq⟩
  · obtain ⟨i, hi, heq⟩ := h.stamped name hold
    exact ⟨i, Nat.lt_add_right _ hi, heq⟩
  · exact ⟨db.ticks + i, by simp only [Db.compactedDB]; omega, heq⟩

end State

end Hcdb.Db
