import Hcdb.Base.Watermark
import Hcdb.Compaction.Compact
import Hcdb.Db.Read
import Hcdb.Wal

namespace Hcdb.Db

open Hcdb.Lib.ByteString
open Hcdb.Lib.BufferedWriter
open Hcdb.Lib.FiniteMap
open Hcdb.Base
open Hcdb.Memtable
open Hcdb.Sstable
open Hcdb.Wal
open Hcdb.Compaction (CompactErr)

/-- The database together with the directory of its tables.  `ticks` counts the
readings of the clock, which name the files. -/
structure DB where
  wal : WAL
  memtable : MemTable
  sstables : List SSTable
  seqNum : Nat
  watermark : Watermark
  dir : TableDir
  ticks : Nat

/-- The calls of a flush that can fail.  When writing the table fails its temporary
file is removed; when the directory cannot be synced the table is there already. -/
inductive IoCall where
  | flushWrite
  | flushDirSync
  | walTruncate
  | walSeek
  | compaction (call : Compaction.IoCall)
  deriving DecidableEq, Repr

/-- Why a call of the database has failed. -/
inductive DbErr where
  | keyTooLong
  | valueTooLong
  | io (call : IoCall)
  | compact (e : CompactErr)
  | sst (e : SstErr)
  deriving DecidableEq, Repr

/-- The texts that the database writes itself; the others come from the system. -/
def DbErr.text : DbErr → Option String
  | .keyTooLong => some "key exceeds 1024 bytes"
  | .valueTooLong => some "value exceeds 1048576 bytes"
  | _ => none

/-- What a flush learns from outside: the readings of the clock, the file sizes
that `os.Stat` reports, and which calls fail. -/
structure Env where
  clock : Nat → Nat
  stat : TableDir → Bytes → Option Nat
  fails : IoCall → Bool

/-- `os.Stat` that tells the truth. -/
def fileSizes (dir : TableDir) (path : Bytes) : Option Nat :=
  (dir.read path).map List.length

/-- The environment of a compaction: the clock goes on from the ticks so far. -/
def Env.compaction (env : Env) (db : DB) : Compaction.Env where
  now g := env.clock (db.ticks + g)
  stat := env.stat db.dir
  fails call := env.fails (.compaction call)

namespace DB

/-- The number of the last write, which is pinned from now on. -/
def getSnapshot (db : DB) : Nat × DB :=
  (db.seqNum, { db with watermark := db.watermark.begin db.seqNum })

def releaseSnapshot (db : DB) (snap : Nat) : DB :=
  { db with watermark := db.watermark.done snap }

/-- The key of the next version, for which a number is drawn. -/
def encodeNextKey (db : DB) (userKey : Bytes) (kind : InternalKeyKind) : Bytes × DB :=
  let seqNum := db.seqNum + 1
  ((makeInternalKey userKey seqNum kind).encode, { db with seqNum })

/-- Truncate the log and start it anew. -/
def resetWAL (env : Env) (db : DB) : DB × Except DbErr Unit :=
  if env.fails .walTruncate then (db, .error (.io .walTruncate))
  else
    let truncated : Writer := { db.wal.writer with file := [] }
    if env.fails .walSeek then
      ({ db with wal := { db.wal with writer := truncated } }, .error (.io .walSeek))
    else ({ db with wal := { db.wal with writer := { truncated with buf := [] } } }, .ok ())

/-- `Close`: what is in the buffer goes to the file. -/
def close (db : DB) : DB := { db with wal := db.wal.sync }

section Steps

variable [Runtime]

def getAt (db : DB) (key : Bytes) (snapshot : Nat) : Option Bytes :=
  getFrom (readBlock db.dir) db.memtable db.sstables key snapshot

def get (db : DB) (key : Bytes) : Option Bytes := db.getAt key seqNumMax

def scanAt (db : DB) (lowerBound : Bytes) (upperBound : Option Bytes) (snapshot : Nat) :
    Except SstErr (MergeIterator Source) :=
  scanFrom (readBlock db.dir) db.memtable db.sstables lowerBound upperBound snapshot

def scan (db : DB) (lowerBound : Bytes) (upperBound : Option Bytes) :
    Except SstErr (MergeIterator Source) :=
  db.scanAt lowerBound upperBound seqNumMax

/-- The part of `flushMemtableLocked` up to the log: `sstable.Flush`, and on success
the new table goes to the front and a fresh memtable takes over. -/
def flushTable (env : Env) (db : DB) : DB × Except DbErr Unit :=
  let finalPath := sstName (env.clock db.ticks)
  let db := { db with ticks := db.ticks + 1 }
  if env.fails .flushWrite then (db, .error (.io .flushWrite))
  else
    let (sst, file) := Sstable.flush db.memtable finalPath
    let db := { db with dir := db.dir.write finalPath file }
    if env.fails .flushDirSync then (db, .error (.io .flushDirSync))
    else ({ db with sstables := sst :: db.sstables, memtable := newMemTable }, .ok ())

/-- The rest of it after the log: `Compact`, and on success its result is the new
table list. -/
def compactTables (env : Env) (db : DB) : DB × Except DbErr Unit :=
  let (dir, res) := Compaction.compact (env.compaction db) db.dir db.sstables db.watermark.floor
  let db := { db with dir, ticks := db.ticks + db.sstables.length }
  match res with
  | .error e => (db, .error (.compact e))
  | .ok compacted => ({ db with sstables := compacted }, .ok ())

/-- Write the memtable to a table, reset the log and compact. -/
def flushMemtableLocked (env : Env) (db : DB) : DB × Except DbErr Unit :=
  match db.flushTable env with
  | (db, .error e) => (db, .error e)
  | (db, .ok ()) =>
      match db.resetWAL env with
      | (db, .error e) => (db, .error e)
      | (db, .ok ()) => db.compactTables env

def forceFlush (env : Env) (db : DB) : DB × Except DbErr Unit := db.flushMemtableLocked env

/-- A memtable that has reached its size is flushed. -/
def flushIfFullLocked (env : Env) (db : DB) : DB × Except DbErr Unit :=
  if db.memtable.size < Config.defaultMemtableFlushSize then (db, .ok ())
  else db.flushMemtableLocked env

def put (env : Env) (db : DB) (key value : Bytes) : DB × Except DbErr Unit :=
  if Config.maxKeyLength < key.length then (db, .error .keyTooLong)
  else if Config.maxValueLength < value.length then (db, .error .valueTooLong)
  else
    let (internalKey, db) := db.encodeNextKey key internalKeyKindSet
    let db := { db with
      wal := db.wal.put internalKey value
      memtable := db.memtable.put internalKey value }
    db.flushIfFullLocked env

def delete (env : Env) (db : DB) (key : Bytes) : DB × Except DbErr Unit :=
  if Config.maxKeyLength < key.length then (db, .error .keyTooLong)
  else
    let (internalKey, db) := db.encodeNextKey key internalKeyKindDelete
    let db := { db with
      wal := db.wal.delete internalKey
      memtable := db.memtable.delete internalKey }
    db.flushIfFullLocked env

end Steps

end DB

/-- What `Open` makes of an empty directory. -/
def emptyDB : DB where
  wal := openWAL []
  memtable := newMemTable
  sstables := []
  seqNum := 0
  watermark := newWatermark
  dir := FMap.empty
  ticks := 0

/-- The loop of `rebuildMemtable`. -/
def rebuildEntry (acc : MemTable × Nat) (e : Entry) : MemTable × Nat :=
  let (mem, maxSeq) := acc
  (if e.kind = internalKeyKindDelete then mem.delete e.key else mem.put e.key e.value,
    if maxSeq < e.seqNum then e.seqNum else maxSeq)

/-- The loops of `maxSeqNumInTables`. -/
def maxSeqNumOf (maxSeq : Nat) (entries : List Entry) : Nat :=
  entries.foldl (fun maxSeq e => if maxSeq < e.seqNum then e.seqNum else maxSeq) maxSeq

section Open

variable [Runtime]

/-- The memtable that the log describes, and the largest number in it. -/
def rebuildMemtable (wal : WAL) : MemTable × Nat × WAL :=
  let (entries, wal) := wal.replay
  let (mem, maxSeq) := entries.foldl rebuildEntry (newMemTable, 0)
  (mem, maxSeq, wal)

/-- The largest number in the tables, each of which is read in full. -/
def maxSeqNumInTables (dir : TableDir) : Nat → List SSTable → Except SstErr Nat
  | maxSeq, [] => .ok maxSeq
  | maxSeq, sst :: ssts =>
      match newBlockIterator dir sst with
      | .error e => .error e
      | .ok entries => maxSeqNumInTables dir (maxSeqNumOf maxSeq entries) ssts

/-- `Open` on the contents of the log file and of the table directory. -/
def openDB (walFile : Bytes) (dir : TableDir) (ticks : Nat) : Except DbErr DB :=
  let (mem, walMaxSeq, wal) := rebuildMemtable (openWAL walFile)
  match openAllInDir dir with
  | .error e => .error (.sst e)
  | .ok tables =>
      match maxSeqNumInTables dir 0 tables with
      | .error e => .error (.sst e)
      | .ok sstMaxSeq => .ok
          { wal, memtable := mem, sstables := tables, seqNum := max walMaxSeq sstMaxSeq
            watermark := newWatermark, dir, ticks }

end Open

end Hcdb.Db
