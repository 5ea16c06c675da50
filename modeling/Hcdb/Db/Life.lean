import Hcdb.Db.Recovery
import Hcdb.Lib.Transition

/-!
The lives of a database.  A process serves calls until it is closed or killed, and the
next one starts with `Open` from the log and the tables that are left on the disk.
-/

namespace Hcdb.Db

open Hcdb.Lib.ByteString
open Hcdb.Lib.Transition
open Hcdb.Base
open Hcdb.Memtable
open Hcdb.Sstable
open Hcdb.Wal

/-- What a process leaves behind.  Only the first `fsynced` bytes of the log were fsynced.
The temporary file of a table that a kill has interrupted lies beside the tables. -/
structure Disk where
  log : Bytes
  fsynced : Nat
  dir : TableDir
  ticks : Nat
  leftover : Option (Bytes × Bytes)

/-- The files that `Open` finds: it takes a temporary file for a table. -/
def Disk.files (disk : Disk) : TableDir :=
  match disk.leftover with
  | none => disk.dir
  | some (name, content) => disk.dir.write name content

/-- A process, which may be inside a call that has filled the memtable and is about to
flush it, or none. -/
inductive Life where
  | running (db : DB) (fsynced : Nat) (flushing : Bool)
  | down (disk : Disk)

/-- A kill comes inside the call `op`, which is `flush` between two calls, and leaves `log`
of the log.  Inside a flush `env` fails where the process stops, and if that is in the
writing of a table, `torn` is what there is of it, with the reading of the clock that names
it.  To `sweep` is to delete such a file by hand. -/
inductive LifeEvent where
  | write (op : Op)
  | flush (stat : Stat)
  | flushFails (env : Env)
  | getSnapshot
  | releaseSnapshot (snap : Nat)
  | close
  | kill (op : Op) (log : Bytes)
  | killFlushing (env : Env) (log : Bytes) (torn : Option (Nat × Bytes))
  | sweep
  | restart

/-- The first process, with nothing on the disk. -/
def Life.start : Life := .running emptyDB 0 false

/-- A kill takes the buffer of the log and leaves its file, or nothing of it where the flush
has truncated it. -/
def FileKept (s : Life) (event : LifeEvent) : Prop :=
  match s, event with
  | .running db _ _, .kill _ log => log = db.wal.writer.file
  | .running db _ _, .killFlushing _ log _ => log = db.wal.writer.file ∨ log = []
  | _, _ => True

/-- The database as its process leaves it, with this much of the log. -/
def DB.leaves (db : DB) (fsynced : Nat) (log : Bytes) : Disk where
  log
  fsynced := min fsynced log.length
  dir := db.dir
  ticks := db.ticks
  leftover := none

/-- What holds of every entry that a write stores. -/
structure Written (e : Entry) : Prop where
  loggable : Loggable e
  tombstone : e.kind = internalKeyKindDelete → e.value = []

theorem entry?_written {seqNum : Nat} {op : Op} {e : Entry} (h : op.entry? seqNum = some e)
    (hop : op.Accepted) : Written e := by
  have hlength : ∀ userKey kind, userKey.length ≤ Config.maxKeyLength →
      (makeInternalKey userKey seqNum kind).encode.length ≤ maxEncodedKeyLen := by
    intro userKey kind hkey
    rw [InternalKey.encode_length]
    exact Nat.add_le_add_right hkey _
  cases op with
  | put key value =>
      obtain rfl := Option.some.inj h
      refine ⟨⟨hlength _ _ hop.1, hop.2⟩, fun hkind => ?_⟩
      rw [Entry.kind, Entry.ik_encode] at hkind
      have hset := (trailerKind_makeTrailer seqNum internalKeyKindSet).symm.trans hkind
      exact absurd hset (by decide)
  | delete key =>
      obtain rfl := Option.some.inj h
      exact ⟨⟨hlength _ _ hop, Nat.zero_le _⟩, fun _ => rfl⟩
  | flush => simp [Op.entry?] at h

/-- What a flush does to the log, the memtable and the counter, wherever it stops. -/
structure FlushFrame (db db' : DB) : Prop where
  seqNum : db'.seqNum = db.seqNum
  putCounter : db'.wal.putCounter = db.wal.putCounter
  memtable : db'.memtable = db.memtable ∨ db'.memtable = newMemTable
  log : db'.wal = db.wal ∨ db'.wal.writer = ⟨[], []⟩ ∧ db'.memtable = newMemTable

theorem FlushFrame.refl (db : DB) : FlushFrame db db := ⟨rfl, rfl, .inl rfl, .inl rfl⟩

theorem DB.resetWAL_frame {env : Env} (hseek : env.fails .walSeek = false) {db : DB}
    (hmem : db.memtable = newMemTable) : FlushFrame db (db.resetWAL env).1 := by
  rw [resetWAL]
  split
  · exact .refl db
  · simp only [hseek, Bool.false_eq_true, if_false]
    exact ⟨rfl, rfl, .inl rfl, .inr ⟨rfl, hmem⟩⟩

section Steps

variable [Runtime]

/-- How much of the log is fsynced when the call has written its record: `Sync` comes
with every write that completes the count. -/
def fsyncedBy (db : DB) (fsynced : Nat) (op : Op) : Nat :=
  match op with
  | .flush => fsynced
  | op =>
      if Config.defaultSyncThreshold ≤ db.wal.putCounter + 1 then
        (op.write db).wal.writer.file.length
      else fsynced

/-- The steps of a life.  A kill leaves some first part of what was appended to the log.
After a flush that fails the process goes on with what there is; a `Seek` that fails behind
the truncation, which leaves the rest of a record at the start of the log, is left out. -/
inductive LifeStep (clock : Nat → Nat) : Life → LifeEvent → Life → Prop
  | write {db : DB} {fsynced : Nat} {op : Op} : op.Accepted →
      LifeStep clock (.running db fsynced false) (.write op)
        (.running (op.write db) (fsyncedBy db fsynced op) (op.flushes db))
  | flush {db : DB} {fsynced : Nat} {stat : Stat} :
      LifeStep clock (.running db fsynced true) (.flush stat)
        (.running (db.flushMemtableLocked (healthy clock stat)).1
          (min fsynced (db.flushMemtableLocked (healthy clock stat)).1.wal.writer.file.length)
          false)
  | flushFails {db : DB} {fsynced : Nat} {env : Env} {e : DbErr} : env.clock = clock →
      env.fails .walSeek = false → (db.flushMemtableLocked env).2 = .error e →
      LifeStep clock (.running db fsynced true) (.flushFails env)
        (.running (db.flushMemtableLocked env).1
          (min fsynced (db.flushMemtableLocked env).1.wal.writer.file.length) false)
  | getSnapshot {db : DB} {fsynced : Nat} :
      LifeStep clock (.running db fsynced false) .getSnapshot
        (.running db.getSnapshot.2 fsynced false)
  | releaseSnapshot {db : DB} {fsynced snap : Nat} :
      LifeStep clock (.running db fsynced false) (.releaseSnapshot snap)
        (.running (db.releaseSnapshot snap) fsynced false)
  | close {db : DB} {fsynced : Nat} :
      LifeStep clock (.running db fsynced false) .close
        (.down (db.close.leaves db.close.wal.writer.file.length db.close.wal.writer.file))
  | kill {db : DB} {fsynced : Nat} {op : Op} {log : Bytes} : op.Accepted →
      log <+: (op.write db).wal.writer.stream →
      LifeStep clock (.running db fsynced false) (.kill op log) (.down (db.leaves fsynced log))
  | killFlushing {db : DB} {fsynced : Nat} {env : Env} {log : Bytes}
      {torn : Option (Nat × Bytes)} : env.clock = clock → log <+: db.wal.writer.stream →
      LifeStep clock (.running db fsynced true) (.killFlushing env log torn)
        (.down { (db.flushMemtableLocked env).1.leaves fsynced log with
          leftover := torn.map fun file => (tmpName (sstName (clock file.1)), file.2) })
  | sweep {disk : Disk} : LifeStep clock (.down disk) .sweep (.down { disk with leftover := none })
  | restart {disk : Disk} {db : DB} : openDB disk.log disk.files disk.ticks = .ok db →
      LifeStep clock (.down disk) .restart
        (.running db (min disk.fsynced db.wal.writer.file.length) false)

theorem DB.compactTables_frame (env : Env) (db : DB) :
    (db.compactTables env).1.wal = db.wal ∧ (db.compactTables env).1.memtable = db.memtable ∧
      (db.compactTables env).1.seqNum = db.seqNum ∧
      (db.compactTables env).1.ticks = db.ticks + db.sstables.length := by
  unfold compactTables
  rcases Compaction.compact (env.compaction db) db.dir db.sstables db.watermark.floor with
    ⟨dir, _ | ssts⟩
  · exact ⟨rfl, rfl, rfl, rfl⟩
  · exact ⟨rfl, rfl, rfl, rfl⟩

theorem DB.flushTable_frame (env : Env) (db : DB) : (db.flushTable env).1.wal = db.wal ∧
    (db.flushTable env).1.seqNum = db.seqNum ∧
    ((db.flushTable env).1.memtable = db.memtable ∧ (∃ e, (db.flushTable env).2 = .error e) ∨
      (db.flushTable env).1.memtable = newMemTable ∧ (db.flushTable env).2 = .ok ()) := by
  rw [flushTable]
  dsimp only
  split
  · exact ⟨rfl, rfl, .inl ⟨rfl, _, rfl⟩⟩
  · split
    · exact ⟨rfl, rfl, .inl ⟨rfl, _, rfl⟩⟩
    · exact ⟨rfl, rfl, .inr ⟨rfl, rfl⟩⟩

theorem DB.flushMemtableLocked_frame {env : Env} (hseek : env.fails .walSeek = false) (db : DB) :
    FlushFrame db (db.flushMemtableLocked env).1 := by
  obtain ⟨hwal, hseq, hmem⟩ := db.flushTable_frame env
  rw [flushMemtableLocked]
  rcases htable : db.flushTable env with ⟨db₁, e | done⟩
  · rw [htable] at hwal hseq hmem
    rcases hmem with ⟨hmem, -⟩ | ⟨-, hok⟩
    · exact ⟨hseq, congrArg WAL.putCounter hwal, .inl hmem, .inl hwal⟩
    · simp at hok
  · rw [htable] at hwal hseq hmem
    have hnew : db₁.memtable = newMemTable := by
      rcases hmem with ⟨-, e, herror⟩ | ⟨hnew, -⟩
      · simp at herror
      · exact hnew
    have hreset := DB.resetWAL_frame hseek hnew
    have hfirst : ∀ db', FlushFrame db₁ db' → FlushFrame db db' := fun db' h =>
      { seqNum := h.seqNum.trans hseq
        putCounter := h.putCounter.trans (congrArg WAL.putCounter hwal)
        memtable := .inr (h.memtable.elim (·.trans hnew) id)
        log := h.log.imp_left (·.trans hwal) }
    simp only
    rcases hlog : db₁.resetWAL env with ⟨db₂, e | done⟩
    · rw [hlog] at hreset
      exact hfirst db₂ hreset
    · rw [hlog] at hreset
      obtain ⟨hwal₂, hmem₂, hseq₂, -⟩ := db₂.compactTables_frame env
      refine hfirst _ ⟨hseq₂.trans hreset.seqNum, ?_, ?_, ?_⟩
      · rw [hwal₂, hreset.putCounter]
      · rw [hmem₂]
        exact hreset.memtable
      · rw [hwal₂, hmem₂]
        exact hreset.log

theorem Op.write_dir (db : DB) (op : Op) : (op.write db).dir = db.dir := by
  rw [Op.write_eq]
  split <;> rfl

theorem Op.write_ticks (db : DB) (op : Op) : (op.write db).ticks = db.ticks := by
  rw [Op.write_eq]
  split <;> rfl

end Steps

end Hcdb.Db
