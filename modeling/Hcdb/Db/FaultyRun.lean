import Hcdb.Db.Contents
import Hcdb.Db.FaultyFlush
import Hcdb.Db.Mapping
import Hcdb.Db.Recovery
import Hcdb.Db.Threads
import Hcdb.Wal.Fallible

/-!
Runs on a disk on which any call may fail, the deletion of a merged file excepted.  The
replies tell what is stored: a write that the log has refused leaves no trace in the reads,
and one whose flush has failed is there.
-/

namespace Hcdb.Db

open Hcdb.Lib.ByteString
open Hcdb.Lib.Fallible
open Hcdb.Lib.FiniteMap
open Hcdb.Lib.Simulation
open Hcdb.Base
open Hcdb.Memtable
open Hcdb.Sstable
open Hcdb.Compaction
open Hcdb.Wal
open Hcdb.Faultinjection

variable {σ ε : Type*}

/-- The database with its log on a file that can fail.  The log inside `db` is not used. -/
structure LoggedDB (σ ε : Type*) where
  log : FallibleWAL σ ε
  db : DB

/-- An error of the tables, of the log, or of `resetWAL`. -/
inductive LoggedErr (ε : Type*) where
  | db (e : DbErr)
  | log (e : ε)
  | reset (e : ε)

abbrev LoggedReply (ε : Type*) := Except (LoggedErr ε) Unit

/-- The calls of a client that can change what is stored. -/
inductive LoggedCall where
  | op (op : Op)
  | close

namespace LoggedDB

section Calls

variable [Runtime] (file : LogFile σ ε) (env : Env)

/-- `flushMemtableLocked`, with the log that the database really has. -/
def flushMemtableLocked (ldb : LoggedDB σ ε) : LoggedDB σ ε × LoggedReply ε :=
  match ldb.db.flushTable env with
  | (db, .error e) => ({ ldb with db }, .error (.db e))
  | (db, .ok ()) =>
      match ldb.log.reset file with
      | (log, some e) => ({ log, db }, .error (.reset e))
      | (log, none) =>
          match db.compactTables env with
          | (db, .error e) => ({ log, db }, .error (.db e))
          | (db, .ok ()) => ({ log, db }, .ok ())

def flushIfFullLocked (ldb : LoggedDB σ ε) : LoggedDB σ ε × LoggedReply ε :=
  if ldb.db.memtable.size < Config.defaultMemtableFlushSize then (ldb, .ok ())
  else ldb.flushMemtableLocked file env

/-- `Put`: after an error of the log nothing is stored, but the number is used up. -/
def put (ldb : LoggedDB σ ε) (key value : Bytes) : LoggedDB σ ε × LoggedReply ε :=
  if Config.maxKeyLength < key.length then (ldb, .error (.db .keyTooLong))
  else if Config.maxValueLength < value.length then (ldb, .error (.db .valueTooLong))
  else
    let (internalKey, db) := ldb.db.encodeNextKey key internalKeyKindSet
    match ldb.log.put file internalKey value with
    | (log, some e) => ({ log, db }, .error (.log e))
    | (log, none) =>
        flushIfFullLocked file env
          { log, db := { db with memtable := db.memtable.put internalKey value } }

def delete (ldb : LoggedDB σ ε) (key : Bytes) : LoggedDB σ ε × LoggedReply ε :=
  if Config.maxKeyLength < key.length then (ldb, .error (.db .keyTooLong))
  else
    let (internalKey, db) := ldb.db.encodeNextKey key internalKeyKindDelete
    match ldb.log.delete file internalKey with
    | (log, some e) => ({ log, db }, .error (.log e))
    | (log, none) =>
        flushIfFullLocked file env
          { log, db := { db with memtable := db.memtable.delete internalKey } }

def call (ldb : LoggedDB σ ε) : Op → LoggedDB σ ε × LoggedReply ε
  | .put key value => ldb.put file env key value
  | .delete key => ldb.delete file env key
  | .flush => ldb.flushMemtableLocked file env

/-- `Close`: the log is synced, which may be the first to report an old error. -/
def close (ldb : LoggedDB σ ε) : LoggedDB σ ε × LoggedReply ε :=
  match ldb.log.sync file with
  | (log, some e) => ({ ldb with log }, .error (.log e))
  | (log, none) => ({ ldb with log }, .ok ())

end Calls

end LoggedDB

theorem DB.flushTable_wal [Runtime] (env : Env) (wal : WAL) (db : DB) :
    ({ db with wal } : DB).flushTable env =
      ({ (db.flushTable env).1 with wal }, (db.flushTable env).2) := by
  unfold DB.flushTable
  dsimp only
  split
  · rfl
  · split
    · rfl
    · rfl

theorem DB.wal_flushTable [Runtime] (env : Env) (db : DB) :
    (db.flushTable env).1.wal = db.wal := by
  unfold DB.flushTable
  dsimp only
  split
  · rfl
  · split
    · rfl
    · rfl

theorem DB.compactTables_wal [Runtime] (env : Env) (wal : WAL) (db : DB) :
    ({ db with wal } : DB).compactTables env =
      ({ (db.compactTables env).1 with wal }, (db.compactTables env).2) := by
  unfold DB.compactTables
  dsimp only
  rw [show env.compaction { db with wal } = env.compaction db from rfl]
  cases (compact (env.compaction db) db.dir db.sstables db.watermark.floor).2 with
  | error e => rfl
  | ok tables => rfl

theorem DB.resetWAL_done {env : Env} (htruncate : env.fails .walTruncate = false)
    (hseek : env.fails .walSeek = false) (db : DB) :
    db.resetWAL env =
      ({ db with wal := { db.wal with writer := { file := [], buf := [] } } }, .ok ()) := by
  rw [DB.resetWAL, htruncate, hseek]
  rfl

namespace LoggedDB

/-- A database and its log taken apart; what stands in the place of the log is not used. -/
def ofDB (wal : WAL) (db : DB) : LoggedDB Bytes ε where
  log := FallibleWAL.ofWAL db.wal
  db := { db with wal }

section Steady

variable [Runtime] {env : Env} (htruncate : env.fails .walTruncate = false)
  (hseek : env.fails .walSeek = false) (wal : WAL) (db : DB)

include htruncate hseek

theorem flushMemtableLocked_ofDB :
    (ofDB wal db).flushMemtableLocked (steadyFile ε) env =
      (ofDB wal (db.flushMemtableLocked env).1,
        (db.flushMemtableLocked env).2.mapError LoggedErr.db) := by
  rw [flushMemtableLocked, DB.flushMemtableLocked, ofDB, DB.flushTable_wal]
  dsimp only
  have hlog := DB.wal_flushTable env db
  rcases hflush : db.flushTable env with ⟨db₁, e | _⟩
  · rw [hflush] at hlog
    dsimp only at hlog ⊢
    rw [ofDB, hlog]
    rfl
  · rw [hflush] at hlog
    have hreset := DB.resetWAL_done htruncate hseek db₁
    dsimp only at hlog ⊢
    rw [FallibleWAL.reset_ofWAL, hreset]
    dsimp only
    rw [hlog, DB.compactTables_wal env wal db₁,
      DB.compactTables_wal env ⟨⟨[], []⟩, db.wal.putCounter⟩ db₁]
    rcases db₁.compactTables env with ⟨db₂, e | _⟩
    · rfl
    · rfl

theorem flushIfFullLocked_ofDB :
    (ofDB wal db).flushIfFullLocked (steadyFile ε) env =
      (ofDB wal (db.flushIfFullLocked env).1,
        (db.flushIfFullLocked env).2.mapError LoggedErr.db) := by
  rw [flushIfFullLocked, DB.flushIfFullLocked]
  by_cases hsize : db.memtable.size < Config.defaultMemtableFlushSize
  · rw [if_pos hsize]
    exact if_pos hsize
  · rw [if_neg hsize]
    exact (if_neg hsize).trans (flushMemtableLocked_ofDB htruncate hseek wal db)

theorem call_ofDB (op : Op) :
    (ofDB wal db).call (steadyFile ε) env op =
      (ofDB wal (op.exec env db).1, (op.exec env db).2.mapError LoggedErr.db) := by
  cases op with
  | put key value =>
      rw [call, put, Op.exec, DB.put]
      split
      · rfl
      · split
        · rfl
        · dsimp only
          rw [FallibleWAL.put, show (ofDB wal db).log = FallibleWAL.ofWAL (ε := ε) db.wal from rfl,
            FallibleWAL.write_ofWAL]
          exact flushIfFullLocked_ofDB htruncate hseek wal
            { db with
              seqNum := db.seqNum + 1
              wal := db.wal.put (db.encodeNextKey key internalKeyKindSet).1 value
              memtable := db.memtable.put (db.encodeNextKey key internalKeyKindSet).1 value }
  | delete key =>
      rw [call, delete, Op.exec, DB.delete]
      split
      · rfl
      · dsimp only
        rw [FallibleWAL.delete, show (ofDB wal db).log = FallibleWAL.ofWAL (ε := ε) db.wal from rfl,
          FallibleWAL.write_ofWAL]
        exact flushIfFullLocked_ofDB htruncate hseek wal
          { db with
            seqNum := db.seqNum + 1
            wal := db.wal.delete (db.encodeNextKey key internalKeyKindDelete).1
            memtable := db.memtable.delete (db.encodeNextKey key internalKeyKindDelete).1 }
  | flush => exact flushMemtableLocked_ofDB htruncate hseek wal db

end Steady

end LoggedDB

/-- What the reply tells about the write. -/
def stores : LoggedReply ε → Bool
  | .ok () => true
  | .error (.db .keyTooLong) => false
  | .error (.db .valueTooLong) => false
  | .error (.log _) => false
  | .error _ => true

/-- The write, if the reply says that it was stored. -/
def storedOp? : LoggedCall × LoggedReply ε → Option Op
  | (.op .flush, _) => none
  | (.op op, reply) => if stores reply then some op else none
  | (.close, _) => none

/-- The writes of a run that are stored. -/
def storedOps (trace : List (LoggedCall × LoggedReply ε)) : List Op := trace.filterMap storedOp?

theorem lastWrite_concat (ops : List Op) (op : Op) :
    lastWrite (ops ++ [op]) = op.applyTo (lastWrite ops) :=
  funext fun key => lastWrite_append ops op key

theorem storedOps_append (trace trace' : List (LoggedCall × LoggedReply ε)) :
    storedOps (trace ++ trace') = storedOps trace ++ storedOps trace' :=
  List.filterMap_append

theorem storedOps_concat_none {c : LoggedCall × LoggedReply ε} (h : storedOp? c = none)
    (trace : List (LoggedCall × LoggedReply ε)) : storedOps (trace ++ [c]) = storedOps trace := by
  rw [storedOps_append, storedOps, storedOps, List.filterMap_cons_none h, List.filterMap_nil,
    List.append_nil]

theorem storedOp?_op {op : Op} (h : op ≠ .flush) (reply : LoggedReply ε) :
    storedOp? (.op op, reply) = if stores reply then some op else none := by
  cases op with
  | put key value => rfl
  | delete key => rfl
  | flush => exact absurd rfl h

theorem lastWrite_storedOps (trace : List (LoggedCall × LoggedReply ε)) (op : Op)
    (reply : LoggedReply ε) :
    lastWrite (storedOps (trace ++ [(.op op, reply)])) =
      if stores reply then op.applyTo (lastWrite (storedOps trace))
      else lastWrite (storedOps trace) := by
  by_cases hflush : op = .flush
  · subst hflush
    rw [storedOps_concat_none rfl]
    exact (ite_self _).symm
  · have hone := storedOp?_op hflush reply
    split at hone
    · rw [if_pos (by assumption), storedOps_append, storedOps, storedOps,
        List.filterMap_cons_some hone, List.filterMap_nil, lastWrite_concat]
    · rw [if_neg (by assumption), storedOps_concat_none hone]

theorem LoggedDB.close_db (file : LogFile σ ε) (ldb : LoggedDB σ ε) :
    (ldb.close file).1.db = ldb.db := by
  rw [LoggedDB.close]
  split <;> rfl

section Shape

variable [Runtime] (file : LogFile σ ε) (env : Env)

/-- A write gets its number first, then its record, and only then its place. -/
theorem LoggedDB.call_eq {ldb : LoggedDB σ ε} {op : Op} (hop : op.Accepted) {e : Entry}
    (he : op.entry? (ldb.db.seqNum + 1) = some e) :
    ldb.call file env op =
      match ldb.log.write file e with
      | (log, some err) =>
          ({ log, db := { ldb.db with seqNum := ldb.db.seqNum + 1 } }, .error (.log err))
      | (log, none) =>
          LoggedDB.flushIfFullLocked file env
            { log, db := { op.write ldb.db with wal := ldb.db.wal } } := by
  cases op with
  | put key value =>
      obtain rfl := Option.some.inj he
      rw [call, put, if_neg (not_lt.mpr hop.1), if_neg (not_lt.mpr hop.2)]
      rfl
  | delete key =>
      obtain rfl := Option.some.inj he
      rw [call, delete, if_neg (not_lt.mpr hop)]
      rfl
  | flush => simp [Op.entry?] at he

theorem LoggedDB.call_refused (ldb : LoggedDB σ ε) {op : Op} (hop : ¬ op.Accepted) :
    ∃ err, ldb.call file env op = (ldb, .error err) ∧
      stores (.error err : LoggedReply ε) = false := by
  obtain ⟨e, hcheck⟩ := Op.exists_check_error hop
  refine ⟨.db e, ?_⟩
  obtain ⟨key, value, rfl, hkey, rfl⟩ | ⟨key, value, rfl, hkey, hvalue, rfl⟩ |
    ⟨key, rfl, hkey, rfl⟩ := Op.check_eq_error hcheck
  · exact ⟨by rw [call, put, if_pos hkey], rfl⟩
  · exact ⟨by rw [call, put, if_neg hkey, if_pos hvalue], rfl⟩
  · exact ⟨by rw [call, delete, if_pos hkey], rfl⟩

end Shape

section Steps

variable [Runtime] {clock : Nat → Nat} {db : DB} {ts : List Table} {contents : Contents}
  {env : Env} {file : LogFile σ ε} {ldb : LoggedDB σ ε}

theorem Maps.skip (h : Maps clock db ts contents) :
    Maps clock { db with seqNum := db.seqNum + 1 } ts contents :=
  { h with bounded := fun e he => (h.bounded e he).trans (Nat.le_succ _) }

theorem Maps.tick (h : Maps clock db ts contents) :
    Maps clock { db with ticks := db.ticks + 1 } ts contents :=
  { h with stamped := fun name hname =>
      (h.stamped name hname).imp fun _ hi => ⟨Nat.lt_succ_of_lt hi.1, hi.2⟩ }

theorem Maps.installed (h : Maps clock db ts contents) (hclock : StrictMono clock) :
    Maps clock (db.installed clock) ts contents :=
  { h with
    held := fun t ht => by
      have hne := h.toRepresents.name_ne hclock ht 0
      exact (FMap.read_write_of_ne _ _ hne).trans (h.held t ht)
    stamped := fun name hname => by
      by_cases heq : name = sstName (clock db.ticks)
      · exact ⟨db.ticks, Nat.lt_succ_self _, heq⟩
      · have hold : (db.dir.write (sstName (clock db.ticks)) (db.newTable clock).2).read name ≠
            none := hname
        rw [FMap.read_write_of_ne _ _ heq] at hold
        obtain ⟨i, hi, hi'⟩ := h.stamped name hold
        exact ⟨i, Nat.lt_succ_of_lt hi, hi'⟩ }

theorem Maps.swapped (h : Maps clock db ts contents) (hclock : StrictMono clock) :
    Maps clock (db.swapped clock) (flushedTable clock h.toRepresents :: ts) contents := by
  have hflushed : Maps clock (flushedDB clock db) (flushedTable clock h.toRepresents :: ts)
      contents :=
    ⟨h.toOrdered.flushedDB hclock, fun key => by
      rw [h.toRepresents.stored_flushedDB]
      exact h.newest key⟩
  rw [flushedDB_eq_swapped] at hflushed
  exact hflushed.withWal db.wal

theorem DB.compactTables_calm {db' : DB} (h : db.compactTables env = (db', .ok ())) :
    db.compactTables (healthy env.clock env.stat) = (db', .ok ()) := by
  rw [DB.compactTables] at h ⊢
  rcases hcompact : compact (env.compaction db) db.dir db.sstables db.watermark.floor with
    ⟨dir, e | result⟩
  · rw [hcompact] at h
    simp at h
  · have hcalm : compact ((healthy env.clock env.stat).compaction db) db.dir db.sstables
        db.watermark.floor = (dir, .ok result) := compact_calm hcompact
    rw [hcompact] at h
    rw [hcalm]
    exact h

theorem Maps.compactTables_unfinished (h : Maps clock db ts contents) (hclock : StrictMono clock)
    (henv : env.clock = clock) (hremove : ∀ j, env.fails (.compaction (.remove j)) = false)
    {db' : DB} {e : DbErr} (hfails : db.compactTables env = (db', .error e)) :
    Maps clock db' ts contents := by
  rw [DB.compactTables, h.sstables] at hfails
  rcases hcompact : compact (env.compaction db) db.dir (ts.map Table.sst) db.watermark.floor with
    ⟨dir, e' | result⟩
  · rw [hcompact] at hfails
    obtain rfl := (Prod.mk.inj hfails).1
    have hnow : ∀ i, (env.compaction db).now i = clock (db.ticks + i) := fun i => by
      rw [← henv]
      rfl
    obtain ⟨hheld, hnew⟩ := compact_unfinished hremove h.held h.nodup
      (fun i _ t ht => (hnow i).symm ▸ h.toRepresents.name_ne hclock ht i) hcompact
    refine { h with sstables := rfl, held := hheld, stamped := fun name hname => ?_ }
    rcases hnew name hname with hold | ⟨i, hi, heq⟩
    · exact (h.stamped name hold).imp fun _ hi => ⟨Nat.lt_add_right _ hi.1, hi.2⟩
    · refine ⟨db.ticks + i, ?_, heq.trans (by rw [hnow])⟩
      rw [List.length_map]
      exact Nat.add_lt_add_left hi _
  · rw [hcompact] at hfails
    simp at hfails

theorem Maps.compactTables_done (h : Maps clock db ts contents) (hclock : StrictMono clock)
    (henv : env.clock = clock) (hempty : db.memtable.tree = []) (hkept : RecencyKept env.stat db)
    {db' : DB} (hdone : db.compactTables env = (db', .ok ())) :
    ∃ ts', Maps clock db' ts' contents := by
  have hcalm := DB.compactTables_calm hdone
  rw [henv, h.toRepresents.compactTables_eq hclock h.toOrdered.layers_newestFirst] at hcalm
  obtain rfl := (Prod.mk.inj hcalm).1
  refine ⟨_, h.toOrdered.compactedDB hclock hempty hkept, fun key => ?_⟩
  rw [h.toOrdered.versionAt_compactedDB hclock hempty hkept key db.watermark.floor_le_seqNumMax]
  exact h.newest key

theorem DB.compactTables_error {db' : DB} {e : DbErr}
    (h : db.compactTables env = (db', .error e)) : ∃ c, e = .compact c := by
  rw [DB.compactTables] at h
  rcases hcompact : compact (env.compaction db) db.dir db.sstables db.watermark.floor with
    ⟨dir, c | result⟩
  · rw [hcompact] at h
    exact ⟨c, (Except.error.inj (Prod.mk.inj h).2).symm⟩
  · rw [hcompact] at h
    simp at h

/-- A flush changes nothing in the reads, wherever it ends. -/
theorem Maps.flushLogged (h : Maps clock ldb.db ts contents) (hclock : StrictMono clock)
    (henv : env.clock = clock) (hremove : ∀ j, env.fails (.compaction (.remove j)) = false)
    (hkept : RecencyKept env.stat (flushedDB clock ldb.db)) (file : LogFile σ ε) :
    (∃ ts', Maps clock (ldb.flushMemtableLocked file env).1.db ts' contents) ∧
      stores (ldb.flushMemtableLocked file env).2 = true := by
  rw [LoggedDB.flushMemtableLocked]
  cases hwrite : env.fails .flushWrite with
  | true =>
      have hflush : ldb.db.flushTable env =
          ({ ldb.db with ticks := ldb.db.ticks + 1 }, .error (.io .flushWrite)) := by
        simp only [DB.flushTable, hwrite, if_true]
      rw [hflush]
      exact ⟨⟨ts, h.tick⟩, rfl⟩
  | false =>
      cases hsync : env.fails .flushDirSync with
      | true =>
          have hflush : ldb.db.flushTable env =
              (ldb.db.installed env.clock, .error (.io .flushDirSync)) := by
            simp only [DB.flushTable, hwrite, hsync, Bool.false_eq_true, if_false, if_true]
            rfl
          rw [hflush, henv]
          exact ⟨⟨ts, h.installed hclock⟩, rfl⟩
      | false =>
          have hswapped := h.swapped hclock
          rw [DB.flushTable_installs ⟨hwrite, hsync⟩, henv]
          rcases hreset : ldb.log.reset file with ⟨log, _ | e⟩
          · rcases hcompact : (ldb.db.swapped clock).compactTables env with ⟨db', e | done⟩
            · obtain ⟨c, rfl⟩ := DB.compactTables_error hcompact
              dsimp only
              rw [hcompact]
              exact ⟨⟨_, hswapped.compactTables_unfinished hclock henv hremove hcompact⟩, rfl⟩
            · rw [flushedDB_eq_swapped] at hkept
              dsimp only
              rw [hcompact]
              exact ⟨hswapped.compactTables_done hclock henv rfl hkept hcompact, rfl⟩
          · exact ⟨⟨_, hswapped⟩, rfl⟩

theorem Maps.flushIfFullLogged (h : Maps clock ldb.db ts contents) (hclock : StrictMono clock)
    (henv : env.clock = clock) (hremove : ∀ j, env.fails (.compaction (.remove j)) = false)
    (hkept : Config.defaultMemtableFlushSize ≤ ldb.db.memtable.size →
      RecencyKept env.stat (flushedDB clock ldb.db)) (file : LogFile σ ε) :
    (∃ ts', Maps clock (ldb.flushIfFullLocked file env).1.db ts' contents) ∧
      stores (ldb.flushIfFullLocked file env).2 = true := by
  rw [LoggedDB.flushIfFullLocked]
  split
  · exact ⟨⟨ts, h⟩, rfl⟩
  · rename_i hfull
    exact h.flushLogged hclock henv hremove (hkept (not_lt.mp hfull)) file

/-- What is assumed of a call and its surroundings. -/
structure Tolerable (clock : Nat → Nat) (db : DB) (op : Op) (env : Env) : Prop where
  clock_eq : env.clock = clock
  room : db.seqNum < seqNumMax
  remove : ∀ j, env.fails (.compaction (.remove j)) = false
  recency : op.flushes db = true → RecencyKept env.stat (flushedDB clock (op.write db))

theorem Maps.storeLogged (h : Maps clock db ts contents) (hclock : StrictMono clock) {op : Op}
    (hop : op.Accepted) (hwrite : op ≠ .flush) (hmay : Tolerable clock db op env)
    (file : LogFile σ ε) (log : FallibleWAL σ ε) :
    ∃ ts', Maps clock
      (LoggedDB.flushIfFullLocked file env ⟨log, { op.write db with wal := db.wal }⟩).1.db ts'
      (if stores (LoggedDB.flushIfFullLocked file env
        ⟨log, { op.write db with wal := db.wal }⟩).2 then op.applyTo contents else contents) := by
  have hseq : (op.write db).seqNum ≤ seqNumMax := by
    cases op with
    | put key value => exact hmay.room
    | delete key => exact hmay.room
    | flush => exact absurd rfl hwrite
  have hflushes : Config.defaultMemtableFlushSize ≤ (op.write db).memtable.size →
      op.flushes db = true := by
    cases op with
    | put key value => exact fun hfull => decide_eq_true hfull
    | delete key => exact fun hfull => decide_eq_true hfull
    | flush => exact absurd rfl hwrite
  have hwritten : Maps clock (LoggedDB.mk log { op.write db with wal := db.wal }).db ts
      (op.applyTo contents) := (h.write hop hseq).withWal db.wal
  obtain ⟨hmaps, hstores⟩ := hwritten.flushIfFullLogged hclock hmay.clock_eq hmay.remove
    (fun hfull => hmay.recency (hflushes hfull)) file
  rw [if_pos hstores]
  exact hmaps

/-- A call takes effect exactly if its reply says so. -/
theorem Maps.call (h : Maps clock ldb.db ts contents) (hclock : StrictMono clock) {op : Op}
    (hmay : Tolerable clock ldb.db op env) (file : LogFile σ ε) :
    ∃ ts', Maps clock (ldb.call file env op).1.db ts'
      (if stores (ldb.call file env op).2 then op.applyTo contents else contents) := by
  by_cases hflush : op = .flush
  · subst hflush
    obtain ⟨hmaps, hstores⟩ := h.flushLogged hclock hmay.clock_eq hmay.remove
      (hmay.recency rfl) file
    rw [LoggedDB.call, if_pos hstores]
    exact hmaps
  by_cases hop : op.Accepted
  · obtain ⟨e, he⟩ : ∃ e, op.entry? (ldb.db.seqNum + 1) = some e :=
      Option.ne_none_iff_exists'.mp fun hnone => hflush (entry?_eq_none hnone)
    rw [LoggedDB.call_eq file env hop he]
    rcases ldb.log.write file e with ⟨log, _ | err⟩
    · exact h.storeLogged hclock hop hflush hmay file log
    · exact ⟨ts, h.skip⟩
  · obtain ⟨err, hcall, hstores⟩ := LoggedDB.call_refused file env ldb hop
    rw [hcall, if_neg (Bool.not_eq_true _ ▸ hstores)]
    exact ⟨ts, h⟩

/-- A call with its reply, or a snapshot that is taken or released. -/
inductive LoggedStep (clock : Nat → Nat) (file : LogFile σ ε) :
    LoggedDB σ ε → Option (LoggedCall × LoggedReply ε) → LoggedDB σ ε → Prop
  | op {ldb : LoggedDB σ ε} {op : Op} {env : Env} : Tolerable clock ldb.db op env →
      LoggedStep clock file ldb (some (.op op, (ldb.call file env op).2))
        (ldb.call file env op).1
  | close {ldb : LoggedDB σ ε} :
      LoggedStep clock file ldb (some (.close, (ldb.close file).2)) (ldb.close file).1
  | getSnapshot {ldb : LoggedDB σ ε} :
      LoggedStep clock file ldb none { ldb with db := ldb.db.getSnapshot.2 }
  | releaseSnapshot {ldb : LoggedDB σ ε} {snap : Nat} :
      LoggedStep clock file ldb none { ldb with db := ldb.db.releaseSnapshot snap }

theorem maps_emptyDB (clock : Nat → Nat) : Maps clock emptyDB [] (lastWrite []) :=
  ⟨ordered_emptyDB clock, fun _ => rfl⟩

theorem maps_of_traces (hclock : StrictMono clock) {log : FallibleWAL σ ε}
    {trace : List (LoggedCall × LoggedReply ε)}
    (h : Traces (LoggedStep clock file) ⟨log, emptyDB⟩ trace ldb) :
    ∃ ts, Maps clock ldb.db ts (lastWrite (storedOps trace)) := by
  induction h with
  | start => exact ⟨[], maps_emptyDB clock⟩
  | silent _ hstep ih =>
      obtain ⟨ts, hmaps⟩ := ih
      cases hstep with
      | getSnapshot => exact ⟨ts, hmaps.withWatermark _⟩
      | releaseSnapshot => exact ⟨ts, hmaps.withWatermark _⟩
  | visible _ hstep ih =>
      obtain ⟨ts, hmaps⟩ := ih
      cases hstep with
      | op hmay =>
          rw [lastWrite_storedOps]
          exact hmaps.call hclock hmay file
      | close =>
          rw [storedOps_concat_none rfl, LoggedDB.close_db]
          exact ⟨ts, hmaps⟩

/-- Whatever fails, point reads and scans show the writes that are stored according to
their replies. -/
theorem faulty_run_reads (hclock : StrictMono clock) {log : FallibleWAL σ ε}
    {trace : List (LoggedCall × LoggedReply ε)}
    (h : Traces (LoggedStep clock file) ⟨log, emptyDB⟩ trace ldb) :
    (∀ key, ldb.db.get key = lastWrite (storedOps trace) key) ∧
      ∀ lowerBound upperBound, ∃ m, ldb.db.scan lowerBound upperBound = .ok m ∧
        Contents.IsScan (lastWrite (storedOps trace)) lowerBound upperBound m.drain := by
  obtain ⟨ts, hmaps⟩ := maps_of_traces hclock h
  exact ⟨hmaps.get_eq, hmaps.scan_eq⟩

end Steps

/-- A disk that is full from the start. -/
def fullDisk : LoggedDB (FaultyWriter Bytes) (FaultErr Empty) where
  log := newFallibleWAL (newFaultyWriter [] 0)
  db := emptyDB

/-- The record fits into the buffer, so the full disk goes unnoticed. -/
def afterPut : LoggedDB (FaultyWriter Bytes) (FaultErr Empty) :=
  (fullDisk.call tornFile (healthy stampedClock fileSizes) (.put [97] [1])).1

def afterClose : LoggedDB (FaultyWriter Bytes) (FaultErr Empty) := (afterPut.close tornFile).1

theorem tolerable_of_room {db : DB} {op : Op} (hroom : db.seqNum < seqNumMax)
    (hflushes : op.flushes db = false) :
    Tolerable stampedClock db op (healthy stampedClock fileSizes) :=
  ⟨rfl, hroom, fun _ => rfl, fun hfull => by simp [hflushes] at hfull⟩

theorem traces_fullDisk : ∃ ldb, Traces (LoggedStep stampedClock tornFile) fullDisk
    [(.op (.put [97] [1]), .ok ()), (.close, .error (.log .closedPipe)),
      (.op (.put [98] [2]), .error (.log .closedPipe))] ldb := by
  have hput : LoggedStep stampedClock tornFile fullDisk
      (some (.op (.put [97] [1]), .ok ())) afterPut :=
    .op (tolerable_of_room (by decide) (by decide))
  have hclose : LoggedStep stampedClock tornFile afterPut
      (some (.close, .error (.log .closedPipe))) afterClose :=
    .close
  have hagain : LoggedStep stampedClock tornFile afterClose
      (some (.op (.put [98] [2]), .error (.log .closedPipe))) _ :=
    .op (tolerable_of_room (by decide) (by decide))
  exact ⟨_, ((Traces.start.visible hput).visible hclose).visible hagain⟩

theorem faulty_run_reads_fullDisk : ∃ ldb, Traces (LoggedStep stampedClock tornFile) fullDisk
    [(.op (.put [97] [1]), .ok ()), (.close, .error (.log .closedPipe)),
      (.op (.put [98] [2]), .error (.log .closedPipe))] ldb ∧
    ldb.db.get [97] = some [1] ∧ ldb.db.get [98] = none := by
  obtain ⟨ldb, h⟩ := traces_fullDisk
  have hreads := (faulty_run_reads stampedClock_strictMono h).1
  exact ⟨ldb, h, hreads [97], hreads [98]⟩

end Hcdb.Db
