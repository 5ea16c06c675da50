import Hcdb.Db.Run
import Hcdb.Lib.Objects
import Mathlib.Data.Finset.Basic

/-!
Goroutines.  Any number of them call the database at once.  A write holds `db.mu` from
before the counter until its flush is over, a read holds it shared, and snapshots take
no lock at all; between any two accesses to the shared state another goroutine may run.
Seen from outside every such execution is one of a database in which reads happen in one
step each, writes in one and their flush in another, and `GetSnapshot` in two.
-/

namespace Hcdb.Db

open Hcdb.Lib.ByteString
open Hcdb.Lib.Simulation
open Hcdb.Lib.Objects
open Hcdb.Base
open Hcdb.Memtable
open Hcdb.Sstable

/-- The calls of the interface. -/
inductive Request where
  | write (op : Op)
  | getAt (key : Bytes) (snapshot : Nat)
  | scanAt (lowerBound : Bytes) (upperBound : Option Bytes) (snapshot : Nat)
  | getSnapshot
  | releaseSnapshot (snap : Nat)
  | close

inductive Reply where
  | done (res : Except DbErr Unit)
  | value (val : Option Bytes)
  | iterator (it : Except SstErr (MergeIterator Source))
  | snapshot (snap : Nat)
  | released

/-- What a client of the database sees. -/
abbrev ClientEvent (Tid : Type) := Event Tid Request Reply

/-- Where a goroutine stands.  From `locked` to `leaving` it holds `db.mu`, from
`reading` to `answered` it holds it shared. -/
inductive Pc where
  | idle
  | called (req : Request)
  | locked (op : Op)
  | numbered (e : Entry)
  | logged (e : Entry)
  | stored
  | flushing (env : Env)
  | installed (env : Env) (sst : SSTable)
  | listed (env : Env)
  | swapped (env : Env)
  | reset (env : Env)
  | floored (env : Env) (floor : Nat)
  | closing
  | leaving (res : Except DbErr Unit)
  | reading (key : Bytes) (snapshot : Nat)
  | searching (key : Bytes) (snapshot : Nat) (ssts : List SSTable)
  | scanning (lowerBound : Bytes) (upperBound : Option Bytes) (snapshot : Nat)
  | opening (lowerBound : Bytes) (upperBound : Option Bytes) (snapshot : Nat)
      (memIt : Memtable.Iterator) (srcs : List Source) (ssts : List SSTable)
  | answered (reply : Reply)
  | loaded (snap : Nat)
  | finished (reply : Reply)

/-- At this place the thread has `db.mu` for writing. -/
def Pc.holds : Pc → Bool
  | .locked _ | .numbered _ | .logged _ | .stored | .flushing _ | .installed _ _ | .listed _
  | .swapped _ | .reset _ | .floored _ _ | .closing | .leaving _ => true
  | _ => false

/-- At this place the thread has `db.mu` for reading. -/
def Pc.shares : Pc → Bool
  | .reading _ _ | .searching _ _ _ | .scanning _ _ _ | .opening _ _ _ _ _ _ | .answered _ => true
  | _ => false

/-- The first place behind `db.mu.Lock`. -/
def Request.locks : Request → Option Pc
  | .write op => if op.check = .ok () then some (.locked op) else none
  | .close => some .closing
  | _ => none

/-- The first place behind `db.mu.RLock`. -/
def Request.rlocks : Request → Option Pc
  | .getAt key snapshot => some (.reading key snapshot)
  | .scanAt lowerBound upperBound snapshot => some (.scanning lowerBound upperBound snapshot)
  | _ => none

/-- `sync.RWMutex`: who holds it, and who shares it. -/
structure RWMutex (Tid : Type) where
  writer : Option Tid
  readers : Finset Tid

/-- The database, its lock, and where each thread stands. -/
structure Machine (Tid : Type) where
  db : DB
  mu : RWMutex Tid
  pc : Tid → Pc

def Machine.start {Tid : Type} (db : DB) : Machine Tid where
  db
  mu := ⟨none, ∅⟩
  pc _ := .idle

/-- Where a call stands in the coarser database: not started, waiting for its effect, a write
that has had its own and still owes a flush, `GetSnapshot` between the load of the counter
and the pin, or finished. -/
inductive Status where
  | idle
  | called (req : Request)
  | due
  | loaded (snap : Nat)
  | finished (reply : Reply)

/-- What is assumed of the surroundings of a flush, and of the database in the moment in
which its compaction reads the floor. -/
structure Conditions where
  flush : Env → Prop
  compact : DB → Env → Prop

section Steps

variable [Runtime]

/-- `Compact` with the floor that was read before, and its result as the table list. -/
def DB.compactWith (env : Env) (floor : Nat) (db : DB) : DB × Except DbErr Unit :=
  let (dir, res) := Compaction.compact (env.compaction db) db.dir db.sstables floor
  let db := { db with dir, ticks := db.ticks + db.sstables.length }
  match res with
  | .error e => (db, .error (.compact e))
  | .ok compacted => ({ db with sstables := compacted }, .ok ())

/-- The table that `sstable.Flush` makes of the memtable, with its file. -/
def DB.newTable (clock : Nat → Nat) (db : DB) : SSTable × Bytes :=
  Sstable.flush db.memtable (sstName (clock db.ticks))

/-- The new table is in place on disk, and the database does not know it yet. -/
def DB.installed (clock : Nat → Nat) (db : DB) : DB :=
  { db with
    ticks := db.ticks + 1
    dir := db.dir.write (sstName (clock db.ticks)) (db.newTable clock).2 }

/-- One access of a goroutine to the shared state, apart from the mutex. -/
inductive Pc.Step (cond : Conditions) : DB → Pc → DB → Pc → Prop
  | refuse {db op e} : op.check = .error e →
      Step cond db (.called (.write op)) db (.finished (.done (.error e)))
  | numberPut {db key value} : Step cond db (.locked (.put key value))
      { db with seqNum := db.seqNum + 1 } (.numbered (db.nextEntry internalKeyKindSet key value))
  | numberDelete {db key} : Step cond db (.locked (.delete key))
      { db with seqNum := db.seqNum + 1 } (.numbered (db.nextEntry internalKeyKindDelete key []))
  | log {db e} : Step cond db (.numbered e) { db with wal := db.wal.write e } (.logged e)
  | insert {db e} : Step cond db (.logged e)
      { db with memtable := db.memtable.insert e.key e.value } .stored
  | spare {db} : db.memtable.size < Config.defaultMemtableFlushSize →
      Step cond db .stored db (.leaving (.ok ()))
  | full {db env} : ¬ db.memtable.size < Config.defaultMemtableFlushSize → cond.flush env →
      Step cond db .stored db (.flushing env)
  | force {db env} : cond.flush env → Step cond db (.locked .flush) db (.flushing env)
  | writeFails {db env} : env.fails .flushWrite = true →
      Step cond db (.flushing env) { db with ticks := db.ticks + 1 }
        (.leaving (.error (.io .flushWrite)))
  | dirSyncFails {db env} : env.fails .flushWrite = false → env.fails .flushDirSync = true →
      Step cond db (.flushing env) (db.installed env.clock) (.leaving (.error (.io .flushDirSync)))
  | install {db env} : env.fails .flushWrite = false → env.fails .flushDirSync = false →
      Step cond db (.flushing env) (db.installed env.clock)
        (.installed env (db.newTable env.clock).1)
  | prepend {db env sst} : Step cond db (.installed env sst)
      { db with sstables := sst :: db.sstables } (.listed env)
  | swap {db env} : Step cond db (.listed env) { db with memtable := newMemTable } (.swapped env)
  | resetFails {db env db' e} : db.resetWAL env = (db', .error e) →
      Step cond db (.swapped env) db' (.leaving (.error e))
  | reset {db env db'} : db.resetWAL env = (db', .ok ()) →
      Step cond db (.swapped env) db' (.reset env)
  | floor {db env} : cond.compact db env →
      Step cond db (.reset env) db (.floored env db.watermark.floor)
  | compact {db env floor} : Step cond db (.floored env floor) (db.compactWith env floor).1
      (.leaving (db.compactWith env floor).2)
  | sync {db} : Step cond db .closing db.close (.leaving (.ok ()))
  | memFound {db key snapshot val} : db.memtable.get key snapshot = .found val →
      Step cond db (.reading key snapshot) db (.answered (.value (some val)))
  | memDeleted {db key snapshot} : db.memtable.get key snapshot = .deleted →
      Step cond db (.reading key snapshot) db (.answered (.value none))
  | memAbsent {db key snapshot} : db.memtable.get key snapshot = .absent →
      Step cond db (.reading key snapshot) db (.searching key snapshot db.sstables)
  | tableFound {db key snapshot sst ssts val} :
      sst.lookup (readBlock db.dir) key snapshot = .ok (.found val) →
      Step cond db (.searching key snapshot (sst :: ssts)) db (.answered (.value (some val)))
  | tableDeleted {db key snapshot sst ssts} :
      sst.lookup (readBlock db.dir) key snapshot = .ok .deleted →
      Step cond db (.searching key snapshot (sst :: ssts)) db (.answered (.value none))
  | tableFails {db key snapshot sst ssts e} :
      sst.lookup (readBlock db.dir) key snapshot = .error e →
      Step cond db (.searching key snapshot (sst :: ssts)) db (.answered (.value none))
  | tableAbsent {db key snapshot sst ssts} :
      sst.lookup (readBlock db.dir) key snapshot = .ok .absent →
      Step cond db (.searching key snapshot (sst :: ssts)) db (.searching key snapshot ssts)
  | notFound {db key snapshot} :
      Step cond db (.searching key snapshot []) db (.answered (.value none))
  | scanMemtable {db lo hi snapshot} : Step cond db (.scanning lo hi snapshot) db
      (.opening lo hi snapshot (Memtable.newIterator db.memtable lo hi snapshot) [] db.sstables)
  | openTable {db lo hi snapshot memIt srcs sst ssts it} :
      Sstable.newIterator (readBlock db.dir) sst lo snapshot = .ok it →
      Step cond db (.opening lo hi snapshot memIt srcs (sst :: ssts)) db
        (.opening lo hi snapshot memIt (srcs ++ [.sstable (readBlock db.dir) it]) ssts)
  | openFails {db lo hi snapshot memIt srcs sst ssts e} :
      Sstable.newIterator (readBlock db.dir) sst lo snapshot = .error e →
      Step cond db (.opening lo hi snapshot memIt srcs (sst :: ssts)) db
        (.answered (.iterator (.error e)))
  | opened {db lo hi snapshot memIt srcs} : Step cond db (.opening lo hi snapshot memIt srcs []) db
      (.answered (.iterator (.ok
        { h := pushSources 0 (.memtable memIt :: srcs) []
          upperBound := hi, key := [], val := [], valid := false })))
  | load {db} : Step cond db (.called .getSnapshot) db (.loaded db.seqNum)
  | begin {db snap} : Step cond db (.loaded snap)
      { db with watermark := db.watermark.begin snap } (.finished (.snapshot snap))
  | release {db snap} : Step cond db (.called (.releaseSnapshot snap)) (db.releaseSnapshot snap)
      (.finished .released)

variable {Tid : Type} [DecidableEq Tid]

/-- A call, a return, the four operations of the mutex, or one access of a goroutine. -/
inductive ThreadStep (cond : Conditions) :
    Machine Tid → Option (ClientEvent Tid) → Machine Tid → Prop
  | invoke {m t req} : m.pc t = .idle →
      ThreadStep cond m (some (.invoke t req)) { m with pc := Function.update m.pc t (.called req) }
  | respond {m t reply} : m.pc t = .finished reply →
      ThreadStep cond m (some (.respond t reply)) { m with pc := Function.update m.pc t .idle }
  | lock {m t req p} : m.pc t = .called req → req.locks = some p → m.mu.writer = none →
      m.mu.readers = ∅ →
      ThreadStep cond m none { m with mu.writer := some t, pc := Function.update m.pc t p }
  | unlock {m t res} : m.pc t = .leaving res →
      ThreadStep cond m none { m with
        mu.writer := none, pc := Function.update m.pc t (.finished (.done res)) }
  | rlock {m t req p} : m.pc t = .called req → req.rlocks = some p → m.mu.writer = none →
      ThreadStep cond m none { m with
        mu.readers := insert t m.mu.readers, pc := Function.update m.pc t p }
  | runlock {m t reply} : m.pc t = .answered reply →
      ThreadStep cond m none { m with
        mu.readers := m.mu.readers.erase t, pc := Function.update m.pc t (.finished reply) }
  | inside {m t db p} : Pc.Step cond m.db (m.pc t) db p →
      ThreadStep cond m none { m with db, pc := Function.update m.pc t p }

/-- The effects of a call: one for a read, a release and `Close`, one for a write and a second
one for the flush that it may come to, and two for `GetSnapshot`. -/
inductive Status.Step (cond : Conditions) : DB → Status → DB → Status → Prop
  | refuse {db op e} : op.check = .error e →
      Step cond db (.called (.write op)) db (.finished (.done (.error e)))
  | write {db op} : op.check = .ok () → Step cond db (.called (.write op)) (op.write db)
      (if op.flushes db then .due else .finished (.done (.ok ())))
  | flush {db env} : cond.flush env →
      (env.installs → env.resets → cond.compact (flushedDB env.clock db) env) →
      Step cond db .due (db.flushMemtableLocked env).1
      (.finished (.done (db.flushMemtableLocked env).2))
  | close {db} : Step cond db (.called .close) db.close (.finished (.done (.ok ())))
  | getAt {db key snapshot} : Step cond db (.called (.getAt key snapshot)) db
      (.finished (.value (db.getAt key snapshot)))
  | scanAt {db lo hi snapshot} : Step cond db (.called (.scanAt lo hi snapshot)) db
      (.finished (.iterator (db.scanAt lo hi snapshot)))
  | load {db} : Step cond db (.called .getSnapshot) db (.loaded db.seqNum)
  | begin {db snap} : Step cond db (.loaded snap)
      { db with watermark := db.watermark.begin snap } (.finished (.snapshot snap))
  | release {db snap} : Step cond db (.called (.releaseSnapshot snap)) (db.releaseSnapshot snap)
      (.finished .released)

/-- The database whose calls take these effects. -/
def atomicDB (cond : Conditions) : Object DB Status Request Reply where
  idle := .idle
  called := .called
  finished := .finished
  effect := Status.Step cond
  internal _ _ := False

end Steps

section Refinement

variable [Runtime] {cond : Conditions}

/-- A write is done, unless it has to flush. -/
def Status.afterWrite (db : DB) : Status :=
  if Config.defaultMemtableFlushSize ≤ db.memtable.size then .due else .finished (.done (.ok ()))

/-- The new table has taken the place of the memtable. -/
def DB.swapped (clock : Nat → Nat) (db : DB) : DB :=
  { db.installed clock with
    sstables := (db.newTable clock).1 :: db.sstables
    memtable := newMemTable }

/-- How the two databases and the status belong together while a goroutine stands at
`pc`.  The write takes effect when it takes its number, so from there on the shared state
`c` is behind; the flush takes effect when it reads the floor, or when it fails, so up to
there the shared state is ahead. -/
def Pc.Follows (cond : Conditions) (c a : DB) (st : Status) : Pc → Prop
  | .idle => st = .idle
  | .called req => st = .called req
  | .locked op => st = .called (.write op) ∧ op.check = .ok () ∧ c = a
  | .numbered e => st = .afterWrite a ∧
      a = { c with wal := c.wal.write e, memtable := c.memtable.insert e.key e.value }
  | .logged e => st = .afterWrite a ∧ a = { c with memtable := c.memtable.insert e.key e.value }
  | .stored => st = .afterWrite a ∧ c = a
  | .flushing env => (st = .due ∧ cond.flush env) ∧ c = a
  | .installed env sst => (st = .due ∧ cond.flush env) ∧ env.installs ∧
      sst = (a.newTable env.clock).1 ∧ c = a.installed env.clock
  | .listed env => (st = .due ∧ cond.flush env) ∧ env.installs ∧
      c = { a.installed env.clock with sstables := (a.newTable env.clock).1 :: a.sstables }
  | .swapped env => (st = .due ∧ cond.flush env) ∧ env.installs ∧ c = a.swapped env.clock
  | .reset env => (st = .due ∧ cond.flush env) ∧ env.installs ∧ env.resets ∧
      c = flushedDB env.clock a
  | .floored env floor => st = .finished (.done (c.compactWith env floor).2) ∧
      a = (c.compactWith env floor).1
  | .closing => st = .called .close ∧ c = a
  | .leaving res => st = .finished (.done res) ∧ c = a
  | .reading key snapshot => st = .called (.getAt key snapshot)
  | .searching key snapshot ssts => st = .called (.getAt key snapshot) ∧
      c.getAt key snapshot = searchSSTables (readBlock c.dir) ssts key snapshot
  | .scanning lo hi snapshot => st = .called (.scanAt lo hi snapshot)
  | .opening lo hi snapshot memIt srcs ssts => st = .called (.scanAt lo hi snapshot) ∧
      c.scanAt lo hi snapshot =
        match openSources (readBlock c.dir) ssts lo snapshot with
        | .error e => .error e
        | .ok rest => .ok
            { h := pushSources 0 (.memtable memIt :: (srcs ++ rest)) []
              upperBound := hi, key := [], val := [], valid := false }
  | .answered reply => st = .finished reply
  | .loaded snap => st = .loaded snap
  | .finished reply => st = .finished reply

variable {c a c' a' : DB} {p p' : Pc} {st : Status}

theorem DB.compactTables_eq_compactWith (env : Env) (db : DB) :
    db.compactTables env = db.compactWith env db.watermark.floor := rfl

theorem DB.compactWith_watermark (env : Env) (floor : Nat) (db : DB) (w : Watermark) :
    DB.compactWith env floor { db with watermark := w } =
      ({ (db.compactWith env floor).1 with watermark := w }, (db.compactWith env floor).2) := by
  have hsame : env.compaction { db with watermark := w } = env.compaction db := rfl
  simp only [compactWith, hsame]
  split <;> rfl

theorem DB.compactWith_atomics (env : Env) (floor : Nat) (db : DB) :
    (db.compactWith env floor).1.seqNum = db.seqNum ∧
      (db.compactWith env floor).1.watermark = db.watermark := by
  simp only [compactWith]
  split <;> exact ⟨rfl, rfl⟩

theorem Pc.Follows.frame (h : p.Follows cond c a st) (hholds : p.holds = false)
    (hshares : p.shares = false) (c' a' : DB) : p.Follows cond c' a' st := by
  cases p <;> first | exact h | simp [holds, shares] at hholds hshares

theorem Pc.Follows.withWatermark (h : p.Follows cond c a st) (w : Watermark) :
    p.Follows cond { c with watermark := w } { a with watermark := w } st := by
  cases p with
  | locked op => exact ⟨h.1, h.2.1, by rw [h.2.2]⟩
  | numbered e => exact ⟨h.1, by rw [h.2]⟩
  | logged e => exact ⟨h.1, by rw [h.2]⟩
  | stored => exact ⟨h.1, by rw [h.2]⟩
  | flushing env => exact ⟨h.1, by rw [h.2]⟩
  | installed env sst => exact ⟨h.1, h.2.1, h.2.2.1, by rw [h.2.2.2]; rfl⟩
  | listed env => exact ⟨h.1, h.2.1, by rw [h.2.2]; rfl⟩
  | swapped env => exact ⟨h.1, h.2.1, by rw [h.2.2]; rfl⟩
  | reset env => exact ⟨h.1, h.2.1, h.2.2.1, by rw [h.2.2.2]; rfl⟩
  | floored env floor =>
      refine ⟨?_, ?_⟩
      · rw [DB.compactWith_watermark]
        exact h.1
      · rw [DB.compactWith_watermark, ← h.2]
  | closing => exact ⟨h.1, by rw [h.2]⟩
  | leaving res => exact ⟨h.1, by rw [h.2]⟩
  | _ => exact h

theorem Pc.Follows.atomics (h : p.Follows cond c a st) (hholds : p.holds = true) :
    c.seqNum = a.seqNum ∧ c.watermark = a.watermark := by
  cases p with
  | locked op => simp [h.2.2]
  | numbered e => simp [h.2]
  | logged e => simp [h.2]
  | stored => simp [h.2]
  | flushing env => simp [h.2]
  | installed env sst => exact h.2.2.2 ▸ ⟨rfl, rfl⟩
  | listed env => exact h.2.2 ▸ ⟨rfl, rfl⟩
  | swapped env => exact h.2.2 ▸ ⟨rfl, rfl⟩
  | reset env => exact h.2.2.2 ▸ ⟨rfl, rfl⟩
  | floored env floor =>
      have hkept := DB.compactWith_atomics env floor c
      rw [h.2]
      exact ⟨hkept.1.symm, hkept.2.symm⟩
  | closing => simp [h.2]
  | leaving res => simp [h.2]
  | _ => simp [holds] at hholds

theorem Pc.Step.same_lock (h : Pc.Step cond c p c' p') :
    p'.holds = p.holds ∧ p'.shares = p.shares := by
  cases h <;> exact ⟨rfl, rfl⟩

theorem flushedDB_eq_swapped (clock : Nat → Nat) (db : DB) :
    flushedDB clock db =
      { db.swapped clock with wal := { db.wal with writer := { file := [], buf := [] } } } := by
  simp only [flushedDB, DB.swapped, DB.installed, DB.newTable, flush_eq]

theorem DB.flushTable_installs {env : Env} (h : env.installs) (db : DB) :
    db.flushTable env = (db.swapped env.clock, .ok ()) := by
  simp only [flushTable, h.1, h.2, Bool.false_eq_true, if_false]
  rfl

theorem DB.flushMemtableLocked_resetFails {env : Env} (h : env.installs) {db db' : DB} {e : DbErr}
    (hreset : (db.swapped env.clock).resetWAL env = (db', .error e)) :
    db.flushMemtableLocked env = (db', .error e) := by
  rw [flushMemtableLocked, flushTable_installs h]
  simp only [hreset]

theorem DB.resetWAL_swapped {env : Env} {db db' : DB}
    (h : (db.swapped env.clock).resetWAL env = (db', .ok ())) :
    env.resets ∧ db' = flushedDB env.clock db := by
  unfold resetWAL at h
  split at h
  · simp at h
  · next htruncate =>
      split at h
      · simp at h
      · next hseek =>
          refine ⟨⟨by simpa using htruncate, by simpa using hseek⟩, ?_⟩
          rw [← (Prod.mk.inj h).1, flushedDB_eq_swapped]
          rfl

/-- What a goroutine that holds the mutex does is answered by at most one effect. -/
theorem Pc.Step.follows_of_holds (hstep : Pc.Step cond c p c' p') (hholds : p.holds = true)
    (h : p.Follows cond c a st) :
    ∃ a' st', (a' = a ∧ st' = st ∨ Status.Step cond a st a' st') ∧ p'.Follows cond c' a' st' := by
  cases hstep with
  | numberPut =>
      obtain ⟨rfl, hcheck, rfl⟩ := h
      refine ⟨_, _, .inr (.write hcheck), ?_, rfl⟩
      simp [Op.flushes, Status.afterWrite]
  | numberDelete =>
      obtain ⟨rfl, hcheck, rfl⟩ := h
      refine ⟨_, _, .inr (.write hcheck), ?_, rfl⟩
      simp [Op.flushes, Status.afterWrite]
  | log => exact ⟨a, st, .inl ⟨rfl, rfl⟩, h.1, h.2⟩
  | insert => exact ⟨a, st, .inl ⟨rfl, rfl⟩, h.1, h.2.symm⟩
  | spare hspare =>
      obtain ⟨rfl, rfl⟩ := h
      refine ⟨_, _, .inl ⟨rfl, rfl⟩, ?_, rfl⟩
      rw [Status.afterWrite, if_neg (not_le.mpr hspare)]
  | full hfull hflush =>
      obtain ⟨rfl, rfl⟩ := h
      refine ⟨_, _, .inl ⟨rfl, rfl⟩, ⟨?_, hflush⟩, rfl⟩
      rw [Status.afterWrite, if_pos (not_lt.mp hfull)]
  | force hflush =>
      obtain ⟨rfl, hcheck, rfl⟩ := h
      exact ⟨_, _, .inr (.write hcheck), ⟨rfl, hflush⟩, rfl⟩
  | writeFails hfails =>
      obtain ⟨⟨rfl, hflush⟩, rfl⟩ := h
      refine ⟨_, _, .inr (.flush hflush fun hi _ => absurd hi.1 (by simp [hfails])), ?_⟩
      simp only [DB.flushMemtableLocked, DB.flushTable, hfails, if_true]
      exact ⟨rfl, rfl⟩
  | dirSyncFails hwrite hfails =>
      obtain ⟨⟨rfl, hflush⟩, rfl⟩ := h
      refine ⟨_, _, .inr (.flush hflush fun hi _ => absurd hi.2 (by simp [hfails])), ?_⟩
      simp only [DB.flushMemtableLocked, DB.flushTable, hwrite, hfails, Bool.false_eq_true,
        if_false, if_true]
      exact ⟨rfl, rfl⟩
  | install hwrite hsync =>
      obtain ⟨hdue, rfl⟩ := h
      exact ⟨_, _, .inl ⟨rfl, rfl⟩, hdue, ⟨hwrite, hsync⟩, rfl, rfl⟩
  | prepend =>
      obtain ⟨hdue, hinstalls, rfl, rfl⟩ := h
      exact ⟨_, _, .inl ⟨rfl, rfl⟩, hdue, hinstalls, rfl⟩
  | swap =>
      obtain ⟨hdue, hinstalls, rfl⟩ := h
      exact ⟨_, _, .inl ⟨rfl, rfl⟩, hdue, hinstalls, rfl⟩
  | resetFails hreset =>
      obtain ⟨⟨rfl, hflush⟩, hinstalls, rfl⟩ := h
      refine ⟨_, _, .inr (.flush hflush fun _ hr => ?_), ?_⟩
      · rw [DB.resetWAL, hr.1, hr.2] at hreset
        simp at hreset
      · rw [DB.flushMemtableLocked_resetFails hinstalls hreset]
        exact ⟨rfl, rfl⟩
  | reset hreset =>
      obtain ⟨hdue, hinstalls, rfl⟩ := h
      obtain ⟨hresets, rfl⟩ := DB.resetWAL_swapped hreset
      exact ⟨_, _, .inl ⟨rfl, rfl⟩, hdue, hinstalls, hresets, rfl⟩
  | floor hcompact =>
      obtain ⟨⟨rfl, hflush⟩, hinstalls, hresets, rfl⟩ := h
      refine ⟨_, _, .inr (.flush hflush fun _ _ => hcompact), ?_⟩
      rw [DB.flushMemtableLocked_resets hinstalls hresets, DB.compactTables_eq_compactWith]
      exact ⟨rfl, rfl⟩
  | compact => exact ⟨a, st, .inl ⟨rfl, rfl⟩, h.1, h.2.symm⟩
  | sync =>
      obtain ⟨rfl, rfl⟩ := h
      exact ⟨_, _, .inr .close, rfl, rfl⟩
  | _ => simp [holds] at hholds

/-- What a goroutine that shares the mutex does leaves the database alone; the read takes
effect when its answer is known. -/
theorem Pc.Step.follows_of_shares (hstep : Pc.Step cond c p c' p') (hshares : p.shares = true)
    (h : p.Follows cond c c st) :
    c' = c ∧ ∃ st', (st' = st ∨ Status.Step cond c st c st') ∧ p'.Follows cond c c st' := by
  have hread : ∀ {key snapshot val}, st = .called (.getAt key snapshot) →
      c.getAt key snapshot = val →
      ∃ st', (st' = st ∨ Status.Step cond c st c st') ∧
        (Pc.answered (.value val)).Follows cond c c st' := by
    rintro key snapshot val rfl rfl
    exact ⟨_, .inr .getAt, rfl⟩
  have hscan : ∀ {lo hi snapshot it}, st = .called (.scanAt lo hi snapshot) →
      c.scanAt lo hi snapshot = it →
      ∃ st', (st' = st ∨ Status.Step cond c st c st') ∧
        (Pc.answered (.iterator it)).Follows cond c c st' := by
    rintro lo hi snapshot it rfl rfl
    exact ⟨_, .inr .scanAt, rfl⟩
  cases hstep with
  | memFound hget => exact ⟨rfl, hread h (by simp only [DB.getAt, getFrom, hget])⟩
  | memDeleted hget => exact ⟨rfl, hread h (by simp only [DB.getAt, getFrom, hget])⟩
  | memAbsent hget =>
      exact ⟨rfl, st, .inl rfl, h, by simp only [DB.getAt, getFrom, hget]⟩
  | tableFound hlookup =>
      exact ⟨rfl, hread h.1 (h.2.trans (by simp only [searchSSTables, hlookup]))⟩
  | tableDeleted hlookup =>
      exact ⟨rfl, hread h.1 (h.2.trans (by simp only [searchSSTables, hlookup]))⟩
  | tableFails hlookup =>
      exact ⟨rfl, hread h.1 (h.2.trans (by simp only [searchSSTables, hlookup]))⟩
  | tableAbsent hlookup =>
      exact ⟨rfl, st, .inl rfl, h.1, h.2.trans (by simp only [searchSSTables, hlookup])⟩
  | notFound => exact ⟨rfl, hread h.1 (h.2.trans rfl)⟩
  | scanMemtable => exact ⟨rfl, st, .inl rfl, h, rfl⟩
  | @openTable lo _ snapshot _ _ _ ssts _ hopen =>
      refine ⟨rfl, st, .inl rfl, h.1, h.2.trans ?_⟩
      simp only [openSources, hopen]
      cases openSources (readBlock c.dir) ssts lo snapshot with
      | error e => rfl
      | ok rest => simp
  | openFails hopen =>
      exact ⟨rfl, hscan h.1 (h.2.trans (by simp only [openSources, hopen]))⟩
  | opened => exact ⟨rfl, hscan h.1 (h.2.trans (by simp [openSources]))⟩
  | _ => simp [shares] at hshares

/-- What a goroutine does outside the mutex changes at most the watermark, and has the
same effect on both databases. -/
theorem Pc.Step.follows_outside (hstep : Pc.Step cond c p c' p') (hholds : p.holds = false)
    (hshares : p.shares = false) (hseq : c.seqNum = a.seqNum)
    (hwatermark : c.watermark = a.watermark) (h : p.Follows cond c a st) :
    ∃ w st', c' = { c with watermark := w } ∧
      Status.Step cond a st { a with watermark := w } st' ∧
        ∀ c a, p'.Follows cond c a st' := by
  cases hstep with
  | refuse hcheck =>
      obtain rfl : st = _ := h
      exact ⟨a.watermark, _, by rw [← hwatermark], .refuse hcheck, fun _ _ => rfl⟩
  | load =>
      obtain rfl : st = _ := h
      refine ⟨a.watermark, _, by rw [← hwatermark], .load, fun _ _ => ?_⟩
      rw [hseq]
      rfl
  | begin =>
      obtain rfl : st = _ := h
      refine ⟨_, _, rfl, ?_, fun _ _ => rfl⟩
      rw [hwatermark]
      exact .begin
  | release =>
      obtain rfl : st = _ := h
      refine ⟨_, _, rfl, ?_, fun _ _ => rfl⟩
      rw [hwatermark]
      exact .release
  | _ => simp [holds, shares] at hholds hshares

theorem Request.follows_of_locks {req : Request} (h : req.locks = some p) (db : DB) :
    p.holds = true ∧ p.shares = false ∧ p.Follows cond db db (.called req) := by
  cases req with
  | write op =>
      simp only [locks] at h
      split at h
      · next hcheck =>
          obtain rfl := Option.some.inj h
          exact ⟨rfl, rfl, rfl, hcheck, rfl⟩
      · simp at h
  | close =>
      obtain rfl := Option.some.inj h
      exact ⟨rfl, rfl, rfl, rfl⟩
  | _ => simp [locks] at h

theorem Request.follows_of_rlocks {req : Request} (h : req.rlocks = some p) (db : DB) :
    p.holds = false ∧ p.shares = true ∧ p.Follows cond db db (.called req) := by
  cases req with
  | getAt key snapshot =>
      obtain rfl := Option.some.inj h
      exact ⟨rfl, rfl, rfl⟩
  | scanAt lowerBound upperBound snapshot =>
      obtain rfl := Option.some.inj h
      exact ⟨rfl, rfl, rfl⟩
  | _ => simp [rlocks] at h

variable {Tid : Type} {m : Machine Tid} {atom : Clients Tid DB Status}

/-- The mutex is held by the goroutines that stand where it is held, every goroutine
follows its status, and while nobody holds the mutex the databases are the same. -/
structure Sim (cond : Conditions) (m : Machine Tid) (atom : Clients Tid DB Status) : Prop where
  holder : ∀ t, (m.pc t).holds = true ↔ m.mu.writer = some t
  sharers : ∀ t, (m.pc t).shares = true ↔ t ∈ m.mu.readers
  exclusive : m.mu.writer ≠ none → m.mu.readers = ∅
  follows : ∀ t, (m.pc t).Follows cond m.db atom.state (atom.status t)
  free : m.mu.writer = none → m.db = atom.state

theorem sim_start (db : DB) :
    Sim cond (Machine.start db : Machine Tid) ((atomicDB cond).start db) where
  holder t := by simp [Machine.start, Pc.holds]
  sharers t := by simp [Machine.start, Pc.shares]
  exclusive _ := rfl
  follows _ := rfl
  free _ := rfl

namespace Sim

theorem atomics (h : Sim cond m atom) :
    m.db.seqNum = atom.state.seqNum ∧ m.db.watermark = atom.state.watermark := by
  cases hwriter : m.mu.writer with
  | none =>
      rw [h.free hwriter]
      exact ⟨rfl, rfl⟩
  | some t => exact (h.follows t).atomics ((h.holder t).mpr hwriter)

theorem writer_of_shares (h : Sim cond m atom) {t : Tid} (hshares : (m.pc t).shares = true) :
    m.mu.writer = none := by
  by_contra hwriter
  have hmem := (h.sharers t).mp hshares
  rw [h.exclusive hwriter] at hmem
  exact absurd hmem (Finset.notMem_empty t)

theorem writer_of_idle (h : Sim cond m atom) (hidle : ∀ t, m.pc t = .idle) :
    m.mu.writer = none := by
  by_contra hwriter
  obtain ⟨t, ht⟩ := Option.ne_none_iff_exists'.mp hwriter
  have hholds := (h.holder t).mpr ht
  simp [hidle t, Pc.holds] at hholds

/-- While one goroutine holds the mutex no other one relies on what it guards. -/
theorem frame_of_holds (h : Sim cond m atom) {t u : Tid} (hholds : (m.pc t).holds = true)
    (hne : u ≠ t) (c a : DB) : (m.pc u).Follows cond c a (atom.status u) := by
  have hwriter := (h.holder t).mp hholds
  refine (h.follows u).frame ?_ ?_ c a
  · by_contra hu
    have hother := (h.holder u).mp (by simpa using hu)
    exact hne (Option.some.inj (hother.symm.trans hwriter))
  · by_contra hu
    have hmem := (h.sharers u).mp (by simpa using hu)
    rw [h.exclusive (by simp [hwriter])] at hmem
    exact absurd hmem (Finset.notMem_empty u)

variable [DecidableEq Tid]

theorem move (h : Sim cond m atom) (t : Tid) {mu : RWMutex Tid} {c a : DB} {p : Pc} {st : Status}
    (hholds : p.holds = true ↔ mu.writer = some t) (hshares : p.shares = true ↔ t ∈ mu.readers)
    (hwriter : ∀ u, u ≠ t → (mu.writer = some u ↔ m.mu.writer = some u))
    (hreaders : ∀ u, u ≠ t → (u ∈ mu.readers ↔ u ∈ m.mu.readers))
    (hexclusive : mu.writer ≠ none → mu.readers = ∅)
    (hothers : ∀ u, u ≠ t → (m.pc u).Follows cond c a (atom.status u))
    (hfollows : p.Follows cond c a st) (hfree : mu.writer = none → c = a) :
    Sim cond { db := c, mu, pc := Function.update m.pc t p }
      { state := a, status := Function.update atom.status t st } where
  holder u := by
    by_cases hu : u = t
    · subst hu
      simpa using hholds
    · simpa [Function.update_of_ne hu, hwriter u hu] using h.holder u
  sharers u := by
    by_cases hu : u = t
    · subst hu
      simpa using hshares
    · simpa [Function.update_of_ne hu, hreaders u hu] using h.sharers u
  exclusive := hexclusive
  follows u := by
    by_cases hu : u = t
    · subst hu
      simpa using hfollows
    · simpa [Function.update_of_ne hu] using hothers u hu
  free := hfree

theorem moveInside (h : Sim cond m atom) (t : Tid) {c a : DB} {p : Pc} {st : Status}
    (hholds : p.holds = (m.pc t).holds) (hshares : p.shares = (m.pc t).shares)
    (hothers : ∀ u, u ≠ t → (m.pc u).Follows cond c a (atom.status u))
    (hfollows : p.Follows cond c a st) (hfree : m.mu.writer = none → c = a) :
    Sim cond { m with db := c, pc := Function.update m.pc t p }
      { state := a, status := Function.update atom.status t st } :=
  h.move t (hholds ▸ h.holder t) (hshares ▸ h.sharers t) (fun _ _ => Iff.rfl) (fun _ _ => Iff.rfl)
    h.exclusive hothers hfollows hfree

theorem moveMutex (h : Sim cond m atom) (t : Tid) {mu : RWMutex Tid} {p : Pc}
    (hholds : p.holds = true ↔ mu.writer = some t) (hshares : p.shares = true ↔ t ∈ mu.readers)
    (hwriter : ∀ u, u ≠ t → (mu.writer = some u ↔ m.mu.writer = some u))
    (hreaders : ∀ u, u ≠ t → (u ∈ mu.readers ↔ u ∈ m.mu.readers))
    (hexclusive : mu.writer ≠ none → mu.readers = ∅) (hdb : m.db = atom.state)
    (hfollows : p.Follows cond m.db m.db (atom.status t)) :
    Sim cond { m with mu, pc := Function.update m.pc t p } atom := by
  have hboth : p.Follows cond m.db atom.state (atom.status t) := by
    rw [← hdb]
    exact hfollows
  have hsim := h.move t hholds hshares hwriter hreaders hexclusive (fun u _ => h.follows u) hboth
    (fun _ => hdb)
  rwa [Function.update_eq_self] at hsim

theorem inside (h : Sim cond m atom) {t : Tid} {c : DB} {p : Pc}
    (hstep : Pc.Step cond m.db (m.pc t) c p) :
    ∃ atom', Answers (atomicDB cond).Step atom none atom' ∧
      Sim cond { m with db := c, pc := Function.update m.pc t p } atom' := by
  obtain ⟨hholds, hshares⟩ := hstep.same_lock
  by_cases hin : (m.pc t).holds = true
  · obtain ⟨a, st, hanswer, hfollows⟩ := hstep.follows_of_holds hin (h.follows t)
    have hsim := h.moveInside t hholds hshares (fun u hu => h.frame_of_holds hin hu c a) hfollows
      (fun hnone => absurd ((h.holder t).mp hin) (by simp [hnone]))
    rcases hanswer with ⟨rfl, rfl⟩ | heffect
    · rw [Function.update_eq_self] at hsim
      exact ⟨_, .stay, hsim⟩
    · exact ⟨_, .step (.effect heffect), hsim⟩
  · by_cases hshare : (m.pc t).shares = true
    · have hwriter := h.writer_of_shares hshare
      have hdb := h.free hwriter
      have hself := h.follows t
      rw [← hdb] at hself
      obtain ⟨rfl, st, hanswer, hfollows⟩ := hstep.follows_of_shares hshare hself
      have hboth : p.Follows cond m.db atom.state st := by
        rw [← hdb]
        exact hfollows
      have hsim := h.moveInside t hholds hshares (fun u _ => h.follows u) hboth h.free
      rcases hanswer with rfl | heffect
      · rw [Function.update_eq_self] at hsim
        exact ⟨_, .stay, hsim⟩
      · rw [hdb] at heffect
        exact ⟨_, .step (.effect heffect), hsim⟩
    · obtain ⟨hseq, hwatermark⟩ := h.atomics
      obtain ⟨w, st, rfl, heffect, hfollows⟩ := hstep.follows_outside (by simpa using hin)
        (by simpa using hshare) hseq hwatermark (h.follows t)
      refine ⟨_, .step (.effect heffect), h.moveInside t hholds hshares
        (fun u _ => (h.follows u).withWatermark w) (hfollows _ _) (fun hnone => ?_)⟩
      rw [h.free hnone]

theorem lock (h : Sim cond m atom) {t : Tid} {req : Request} {p : Pc} (hpc : m.pc t = .called req)
    (hlocks : req.locks = some p) (hwriter : m.mu.writer = none) (hreaders : m.mu.readers = ∅) :
    Sim cond { m with mu.writer := some t, pc := Function.update m.pc t p } atom := by
  have hstatus : atom.status t = .called req := by simpa [hpc, Pc.Follows] using h.follows t
  obtain ⟨hholds, hshares, hfollows⟩ := Request.follows_of_locks hlocks m.db
  refine h.moveMutex t (by simp [hholds]) (by simp [hshares, hreaders]) (fun u hu => ?_)
    (fun _ _ => Iff.rfl) (fun _ => hreaders) (h.free hwriter) (hstatus ▸ hfollows)
  simp [hwriter, Ne.symm hu]

theorem unlock (h : Sim cond m atom) {t : Tid} {res : Except DbErr Unit}
    (hpc : m.pc t = .leaving res) :
    Sim cond { m with mu.writer := none, pc := Function.update m.pc t (.finished (.done res)) }
      atom := by
  have hwriter : m.mu.writer = some t := (h.holder t).mp (by simp [hpc, Pc.holds])
  have hreaders := h.exclusive (by simp [hwriter])
  have hself := h.follows t
  rw [hpc] at hself
  refine h.moveMutex t (by simp [Pc.holds]) (by simp [Pc.shares, hreaders]) (fun u hu => ?_)
    (fun _ _ => Iff.rfl) (fun hne => absurd rfl hne) hself.2 hself.1
  simp [hwriter, Ne.symm hu]

theorem rlock (h : Sim cond m atom) {t : Tid} {req : Request} {p : Pc} (hpc : m.pc t = .called req)
    (hlocks : req.rlocks = some p) (hwriter : m.mu.writer = none) :
    Sim cond { m with mu.readers := insert t m.mu.readers, pc := Function.update m.pc t p }
      atom := by
  have hstatus : atom.status t = .called req := by simpa [hpc, Pc.Follows] using h.follows t
  obtain ⟨hholds, hshares, hfollows⟩ := Request.follows_of_rlocks hlocks m.db
  refine h.moveMutex t (by simp [hholds, hwriter]) (by simp [hshares]) (fun _ _ => Iff.rfl)
    (fun u hu => by simp [hu]) (fun hne => absurd hwriter hne) (h.free hwriter)
    (hstatus ▸ hfollows)

theorem runlock (h : Sim cond m atom) {t : Tid} {reply : Reply} (hpc : m.pc t = .answered reply) :
    Sim cond { m with
      mu.readers := m.mu.readers.erase t, pc := Function.update m.pc t (.finished reply) }
      atom := by
  have hwriter := h.writer_of_shares (t := t) (by simp [hpc, Pc.shares])
  have hself := h.follows t
  rw [hpc] at hself
  exact h.moveMutex t (by simp [Pc.holds, hwriter]) (by simp [Pc.shares]) (fun _ _ => Iff.rfl)
    (fun u hu => by simp [hu]) (fun hne => absurd hwriter hne) (h.free hwriter) hself

theorem step {m' : Machine Tid} {event : Option (ClientEvent Tid)} (h : Sim cond m atom)
    (hstep : ThreadStep cond m event m') :
    ∃ atom', Answers (atomicDB cond).Step atom event atom' ∧ Sim cond m' atom' := by
  cases hstep with
  | @invoke t req hpc =>
      have hself : atom.status t = .idle := by simpa [hpc, Pc.Follows] using h.follows t
      exact ⟨_, .step (.invoke hself), h.moveInside t (by simp [hpc, Pc.holds])
        (by simp [hpc, Pc.shares]) (fun u _ => h.follows u) rfl h.free⟩
  | @respond t reply hpc =>
      have hself : atom.status t = .finished reply := by
        simpa [hpc, Pc.Follows] using h.follows t
      exact ⟨_, .step (.respond hself), h.moveInside t (by simp [hpc, Pc.holds])
        (by simp [hpc, Pc.shares]) (fun u _ => h.follows u) rfl h.free⟩
  | lock hpc hlocks hwriter hreaders =>
      exact ⟨atom, .stay, h.lock hpc hlocks hwriter hreaders⟩
  | unlock hpc => exact ⟨atom, .stay, h.unlock hpc⟩
  | rlock hpc hlocks hwriter => exact ⟨atom, .stay, h.rlock hpc hlocks hwriter⟩
  | runlock hpc => exact ⟨atom, .stay, h.runlock hpc⟩
  | inside hstep => exact h.inside hstep

end Sim

/-- What the database whose calls take effect in one step refines, goroutines refine. -/
theorem traces_refine [DecidableEq Tid] {τ St Req Rep : Type} {obj : Object τ St Req Rep}
    {ok : DB → Prop} {rel : DB → τ → Prop} {view : Status → St} {onReq : Request → Req}
    {onRep : Reply → Rep} (hrefines : Refines (atomicDB cond) obj ok rel view onReq onRep)
    (hok : ∀ (m : Machine Tid) atom, Sim cond m atom → ok m.db → ok atom.state) {db : DB}
    {start : τ} (hstart : rel db start) {trace : List (ClientEvent Tid)} {m : Machine Tid}
    (h : Traces (fun m event m' => ThreadStep cond m event m' ∧ ok m'.db) (Machine.start db)
      trace m) :
    ∃ s, Traces obj.Step (obj.start start) (trace.map (Event.map onReq onRep)) s ∧
      ∃ atom, Sim cond m atom ∧ rel atom.state s.state := by
  have hanswers : ∀ (m : Machine Tid) event m' (s : Clients Tid τ St),
      (∃ atom, Sim cond m atom ∧ Seen rel view atom s) → ThreadStep cond m event m' ∧ ok m'.db →
      ∃ s', Answers obj.Step s (event.map (Event.map onReq onRep)) s' ∧
        ∃ atom, Sim cond m' atom ∧ Seen rel view atom s' := by
    rintro m event m' s ⟨atom, hsim, hseen⟩ ⟨hstep, hokay⟩
    obtain ⟨atom', hanswer, hsim'⟩ := hsim.step hstep
    cases hanswer with
    | stay => exact ⟨s, .stay, atom, hsim', hseen⟩
    | step hatomic =>
        obtain ⟨s', hs', hseen'⟩ := hrefines.step hseen hatomic (hok _ _ hsim' hokay)
        exact ⟨s', hs', atom', hsim', hseen'⟩
  obtain ⟨s, htrace, atom, hsim, hseen⟩ := h.simulate (Event.map onReq onRep) _
    ⟨_, sim_start db, hrefines.start hstart⟩ hanswers
  exact ⟨s, htrace, atom, hsim, hseen.state⟩

/-- Whatever the interleaving: what the clients see is what they can see of the coarser
database, and whenever no call is under way the two hold the same. -/
theorem threads_refine_atomic {db : DB} {trace : List (ClientEvent Tid)} {m : Machine Tid}
    [DecidableEq Tid] (h : Traces (ThreadStep cond) (Machine.start db) trace m) :
    ∃ atom, Traces (atomicDB cond).Step ((atomicDB cond).start db) trace atom ∧
      ((∀ t, m.pc t = .idle) → m.db = atom.state) := by
  obtain ⟨atom, htrace, hsim⟩ := h.simulate id (Sim cond) (sim_start db)
    (fun _ event _ _ hrel hstep => by simpa using hrel.step hstep)
  rw [List.map_id] at htrace
  exact ⟨atom, htrace, fun hidle => hsim.free (hsim.writer_of_idle hidle)⟩

end Refinement

/-- Goroutine 1 calls `Get` before goroutine 0 has returned from its `Put`, and reads the value. -/
def putGet : List (ClientEvent Nat) :=
  [.invoke 0 (.write (.put [107] [1])), .invoke 1 (.getAt [107] seqNumMax),
    .respond 1 (.value (some [1])), .respond 0 (.done (.ok ()))]

theorem traces_putGet {cond : Conditions}
    {step : Machine Nat → Option (ClientEvent Nat) → Machine Nat → Prop}
    (hstep : ∀ m event m', ThreadStep cond m event m' → m'.db.seqNum ≤ 1 → step m event m') :
    ∃ m, Traces step (Machine.start emptyDB) putGet m ∧ (∀ t, m.pc t = .idle) ∧
      m.db.get [107] = some [1] := by
  have hput : Traces step (Machine.start emptyDB) _ _ := Traces.start.visible
    (hstep _ (some (.invoke 0 (.write (.put [107] [1])))) _ (.invoke rfl) (by decide))
  have hget := hput.visible
    (hstep _ (some (.invoke 1 (.getAt [107] seqNumMax))) _ (.invoke rfl) (by decide))
  have hlock := hget.silent (hstep _ _ _ (.lock (t := 0) rfl rfl rfl rfl) (by decide))
  have hnumber := hlock.silent (hstep _ _ _ (.inside (t := 0) .numberPut) (by decide))
  have hlog := hnumber.silent (hstep _ _ _ (.inside (t := 0) .log) (by decide))
  have hinsert := hlog.silent (hstep _ _ _ (.inside (t := 0) .insert) (by decide))
  have hspare := hinsert.silent (hstep _ _ _ (.inside (t := 0) (.spare (by decide))) (by decide))
  have hunlock := hspare.silent (hstep _ _ _ (.unlock (t := 0) rfl) (by decide))
  have hrlock := hunlock.silent (hstep _ _ _ (.rlock (t := 1) rfl rfl rfl) (by decide))
  have hread := hrlock.silent (hstep _ _ _ (.inside (t := 1) (.memFound rfl)) (by decide))
  have hrunlock := hread.silent (hstep _ _ _ (.runlock (t := 1) rfl) (by decide))
  have hgot := hrunlock.visible (hstep _ _ _ (.respond (t := 1) rfl) (by decide))
  refine ⟨_, hgot.visible (hstep _ _ _ (.respond (t := 0) rfl) (by decide)), fun t => ?_, rfl⟩
  rcases t with _ | _ | t
  · rfl
  · rfl
  · simp [Function.update, Machine.start]

/-- The `Get` waits for the `Put`: clients see what they see when `Put` takes effect in one
step, and then `Get` does. -/
theorem threads_refine_atomic_putGet :
    ∃ atom, Traces (atomicDB ⟨fun _ => True, fun _ _ => True⟩).Step
      ((atomicDB ⟨fun _ => True, fun _ _ => True⟩).start emptyDB) putGet atom ∧
        atom.state.get [107] = some [1] := by
  obtain ⟨m, htrace, hidle, hget⟩ := traces_putGet (fun _ _ _ hstep _ => hstep)
  obtain ⟨atom, hatom, hdb⟩ := threads_refine_atomic htrace
  exact ⟨atom, hatom, hdb hidle ▸ hget⟩

end Hcdb.Db
