import Hcdb.Db.Recovery

/-!
Runs of writes, flushes and clean restarts in which no tables are merged.  All
versions stay, so every snapshot can be read as the writes up to it.
-/

namespace Hcdb.Db

open Hcdb.Lib.ByteString
open Hcdb.Lib.BufferedWriter
open Hcdb.Lib.FiniteMap
open Hcdb.Lib.SortedList
open Hcdb.Base
open Hcdb.Memtable
open Hcdb.Sstable
open Hcdb.Compaction
open Hcdb.Wal

/-- What happens to a database: a call, or `Close` and then `Open` on its files. -/
inductive Event where
  | call (c : Call)
  | restart

/-- The call is not refused for the lengths of its key and value. -/
def Event.Accepted : Event → Prop
  | .call c => c.op.Accepted
  | .restart => True

def Event.writes : Event → List Op
  | .call { op := .flush, .. } => []
  | .call c => [c.op]
  | .restart => []

def writesOf (events : List Event) : List Op := events.flatMap Event.writes

section Events

variable [Runtime]

/-- `Close`, and then `Open` on what is on disk. -/
def DB.restart (db : DB) : Except DbErr DB :=
  openDB db.close.wal.writer.file db.close.dir db.close.ticks

/-- One event; a run ends at the first error. -/
def DB.handle (clock : Nat → Nat) (db : DB) : Event → Except DbErr DB
  | .call c =>
      match db.step clock c with
      | (_, .error e) => .error e
      | (db', .ok ()) => .ok db'
  | .restart => db.restart

/-- A run of calls and restarts. -/
def runEvents (clock : Nat → Nat) : DB → List Event → Except DbErr DB
  | db, [] => .ok db
  | db, event :: events =>
      match db.handle clock event with
      | .error e => .error e
      | .ok db' => runEvents clock db' events

/-- The compaction of the call, if there is one, merges nothing. -/
def Event.Calm (clock : Nat → Nat) (db : DB) : Event → Prop
  | .call c => ∀ flushed, db.compacting clock c.op = some flushed → flushed.NoMerge c.stat
  | .restart => True

/-- No compaction of the run merges anything. -/
def CalmRun (clock : Nat → Nat) : DB → List Event → Prop
  | _, [] => True
  | db, event :: events =>
      event.Calm clock db ∧ ∀ db', db.handle clock event = .ok db' → CalmRun clock db' events

variable {clock : Nat → Nat} {db : DB} {ts : List Table} {writes : List Op}

/-- The database holds all versions of these writes and no others, those since the
last flush in the memtable and in the log. -/
structure Mirrors (clock : Nat → Nat) (db : DB) (ts : List Table) (writes : List Op) : Prop
    extends Ordered clock db ts where
  listed : Listed db.dir ts
  accepted : ∀ op ∈ writes, op.Accepted
  noFlush : ∀ op ∈ writes, op ≠ .flush
  few : writes.length ≤ seqNumMax
  seqNum : db.seqNum = writes.length
  stored_iff : ∀ e, e ∈ stored db ts ↔ e ∈ history 0 writes
  unflushed : ∃ n ≤ writes.length, db.memtable = memtableOf (history n (writes.drop n)) ∧
    db.wal.writer.stream = encodeRecords (history n (writes.drop n))

theorem mirrors_emptyDB (clock : Nat → Nat) : Mirrors clock emptyDB [] [] where
  toOrdered := ordered_emptyDB clock
  listed := listed_emptyDB
  accepted := by simp
  noFlush := by simp
  few := Nat.zero_le _
  seqNum := rfl
  stored_iff := by simp [stored, emptyDB, newMemTable, history]
  unflushed := ⟨0, le_rfl, rfl, rfl⟩

theorem Mirrors.getAt_eq (h : Mirrors clock db ts writes) (key : Bytes) {snapshot : Nat}
    (hsnap : snapshot ≤ seqNumMax) :
    db.getAt key snapshot = lastWrite (writes.take snapshot) key := by
  rw [h.toRepresents.getAt_eq key hsnap]
  exact answer_versionAt_history h.newestFirst h.stored_iff h.accepted h.noFlush h.few key snapshot

theorem Mirrors.scanAt_eq (h : Mirrors clock db ts writes) (lowerBound : Bytes)
    (upperBound : Option Bytes) {snapshot : Nat} (hsnap : snapshot ≤ seqNumMax) :
    ∃ m, db.scanAt lowerBound upperBound snapshot = .ok m ∧ SortedBy Prod.fst m.drain ∧
      ∀ u v, (u, v) ∈ m.drain ↔ inRange lowerBound upperBound u = true ∧
        lastWrite (writes.take snapshot) u = some v := by
  obtain ⟨m, hm, hsorted, hpairs⟩ := h.scanAt_spec lowerBound upperBound hsnap
  refine ⟨m, hm, hsorted, fun u v => ?_⟩
  have hlayers := db.sorted_of_mem_layers ts
  have hnf : NewestFirst (db.memtable.tree :: layersOf ts).flatten := h.newestFirst
  rw [hpairs u v, hnf.newestAt_eq hlayers]
  have hans := answer_versionAt_history hnf h.stored_iff h.accepted h.noFlush h.few u snapshot
  rw [hans]

theorem Ordered.mem_stored_write (h : Ordered clock db ts) (hseq : db.seqNum < seqNumMax) {op : Op}
    {e : Entry} (he : op.entry? (db.seqNum + 1) = some e) (x : Entry) :
    x ∈ stored (op.write db) ts ↔ x = e ∨ x ∈ stored db ts := by
  cases op with
  | put key value =>
      obtain rfl := Option.some.inj he
      exact h.mem_stored_written hseq internalKeyKindSet key value x
  | delete key =>
      obtain rfl := Option.some.inj he
      exact h.mem_stored_written hseq internalKeyKindDelete key [] x
  | flush => simp [Op.entry?] at he

theorem Mirrors.write (h : Mirrors clock db ts writes) {op : Op} (hop : op.Accepted)
    (hwrite : op ≠ .flush) (hfew : writes.length < seqNumMax) :
    Mirrors clock (op.write db) ts (writes ++ [op]) := by
  have hseq : db.seqNum < seqNumMax := by
    rw [h.seqNum]
    exact hfew
  obtain ⟨e, he⟩ : ∃ e, op.entry? (writes.length + 1) = some e :=
    Option.ne_none_iff_exists'.mp fun hnone => hwrite (entry?_eq_none hnone)
  have he' : op.entry? (db.seqNum + 1) = some e := by
    rw [h.seqNum]
    exact he
  have hadd : ∀ n ≤ writes.length, history n ((writes ++ [op]).drop n) =
      history n (writes.drop n) ++ [e] := by
    intro n hn
    have hlen : (writes.drop n).length = writes.length - n := List.length_drop
    rw [List.drop_append_of_le_length hn, history_append,
      history_length fun op' h' => h.noFlush op' (List.mem_of_mem_drop h'), hlen,
      Nat.add_sub_cancel' hn]
    simp [history, he]
  obtain ⟨n, hn, hmem, hlog⟩ := h.unflushed
  have hop_eq : op.write db = { db with
      seqNum := db.seqNum + 1
      wal := db.wal.write e
      memtable := insertEntry db.memtable e } := by
    rw [Op.write_eq, he']
  refine ⟨h.toOrdered.write hseq hop, ?_, ?_, ?_, ?_, ?_, ?_, n, ?_, ?_, ?_⟩
  · rw [hop_eq]
    exact h.listed
  · exact List.forall_mem_append.mpr ⟨h.accepted, List.forall_mem_singleton.mpr hop⟩
  · exact List.forall_mem_append.mpr ⟨h.noFlush, List.forall_mem_singleton.mpr hwrite⟩
  · rw [List.length_append, List.length_singleton]
    omega
  · rw [hop_eq, List.length_append, List.length_singleton]
    exact congrArg (· + 1) h.seqNum
  · intro x
    have hall := hadd 0 (Nat.zero_le _)
    rw [List.drop_zero, List.drop_zero] at hall
    rw [h.toOrdered.mem_stored_write hseq he', h.stored_iff, hall, List.mem_append,
      List.mem_singleton, or_comm]
  · rw [List.length_append]
    omega
  · rw [hop_eq, hadd n hn, memtableOf_append, ← hmem]
  · rw [hop_eq, hadd n hn, WAL.stream_write, hlog]
    simp [encodeRecords]

theorem Mirrors.accepted_drop (h : Mirrors clock db ts writes) {n : Nat} (hn : n ≤ writes.length) :
    (∀ op ∈ writes.drop n, op.Accepted) ∧ n + (writes.drop n).length ≤ seqNumMax := by
  refine ⟨fun op hop => h.accepted op (List.mem_of_mem_drop hop), ?_⟩
  rw [List.length_drop, Nat.add_sub_cancel' hn]
  exact h.few

theorem Mirrors.length_memtable_le (h : Mirrors clock db ts writes) :
    8 * db.memtable.tree.length ≤ db.memtable.size := by
  obtain ⟨n, hn, hmem, -⟩ := h.unflushed
  obtain ⟨hop, hfew⟩ := h.accepted_drop hn
  have hsize := length_le_foldl_insertEntry_size
    (fun e he => (history_recorded hop hfew e he).wellFormed) newMemTable
  have hlen := length_memtableOf_le (history_pairwise hop hfew)
  rw [hmem]
  exact (Nat.mul_le_mul_left 8 hlen).trans hsize

theorem Mirrors.flushedDB (h : Mirrors clock db ts writes) (hclock : StrictMono clock)
    (hstamp : ∀ i ≤ db.ticks, Stamp (clock i)) (hroom : db.memtable.tree.length < 2 ^ 32) :
    Mirrors clock (flushedDB clock db) (flushedTable clock h.toRepresents :: ts) writes where
  toOrdered := h.toOrdered.flushedDB hclock
  listed := listed_flushedDB h.listed h.toRepresents hclock hstamp
    (Table.countable_of_length_lt hroom)
  accepted := h.accepted
  noFlush := h.noFlush
  few := h.few
  seqNum := h.seqNum
  stored_iff := h.stored_iff
  unflushed := ⟨writes.length, le_rfl, by rw [List.drop_length]; rfl, by rw [List.drop_length]; rfl⟩

theorem Ordered.compactTables_of_noMerge (h : Ordered clock db ts) (hclock : StrictMono clock)
    {stat : Stat} (hcalm : db.NoMerge stat) :
    db.compactTables (healthy clock stat) =
      ({ db with ticks := db.ticks + db.sstables.length }, .ok ()) := by
  have hno : NoMerge ((healthy clock stat).compaction db).stat ts := (h.noMerge_iff stat).mp hcalm
  obtain ⟨hresult, hdir⟩ := hno.result_eq db.watermark.floor db.dir
  rw [h.toRepresents.compactTables_eq hclock h.layers_newestFirst stat]
  simp only [Db.compactedDB, compactedTables, hresult, hdir, ← h.sstables]

theorem Mirrors.withTicks (h : Mirrors clock db ts writes) {ticks : Nat} (hle : db.ticks ≤ ticks) :
    Mirrors clock { db with ticks } ts writes :=
  { h with
    stamped := fun name hname =>
      (h.stamped name hname).imp fun _ hi => ⟨hi.1.trans_le hle, hi.2⟩ }

theorem Mirrors.restart_reopened (h : Mirrors clock db ts writes) {n : Nat}
    (hrec : ∀ e ∈ history n (writes.drop n), Recorded n e)
    (hlog : db.wal.writer.stream = encodeRecords (history n (writes.drop n))) :
    db.restart = .ok (reopened ts (history n (writes.drop n)) db.dir db.ticks) := by
  have hfile : db.close.wal.writer.file =
      (encodeRecords (history n (writes.drop n))).take
        (encodeRecords (history n (writes.drop n))).length := by
    rw [List.take_length]
    exact hlog
  rw [DB.restart, hfile]
  refine (openDB_eq h.listed (fun e he => loggable_of_wellFormed (hrec e he).wellFormed)
    (fun e he => (hrec e he).tombstone) _ _).trans ?_
  rw [wholeWithin_all]
  rfl

/-- The last write is still there, so the counter is found again. -/
theorem Mirrors.seqNum_reopened (h : Mirrors clock db ts writes) {es : List Entry}
    (hes : ∀ e, e ∈ db.memtable.tree ↔ e ∈ es) (dir : TableDir) (ticks : Nat) :
    (reopened ts es dir ticks).seqNum = writes.length := by
  have hmax : ∀ e ∈ stored db ts, e.seqNum ≤ writes.length := fun e he =>
    h.seqNum ▸ h.bounded e he
  apply le_antisymm
  · refine max_le (maxSeqNumOf_le (Nat.zero_le _) fun e he => ?_)
      (maxSeqNumOf_le (Nat.zero_le _) fun e he => hmax e (List.mem_append_right _ he))
    exact hmax e (List.mem_append_left _ ((hes e).mpr he))
  · by_cases hnil : writes = []
    · rw [hnil]
      exact Nat.zero_le _
    · obtain ⟨e, he, hlast⟩ := exists_last_history h.accepted h.noFlush h.few hnil
      rw [← hlast]
      rcases List.mem_append.mp ((h.stored_iff e).mpr he) with he | he
      · exact ((le_maxSeqNumOf 0 _).2 e ((hes e).mp he)).trans (le_max_left _ _)
      · exact ((le_maxSeqNumOf 0 _).2 e he).trans (le_max_right _ _)

theorem Mirrors.restart_eq (h : Mirrors clock db ts writes) :
    ∃ db', db.restart = .ok db' ∧ Mirrors clock db' ts writes ∧ db'.memtable = db.memtable := by
  obtain ⟨n, hn, hmem, hlog⟩ := h.unflushed
  obtain ⟨hop, hfew⟩ := h.accepted_drop hn
  have hopen := h.restart_reopened (history_recorded hop hfew) hlog
  have hstored : stored (reopened ts (history n (writes.drop n)) db.dir db.ticks) ts =
      stored db ts := by
    unfold stored
    rw [hmem]
    rfl
  have hes : ∀ e, e ∈ db.memtable.tree ↔ e ∈ history n (writes.drop n) := fun e => by
    rw [hmem]
    exact mem_memtableOf (history_pairwise hop hfew) e
  have hseq := h.seqNum_reopened hes db.dir db.ticks
  refine ⟨_, hopen, ?_, hmem.symm⟩
  have hwf : ∀ e ∈ (memtableOf (history n (writes.drop n))).tree, e.WellFormed := by
    rw [← hmem]
    exact h.wellFormed
  refine ⟨⟨⟨rfl, h.held, h.nodup, h.stamped, hwf⟩, ?_, ?_⟩, h.listed, h.accepted, h.noFlush, h.few,
    hseq, ?_, n, hn, rfl, ?_⟩
  · rw [hstored]
    exact h.newestFirst
  · rw [hstored, hseq, ← h.seqNum]
    exact h.bounded
  · rw [hstored]
    exact h.stored_iff
  · exact List.append_nil _

theorem write_size_le (db : DB) {op : Op} (hop : op.Accepted) :
    (op.write db).memtable.size ≤
      db.memtable.size + (Config.maxKeyLength + 8) + Config.maxValueLength := by
  have hsize : ∀ kind key value, (db.written kind key value).memtable.size =
      db.memtable.size +
        ((makeInternalKey key (db.seqNum + 1) kind).encode.length + value.length) :=
    fun _ _ _ => rfl
  have hlen : ∀ kind key,
      (makeInternalKey key (db.seqNum + 1) kind).encode.length = key.length + 8 :=
    fun _ _ => InternalKey.encode_length _
  cases op with
  | put key value =>
      obtain ⟨hkey, hvalue⟩ := hop
      rw [Op.write, hsize, hlen]
      omega
  | delete key =>
      have hkey : key.length ≤ Config.maxKeyLength := hop
      rw [Op.write, hsize, hlen, List.length_nil]
      omega
  | flush => exact Nat.le_add_right_of_le (Nat.le_add_right _ _)

theorem Mirrors.write_call (h : Mirrors clock db ts writes) {c : Call} (hop : c.op.Accepted)
    (hfew : writes.length + (Event.call c).writes.length ≤ seqNumMax) :
    Mirrors clock (c.op.write db) ts (writes ++ (Event.call c).writes) := by
  obtain ⟨op, stat⟩ := c
  cases op with
  | put key value => exact h.write hop (by simp) hfew
  | delete key => exact h.write hop (by simp) hfew
  | flush =>
      simp only [Event.writes, List.append_nil]
      exact h

theorem size_lt_of_compacting_eq_none {op : Op} (h : db.compacting clock op = none) :
    (op.write db).memtable.size < Config.defaultMemtableFlushSize := by
  unfold DB.compacting at h
  split at h
  · simp at h
  · rename_i hflushes
    cases op with
    | put key value => exact not_le.mp (by simpa [Op.flushes] using hflushes)
    | delete key => exact not_le.mp (by simpa [Op.flushes] using hflushes)
    | flush => simp [Op.flushes] at hflushes

/-- One event: what is stored stays the history of the writes. -/
theorem Mirrors.handle_eq (h : Mirrors clock db ts writes) (hclock : StrictMono clock)
    (hroom : db.memtable.size < Config.defaultMemtableFlushSize) {event : Event}
    (hstamp : ∀ db', db.handle clock event = .ok db' → ∀ i < db'.ticks, Stamp (clock i))
    (hevent : event.Accepted) (hfew : writes.length + event.writes.length ≤ seqNumMax)
    (hcalm : event.Calm clock db) :
    ∃ db' ts', db.handle clock event = .ok db' ∧ Mirrors clock db' ts' (writes ++ event.writes) ∧
      db'.memtable.size < Config.defaultMemtableFlushSize := by
  cases event with
  | restart =>
      obtain ⟨db', hopen, hmirrors, hmem⟩ := h.restart_eq
      rw [Event.writes, List.append_nil]
      exact ⟨db', ts, hopen, hmirrors, hmem ▸ hroom⟩
  | call c =>
      have hwritten := h.write_call hevent hfew
      rw [DB.handle, DB.step_eq hevent] at hstamp ⊢
      cases hcompacting : db.compacting clock c.op with
      | none =>
          exact ⟨c.op.write db, ts, rfl, hwritten, size_lt_of_compacting_eq_none hcompacting⟩
      | some flushed =>
          have hcalm' := hcalm flushed hcompacting
          obtain rfl := DB.compacting_eq_some hcompacting
          have heq := (hwritten.toOrdered.flushedDB hclock).compactTables_of_noMerge hclock hcalm'
          simp only [hcompacting, heq] at hstamp ⊢
          -- the flush has read the clock for the name of the table
          have hstamp' : ∀ i ≤ (c.op.write db).ticks, Stamp (clock i) := fun i hi =>
            hstamp _ rfl i (Nat.lt_add_right _ (Nat.lt_succ_of_le hi))
          -- the memtable was below the flush size before this write
          have hcount : (c.op.write db).memtable.tree.length < 2 ^ 32 := by
            have hlen := hwritten.length_memtable_le
            have hsize := write_size_le db hevent
            unfold Config.defaultMemtableFlushSize at hroom
            unfold Config.maxKeyLength Config.maxValueLength at hsize
            omega
          have hflushed := hwritten.flushedDB hclock hstamp' hcount
          exact ⟨_, _, rfl, hflushed.withTicks (Nat.le_add_right _ _),
            (by decide : 0 < Config.defaultMemtableFlushSize)⟩

theorem Mirrors.runEvents_eq (hclock : StrictMono clock) {events : List Event}
    (hevents : ∀ event ∈ events, event.Accepted)
    (hstamp : ∀ n db', runEvents clock db (events.take n) = .ok db' →
      ∀ i < db'.ticks, Stamp (clock i))
    (h : Mirrors clock db ts writes)
    (hroom : db.memtable.size < Config.defaultMemtableFlushSize)
    (hfew : writes.length + (writesOf events).length ≤ seqNumMax)
    (hcalm : CalmRun clock db events) :
    ∃ db' ts', runEvents clock db events = .ok db' ∧
      Mirrors clock db' ts' (writes ++ writesOf events) := by
  induction events generalizing db ts writes with
  | nil =>
      refine ⟨db, ts, rfl, ?_⟩
      rw [writesOf, List.flatMap_nil, List.append_nil]
      exact h
  | cons event events ih =>
      rw [writesOf, List.flatMap_cons, ← writesOf] at hfew ⊢
      rw [List.length_append] at hfew
      obtain ⟨hnow, hlater⟩ := hcalm
      have hfirst : ∀ db', db.handle clock event = .ok db' → ∀ i < db'.ticks, Stamp (clock i) :=
        fun db' hhandle => hstamp 1 db' (by simp [runEvents, hhandle])
      obtain ⟨db', ts', hhandle, hmirrors, hroom'⟩ := h.handle_eq hclock hroom hfirst
        (hevents event (by simp)) (by omega) hnow
      have hrun : ∀ events, runEvents clock db (event :: events) = runEvents clock db' events :=
        fun events => by rw [runEvents, hhandle]
      have hrest := ih (fun e he => hevents e (by simp [he]))
        (fun n db'' hn => hstamp (n + 1) db'' ((hrun _).trans hn)) hmirrors hroom'
        (by rw [List.length_append]; omega) (hlater db' hhandle)
      rw [List.append_assoc] at hrest
      rw [hrun]
      exact hrest

/-- Without merges every snapshot reads as the map that the writes up to it leave. -/
theorem reads_eq_history (hclock : StrictMono clock) {events : List Event}
    (hevents : ∀ event ∈ events, event.Accepted)
    (hstamp : ∀ n db, runEvents clock emptyDB (events.take n) = .ok db →
      ∀ i < db.ticks, Stamp (clock i))
    (hfew : (writesOf events).length ≤ seqNumMax) (hcalm : CalmRun clock emptyDB events) :
    ∃ db, runEvents clock emptyDB events = .ok db ∧ db.seqNum = (writesOf events).length ∧
      ∀ snapshot ≤ seqNumMax,
        (∀ key, db.getAt key snapshot = lastWrite ((writesOf events).take snapshot) key) ∧
        ∀ lowerBound upperBound, ∃ m, db.scanAt lowerBound upperBound snapshot = .ok m ∧
          SortedBy Prod.fst m.drain ∧ ∀ u v, (u, v) ∈ m.drain ↔
            inRange lowerBound upperBound u = true ∧
              lastWrite ((writesOf events).take snapshot) u = some v := by
  obtain ⟨db, ts, hrun, hmirrors⟩ := (mirrors_emptyDB clock).runEvents_eq hclock hevents hstamp
    (by decide) (by rwa [List.length_nil, Nat.zero_add]) hcalm
  rw [List.nil_append] at hmirrors
  exact ⟨db, hrun, hmirrors.seqNum, fun snapshot hsnap => ⟨fun key => hmirrors.getAt_eq key hsnap,
    fun lowerBound upperBound => hmirrors.scanAt_eq lowerBound upperBound hsnap⟩⟩

end Events

def putFlushRestart : List Event :=
  [.call { op := .put [97] [1], stat := fileSizes }, .call { op := .flush, stat := fileSizes },
    .restart]

theorem handle_put (clock : Nat → Nat) :
    emptyDB.handle clock (.call { op := .put [97] [1], stat := fileSizes }) =
      .ok (writeAll emptyDB [.put [97] [1]]) := by
  have haccept : (Call.mk (.put [97] [1]) fileSizes).op.Accepted := ⟨by decide, by decide⟩
  rw [DB.handle, DB.step_eq haccept]
  rfl

theorem handle_flush (clock : Nat → Nat) :
    (writeAll emptyDB [.put [97] [1]]).handle clock (.call { op := .flush, stat := fileSizes }) =
      .ok { flushedDB clock (writeAll emptyDB [.put [97] [1]]) with ticks := 2 } := by
  rw [DB.handle, DB.step_eq (show (Call.mk .flush fileSizes).op.Accepted from trivial)]
  rfl

theorem calmRun_putFlushRestart (clock : Nat → Nat) :
    CalmRun clock emptyDB putFlushRestart := by
  refine ⟨fun flushed hflushed => ?_, fun db' hput => ⟨fun flushed hflushed => Or.inl ?_, ?_⟩⟩
  · rw [show emptyDB.compacting clock (.put [97] [1]) = none from rfl] at hflushed
    simp at hflushed
  · rw [handle_put] at hput
    obtain rfl := Except.ok.inj hput
    rw [DB.compacting_eq_some hflushed]
    exact (by decide : 1 < Config.defaultCompactionThreshold)
  · exact fun _ _ => ⟨trivial, fun _ _ => trivial⟩

theorem DB.restart_ticks {db db' : DB} (h : db.restart = .ok db') : db'.ticks = db.ticks := by
  obtain ⟨tables, maxSeq, -, -, heq⟩ := openDB_eq_ok h
  rw [heq]
  rfl

theorem ticks_putFlushRestart (clock : Nat → Nat) {n : Nat} {db : DB}
    (h : runEvents clock emptyDB (putFlushRestart.take n) = .ok db) : db.ticks ≤ 2 := by
  obtain ⟨db₁, hput, hticks₁, db₂, hflush, hticks₂⟩ : ∃ db₁,
      emptyDB.handle clock (.call { op := .put [97] [1], stat := fileSizes }) = .ok db₁ ∧
      db₁.ticks = 0 ∧ ∃ db₂,
        db₁.handle clock (.call { op := .flush, stat := fileSizes }) = .ok db₂ ∧ db₂.ticks = 2 :=
    ⟨_, handle_put clock, rfl, _, handle_flush clock, rfl⟩
  rcases n with _ | _ | _ | n
  · obtain rfl := Except.ok.inj h
    exact Nat.zero_le 2
  · simp only [putFlushRestart, List.take_succ_cons, List.take_zero, runEvents, hput] at h
    obtain rfl := Except.ok.inj h
    exact hticks₁.trans_le (Nat.zero_le 2)
  · simp only [putFlushRestart, List.take_succ_cons, List.take_zero, runEvents, hput, hflush] at h
    obtain rfl := Except.ok.inj h
    exact hticks₂.le
  · simp only [putFlushRestart, List.take_succ_cons, List.take_nil, runEvents, hput, hflush] at h
    rw [DB.handle] at h
    cases hrestart : db₂.restart with
    | error e => simp [hrestart] at h
    | ok db' =>
        rw [hrestart] at h
        obtain rfl := Except.ok.inj h
        exact (DB.restart_ticks hrestart).trans_le hticks₂.le

theorem reads_eq_history_putFlushRestart :
    ∃ db, runEvents stampedClock emptyDB putFlushRestart = .ok db ∧
      db.getAt [97] 0 = none ∧ db.getAt [97] 1 = some [1] := by
  have hevents : ∀ event ∈ putFlushRestart, event.Accepted := by
    simp only [putFlushRestart, List.forall_mem_cons, List.not_mem_nil, false_imp_iff, implies_true,
      and_true]
    exact ⟨⟨by decide, by decide⟩, trivial, trivial⟩
  have hstamp : ∀ i < 2, Stamp (stampedClock i) := by decide
  obtain ⟨db, hrun, -, hreads⟩ := reads_eq_history stampedClock_strictMono hevents
    (fun n db h i hi => hstamp i (hi.trans_le (ticks_putFlushRestart stampedClock h))) (by decide)
    (calmRun_putFlushRestart stampedClock)
  exact ⟨db, hrun, (hreads 0 (by decide)).1 [97], (hreads 1 (by decide)).1 [97]⟩

end Hcdb.Db
