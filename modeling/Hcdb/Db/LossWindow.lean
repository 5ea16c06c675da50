import Hcdb.Db.Life

/-!
How much a loss of power can cost: the entries of the memtable that no fsynced record
holds.  Within one process there are never more of them than the counter of the log says.
-/

namespace Hcdb.Db

open Hcdb.Lib.ByteString
open Hcdb.Lib.BufferedWriter
open Hcdb.Lib.Transition
open Hcdb.Base
open Hcdb.Memtable
open Hcdb.Sstable
open Hcdb.Wal

section Window

variable [Runtime]

/-- The entries of the memtable that the fsynced part of the log does not give back. -/
def DB.exposed (db : DB) (fsynced : Nat) : List Entry :=
  db.memtable.tree.filter fun e =>
    decide (e ∉ (openWAL (db.wal.writer.file.take fsynced)).replay.1)

/-- A loss of power costs less than a full count of entries. -/
def Life.LossBounded : Life → Prop
  | .running db fsynced _ => (db.exposed fsynced).length ≤ Config.defaultSyncThreshold - 1
  | .down _ => True

/-- A process that starts from a log finds all of its records in the fsynced part. -/
def SyncedRestart (s : Life) (event : LifeEvent) : Prop :=
  match s, event with
  | .down disk, .restart =>
      (openWAL disk.log).replay.1 = (openWAL (disk.log.take disk.fsynced)).replay.1
  | _, _ => True

/-- The log holds the records `synced`, which are fsynced, and then `unsynced`, of which
the counter knows. -/
structure Window (db : DB) (fsynced : Nat) (synced unsynced : List Entry) : Prop where
  stream : db.wal.writer.stream = encodeRecords (synced ++ unsynced)
  covered : fsynced = (encodeRecords synced).length
  reached : fsynced ≤ db.wal.writer.file.length
  written : ∀ e ∈ synced ++ unsynced, Written e
  memtable : ∀ e ∈ db.memtable.tree, e ∈ synced ++ unsynced
  counted : unsynced.length ≤ db.wal.putCounter
  counter : db.wal.putCounter < Config.defaultSyncThreshold

variable {db : DB} {fsynced : Nat} {synced unsynced : List Entry}

theorem encodeRecords_append (es es' : List Entry) :
    encodeRecords (es ++ es') = encodeRecords es ++ encodeRecords es' :=
  List.flatMap_append

theorem Window.take_file (h : Window db fsynced synced unsynced) :
    db.wal.writer.file.take fsynced = encodeRecords synced := by
  have hreached := h.reached
  have hstream := h.stream
  rw [encodeRecords_append, Writer.stream] at hstream
  have htake := congrArg (List.take fsynced) hstream
  rwa [List.take_append_of_le_length hreached, h.covered, List.take_left, ← h.covered] at htake

theorem Window.lossBounded (h : Window db fsynced synced unsynced) (flushing : Bool) :
    (Life.running db fsynced flushing).LossBounded := by
  have hreplay : (openWAL (db.wal.writer.file.take fsynced)).replay.1 = synced := by
    rw [h.take_file, replay_of_frames (frames_encodeRecords fun e he =>
      (h.written e (List.mem_append_left _ he)).loggable)]
  have hsub : db.exposed fsynced ⊆ unsynced := by
    intro e he
    obtain ⟨hmem, hout⟩ := List.mem_filter.mp he
    rw [hreplay, decide_eq_true_eq] at hout
    exact (List.mem_append.mp (h.memtable e hmem)).resolve_left hout
  have hnodup : (db.exposed fsynced).Nodup := db.memtable.sorted.nodup.filter _
  have hle := (hnodup.subperm hsub).length_le
  have hcounted := h.counted
  have hcounter := h.counter
  change (db.exposed fsynced).length ≤ _
  omega

/-- A write is exposed until the count is complete, and then nothing is. -/
theorem Window.write (h : Window db fsynced synced unsynced) {op : Op} (hop : op.Accepted) :
    ∃ synced' unsynced', Window (op.write db) (fsyncedBy db fsynced op) synced' unsynced' := by
  cases hentry : op.entry? (db.seqNum + 1) with
  | none =>
      obtain rfl := entry?_eq_none hentry
      exact ⟨synced, unsynced, h⟩
  | some e =>
      have hby : fsyncedBy db fsynced op =
          if Config.defaultSyncThreshold ≤ db.wal.putCounter + 1 then
            (op.write db).wal.writer.file.length else fsynced := by
        cases op with
        | put key value => rfl
        | delete key => rfl
        | flush => simp [Op.entry?] at hentry
      have hwal : (op.write db).wal = db.wal.write e := by rw [Op.write_eq, hentry]
      have hmemtable : (op.write db).memtable = insertEntry db.memtable e := by
        rw [Op.write_eq, hentry]
      have hstream : (op.write db).wal.writer.stream =
          encodeRecords (synced ++ unsynced ++ [e]) := by
        rw [hwal, WAL.stream_write, h.stream, encodeRecords_append (synced ++ unsynced)]
        simp [encodeRecords]
      have hwritten : ∀ x ∈ synced ++ unsynced ++ [e], Written x := by
        intro x hx
        rcases List.mem_append.mp hx with hx | hx
        · exact h.written x hx
        · exact List.mem_singleton.mp hx ▸ entry?_written hentry hop
      have hmem : ∀ x ∈ (op.write db).memtable.tree, x ∈ synced ++ unsynced ++ [e] := by
        intro x hx
        rw [hmemtable, insertEntry, mem_insert_tree] at hx
        rcases hx with rfl | ⟨hx, -⟩
        · simp
        · exact List.mem_append_left _ (h.memtable x hx)
      by_cases hfull : Config.defaultSyncThreshold ≤ db.wal.putCounter + 1
      · -- the count is complete: the file is the stream, and all of it is fsynced
        have hfile : (op.write db).wal.writer.file = encodeRecords (synced ++ unsynced ++ [e]) := by
          rw [← hstream, hwal, WAL.write_synced e hfull]
          exact (List.append_nil _).symm
        have hcounter : (op.write db).wal.putCounter = 0 := by rw [hwal, WAL.write_synced e hfull]
        rw [hby, if_pos hfull]
        rw [← List.append_nil (synced ++ unsynced ++ [e])] at hstream hwritten hmem
        exact ⟨synced ++ unsynced ++ [e], [], hstream, congrArg List.length hfile, le_rfl,
          hwritten, hmem, Nat.zero_le _, hcounter ▸ by decide⟩
      · have hwrite := WAL.write_of_counting e (not_le.mp hfull)
        have hcounter : (op.write db).wal.putCounter = db.wal.putCounter + 1 := by
          rw [hwal, hwrite]
        have hfile : db.wal.writer.file <+: (op.write db).wal.writer.file := by
          rw [hwal, hwrite]
          exact WAL.file_prefix_append db.wal e
        have hcounted := h.counted
        rw [hby, if_neg hfull]
        rw [List.append_assoc] at hstream hwritten hmem
        refine ⟨synced, unsynced ++ [e], hstream, h.covered, h.reached.trans hfile.length_le,
          hwritten, hmem, ?_, ?_⟩
        · rw [List.length_append, List.length_singleton, hcounter]
          omega
        · rw [hcounter]
          omega

theorem window_of_empty (hstream : db.wal.writer.stream = []) (hmem : db.memtable.tree = [])
    (hcounter : db.wal.putCounter < Config.defaultSyncThreshold) : Window db 0 [] [] where
  stream := hstream
  covered := rfl
  reached := Nat.zero_le _
  written := by simp
  memtable := by simp [hmem]
  counted := Nat.zero_le _
  counter := hcounter

/-- A flush leaves the records in the log or takes the entries out of the memtable with
them, wherever it stops. -/
theorem Window.flush (h : Window db fsynced synced unsynced) {env : Env}
    (hseek : env.fails .walSeek = false) :
    ∃ synced' unsynced', Window (db.flushMemtableLocked env).1
      (min fsynced (db.flushMemtableLocked env).1.wal.writer.file.length) synced' unsynced' := by
  obtain ⟨-, hcounter, hmem, hlog⟩ := DB.flushMemtableLocked_frame hseek db
  rcases hlog with hwal | ⟨hempty, hnew⟩
  · rw [hwal, Nat.min_eq_left h.reached]
    refine ⟨synced, unsynced, hwal.symm ▸ h.stream, h.covered, hwal.symm ▸ h.reached, h.written,
      ?_, hwal.symm ▸ h.counted, hwal.symm ▸ h.counter⟩
    rcases hmem with hmem | hmem
    · rw [hmem]
      exact h.memtable
    · rw [hmem]
      simp [newMemTable]
  · have hstream : (db.flushMemtableLocked env).1.wal.writer.stream = [] := by
      rw [hempty]
      rfl
    have hzero : min fsynced (db.flushMemtableLocked env).1.wal.writer.file.length = 0 := by
      rw [hempty]
      exact Nat.min_zero _
    rw [hzero]
    exact ⟨[], [], window_of_empty hstream (by rw [hnew]; rfl) (hcounter ▸ h.counter)⟩

theorem length_encodeRecords_wholeWithin_le (n : Nat) (es : List Entry) :
    (encodeRecords (wholeWithin n es)).length ≤ n := by
  rw [wholeWithin_eq_take, ← flatten_take_records]
  exact (Lib.Framing.flatten_take_wholeCount n (es.map encodeRecord)).length_le.trans
    (List.length_take_le _ _)

/-- A process keeps the window, and what it leaves of the log are records. -/
def Life.Windowed : Life → Prop
  | .running db fsynced _ => ∃ synced unsynced, Window db fsynced synced unsynced
  | .down disk => ∃ es, (∀ e ∈ es, Written e) ∧ disk.log <+: encodeRecords es ∧
      disk.fsynced ≤ disk.log.length

theorem Window.leaves (h : Window db fsynced synced unsynced) {disk : Disk}
    (hlog : disk.log <+: db.wal.writer.stream) (hfsynced : disk.fsynced ≤ disk.log.length) :
    (Life.down disk).Windowed :=
  ⟨synced ++ unsynced, h.written, h.stream ▸ hlog, hfsynced⟩

/-- The condition speaks of what replay returns; here it is read as one about whole records. -/
theorem wholeWithin_of_syncedRestart {disk : Disk} {es : List Entry}
    (hloggable : ∀ e ∈ es, Loggable e) (hlog : disk.log = (encodeRecords es).take disk.log.length)
    (hle : disk.fsynced ≤ disk.log.length) (hsynced : SyncedRestart (.down disk) .restart) :
    wholeWithin disk.log.length es = wholeWithin disk.fsynced es := by
  have hall := congrArg Prod.fst (WAL.replay_take hloggable disk.log.length)
  have hpart := congrArg Prod.fst (WAL.replay_take hloggable disk.fsynced)
  have htake : disk.log.take disk.fsynced = (encodeRecords es).take disk.fsynced := by
    rw [hlog, List.take_take, min_eq_left hle]
  rw [← hlog] at hall
  rw [← htake] at hpart
  exact hall.symm.trans (hsynced.trans hpart)

/-- `Open` starts the count at zero, which is right if all records are fsynced. -/
theorem window_restart {disk : Disk} (h : (Life.down disk).Windowed)
    (hsynced : SyncedRestart (.down disk) .restart)
    (hopen : openDB disk.log disk.files disk.ticks = .ok db) :
    ∃ synced unsynced, Window db (min disk.fsynced db.wal.writer.file.length) synced unsynced := by
  obtain ⟨es, hwritten, hinitial, hle⟩ := h
  obtain ⟨tables, maxSeq, -, -, hdb⟩ := openDB_eq_ok hopen
  have hlog : disk.log = (encodeRecords es).take disk.log.length :=
    List.prefix_iff_eq_take.mp hinitial
  have hloggable : ∀ e ∈ es, Loggable e := fun e he => (hwritten e he).loggable
  have hrebuild := rebuildMemtable_take hloggable (fun e he => (hwritten e he).tombstone)
    disk.log.length
  rw [← hlog] at hrebuild
  have hsame := wholeWithin_of_syncedRestart hloggable hlog hle hsynced
  have hwal : db.wal = openWAL (encodeRecords (wholeWithin disk.fsynced es)) := by
    rw [hdb, hrebuild, hsame]
  have hmem : db.memtable = memtableOf (wholeWithin disk.fsynced es) := by
    rw [hdb, hrebuild, hsame]
  have hfits := length_encodeRecords_wholeWithin_le disk.fsynced es
  have hfile : db.wal.writer.file = encodeRecords (wholeWithin disk.fsynced es) := by
    rw [hwal]
    rfl
  rw [hfile, min_eq_right hfits]
  refine ⟨wholeWithin disk.fsynced es, [], ?_, rfl, hfile ▸ le_rfl, ?_, ?_, Nat.zero_le _, ?_⟩
  · rw [hwal, List.append_nil]
    exact List.append_nil _
  · rw [List.append_nil]
    exact fun e he => hwritten e ((wholeWithin_initial _ es).subset he)
  · rw [hmem, List.append_nil]
    exact fun e he => mem_of_mem_memtableOf he
  · have hzero : db.wal.putCounter = 0 := by
      rw [hwal]
      rfl
    rw [hzero]
    decide

theorem windowed_start : Life.start.Windowed :=
  ⟨[], [], window_of_empty rfl rfl (by decide)⟩

theorem Window.withWatermark (h : Window db fsynced synced unsynced) (watermark : Watermark) :
    Window { db with watermark } fsynced synced unsynced :=
  ⟨h.stream, h.covered, h.reached, h.written, h.memtable, h.counted, h.counter⟩

theorem windowed_step {clock : Nat → Nat} {s s' : Life} {event : LifeEvent} (h : s.Windowed)
    (hmay : SyncedRestart s event) (hstep : LifeStep clock s event s') : s'.Windowed := by
  cases hstep with
  | write hop =>
      obtain ⟨synced, unsynced, h⟩ := h
      exact h.write hop
  | flush =>
      obtain ⟨synced, unsynced, h⟩ := h
      exact h.flush rfl
  | flushFails _ hseek =>
      obtain ⟨synced, unsynced, h⟩ := h
      exact h.flush hseek
  | getSnapshot =>
      obtain ⟨synced, unsynced, h⟩ := h
      exact ⟨synced, unsynced, h.withWatermark _⟩
  | releaseSnapshot =>
      obtain ⟨synced, unsynced, h⟩ := h
      exact ⟨synced, unsynced, h.withWatermark _⟩
  | close =>
      obtain ⟨synced, unsynced, h⟩ := h
      exact h.leaves (List.prefix_refl _) (min_le_right _ _)
  | kill hop hlog =>
      obtain ⟨synced, unsynced, h⟩ := h
      obtain ⟨synced', unsynced', hwrite⟩ := h.write hop
      exact hwrite.leaves hlog (min_le_right _ _)
  | killFlushing _ hlog =>
      obtain ⟨synced, unsynced, h⟩ := h
      exact h.leaves hlog (min_le_right _ _)
  | sweep => exact h
  | restart hopen => exact window_restart h hmay hopen

/-- Over any number of processes a loss of power costs less than a full count of entries,
if every one of them starts from records that are fsynced. -/
theorem loss_bounded {clock : Nat → Nat} {s : Life}
    (h : Reaches (LifeStep clock) SyncedRestart Life.start s) : s.LossBounded := by
  have hwindowed : s.Windowed := h.invariant Life.Windowed windowed_start
    fun _ _ _ hs hmay hstep => windowed_step hs hmay hstep
  cases s with
  | running db fsynced flushing =>
      obtain ⟨synced, unsynced, hwindow⟩ := hwindowed
      exact hwindow.lossBounded flushing
  | down disk => trivial

theorem size_le_writeAll (db : DB) (ops : List Op) :
    db.memtable.size ≤ (writeAll db ops).memtable.size := by
  rw [writeAll_eq, foldl_insertEntry_size]
  exact Nat.le_add_right _ _

theorem reaches_writeAll {clock : Nat → Nat} {db : DB}
    (h : Reaches (LifeStep clock) FileKept Life.start (.running db 0 false)) {ops : List Op}
    (hop : ∀ op ∈ ops, op.Accepted ∧ op ≠ .flush)
    (hcount : db.wal.putCounter + ops.length < Config.defaultSyncThreshold)
    (hroom : (writeAll db ops).memtable.size < Config.defaultMemtableFlushSize) :
    Reaches (LifeStep clock) FileKept Life.start (.running (writeAll db ops) 0 false) := by
  induction ops generalizing db with
  | nil => exact h
  | cons op ops ih =>
      obtain ⟨haccepted, hwrite⟩ := hop op (by simp)
      rw [List.length_cons] at hcount
      have hroom' : (writeAll (op.write db) ops).memtable.size < Config.defaultMemtableFlushSize :=
        hroom
      have hflush : op.flushes db = false := by
        have hsize := (size_le_writeAll (op.write db) ops).trans_lt hroom'
        cases op with
        | put key value => exact decide_eq_false (not_le.mpr hsize)
        | delete key => exact decide_eq_false (not_le.mpr hsize)
        | flush => exact absurd rfl hwrite
      obtain ⟨e, hentry⟩ : ∃ e, op.entry? (db.seqNum + 1) = some e :=
        Option.ne_none_iff_exists'.mp fun hnone => hwrite (entry?_eq_none hnone)
      have hcounter : (op.write db).wal.putCounter = db.wal.putCounter + 1 := by
        rw [Op.write_eq, hentry]
        simp only
        rw [WAL.write_of_counting e (by omega)]
      have hfsynced : fsyncedBy db 0 op = 0 := by
        cases op with
        | put key value => exact if_neg (by omega)
        | delete key => exact if_neg (by omega)
        | flush => rfl
      have hstep := @LifeStep.write _ clock db 0 op haccepted
      rw [hflush, hfsynced] at hstep
      have hkept : FileKept (.running db 0 false) (.write op) := trivial
      exact ih (h.step hkept hstep) (fun op' h' => hop op' (by simp [h']))
        (by rw [hcounter]; omega) hroom'

theorem exposed_zero (db : DB) : db.exposed 0 = db.memtable.tree := by
  have hreplay : (openWAL []).replay.1 = [] := rfl
  simp [DB.exposed, hreplay]

theorem syncedRestart_close (db : DB) :
    SyncedRestart (.down (db.close.leaves db.close.wal.writer.file.length db.close.wal.writer.file))
      .restart := by
  change (openWAL db.close.wal.writer.file).replay.1 = (openWAL (db.close.wal.writer.file.take
    (min db.close.wal.writer.file.length db.close.wal.writer.file.length))).replay.1
  rw [min_self, List.take_length]

end Window

/-- Two writes, which do not fit into the buffer together if the value is as long as it. -/
def firstLife (value : Bytes) : List Op := [.put [] value, .put [] value]

/-- As many writes as there can be before the next `Sync`. -/
def secondLife : List Op := List.replicate (Config.defaultSyncThreshold - 1) (.put [] [])

theorem firstLife_accepted {value : Bytes} (h : value.length = bufferSize) :
    ∀ op ∈ firstLife value, op.Accepted ∧ op ≠ .flush := by
  have hput : Op.Accepted (.put [] value) := by
    refine ⟨Nat.zero_le _, ?_⟩
    rw [h]
    decide
  rw [firstLife, List.forall_mem_cons, List.forall_mem_singleton]
  exact ⟨⟨hput, by simp⟩, hput, by simp⟩

theorem secondLife_accepted : ∀ op ∈ secondLife, op.Accepted ∧ op ≠ .flush := by
  intro op hop
  obtain rfl := List.eq_of_mem_replicate hop
  exact ⟨by decide, by simp⟩

theorem history_firstLife (value : Bytes) : history 0 (firstLife value) =
    [{ key := (makeInternalKey [] 1 internalKeyKindSet).encode, value },
     { key := (makeInternalKey [] 2 internalKeyKindSet).encode, value }] := rfl

theorem size_firstLife {value : Bytes} (h : value.length = bufferSize) :
    ((history 0 (firstLife value)).map fun e => e.key.length + e.value.length).sum =
      2 * (8 + bufferSize) := by
  rw [history_firstLife]
  simp only [List.map_cons, List.map_nil, List.sum_cons, List.sum_nil, InternalKey.encode_length, h]
  rfl

theorem size_secondLife (seqNum : Nat) :
    ((history seqNum secondLife).map fun e => e.key.length + e.value.length).sum = 72 := by
  simp [secondLife, Config.defaultSyncThreshold, history, Op.entry?, InternalKey.encode_length,
    InternalKey.size, makeInternalKey, internalTrailerLen]

section SecondLife

variable [Runtime] {value : Bytes}

theorem firstLife_survives (h : value.length = bufferSize) :
    wholeWithin (writeAll emptyDB (firstLife value)).wal.writer.file.length
      (history 0 (firstLife value)) ≠ [] := by
  have hlength : ∀ seqNum, recordLength
      { key := (makeInternalKey [] seqNum internalKeyKindSet).encode, value } =
        24 + bufferSize := by
    intro seqNum
    rw [recordLength, InternalKey.encode_length, h]
    rfl
  have hstream : (writeAll emptyDB (firstLife value)).wal.writer.stream =
      encodeRecords (history 0 (firstLife value)) := by
    rw [writeAll_wal, stream_foldl_write]
    rfl
  have hbuf : (writeAll emptyDB (firstLife value)).wal.writer.buf.length ≤ bufferSize := by
    rw [writeAll_wal]
    exact WAL.length_buf_foldl_write_le _ (Nat.zero_le _)
  have htotal := congrArg List.length hstream
  rw [Writer.stream, List.length_append, encodeRecords_length, history_firstLife] at htotal
  simp only [List.map_cons, List.map_nil, List.sum_cons, List.sum_nil, hlength] at htotal
  rw [history_firstLife, wholeWithin, hlength, if_pos (by omega)]
  simp

theorem length_le_reopened_writeAll {es : List Entry}
    (hes : es.Pairwise fun a b => a.seqNum < b.seqNum) {ops : List Op}
    (hop : ∀ op ∈ ops, op.Accepted ∧ op ≠ .flush) (dir : TableDir) (ticks : Nat)
    (hfew : (reopened [] es dir ticks).seqNum + ops.length ≤ seqNumMax) :
    es.length + ops.length ≤ (writeAll (reopened [] es dir ticks) ops).memtable.tree.length := by
  have haccepted : ∀ op ∈ ops, op.Accepted := fun op h' => (hop op h').1
  have hpairwise : (es ++ history (reopened [] es dir ticks).seqNum ops).Pairwise
      fun a b => a.seqNum < b.seqNum := by
    refine List.pairwise_append.mpr ⟨hes, history_pairwise haccepted hfew, fun a ha b hb => ?_⟩
    have hle : a.seqNum ≤ (reopened [] es dir ticks).seqNum :=
      ((le_maxSeqNumOf 0 es).2 a ha).trans (le_max_left _ _)
    exact hle.trans_lt (history_recorded haccepted hfew b hb).after
  have hmemtable : (writeAll (reopened [] es dir ticks) ops).memtable =
      memtableOf (es ++ history (reopened [] es dir ticks).seqNum ops) := by
    rw [writeAll_eq, memtableOf, List.foldl_append]
    rfl
  have hnodup : (es ++ history (reopened [] es dir ticks).seqNum ops).Nodup :=
    hpairwise.imp fun hlt heq => (congrArg Entry.seqNum heq ▸ hlt).false
  have hsub : (es ++ history (reopened [] es dir ticks).seqNum ops) ⊆
      (writeAll (reopened [] es dir ticks) ops).memtable.tree := by
    intro x hx
    rw [hmemtable]
    exact (mem_memtableOf hpairwise x).mpr hx
  have hle := (hnodup.subperm hsub).length_le
  rwa [List.length_append, history_length fun op h' => (hop op h').2] at hle

theorem reaches_secondLife (h : value.length = bufferSize) :
    ∃ w dir ticks, w ≠ [] ∧ w <+: history 0 (firstLife value) ∧
      Reaches (LifeStep stampedClock) FileKept Life.start
        (.running (reopened [] w dir ticks) 0 false) := by
  have hop := firstLife_accepted h
  have hrecorded := history_recorded (fun op hmem => (hop op hmem).1)
    (by change 2 ≤ seqNumMax; decide : 0 + (firstLife value).length ≤ seqNumMax)
  have hfirst : Reaches (LifeStep stampedClock) FileKept Life.start
      (.running (writeAll emptyDB (firstLife value)) 0 false) := by
    refine reaches_writeAll .start hop ?_ ?_
    · change 0 + 2 < Config.defaultSyncThreshold
      decide
    · rw [writeAll_eq, foldl_insertEntry_size]
      change 0 + ((history 0 (firstLife value)).map _).sum < _
      rw [size_firstLife h]
      decide
  have hsurvives := firstLife_survives h
  have hstream : (writeAll emptyDB (firstLife value)).wal.writer.stream =
      encodeRecords (history 0 (firstLife value)) := by
    rw [writeAll_wal, stream_foldl_write]
    rfl
  have hdir : (writeAll emptyDB (firstLife value)).dir = emptyDB.dir := writeAll_dir _ _
  generalize writeAll emptyDB (firstLife value) = db at hfirst hsurvives hstream hdir
  -- what the kill leaves is what had reached the file
  have hkept : FileKept (.running db 0 false) (.kill .flush db.wal.writer.file) := rfl
  have hdown := hfirst.step hkept (LifeStep.kill trivial (List.prefix_append _ _))
  have hfile : db.wal.writer.file =
      (encodeRecords (history 0 (firstLife value))).take db.wal.writer.file.length :=
    List.prefix_iff_eq_take.mp (hstream ▸ List.prefix_append _ _)
  have hopen := openDB_eq listed_emptyDB (fun e he => loggable_of_wellFormed
    (hrecorded e he).wellFormed) (fun e he => (hrecorded e he).tombstone) db.wal.writer.file.length
    db.ticks
  rw [← hfile, ← hdir] at hopen
  have hstep := @LifeStep.restart _ stampedClock (db.leaves 0 db.wal.writer.file) _ hopen
  have hzero : (db.leaves 0 db.wal.writer.file).fsynced = 0 := Nat.zero_min _
  rw [hzero, Nat.zero_min] at hstep
  exact ⟨_, db.dir, db.ticks, hsurvives, wholeWithin_initial _ _,
    hdown.step (trivial : FileKept (.down _) .restart) hstep⟩

/-- Two writes, a kill, `Open`, and nine writes: the first write was never fsynced, the
count starts again, and ten entries are not covered. -/
theorem exists_not_lossBounded (h : value.length = bufferSize) :
    ∃ s, Reaches (LifeStep stampedClock) FileKept Life.start s ∧ ¬ s.LossBounded := by
  obtain ⟨w, dir, ticks, hne, hinitial, hup⟩ := reaches_secondLife h
  have haccepted : ∀ op ∈ firstLife value, op.Accepted :=
    fun op hmem => (firstLife_accepted h op hmem).1
  have hfew : 0 + (firstLife value).length ≤ seqNumMax := by
    change 2 ≤ seqNumMax
    decide
  have hlength := List.length_pos_of_ne_nil hne
  have hseqNum : (reopened [] w dir ticks).seqNum ≤ 2 := by
    refine max_le (maxSeqNumOf_le (Nat.zero_le _) fun e he => ?_) (Nat.zero_le _)
    exact history_seqNum_le haccepted hfew e (hinitial.subset he)
  have hsize : (writeAll (reopened [] w dir ticks) secondLife).memtable.size ≤
      2 * (8 + bufferSize) + 72 := by
    have hw := (hinitial.sublist.map fun e : Entry => e.key.length + e.value.length).sum_le_sum
      fun _ _ => Nat.zero_le _
    rw [size_firstLife h] at hw
    rw [writeAll_eq, foldl_insertEntry_size, size_secondLife]
    refine Nat.add_le_add_right ?_ 72
    change (memtableOf w).size ≤ _
    rw [memtableOf, foldl_insertEntry_size]
    exact (Nat.zero_add _).trans_le hw
  -- the count of the new process starts at zero, whatever it found in the log
  have hcount : (reopened [] w dir ticks).wal.putCounter + secondLife.length <
      Config.defaultSyncThreshold := by
    change 0 + 9 < Config.defaultSyncThreshold
    decide
  refine ⟨_, reaches_writeAll hup secondLife_accepted hcount (hsize.trans_lt (by decide)), ?_⟩
  have hmany := length_le_reopened_writeAll
    ((history_pairwise haccepted hfew).sublist hinitial.sublist) secondLife_accepted dir ticks
    ((Nat.add_le_add_right hseqNum _).trans (by decide))
  have hnine : secondLife.length = 9 := rfl
  have hthreshold : Config.defaultSyncThreshold = 10 := rfl
  change ¬ (DB.exposed _ 0).length ≤ _
  rw [exposed_zero]
  omega

end SecondLife

/-- A value as long as the buffer of the log. -/
def largeValue : Bytes := List.replicate bufferSize 0

theorem restart_exposes_ten :
    ∃ s, Reaches (LifeStep stampedClock) FileKept Life.start s ∧ ¬ s.LossBounded :=
  exists_not_lossBounded (List.length_replicate : largeValue.length = bufferSize)

def putOnce : Op := .put [1] [2]

theorem putOnce_recorded : ∀ e ∈ history 0 [putOnce], Recorded 0 e :=
  history_recorded (by decide) (by decide)

theorem openDB_putOnce : openDB (encodeRecords (history 0 [putOnce])) emptyDB.dir 0 =
    .ok (reopened [] (history 0 [putOnce]) emptyDB.dir 0) := by
  have hopen := openDB_eq listed_emptyDB (fun e he => loggable_of_wellFormed
    (putOnce_recorded e he).wellFormed) (fun e he => (putOnce_recorded e he).tombstone)
    (encodeRecords (history 0 [putOnce])).length 0
  rwa [List.take_length, wholeWithin_all] at hopen

/-- `Open` replays the record that `Close` has synced, and a second write follows. -/
theorem loss_bounded_reopened :
    ∃ (db : DB) (fsynced : Nat), db.memtable.tree.length = 2 ∧ 0 < fsynced ∧
      Reaches (LifeStep stampedClock) SyncedRestart Life.start (.running db fsynced false) ∧
      (Life.running db fsynced false).LossBounded := by
  have hput : putOnce.Accepted := by decide
  have hwritten : Reaches (LifeStep stampedClock) SyncedRestart Life.start
      (.running (writeAll emptyDB [putOnce]) 0 false) :=
    Reaches.start.step (trivial : SyncedRestart Life.start (.write putOnce)) (LifeStep.write hput)
  have hstream : (writeAll emptyDB [putOnce]).wal.writer.stream =
      encodeRecords (history 0 [putOnce]) := by
    rw [writeAll_wal, stream_foldl_write]
    rfl
  have hdir : (writeAll emptyDB [putOnce]).dir = emptyDB.dir := writeAll_dir _ _
  have hticks : (writeAll emptyDB [putOnce]).ticks = 0 := rfl
  generalize writeAll emptyDB [putOnce] = db at hwritten hstream hdir hticks
  have hdown := hwritten.step (trivial : SyncedRestart (.running db 0 false) .close) LifeStep.close
  have hopen : openDB db.close.wal.writer.file db.dir db.ticks =
      .ok (reopened [] (history 0 [putOnce]) emptyDB.dir 0) := by
    rw [hdir, hticks, ← openDB_putOnce, ← hstream]
    rfl
  have hup := hdown.step (syncedRestart_close db) (LifeStep.restart hopen)
  have hfsynced : min (db.close.leaves db.close.wal.writer.file.length
        db.close.wal.writer.file).fsynced
      (reopened [] (history 0 [putOnce]) emptyDB.dir 0).wal.writer.file.length =
        (encodeRecords (history 0 [putOnce])).length := by
    change min (min db.wal.writer.stream.length db.wal.writer.stream.length)
      (encodeRecords (history 0 [putOnce])).length = _
    rw [hstream, min_self, min_self]
  rw [hfsynced] at hup
  have hpos : 0 < (encodeRecords (history 0 [putOnce])).length := by
    rw [encodeRecords_length]
    decide
  have hrun := hup.step (trivial : SyncedRestart (.running _ _ false) (.write putOnce))
    (LifeStep.write hput)
  exact ⟨_, _, rfl, hpos, hrun, loss_bounded hrun⟩

end Hcdb.Db
