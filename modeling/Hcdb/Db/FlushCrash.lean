import Hcdb.Db.Recovery

/-!
A crash between the installation of a table and the reset of the log.  `Open` finds
the complete table and, in front of it, a memtable rebuilt from what is left of the
log, which point reads trust over the table.
-/

namespace Hcdb.Db

open Hcdb.Lib.ByteString
open Hcdb.Lib.BufferedWriter
open Hcdb.Lib.FiniteMap
open Hcdb.Lib.SortedList
open Hcdb.Base
open Hcdb.Memtable
open Hcdb.Sstable
open Hcdb.Compaction
open Hcdb.Wal

section Crash

variable [Runtime]

/-- The database with nothing in its memtable and its log, and with tables that
`Open` would list as they are. -/
structure Settled (clock : Nat → Nat) (db : DB) (ts : List Table) : Prop where
  ordered : Ordered clock db ts
  emptyMem : db.memtable = newMemTable
  emptyLog : db.wal.writer.stream = []
  listed : Listed db.dir ts

theorem settled_emptyDB (clock : Nat → Nat) : Settled clock emptyDB [] where
  ordered := ordered_emptyDB clock
  emptyMem := rfl
  emptyLog := rfl
  listed := listed_emptyDB

/-- Accepted writes, none of which but the last finds the memtable full. -/
structure Filling (db : DB) (ops : List Op) : Prop where
  accepted : ∀ op ∈ ops, op.Accepted
  writes : ∀ op ∈ ops, op ≠ .flush
  room : ∀ n < ops.length,
    (writeAll db (ops.take n)).memtable.size < Config.defaultMemtableFlushSize

/-- Every `Get` of `db'` returns what it returns on `db`, and every `Scan` of `db'`
yields the pairs of these `Get`s. -/
def SameReads (db db' : DB) : Prop :=
  (∀ key, db'.get key = db.get key) ∧
  ∀ lowerBound upperBound, ∃ m, db'.scan lowerBound upperBound = .ok m ∧
    SortedBy Prod.fst m.drain ∧
    ∀ u v, (u, v) ∈ m.drain ↔ inRange lowerBound upperBound u = true ∧ db.get u = some v

variable {clock : Nat → Nat} {db : DB} {ts : List Table} {ops : List Op}

theorem Filling.run_eq (h : Filling db ops) (stat : Stat) {n : Nat} (hn : n < ops.length) :
    run clock db ((ops.take n).map fun op => { op, stat }) = writeAll db (ops.take n) := by
  induction n with
  | zero => rfl
  | succ n ih =>
      have hprev := ih (by omega)
      have hlt : n < ops.length := by omega
      have hsplit : ops.take (n + 1) = ops.take n ++ [ops[n]] :=
        List.take_succ_eq_append_getElem hlt
      have hroom := h.room (n + 1) hn
      have hne := h.writes _ (List.getElem_mem hlt)
      rw [hsplit, writeAll_append] at hroom
      rw [hsplit, writeAll_append, List.map_append, List.map_singleton, run_append, hprev]
      have haccept : (Call.mk ops[n] stat).op.Accepted := h.accepted _ (List.getElem_mem hlt)
      have hcalm : (writeAll db (ops.take n)).compacting clock ops[n] = none := by
        have hsize : ¬ Config.defaultMemtableFlushSize ≤
            (ops[n].write (writeAll db (ops.take n))).memtable.size := not_le.mpr hroom
        unfold DB.compacting
        cases hop : ops[n] with
        | put key value => simp_all [Op.flushes]
        | delete key => simp_all [Op.flushes]
        | flush => exact absurd hop hne
      rw [DB.step_eq haccept, hcalm]

theorem Filling.length_lt (h : Filling db ops) (hfew : db.seqNum + ops.length ≤ seqNumMax) :
    ops.length < 2 ^ 32 := by
  by_cases hnil : ops.length = 0
  · omega
  · have hroom := h.room (ops.length - 1) (by omega)
    have hsub : ∀ op ∈ ops.take (ops.length - 1), op ∈ ops := fun op hop => List.mem_of_mem_take hop
    have hlen : (ops.take (ops.length - 1)).length = ops.length - 1 := by
      rw [List.length_take]
      omega
    have hcount := length_le_foldl_insertEntry_size (fun e he => (history_recorded
      (fun op hop => h.accepted op (hsub op hop)) (by omega : db.seqNum + _ ≤ seqNumMax) e
        he).wellFormed) db.memtable
    rw [history_length fun op hop => h.writes op (hsub op hop), hlen] at hcount
    rw [writeAll_eq] at hroom
    unfold Config.defaultMemtableFlushSize at hroom
    simp only at hroom
    omega

theorem stored_reopened (ts : List Table) (es : List Entry) (dir : TableDir) (ticks : Nat) :
    stored (reopened ts es dir ticks) ts = (memtableOf es).tree ++ (layersOf ts).flatten := rfl

theorem flushTable_dir (clock : Nat → Nat) (stat : Stat) (db : DB) :
    (db.flushTable (healthy clock stat)).1.dir = (flushedDB clock db).dir := by
  simp only [DB.flushTable, healthy, flush_eq, Bool.false_eq_true, if_false]
  rfl

theorem Settled.memtable_writeAll (h : Settled clock db ts) (ops : List Op) :
    (writeAll db ops).memtable = memtableOf (history db.seqNum ops) := by
  rw [writeAll_eq, h.emptyMem]
  rfl

theorem Settled.stream_writeAll (h : Settled clock db ts) (ops : List Op) :
    (writeAll db ops).wal.writer.stream = encodeRecords (history db.seqNum ops) := by
  rw [writeAll_eq, stream_foldl_write, h.emptyLog]
  rfl

/-- What is on the disk in the crash opens as the installed table in front of the
others, with the surviving writes in the memtable. -/
theorem Settled.openDB_crash (h : Settled clock db ts) (hclock : StrictMono clock)
    (hfill : Filling db ops) (hstamp : ∀ i ≤ db.ticks, Stamp (clock i))
    (hfew : db.seqNum + ops.length ≤ seqNumMax) (stat : Stat) (n : Nat) :
    ∃ t, t.entries = (writeAll db ops).memtable.tree ∧
      openDB ((writeAll db ops).wal.writer.stream.take n)
          ((writeAll db ops).flushTable (healthy clock stat)).1.dir (db.ticks + 1) =
        .ok (reopened (t :: ts) (history db.seqNum (survivingOps n ops))
          (flushedDB clock (writeAll db ops)).dir (db.ticks + 1)) ∧
      Represents clock (reopened (t :: ts) (history db.seqNum (survivingOps n ops))
          (flushedDB clock (writeAll db ops)).dir (db.ticks + 1)) (t :: ts) := by
  have hord := h.ordered.writeAll hfill.accepted hfew
  have hrec := history_recorded hfill.accepted hfew
  have hpair := history_pairwise hfill.accepted hfew
  have hcount : (flushedTable clock hord.toRepresents).Countable := by
    apply Table.countable_of_length_lt
    change (writeAll db ops).memtable.tree.length < 2 ^ 32
    rw [h.memtable_writeAll]
    exact ((length_memtableOf_le hpair).trans (history_length_le _ _)).trans_lt
      (hfill.length_lt hfew)
  have hlisted : Listed (flushedDB clock (writeAll db ops)).dir
      (flushedTable clock hord.toRepresents :: ts) := by
    apply listed_flushedDB _ hord.toRepresents hclock _ hcount
    · rw [writeAll_dir]
      exact h.listed
    · rw [writeAll_ticks]
      exact hstamp
  refine ⟨flushedTable clock hord.toRepresents, rfl, ?_, ?_⟩
  · rw [h.stream_writeAll, flushTable_dir, openDB_eq hlisted
      (fun e he => loggable_of_wellFormed (hrec e he).wellFormed)
      (fun e he => (hrec e he).tombstone), wholeWithin_history]
  · have hflushed := hord.toRepresents.flushedDB hclock
    have hsub := (survivingOps_initial n ops).subset
    have hlen := (survivingOps_initial n ops).length_le
    refine ⟨rfl, hlisted.held, hlisted.nodup, ?_, ?_⟩
    · have hticks : (flushedDB clock (writeAll db ops)).ticks = db.ticks + 1 :=
        congrArg (· + 1) (writeAll_ticks db ops)
      exact hticks ▸ hflushed.stamped
    · intro e he
      have hacc : ∀ op ∈ survivingOps n ops, op.Accepted := fun op hop =>
        hfill.accepted op (hsub hop)
      have hfew' : db.seqNum + (survivingOps n ops).length ≤ seqNumMax := by omega
      exact (history_recorded hacc hfew' e
        ((mem_memtableOf (history_pairwise hacc hfew') e).mp he)).wellFormed

/-- A scan is not misled by older copies in the memtable: it merges all versions and
takes the newest. -/
theorem Ordered.newestAt_copies (h : Ordered clock db ts) {copies : List Entry}
    (hs : Sorted copies) (hsub : ∀ e ∈ copies, e ∈ db.memtable.tree) (key : Bytes)
    (snapshot : Nat) :
    newestAt (copies :: db.memtable.tree :: layersOf ts) key snapshot =
      versionAt (stored db ts) key snapshot := by
  have hsorted := db.sorted_of_mem_layers ts
  have hnf : NewestFirst (db.memtable.tree :: layersOf ts).flatten := h.newestFirst
  refine (newestAt_congr ?_ hsorted ?_ fun a ha b hb => hnf.eq_of_ik_eq ha hb).trans
    (hnf.newestAt_eq hsorted)
  · intro l hl
    rcases List.mem_cons.mp hl with rfl | hl
    · exact hs
    · exact hsorted l hl
  · intro e
    rw [List.flatten_cons, List.mem_append]
    constructor
    · rintro (he | he)
      · exact List.mem_append_left _ (hsub e he)
      · exact he
    · exact Or.inr

theorem Settled.get_writeAll (h : Settled clock db ts) (hop : ∀ op ∈ ops, op.Accepted)
    (hfew : db.seqNum + ops.length ≤ seqNumMax) {key : Bytes} {op : Op} (hmem : op ∈ ops)
    (hw : op.writes key = true) : (writeAll db ops).get key = lastWrite ops key := by
  obtain ⟨hans, hnone⟩ := versionAt_memtableOf hop hfew key
  rw [DB.get, (h.ordered.writeAll hop hfew).getAt_eq key le_rfl, stored, versionAt_append,
    h.memtable_writeAll]
  cases hv : versionAt (memtableOf (history db.seqNum ops)).tree key seqNumMax with
  | none =>
      rw [hnone.mp hv op hmem] at hw
      simp at hw
  | some e => rw [← hans, hv, Option.some_or]

/-- After the crash a key with a surviving record reads as the last of them, any other
key as before. -/
theorem Settled.get_crash (h : Settled clock db ts) (hclock : StrictMono clock)
    (hfill : Filling db ops) (hstamp : ∀ i ≤ db.ticks, Stamp (clock i))
    (hfew : db.seqNum + ops.length ≤ seqNumMax) (stat : Stat) (n : Nat) :
    ∃ db', openDB ((writeAll db ops).wal.writer.stream.take n)
        ((writeAll db ops).flushTable (healthy clock stat)).1.dir (db.ticks + 1) = .ok db' ∧
      (∀ key, db'.get key = if ∃ op ∈ survivingOps n ops, op.writes key = true then
        lastWrite (survivingOps n ops) key else (writeAll db ops).get key) ∧
      ∀ lowerBound upperBound, ∃ m, db'.scan lowerBound upperBound = .ok m ∧
        SortedBy Prod.fst m.drain ∧ ∀ u v, (u, v) ∈ m.drain ↔
          inRange lowerBound upperBound u = true ∧ (writeAll db ops).get u = some v := by
  obtain ⟨t, ht, hopen, hrep⟩ := h.openDB_crash hclock hfill hstamp hfew stat n
  have hord := h.ordered.writeAll hfill.accepted hfew
  have hsub := (survivingOps_initial n ops).subset
  have hlen := (survivingOps_initial n ops).length_le
  have hacc : ∀ op ∈ survivingOps n ops, op.Accepted := fun op hop => hfill.accepted op (hsub hop)
  have hfew' : db.seqNum + (survivingOps n ops).length ≤ seqNumMax := by omega
  have hget : ∀ key, (writeAll db ops).get key =
      answer (versionAt (stored (writeAll db ops) ts) key seqNumMax) :=
    fun key => hord.getAt_eq key le_rfl
  refine ⟨_, hopen, fun key => ?_, fun lowerBound upperBound => ?_⟩
  · have hfront : stored (reopened (t :: ts) (history db.seqNum (survivingOps n ops))
        (flushedDB clock (writeAll db ops)).dir (db.ticks + 1)) (t :: ts) =
        (memtableOf (history db.seqNum (survivingOps n ops))).tree ++
          stored (writeAll db ops) ts := by
      rw [stored_reopened, layersOf, List.map_cons, List.flatten_cons, ht]
      rfl
    rw [DB.get, hrep.getAt_eq key le_rfl, hfront, versionAt_append,
      answer_memtableOf_or hacc hfew', ← hget]
  · obtain ⟨m, hm, hsorted, hpairs⟩ := hrep.scanAt_spec lowerBound upperBound le_rfl
    refine ⟨m, hm, hsorted, fun u v => ?_⟩
    have hcopies : ∀ e ∈ (memtableOf (history db.seqNum (survivingOps n ops))).tree,
        e ∈ (writeAll db ops).memtable.tree := by
      intro e he
      rw [h.memtable_writeAll, mem_memtableOf (history_pairwise hfill.accepted hfew)]
      rw [mem_memtableOf (history_pairwise hacc hfew'), ← wholeWithin_history] at he
      exact (wholeWithin_initial n _).subset he
    have hnewest := hord.newestAt_copies
      (memtableOf (history db.seqNum (survivingOps n ops))).sorted hcopies u seqNumMax
    rw [hpairs u v, hget u, ← hnewest, ← ht]
    rfl

/-- After a crash between the installation of the table and the reset of the log,
reads are what they were exactly when every key with a surviving record has as its
last surviving record one with the outcome of its last record of all. -/
theorem crash_before_reset_iff (h : Settled clock db ts) (hclock : StrictMono clock)
    (hfill : Filling db ops) (hstamp : ∀ i ≤ db.ticks, Stamp (clock i))
    (hfew : db.seqNum + ops.length ≤ seqNumMax) (stat : Stat) (n : Nat) :
    ∃ db', openDB ((writeAll db ops).wal.writer.stream.take n)
        ((writeAll db ops).flushTable (healthy clock stat)).1.dir (db.ticks + 1) = .ok db' ∧
      (SameReads (writeAll db ops) db' ↔
        ∀ key, (∃ op ∈ survivingOps n ops, op.writes key = true) →
          lastWrite (survivingOps n ops) key = lastWrite ops key) := by
  obtain ⟨db', hopen, hget, hscan⟩ := h.get_crash hclock hfill hstamp hfew stat n
  refine ⟨db', hopen, ?_⟩
  have hsub := (survivingOps_initial n ops).subset
  have hkey : ∀ key, db'.get key = (writeAll db ops).get key ↔
      ((∃ op ∈ survivingOps n ops, op.writes key = true) →
        lastWrite (survivingOps n ops) key = lastWrite ops key) := by
    intro key
    rw [hget]
    split
    · rename_i hwritten
      obtain ⟨op, hop, hw⟩ := hwritten
      rw [h.get_writeAll hfill.accepted hfew (hsub hop) hw]
      exact ⟨fun heq _ => heq, fun himp => himp ⟨op, hop, hw⟩⟩
    · rename_i hnot
      exact iff_of_true rfl fun hwritten => absurd hwritten hnot
  constructor
  · rintro ⟨hsame, -⟩ key
    exact (hkey key).mp (hsame key)
  · intro hcond
    exact ⟨fun key => (hkey key).mpr (hcond key), hscan⟩

end Crash

/-- One write, with its record whole in the log. -/
theorem crash_before_reset_onePut :
    ∃ db', openDB ((writeAll emptyDB [.put [107] [1]]).wal.writer.stream.take 26)
        ((writeAll emptyDB [.put [107] [1]]).flushTable (healthy stampedClock fileSizes)).1.dir 1 =
          .ok db' ∧
      SameReads (writeAll emptyDB [.put [107] [1]]) db' := by
  have hfill : Filling emptyDB [.put [107] [1]] := ⟨by decide, by decide, by decide⟩
  obtain ⟨db', hopen, hiff⟩ := crash_before_reset_iff (settled_emptyDB stampedClock)
    stampedClock_strictMono hfill (by decide) (by decide) fileSizes 26
  refine ⟨db', hopen, hiff.mpr fun key _ => ?_⟩
  have hall : survivingOps 26 [.put [107] [1]] = [.put [107] [1]] := by decide
  rw [hall]

/-- A batch that was synced, and one more write of the same key. -/
def tornOps : List Op := List.replicate 10 (.put [107] [1]) ++ [.put [107] [2]]

theorem filling_tornOps : Filling emptyDB tornOps where
  accepted := by decide
  writes := by decide
  room := by decide

theorem file_tornOps : (writeAll emptyDB tornOps).wal.writer.file =
    (writeAll emptyDB tornOps).wal.writer.stream.take 260 := by
  have hes : history emptyDB.seqNum tornOps =
      history 0 (List.replicate 9 (.put [107] [1])) ++
        [setVersion [107] 10 [1], setVersion [107] 11 [2]] := rfl
  have hnine : (encodeRecords (history 0 (List.replicate 9 (.put [107] [1])))).length = 234 := by
    rw [encodeRecords_length]
    rfl
  have hten : (encodeRecord (setVersion [107] 10 [1])).length = 26 := encodeRecord_length _
  have hunsynced : (history 0 (List.replicate 9 (.put [107] [1]))).foldl WAL.write emptyDB.wal =
      { writer :=
          { file := [], buf := encodeRecords (history 0 (List.replicate 9 (.put [107] [1]))) }
        putCounter := 9 } :=
    WAL.foldl_write_unsynced (by rw [hnine]; decide) (by decide)
  rw [writeAll_wal, hes, List.foldl_append, hunsynced, List.foldl_cons,
    WAL.write_synced _ (by decide), List.foldl_cons, WAL.write_unsynced (by decide) (by decide),
    List.foldl_nil]
  simp only [Writer.stream, List.nil_append]
  rw [List.take_left' (by rw [List.length_append, hnine, hten])]

theorem run_tornOps :
    run stampedClock emptyDB (tornOps.map fun op => { op, stat := fileSizes }) =
      writeAll emptyDB tornOps := by
  have hfill : Filling emptyDB (tornOps ++ [.put [107] [2]]) := ⟨by decide, by decide, by decide⟩
  have hrun := @Filling.run_eq _ stampedClock _ _ hfill fileSizes tornOps.length (by decide)
  rwa [List.take_left] at hrun

/-- `Get` returned the new value before the crash and returns the old one after. -/
theorem crash_before_reset_stale :
    ∃ db, run stampedClock emptyDB (tornOps.map fun op => { op, stat := fileSizes }) = db ∧
      db.get [107] = some [2] ∧
      ∃ db', openDB db.wal.writer.file
          (db.flushTable (healthy stampedClock fileSizes)).1.dir 1 = .ok db' ∧
        db'.get [107] = some [1] := by
  have hsettled := settled_emptyDB stampedClock
  refine ⟨writeAll emptyDB tornOps, run_tornOps, ?_, ?_⟩
  · exact hsettled.get_writeAll filling_tornOps.accepted (by decide)
      (by decide : Op.put [107] [2] ∈ tornOps) (by decide)
  · obtain ⟨db', hopen, hget, -⟩ := hsettled.get_crash stampedClock_strictMono filling_tornOps
      (by decide) (by decide) fileSizes 260
    refine ⟨db', by rw [file_tornOps]; exact hopen, ?_⟩
    rw [hget, if_pos (by decide)]
    decide

end Hcdb.Db
