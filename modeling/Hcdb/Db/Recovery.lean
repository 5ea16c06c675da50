import Hcdb.Db.History
import Hcdb.Wal.Replay

namespace Hcdb.Db

open Hcdb.Lib.ByteString
open Hcdb.Lib.BufferedWriter
open Hcdb.Lib.FiniteMap
open Hcdb.Lib.SortedList
open Hcdb.Base
open Hcdb.Memtable
open Hcdb.Sstable
open Hcdb.Compaction
open Hcdb.Wal

theorem maxSeqNumOf_append (maxSeq : Nat) (es es' : List Entry) :
    maxSeqNumOf maxSeq (es ++ es') = maxSeqNumOf (maxSeqNumOf maxSeq es) es' :=
  List.foldl_append

theorem le_maxSeqNumOf (maxSeq : Nat) (es : List Entry) :
    maxSeq ≤ maxSeqNumOf maxSeq es ∧ ∀ e ∈ es, e.seqNum ≤ maxSeqNumOf maxSeq es := by
  induction es generalizing maxSeq with
  | nil => simp [maxSeqNumOf]
  | cons e es ih =>
      obtain ⟨hstart, hes⟩ := ih (if maxSeq < e.seqNum then e.seqNum else maxSeq)
      rw [maxSeqNumOf, List.foldl_cons, ← maxSeqNumOf]
      refine ⟨le_trans (by split <;> omega) hstart, fun x hx => ?_⟩
      rcases List.mem_cons.mp hx with rfl | hx
      · exact le_trans (by split <;> omega) hstart
      · exact hes x hx

theorem maxSeqNumOf_le {maxSeq bound : Nat} {es : List Entry} (hstart : maxSeq ≤ bound)
    (h : ∀ e ∈ es, e.seqNum ≤ bound) : maxSeqNumOf maxSeq es ≤ bound := by
  induction es generalizing maxSeq with
  | nil => exact hstart
  | cons e es ih =>
      rw [maxSeqNumOf, List.foldl_cons, ← maxSeqNumOf]
      apply ih _ fun x hx => h x (by simp [hx])
      have := h e (by simp)
      split <;> omega

section Open

variable [Runtime]

theorem maxSeqNumInTables_append {dir : TableDir} {ts : List Table}
    (h : ∀ t ∈ ts, dir.read t.name = some t.content) (maxSeq : Nat) (ssts : List SSTable) :
    maxSeqNumInTables dir maxSeq (ts.map Table.sst ++ ssts) =
      maxSeqNumInTables dir (maxSeqNumOf maxSeq (layersOf ts).flatten) ssts := by
  induction ts generalizing maxSeq with
  | nil => rfl
  | cons t ts ih =>
      rw [List.map_cons, List.cons_append, maxSeqNumInTables,
        Table.newBlockIterator_eq (h t (by simp))]
      simp only
      have hflat : (layersOf (t :: ts)).flatten = t.entries ++ (layersOf ts).flatten := rfl
      rw [ih fun t' ht' => h t' (by simp [ht']), hflat, maxSeqNumOf_append]

theorem maxSeqNumInTables_eq {dir : TableDir} {ts : List Table}
    (h : ∀ t ∈ ts, dir.read t.name = some t.content) (maxSeq : Nat) :
    maxSeqNumInTables dir maxSeq (ts.map Table.sst) =
      .ok (maxSeqNumOf maxSeq (layersOf ts).flatten) := by
  have happend := maxSeqNumInTables_append h maxSeq []
  rwa [List.append_nil] at happend

theorem maxSeqNumInTables_spec {dir : TableDir} {ssts : List SSTable} {maxSeq result : Nat}
    (h : maxSeqNumInTables dir maxSeq ssts = .ok result) :
    maxSeq ≤ result ∧
      (∀ sst ∈ ssts, ∀ es, newBlockIterator dir sst = .ok es → ∀ e ∈ es, e.seqNum ≤ result) ∧
      ∀ bound, maxSeq ≤ bound → (∀ sst ∈ ssts, ∀ es, newBlockIterator dir sst = .ok es →
        ∀ e ∈ es, e.seqNum ≤ bound) → result ≤ bound := by
  induction ssts generalizing maxSeq with
  | nil =>
      obtain rfl := Except.ok.inj h
      exact ⟨le_rfl, by simp, fun bound hle _ => hle⟩
  | cons sst ssts ih =>
      rw [maxSeqNumInTables] at h
      cases hread : newBlockIterator dir sst with
      | error e => simp [hread] at h
      | ok es =>
          simp only [hread] at h
          obtain ⟨hstart, hread', hleast⟩ := ih h
          obtain ⟨hfirst, hes⟩ := le_maxSeqNumOf maxSeq es
          refine ⟨hfirst.trans hstart, ?_, ?_⟩
          · intro sst' hsst' es' hes' e he
            rcases List.mem_cons.mp hsst' with rfl | hsst'
            · obtain rfl := Except.ok.inj (hread.symm.trans hes')
              exact (hes e he).trans hstart
            · exact hread' sst' hsst' es' hes' e he
          · intro bound hle hall
            refine hleast bound (maxSeqNumOf_le hle (hall sst (by simp) es hread)) ?_
            exact fun sst' hsst' => hall sst' (by simp [hsst'])

/-- The database that `Open` makes of these tables and these records. -/
def reopened (ts : List Table) (es : List Entry) (dir : TableDir) (ticks : Nat) : DB where
  wal := openWAL (encodeRecords es)
  memtable := memtableOf es
  sstables := ts.map Table.sst
  seqNum := max (maxSeqNumOf 0 es) (maxSeqNumOf 0 (layersOf ts).flatten)
  watermark := newWatermark
  dir
  ticks

/-- The memtable, the counter and the log that `Open` makes of the first `n` bytes of a
log. -/
theorem rebuildMemtable_take {es : List Entry} (hlog : ∀ e ∈ es, Loggable e)
    (htomb : ∀ e ∈ es, e.kind = internalKeyKindDelete → e.value = []) (n : Nat) :
    rebuildMemtable (openWAL ((encodeRecords es).take n)) =
      (memtableOf (wholeWithin n es), maxSeqNumOf 0 (wholeWithin n es),
        openWAL (encodeRecords (wholeWithin n es))) := by
  have hsub := (wholeWithin_initial n es).subset
  rw [rebuildMemtable, WAL.replay_take hlog n]
  simp only [foldl_rebuildEntry fun e he => htomb e (hsub he)]
  rfl

theorem openDB_eq {dir : TableDir} {ts : List Table} (h : Listed dir ts) {es : List Entry}
    (hlog : ∀ e ∈ es, Loggable e)
    (htomb : ∀ e ∈ es, e.kind = internalKeyKindDelete → e.value = []) (n ticks : Nat) :
    openDB ((encodeRecords es).take n) dir ticks =
      .ok (reopened ts (wholeWithin n es) dir ticks) := by
  rw [openDB, rebuildMemtable_take hlog htomb]
  simp only [h.openAllInDir_eq, maxSeqNumInTables_eq h.held]
  rfl

theorem openDB_eq_ok {log : Bytes} {dir : TableDir} {ticks : Nat} {db : DB}
    (h : openDB log dir ticks = .ok db) :
    ∃ tables maxSeq, openAllInDir dir = .ok tables ∧
      maxSeqNumInTables dir 0 tables = .ok maxSeq ∧
      db = { wal := (rebuildMemtable (openWAL log)).2.2
             memtable := (rebuildMemtable (openWAL log)).1
             sstables := tables
             seqNum := max (rebuildMemtable (openWAL log)).2.1 maxSeq
             watermark := newWatermark
             dir
             ticks } := by
  rw [openDB] at h
  cases htables : openAllInDir dir with
  | error e => simp [htables] at h
  | ok tables =>
      simp only [htables] at h
      cases hmax : maxSeqNumInTables dir 0 tables with
      | error e => simp [hmax] at h
      | ok maxSeq =>
          simp only [hmax, Except.ok.injEq] at h
          exact ⟨tables, maxSeq, rfl, hmax, h.symm⟩

variable {clock : Nat → Nat} {db : DB} {ts : List Table}

theorem listed_flushedDB (hl : Listed db.dir ts) (h : Represents clock db ts)
    (hclock : StrictMono clock) (hstamp : ∀ i ≤ db.ticks, Stamp (clock i))
    (hcount : (flushedTable clock h).Countable) :
    Listed (flushedDB clock db).dir (flushedTable clock h :: ts) := by
  have hfresh := h.fresh hclock le_rfl
  refine ⟨?_, ?_, ?_⟩
  · intro name content
    by_cases heq : name = sstName (clock db.ticks)
    · subst heq
      have hread : (Db.flushedDB clock db).dir.read (sstName (clock db.ticks)) =
          some (flushedTable clock h).content := FMap.read_write_self _ _ _
      rw [hread, Option.some.injEq]
      constructor
      · rintro rfl
        exact ⟨_, by simp, rfl, rfl⟩
      · rintro ⟨t, ht, hname, rfl⟩
        rcases List.mem_cons.mp ht with rfl | ht
        · rfl
        · have := hl.held t ht
          rw [hname, hfresh] at this
          simp at this
    · have hread : (Db.flushedDB clock db).dir.read name = db.dir.read name :=
        FMap.read_write_of_ne _ _ heq
      rw [hread, hl.stores name content]
      constructor
      · rintro ⟨t, ht, hname, hcontent⟩
        exact ⟨t, by simp [ht], hname, hcontent⟩
      · rintro ⟨t, ht, hname, hcontent⟩
        rcases List.mem_cons.mp ht with rfl | ht
        · exact absurd hname.symm heq
        · exact ⟨t, ht, hname, hcontent⟩
  · refine List.Pairwise.cons (fun t ht => ?_) hl.descending
    have hread : db.dir.read t.name ≠ none := by
      rw [hl.held t ht]
      simp
    obtain ⟨i, hi, hname⟩ := h.stamped t.name hread
    rw [hname]
    exact sstName_lt (hstamp i hi.le) (hstamp _ le_rfl) (hclock hi)
  · intro t ht
    rcases List.mem_cons.mp ht with rfl | ht
    · exact hcount
    · exact hl.countable t ht

theorem listed_emptyDB : Listed emptyDB.dir [] where
  stores name content := by simp [emptyDB]
  descending := List.Pairwise.nil
  countable := by simp

theorem Ordered.writeAll (h : Ordered clock db ts) {ops : List Op} (hop : ∀ op ∈ ops, op.Accepted)
    (hfew : db.seqNum + ops.length ≤ seqNumMax) : Ordered clock (writeAll db ops) ts := by
  induction ops generalizing db with
  | nil => exact h
  | cons op ops ih =>
      rw [List.length_cons] at hfew
      refine ih (h.write (by omega) (hop op (by simp))) (fun op' h' => hop op' (by simp [h'])) ?_
      have hle := history_length_le db.seqNum [op]
      have hseq : (op.write db).seqNum = db.seqNum + (history db.seqNum [op]).length :=
        congrArg DB.seqNum (writeAll_eq db [op])
      rw [hseq]
      rw [List.length_singleton] at hle
      omega

end Open

end Hcdb.Db
