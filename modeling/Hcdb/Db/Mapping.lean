import Hcdb.Db.LastWrite
import Hcdb.Db.Snapshots

namespace Hcdb.Db

open Hcdb.Lib.ByteString
open Hcdb.Lib.SortedList
open Hcdb.Base
open Hcdb.Memtable
open Hcdb.Sstable
open Hcdb.Compaction

abbrev Contents := Bytes → Option Bytes

/-- The effect of a call on a map. -/
def Op.applyTo (contents : Contents) (op : Op) : Contents :=
  fun key => op.outcome key (contents key)

/-- The pairs that a scan of the map has to show. -/
def Contents.IsScan (contents : Contents) (lowerBound : Bytes) (upperBound : Option Bytes)
    (pairs : List (Bytes × Bytes)) : Prop :=
  SortedBy Prod.fst pairs ∧
    ∀ u v, (u, v) ∈ pairs ↔ inRange lowerBound upperBound u = true ∧ contents u = some v

section Maps

variable [Runtime]

/-- The newest version of every key says what the map says. -/
structure Maps (clock : Nat → Nat) (db : DB) (ts : List Table) (contents : Contents) : Prop
    extends Ordered clock db ts where
  newest : ∀ key, answer (versionAt (stored db ts) key seqNumMax) = contents key

variable {clock : Nat → Nat} {db : DB} {ts : List Table} {contents : Contents}

theorem Ordered.scanAt_isScan (h : Ordered clock db ts) (lowerBound : Bytes)
    (upperBound : Option Bytes) {snapshot : Nat} (hsnap : snapshot ≤ seqNumMax) :
    ∃ m, db.scanAt lowerBound upperBound snapshot = .ok m ∧
      Contents.IsScan (fun u => answer (versionAt (stored db ts) u snapshot)) lowerBound
        upperBound m.drain := by
  obtain ⟨m, hm, hsorted, hpairs⟩ := h.scanAt_spec lowerBound upperBound hsnap
  refine ⟨m, hm, hsorted, fun u v => ?_⟩
  have hnf : NewestFirst (db.memtable.tree :: layersOf ts).flatten := h.newestFirst
  rw [hpairs u v, hnf.newestAt_eq (db.sorted_of_mem_layers ts)]
  rfl

theorem Ordered.maps (h : Ordered clock db ts) : Maps clock db ts db.get where
  toOrdered := h
  newest key := (h.toRepresents.getAt_eq key le_rfl).symm

namespace Maps

theorem get_eq (h : Maps clock db ts contents) (key : Bytes) : db.get key = contents key :=
  (h.toRepresents.getAt_eq key le_rfl).trans (h.newest key)

theorem scan_eq (h : Maps clock db ts contents) (lowerBound : Bytes) (upperBound : Option Bytes) :
    ∃ m, db.scan lowerBound upperBound = .ok m ∧
      contents.IsScan lowerBound upperBound m.drain := by
  have hscan := h.toOrdered.scanAt_isScan lowerBound upperBound le_rfl
  rwa [funext h.newest] at hscan

theorem written (h : Maps clock db ts contents) (hseq : db.seqNum < seqNumMax)
    {kind : InternalKeyKind} {userKey value : Bytes} (hkind : kind ≤ internalKeyKindMax)
    (hkey : userKey.length ≤ Config.maxKeyLength) (hvalue : value.length ≤ Config.maxValueLength) :
    Maps clock (db.written kind userKey value) ts fun key =>
      if userKey = key then answer (some (db.nextEntry kind userKey value)) else contents key where
  toOrdered := h.toOrdered.written hseq hkind hkey hvalue
  newest key := by
    rw [h.toOrdered.versionAt_written hseq hkind hkey hvalue, ← h.newest key]
    by_cases hk : userKey = key
    · rw [if_pos ⟨hk, hseq⟩, if_pos hk]
    · rw [if_neg fun hc => hk hc.1, if_neg hk]

theorem write (h : Maps clock db ts contents) {op : Op} (hop : op.Accepted)
    (hseq : (op.write db).seqNum ≤ seqNumMax) :
    Maps clock (op.write db) ts (op.applyTo contents) := by
  cases op with
  | put key value =>
      have hset := h.written hseq (by decide : internalKeyKindSet ≤ internalKeyKindMax) hop.1 hop.2
      rwa [DB.answer_nextEntry_set] at hset
  | delete key =>
      have hempty : ([] : Bytes).length ≤ Config.maxValueLength := Nat.zero_le _
      have hdelete := h.written hseq (by decide : internalKeyKindDelete ≤ internalKeyKindMax) hop
        hempty
      rwa [DB.answer_nextEntry_delete] at hdelete
  | flush => exact h

theorem flush (h : Maps clock db ts contents) (hclock : StrictMono clock) {stat : Stat}
    (hkept : RecencyKept stat (flushedDB clock db)) :
    ∃ db' ts', db.flushMemtableLocked (healthy clock stat) = (db', .ok ()) ∧
      Maps clock db' ts' contents ∧ db'.seqNum = db.seqNum := by
  have hflushed := h.toOrdered.flushedDB hclock
  have hempty : (flushedDB clock db).memtable.tree = [] := rfl
  refine ⟨_, _, ?_, ⟨hflushed.compactedDB hclock hempty hkept, fun key => ?_⟩, rfl⟩
  · rw [flushMemtableLocked_healthy,
      hflushed.toRepresents.compactTables_eq hclock hflushed.layers_newestFirst]
  · rw [hflushed.versionAt_compactedDB hclock hempty hkept key
      (flushedDB clock db).watermark.floor_le_seqNumMax]
    exact h.newest key

theorem step (h : Maps clock db ts contents) (hclock : StrictMono clock) {call : Call}
    (hop : call.op.Accepted) (hseq : (call.op.write db).seqNum ≤ seqNumMax)
    (hkept : CallKeepsRecency clock db call) :
    ∃ db' ts', db.step clock call = (db', .ok ()) ∧
      Maps clock db' ts' (call.op.applyTo contents) := by
  have hwritten := h.write hop hseq
  rw [DB.step_eq hop]
  cases hcompacting : db.compacting clock call.op with
  | none => exact ⟨_, ts, rfl, hwritten⟩
  | some flushed =>
      have hflushed := hkept flushed hcompacting
      obtain rfl := DB.compacting_eq_some hcompacting
      obtain ⟨db', ts', heq, hmaps, -⟩ := hwritten.flush hclock hflushed
      rw [flushMemtableLocked_healthy] at heq
      exact ⟨db', ts', heq, hmaps⟩

theorem withWatermark (h : Maps clock db ts contents) (w : Watermark) :
    Maps clock { db with watermark := w } ts contents where
  toOrdered := h.toOrdered.withWatermark w
  newest := h.newest

theorem withWal (h : Maps clock db ts contents) (wal : Wal.WAL) :
    Maps clock { db with wal } ts contents where
  toRepresents := ⟨h.sstables, h.held, h.nodup, h.stamped, h.wellFormed⟩
  newestFirst := h.newestFirst
  bounded := h.bounded
  newest := h.newest

end Maps

end Maps

end Hcdb.Db
