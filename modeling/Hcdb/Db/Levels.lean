import Hcdb.Db.Run

/-!
The database as levels: the memtable and the tables are nothing but sorted runs of
versions, and a file is nothing but its size.  The database refines this model, so
what a run does can be worked out on the runs of versions alone.
-/

namespace Hcdb.Db

open Hcdb.Lib.ByteString
open Hcdb.Lib.SortedList
open Hcdb.Base
open Hcdb.Memtable
open Hcdb.Sstable
open Hcdb.Compaction

/-- `size` is the byte count of the memtable, `floor` that of the watermark. -/
structure Levels where
  mem : List Entry
  size : Nat
  tables : List (List Entry)
  seqNum : Nat
  floor : Nat

namespace Levels

def empty : Levels where
  mem := []
  size := 0
  tables := []
  seqNum := 0
  floor := seqNumMax

/-- A version with the next number goes into the memtable. -/
def written (l : Levels) (kind : InternalKeyKind) (userKey value : Bytes) : Levels :=
  let key := (makeInternalKey userKey (l.seqNum + 1) kind).encode
  { l with
    mem := insertBy Entry.ik { key, value } l.mem
    size := l.size + (key.length + value.length)
    seqNum := l.seqNum + 1 }

def write (l : Levels) : Op → Levels
  | .put key value => l.written internalKeyKindSet key value
  | .delete key => l.written internalKeyKindDelete key []
  | .flush => l

def flushes (l : Levels) : Op → Bool
  | .flush => true
  | op => decide (Config.defaultMemtableFlushSize ≤ (l.write op).size)

/-- All stored versions, level by level. -/
def versions (l : Levels) : List Entry := l.mem ++ l.tables.flatten

section Compact

variable [Runtime]

/-- What a compaction that finds the files at their real sizes makes of the tables. -/
def compacted (floor : Nat) (tables : List (List Entry)) : List (List Entry) :=
  if tables.length < Config.defaultCompactionThreshold then tables
  else (groupBySize fileSize tables).map (outEntries floor)

/-- The memtable becomes the newest table, and all tables are compacted. -/
def flushed (l : Levels) : Levels :=
  { l with mem := [], size := 0, tables := compacted l.floor (l.mem :: l.tables) }

def step (l : Levels) (op : Op) : Levels :=
  if l.flushes op then (l.write op).flushed else l.write op

end Compact

end Levels

/-- Levels that no snapshot is pinned on. -/
def unpinned (mem : List Entry) (size : Nat) (tables : List (List Entry)) (seqNum : Nat) :
    Levels where
  mem
  size
  tables
  seqNum
  floor := seqNumMax

section Refinement

variable [Runtime]

/-- The levels of the database are `l`. -/
structure Shows (clock : Nat → Nat) (db : DB) (l : Levels) : Prop where
  mem : db.memtable.tree = l.mem
  size : db.memtable.size = l.size
  tables : ∃ ts, Represents clock db ts ∧ layersOf ts = l.tables
  seqNum : db.seqNum = l.seqNum
  floor : db.watermark.floor = l.floor

variable {clock : Nat → Nat} {db : DB} {l : Levels}

theorem shows_emptyDB (clock : Nat → Nat) : Shows clock emptyDB Levels.empty where
  mem := rfl
  size := rfl
  tables := ⟨[], represents_emptyDB, rfl⟩
  seqNum := rfl
  floor := Watermark.floor_newWatermark

theorem Shows.getAt_eq (h : Shows clock db l) (key : Bytes) {snapshot : Nat}
    (hsnap : snapshot ≤ seqNumMax) :
    db.getAt key snapshot = answer (versionAt l.versions key snapshot) := by
  obtain ⟨ts, hts, htables⟩ := h.tables
  rw [hts.getAt_eq key hsnap, stored, h.mem, htables, Levels.versions]

theorem Shows.layers_eq (h : Shows clock db l) : db.layers = l.tables := by
  obtain ⟨ts, hts, htables⟩ := h.tables
  rw [hts.layers_eq, htables]

theorem Shows.layers_flushedDB (h : Shows clock db l) (hclock : StrictMono clock) :
    (flushedDB clock db).layers = l.mem :: l.tables := by
  obtain ⟨ts, hts, htables⟩ := h.tables
  rw [(hts.flushedDB hclock).layers_eq, ← htables, ← h.mem]
  rfl

theorem Shows.written (h : Shows clock db l) {kind : InternalKeyKind} {userKey value : Bytes}
    (hkind : kind ≤ internalKeyKindMax) (hkey : userKey.length ≤ Config.maxKeyLength)
    (hvalue : value.length ≤ Config.maxValueLength) :
    Shows clock (db.written kind userKey value) (l.written kind userKey value) := by
  obtain ⟨ts, hts, htables⟩ := h.tables
  have hwf : ∀ e ∈ (db.written kind userKey value).memtable.tree, e.WellFormed := by
    intro e he
    rcases (mem_insert_tree db.memtable _ _).mp he with rfl | ⟨he, -⟩
    · exact Entry.wellFormed_encode hkey hvalue hkind
    · exact hts.wellFormed e he
  refine ⟨?_, ?_, ⟨ts, ⟨hts.sstables, hts.held, hts.nodup, hts.stamped, hwf⟩, htables⟩, ?_, h.floor⟩
  · simp only [DB.written, DB.nextEntry, MemTable.insert, Levels.written, h.mem, h.seqNum]
  · simp only [DB.written, DB.nextEntry, MemTable.insert, Levels.written, h.size, h.seqNum]
  · simp only [DB.written, Levels.written, h.seqNum]

theorem Shows.write (h : Shows clock db l) {op : Op} (hop : op.Accepted) :
    Shows clock (op.write db) (l.write op) := by
  cases op with
  | put key value =>
      exact h.written (by decide : internalKeyKindSet ≤ internalKeyKindMax) hop.1 hop.2
  | delete key => exact h.written (by decide) hop (by simp [Config.maxValueLength])
  | flush => exact h

theorem groupsOf_fileSizes {dir : TableDir} {ts : List Table}
    (h : ∀ t ∈ ts, dir.read t.name = some t.content) :
    groupsOf (fileSizes dir) ts = groupBySize (fun t => fileSize t.entries) ts := by
  apply groupBySize_congr
  intro t ht
  rw [statSize, fileSizes, h t ht]
  exact fileOf_length t.entries

theorem Shows.flushed (h : Shows clock db l) (hclock : StrictMono clock)
    (hnf : NewestFirst l.versions) :
    Shows clock ((flushedDB clock db).compactTables (healthy clock fileSizes)).1 l.flushed := by
  obtain ⟨ts, hts, htables⟩ := h.tables
  have hflushed := hts.flushedDB hclock
  have hlayers : layersOf (flushedTable clock hts :: ts) = l.mem :: l.tables := by
    rw [layersOf, List.map_cons, ← layersOf, htables, ← h.mem]
    rfl
  have hnf' : NewestFirst (layersOf (flushedTable clock hts :: ts)).flatten := by
    rw [hlayers]
    exact hnf
  rw [hflushed.compactTables_eq hclock hnf' fileSizes]
  refine ⟨rfl, rfl, ⟨_, hflushed.compactedDB hclock hnf' fileSizes, ?_⟩, h.seqNum, h.floor⟩
  have hlen : (flushedTable clock hts :: ts).length = (l.mem :: l.tables).length := by
    rw [← hlayers, List.length_map]
  have hfloor : (Db.flushedDB clock db).watermark.floor = l.floor := h.floor
  simp only [Levels.flushed, Levels.compacted, ← hlen]
  split
  · rename_i hsmall
    rw [compactedTables, resultOf, if_pos hsmall, hlayers]
  · rename_i hbig
    rw [compactedTables, (hflushed.ready hclock hnf' fileSizes).layersOf_resultOf _ hbig, hfloor,
      ← hlayers]
    congr 1
    exact (congrArg (List.map layersOf) (groupsOf_fileSizes hflushed.held)).trans
      (groupBySize_map Table.entries fileSize _).symm

theorem Shows.withWatermark (h : Shows clock db l) (w : Watermark) :
    Shows clock { db with watermark := w } { l with floor := w.floor } := by
  obtain ⟨ts, hts, htables⟩ := h.tables
  exact ⟨h.mem, h.size, ⟨ts, ⟨hts.sstables, hts.held, hts.nodup, hts.stamped, hts.wellFormed⟩,
    htables⟩, h.seqNum, rfl⟩

theorem Shows.flushMemtableLocked (h : Shows clock db l) (hclock : StrictMono clock)
    (hnf : NewestFirst l.versions) :
    Shows clock (db.flushMemtableLocked (healthy clock fileSizes)).1 l.flushed := by
  rw [flushMemtableLocked_healthy]
  exact h.flushed hclock hnf

theorem Shows.recencyKept (h : Shows clock db l) (hclock : StrictMono clock)
    (hnf : NewestFirst l.versions) (hbounded : ∀ e ∈ l.versions, e.seqNum ≤ l.seqNum)
    (hafter : NewestFirst l.flushed.tables.flatten) :
    RecencyKept fileSizes (flushedDB clock db) := by
  obtain ⟨ts, hts, htables⟩ := h.tables
  have hstored : stored db ts = l.versions := by rw [stored, h.mem, htables, Levels.versions]
  have hordered : Ordered clock db ts :=
    ⟨hts, hstored ▸ hnf, fun e he => h.seqNum ▸ hbounded e (hstored ▸ he)⟩
  have hflushed := hordered.flushedDB hclock
  have hlayers := (h.flushed hclock hnf).layers_eq
  rw [hflushed.toRepresents.compactTables_eq hclock hflushed.layers_newestFirst,
    (hflushed.toRepresents.compactedDB hclock hflushed.layers_newestFirst fileSizes).layers_eq]
    at hlayers
  rw [hflushed.recencyKept_iff hclock, hlayers]
  exact hafter

theorem Shows.flushes_eq (h : Shows clock db l) {op : Op} (hop : op.Accepted) :
    op.flushes db = l.flushes op := by
  have hwrite := h.write hop
  cases op with
  | put key value => simp only [Op.flushes, Levels.flushes, hwrite.size]
  | delete key => simp only [Op.flushes, Levels.flushes, hwrite.size]
  | flush => rfl

/-- A call on a healthy disk does to the levels what the model says, as long as the
tables it compacts are newest first. -/
theorem Shows.step (h : Shows clock db l) (hclock : StrictMono clock) {op : Op}
    (hop : op.Accepted) (hnf : l.flushes op = true → NewestFirst (l.write op).versions) :
    Shows clock (db.step clock { op, stat := fileSizes }).1 (l.step op) := by
  have hwrite := h.write hop
  have hstep := DB.step_eq (show (Call.mk op fileSizes).op.Accepted from hop) clock db
  rw [hstep, Levels.step, DB.compacting, h.flushes_eq hop]
  by_cases hfull : l.flushes op = true
  · simp only [hfull, if_true]
    exact hwrite.flushed hclock (hnf hfull)
  · simp only [hfull, Bool.false_eq_true, if_false]
    exact hwrite

/-- A run of accepted calls on the levels, each of which compacts, if at all, tables
that are newest first. -/
inductive Levels.Runs : Levels → List Op → Levels → Prop
  | nil (l : Levels) : Runs l [] l
  | cons {l l' l'' : Levels} {op : Op} {ops : List Op} (hop : op.Accepted)
      (hnf : l.flushes op = true → NewestFirst (l.write op).versions)
      (hstep : l.step op = l') (hrest : Runs l' ops l'') : Runs l (op :: ops) l''

theorem Levels.Runs.write {l l' l'' : Levels} {op : Op} {ops : List Op}
    (hop : op.Accepted) (hroom : l.flushes op = false)
    (hstep : l.step op = l') (hrest : Runs l' ops l'') : Runs l (op :: ops) l'' :=
  .cons hop (fun hfull => absurd (hroom.symm.trans hfull) Bool.false_ne_true) hstep hrest

theorem Levels.Runs.flush {l l' l'' : Levels} {ops : List Op} (hnf : NewestFirst l.versions)
    (hstep : l.step .flush = l') (hrest : Runs l' ops l'') : Runs l (.flush :: ops) l'' :=
  .cons trivial (fun _ => hnf) hstep hrest

/-- Calls for which `os.Stat` tells the sizes of the files. -/
def onDisk (ops : List Op) : List Call := ops.map fun op => { op, stat := fileSizes }

theorem Levels.Runs.accepted {l l' : Levels} {ops : List Op} (h : Runs l ops l') :
    ∀ call ∈ onDisk ops, call.op.Accepted := by
  induction h with
  | nil l => simp [onDisk]
  | cons hop hnf hstep hrest ih =>
      intro call hcall
      rcases List.mem_cons.mp hcall with rfl | hcall
      · exact hop
      · exact ih call hcall

theorem Shows.run {ops : List Op} {l' : Levels} (h : Shows clock db l) (hclock : StrictMono clock)
    (hruns : Levels.Runs l ops l') : Shows clock (run clock db (onDisk ops)) l' := by
  induction hruns generalizing db with
  | nil l => exact h
  | cons hop hnf hstep _ ih =>
      subst hstep
      exact ih (h.step hclock hop hnf)

end Refinement

end Hcdb.Db
