import Hcdb.Db.Contents

/-!
Sequence numbers over the lives of a database.  `Open` takes the counter up at the
largest number it finds, and it finds all of them as long as the index of every table
lists all of its blocks.
-/

namespace Hcdb.Db

open Hcdb.Lib.ByteString
open Hcdb.Lib.BufferedWriter
open Hcdb.Lib.FiniteMap
open Hcdb.Lib.Transition
open Hcdb.Base
open Hcdb.Memtable
open Hcdb.Sstable
open Hcdb.Compaction (Holding)
open Hcdb.Wal

def Life.memtable : Life → List Entry
  | .running db _ _ => db.memtable.tree
  | .down _ => []

/-- What was appended to the log, also if it has not reached the file yet. -/
def Life.log : Life → Bytes
  | .running db _ _ => db.wal.writer.stream
  | .down disk => disk.log

/-- The table files of the state, running or not. -/
def Life.dir : Life → TableDir
  | .running db _ _ => db.dir
  | .down disk => disk.files

/-- Installs are atomic: no kill leaves a part of a table. -/
def LifeEvent.Atomic : LifeEvent → Prop
  | .killFlushing _ _ torn => torn = none
  | _ => True

/-- Writes, no two of them with one number. -/
structure Numbered (W : Set Entry) : Prop where
  written : ∀ e ∈ W, Written e
  unique : ∀ a ∈ W, ∀ b ∈ W, a.seqNum = b.seqNum → a = b

theorem Numbered.withinLimits {W : Set Entry} (h : Numbered W) : ∀ e ∈ W, WithinLimits e :=
  fun e he => withinLimits_of_loggable (h.written e he).loggable

theorem Numbered.subset {W W' : Set Entry} (h : Numbered W) (hsub : W' ⊆ W) : Numbered W' where
  written e he := h.written e (hsub he)
  unique a ha b hb := h.unique a (hsub ha) b (hsub hb)

theorem Numbered.insert {W : Set Entry} (h : Numbered W) {e : Entry} (he : Written e)
    (habove : ∀ x ∈ W, x.seqNum < e.seqNum) : Numbered (Set.insert e W) where
  written x hx := by
    rcases hx with rfl | hx
    · exact he
    · exact h.written x hx
  unique a ha b hb heq := by
    rcases ha with rfl | ha
    · rcases hb with rfl | hb
      · rfl
      · have := habove b hb
        omega
    · rcases hb with rfl | hb
      · have := habove a ha
        omega
      · exact h.unique a ha b hb heq

section Stored

variable [Runtime]

/-- The entry is in a table file, whether or not the index of the table leads to it. -/
def InFile (dir : TableDir) (e : Entry) : Prop :=
  ∃ name es, dir.read name = some (fileOf es) ∧ (∀ x ∈ es, WithinLimits x) ∧ e ∈ es

/-- The version is in the memtable, in the log or in a table file. -/
def Life.Stores (s : Life) (e : Entry) : Prop :=
  e ∈ s.memtable ∨ e ∈ (openWAL s.log).replay.1 ∨ InFile s.dir e

/-- The counter is not near its end. -/
def Life.Room (s : Life) : Prop :=
  ∀ e, s.Stores e → e.seqNum < seqNumMax - 1

/-- The footer of every table file can count its blocks. -/
def Life.Countable (s : Life) : Prop :=
  ∀ name es, s.dir.read name = some (fileOf es) → (∀ x ∈ es, WithinLimits x) →
    blockCount 0 (es.map entrySize) < 2 ^ 32

/-- Entries with one number are one write, and the next write goes before all versions
of its key. -/
def Life.Identified (s : Life) : Prop :=
  (∀ a b, s.Stores a → s.Stores b → a.seqNum = b.seqNum → a = b) ∧
    ∀ db fsynced flushing, s = .running db fsynced flushing → ∀ (op : Op) (e : Entry),
      op.Accepted → op.entry? (db.seqNum + 1) = some e →
        ∀ x, s.Stores x → x.userKey = e.userKey → e.ik < x.ik

variable {clock : Nat → Nat} {W : Set Entry} {db : DB}

/-- Everything a process stores was written from entries of `W`. -/
structure Serving (clock : Nat → Nat) (W : Set Entry) (db : DB) : Prop where
  log : ∃ ws, (∀ e ∈ ws, e ∈ W) ∧ db.wal.writer.stream = encodeRecords ws
  keeps : ∃ contents, Keeps clock W contents db

/-- Everything that is stored was written from entries of `W`. -/
structure Contains (clock : Nat → Nat) (W : Set Entry) (s : Life) : Prop where
  log : ∃ ws, (∀ e ∈ ws, e ∈ W) ∧ s.log <+: encodeRecords ws
  memtable : ∀ e ∈ s.memtable, e ∈ W
  files : ∃ n contents, Holding W clock n contents s.dir

theorem Serving.contains (h : Serving clock W db) (fsynced : Nat) (flushing : Bool) :
    Contains clock W (.running db fsynced flushing) := by
  obtain ⟨ws, hws, hstream⟩ := h.log
  obtain ⟨contents, hkeeps⟩ := h.keeps
  exact ⟨⟨ws, hws, hstream ▸ List.prefix_refl _⟩, hkeeps.memtable, _, _, hkeeps.files⟩

theorem Contains.stores {s : Life} (h : Contains clock W s) (hW : Numbered W)
    (hcount : s.Countable) {e : Entry} (he : s.Stores e) : e ∈ W := by
  rcases he with he | he | ⟨name, es, hread, hes, he⟩
  · exact h.memtable e he
  · obtain ⟨ws, hws, hinitial⟩ := h.log
    rw [List.prefix_iff_eq_take.mp hinitial,
      WAL.replay_take fun x hx => (hW.written x (hws x hx)).loggable] at he
    exact hws e ((wholeWithin_initial _ ws).subset he)
  · obtain ⟨n, contents, hholding⟩ := h.files
    obtain ⟨i, -, -, hfile⟩ := hholding.files name _ hread
    have hlimits : ∀ x ∈ contents i, WithinLimits x :=
      fun x hx => hW.withinLimits x (hholding.entries i x hx)
    have hcount₁ := hcount name es hread hes
    have hcount₂ := hcount name (contents i) (hfile ▸ hread) hlimits
    rw [← cutBlocks_length] at hcount₁ hcount₂
    exact hholding.entries i e (fileOf_injective hes hlimits (offsetsFit_of_count hes hcount₁)
      (offsetsFit_of_count hlimits hcount₂) hfile ▸ he)

theorem Serving.write (h : Serving clock W db) {op : Op} {e : Entry}
    (hentry : op.entry? (db.seqNum + 1) = some e) :
    Serving clock (Set.insert e W) (op.write db) := by
  obtain ⟨ws, hws, hstream⟩ := h.log
  obtain ⟨contents, hkeeps⟩ := h.keeps
  refine ⟨⟨ws ++ [e], ?_, ?_⟩, contents, hkeeps.write hentry⟩
  · intro x hx
    rcases List.mem_append.mp hx with hx | hx
    · exact Or.inr (hws x hx)
    · exact Or.inl (List.mem_singleton.mp hx)
  · rw [Op.write_eq, hentry]
    change (db.wal.write e).writer.stream = _
    rw [WAL.stream_write, hstream]
    simp [encodeRecords]

theorem Serving.withWatermark (h : Serving clock W db) (watermark : Watermark) :
    Serving clock W { db with watermark } := by
  obtain ⟨contents, hkeeps⟩ := h.keeps
  exact ⟨h.log, contents, hkeeps.memtable, hkeeps.files, hkeeps.tables⟩

theorem Serving.flush (h : Serving clock W db) (hclock : StrictMono clock) (hW : Numbered W)
    {env : Env} (henv : env.clock = clock) (hseek : env.fails .walSeek = false) :
    Serving clock W (db.flushMemtableLocked env).1 := by
  obtain ⟨ws, hws, hstream⟩ := h.log
  obtain ⟨contents, hkeeps⟩ := h.keeps
  obtain ⟨contents', hgrown⟩ := hkeeps.flush hclock hW.withinLimits henv
  refine ⟨?_, contents', hgrown.keeps⟩
  rcases (DB.flushMemtableLocked_frame hseek db).log with hwal | ⟨hempty, -⟩
  · exact ⟨ws, hws, hwal.symm ▸ hstream⟩
  · refine ⟨[], by simp, ?_⟩
    rw [hempty]
    rfl

theorem mem_opened {n : Nat} {contents : Nat → List Entry} {dir : TableDir} {ssts : List SSTable}
    (hopen : openAllInDir dir = .ok ssts) (hholding : Holding W clock n contents dir)
    (hW : Numbered W)
    (hcount : ∀ name es, dir.read name = some (fileOf es) → (∀ x ∈ es, WithinLimits x) →
      blockCount 0 (es.map entrySize) < 2 ^ 32) (sst : SSTable) :
    sst ∈ ssts ↔ ∃ i < n, dir.read (sstName (clock i)) = some (fileOf (contents i)) ∧
      sst = tableOf (sstName (clock i)) (contents i) := by
  have htable : ∀ i, dir.read (sstName (clock i)) = some (fileOf (contents i)) →
      openTable (sstName (clock i)) (fileOf (contents i)) =
        .ok (tableOf (sstName (clock i)) (contents i)) := by
    intro i hread
    have hlimits : ∀ x ∈ contents i, WithinLimits x :=
      fun x hx => hW.withinLimits x (hholding.entries i x hx)
    refine openTable_fileOf _ hlimits ?_
    rw [cutBlocks_length]
    exact hcount _ _ hread hlimits
  rw [mem_openAllInDir hopen]
  constructor
  · rintro ⟨name, content, hread, hsst⟩
    obtain ⟨i, hi, rfl, rfl⟩ := hholding.files name content hread
    exact ⟨i, hi, hread, (Except.ok.inj ((htable i hread).symm.trans hsst)).symm⟩
  · rintro ⟨i, -, hread, rfl⟩
    exact ⟨_, _, hread, htable i hread⟩

/-- A process has found the records `es` in the log and the tables of the directory, and
numbers on from the highest number in them. -/
structure Reopens (clock : Nat → Nat) (contents : Nat → List Entry) (disk : Disk)
    (es : List Entry) (db : DB) : Prop where
  memtable : db.memtable = memtableOf es
  stream : db.wal.writer.stream = encodeRecords es
  sstables : ∀ sst, sst ∈ db.sstables ↔ ∃ i < disk.ticks,
    disk.dir.read (sstName (clock i)) = some (fileOf (contents i)) ∧
      sst = tableOf (sstName (clock i)) (contents i)
  dir : db.dir = disk.dir
  ticks : db.ticks = disk.ticks
  seqNum_le_iff : ∀ n, db.seqNum ≤ n ↔ (∀ e ∈ es, e.seqNum ≤ n) ∧
    ∀ i, disk.dir.read (sstName (clock i)) = some (fileOf (contents i)) →
      ∀ e ∈ contents i, e.seqNum ≤ n

theorem exists_reopens {disk : Disk} (hclock : StrictMono clock) (hW : Numbered W)
    {ws : List Entry} (hws : ∀ e ∈ ws, e ∈ W) (hinitial : disk.log <+: encodeRecords ws)
    {contents : Nat → List Entry} (hholding : Holding W clock disk.ticks contents disk.dir)
    (hcount : ∀ name es, disk.dir.read name = some (fileOf es) → (∀ x ∈ es, WithinLimits x) →
      blockCount 0 (es.map entrySize) < 2 ^ 32)
    (hopen : openDB disk.log disk.dir disk.ticks = .ok db) :
    ∃ es ⊆ ws, Reopens clock contents disk es db := by
  obtain ⟨tables, maxSeq, htables, hmax, hdb⟩ := openDB_eq_ok hopen
  have hrebuild := rebuildMemtable_take (fun e he => (hW.written e (hws e he)).loggable)
    (fun e he => (hW.written e (hws e he)).tombstone) disk.log.length
  rw [← List.prefix_iff_eq_take.mp hinitial] at hrebuild
  -- what is torn off the log is lost, the records in front of it are not
  have hsub := (wholeWithin_initial disk.log.length ws).subset
  generalize wholeWithin disk.log.length ws = es at hrebuild hsub
  rw [hrebuild] at hdb
  obtain ⟨-, hread, hleast⟩ := maxSeqNumInTables_spec hmax
  have hopened := mem_opened htables hholding hW hcount
  have hit : ∀ i, disk.dir.read (sstName (clock i)) = some (fileOf (contents i)) →
      newBlockIterator disk.dir (tableOf (sstName (clock i)) (contents i)) = .ok (contents i) :=
    fun i hfile => newBlockIterator_tableOf
      (fun x hx => hW.withinLimits x (hholding.entries i x hx)) hfile
  refine ⟨es, hsub, ?_⟩
  subst hdb
  refine ⟨rfl, List.append_nil _, hopened, rfl, rfl, fun n => ⟨fun hle => ⟨?_, ?_⟩, ?_⟩⟩
  · intro e he
    exact ((le_maxSeqNumOf 0 es).2 e he).trans ((le_max_left _ _).trans hle)
  · intro i hfile e he
    obtain ⟨j, hj, hname, -⟩ := hholding.files _ _ hfile
    obtain rfl := hclock.injective (sstName_injective hname)
    exact (hread _ ((hopened _).mpr ⟨i, hj, hfile, rfl⟩) _ (hit i hfile) e he).trans
      ((le_max_right _ _).trans hle)
  · rintro ⟨hes, hfiles⟩
    refine max_le (maxSeqNumOf_le (Nat.zero_le _) hes) (hleast n (Nat.zero_le _) ?_)
    intro sst hsst es' hes' e he
    obtain ⟨i, -, hfile, rfl⟩ := (hopened sst).mp hsst
    have hsame := Except.ok.inj (hes'.symm.trans (hit i hfile))
    exact hfiles i hfile e (hsame ▸ he)

theorem Reopens.serving {disk : Disk} {contents : Nat → List Entry} {es : List Entry}
    (h : Reopens clock contents disk es db) (hclock : StrictMono clock) (hes : ∀ e ∈ es, e ∈ W)
    (hholding : Holding W clock disk.ticks contents disk.dir) :
    Serving clock {e ∈ W | e.seqNum ≤ db.seqNum} db := by
  obtain ⟨hlogSeq, hfileSeq⟩ := (h.seqNum_le_iff db.seqNum).mp le_rfl
  have hfiles : Holding {e ∈ W | e.seqNum ≤ db.seqNum} clock disk.ticks
      (Compaction.present clock contents disk.dir) disk.dir :=
    hholding.present hclock
      fun i hfile e he => ⟨hholding.entries i e he, hfileSeq i hfile e he⟩
  rw [← h.dir, ← h.ticks] at hfiles
  refine ⟨⟨es, fun e he => ⟨hes e he, hlogSeq e he⟩, h.stream⟩, _, ?_, hfiles, ?_⟩
  · intro e he
    rw [h.memtable] at he
    have he' := mem_of_mem_memtableOf he
    exact ⟨hes e he', hlogSeq e he'⟩
  · intro sst hsst
    obtain ⟨i, hi, hfile, rfl⟩ := (h.sstables sst).mp hsst
    refine ⟨i, h.ticks ▸ hi, rfl, ?_⟩
    rw [Compaction.present, h.dir, hfile]
    exact List.prefix_refl _

theorem Reopens.seqNum_lt {disk : Disk} {contents : Nat → List Entry} {es : List Entry}
    (h : Reopens clock contents disk es db) (hW : Numbered W) (hes : ∀ e ∈ es, e ∈ W)
    (hholding : Holding W clock disk.ticks contents disk.dir) {fsynced : Nat}
    (hroom : (Life.running db fsynced false).Room) : db.seqNum < seqNumMax - 1 := by
  have hbound : ∀ e, (Life.running db fsynced false).Stores e → e.seqNum ≤ seqNumMax - 2 := by
    intro e he
    have := hroom e he
    omega
  have hle : db.seqNum ≤ seqNumMax - 2 := by
    rw [h.seqNum_le_iff]
    refine ⟨fun e he => hbound e (Or.inr (Or.inl ?_)), fun i hfile e he => hbound e ?_⟩
    · change e ∈ (openWAL db.wal.writer.stream).replay.1
      rw [h.stream,
        replay_of_frames (frames_encodeRecords fun x hx => (hW.written x (hes x hx)).loggable)]
      exact he
    · exact Or.inr (Or.inr ⟨_, _, h.dir.symm ▸ hfile,
        fun x hx => hW.withinLimits x (hholding.entries i x hx), he⟩)
  have hpos : 1 < seqNumMax := by decide
  omega

/-- `Open` numbers on behind everything that is still there. -/
theorem serving_restart {disk : Disk} (hclock : StrictMono clock) (hW : Numbered W)
    (hlog : ∃ ws, (∀ e ∈ ws, e ∈ W) ∧ disk.log <+: encodeRecords ws)
    {contents : Nat → List Entry} (hholding : Holding W clock disk.ticks contents disk.dir)
    (hleft : disk.leftover = none) (hcount : (Life.down disk).Countable)
    (hopen : openDB disk.log disk.files disk.ticks = .ok db) :
    Serving clock {e ∈ W | e.seqNum ≤ db.seqNum} db ∧
      ∀ fsynced, (Life.running db fsynced false).Room → db.seqNum < seqNumMax - 1 := by
  obtain ⟨ws, hws, hinitial⟩ := hlog
  have hfiles : disk.files = disk.dir := by rw [Disk.files, hleft]
  rw [hfiles] at hopen
  rw [Life.Countable, Life.dir, hfiles] at hcount
  obtain ⟨es, hsub, h⟩ := exists_reopens hclock hW hws hinitial hholding hcount hopen
  have hes : ∀ e ∈ es, e ∈ W := fun e he => hws e (hsub he)
  exact ⟨h.serving hclock hes hholding, fun _ hroom => h.seqNum_lt hW hes hholding hroom⟩

/-- What is stored are writes with numbers of their own, none of them above the counter,
and the counter is not above what the room allows. -/
def Life.Sound (clock : Nat → Nat) : Life → Prop
  | .running db fsynced flushing => ∃ W, Numbered W ∧ Serving clock W db ∧
      (∀ e ∈ W, e.seqNum ≤ db.seqNum) ∧
      ((Life.running db fsynced flushing).Room → db.seqNum < seqNumMax - 1)
  | .down disk => disk.leftover = none ∧ ∃ W, Numbered W ∧
      (∃ ws, (∀ e ∈ ws, e ∈ W) ∧ disk.log <+: encodeRecords ws) ∧
      ∃ contents, Holding W clock disk.ticks contents disk.dir

/-- A write takes the number after the counter, which no stored entry has. -/
theorem Serving.write_numbered (h : Serving clock W db) (hW : Numbered W)
    (hle : ∀ e ∈ W, e.seqNum ≤ db.seqNum) (hseq : db.seqNum < seqNumMax) {op : Op}
    (hop : op.Accepted) :
    ∃ W', Numbered W' ∧ Serving clock W' (op.write db) ∧
      ∀ e ∈ W', e.seqNum ≤ (op.write db).seqNum := by
  cases hentry : op.entry? (db.seqNum + 1) with
  | none =>
      obtain rfl := entry?_eq_none hentry
      exact ⟨W, hW, h, hle⟩
  | some e =>
      have hnum := (entry?_recorded hentry hop hseq).2
      have hcounter : (op.write db).seqNum = db.seqNum + 1 := by rw [Op.write_eq, hentry]
      refine ⟨Set.insert e W, hW.insert (entry?_written hentry hop) ?_, h.write hentry, ?_⟩
      · intro x hx
        have := hle x hx
        omega
      · intro x hx
        rw [hcounter]
        rcases hx with rfl | hx
        · omega
        · exact (hle x hx).trans (Nat.le_succ _)

theorem room_write {fsynced : Nat} {flushing : Bool} {op : Op} (hop : op.Accepted)
    (hseq : db.seqNum < seqNumMax - 1)
    (hroom : (Life.running (op.write db) fsynced flushing).Room) :
    (op.write db).seqNum < seqNumMax - 1 := by
  cases hentry : op.entry? (db.seqNum + 1) with
  | none =>
      obtain rfl := entry?_eq_none hentry
      exact hseq
  | some e =>
      have hnum := (entry?_recorded hentry hop (by omega)).2
      have hwrite : op.write db = { db with
          seqNum := db.seqNum + 1
          wal := db.wal.write e
          memtable := insertEntry db.memtable e } := by rw [Op.write_eq, hentry]
      have hmem : e ∈ (op.write db).memtable.tree := by
        rw [hwrite]
        exact (mem_insert_tree db.memtable _ _).mpr (Or.inl rfl)
      have hlt := hroom e (Or.inl hmem)
      rw [hwrite]
      change db.seqNum + 1 < seqNumMax - 1
      omega

theorem Serving.sound_leaves (h : Serving clock W db) (hW : Numbered W) {left : DB}
    {contents : Nat → List Entry} (hfiles : Holding W clock left.ticks contents left.dir)
    {log : Bytes}
    (hlog : log <+: db.wal.writer.stream) (fsynced : Nat) :
    (Life.down (left.leaves fsynced log)).Sound clock := by
  obtain ⟨ws, hws, hstream⟩ := h.log
  exact ⟨rfl, W, hW, ⟨ws, hws, hstream ▸ hlog⟩, contents, hfiles⟩

theorem sound_start (clock : Nat → Nat) : Life.start.Sound clock := by
  refine ⟨∅, ⟨by simp, by simp⟩, ⟨⟨[], by simp, rfl⟩, ?_⟩, by simp, fun _ => ?_⟩
  · exact ⟨fun _ => [], by simp [emptyDB, newMemTable], ⟨by simp, by simp [emptyDB]⟩,
      by simp [emptyDB]⟩
  · change 0 < seqNumMax - 1
    decide

theorem sound_step (hclock : StrictMono clock) {s s' : Life} {event : LifeEvent}
    (h : s.Sound clock) (hroom : s.Room) (hcount : s.Countable) (hatomic : event.Atomic)
    (hstep : LifeStep clock s event s') : s'.Sound clock := by
  cases hstep with
  | write hop =>
      obtain ⟨W, hW, hserving, hle, hbound⟩ := h
      have hseq := hbound hroom
      obtain ⟨W', hW', hserving', hle'⟩ := hserving.write_numbered hW hle (by omega) hop
      exact ⟨W', hW', hserving', hle', room_write hop hseq⟩
  | flush =>
      obtain ⟨W, hW, hserving, hle, hbound⟩ := h
      rw [Life.Sound, (DB.flushMemtableLocked_frame rfl _).seqNum]
      exact ⟨W, hW, hserving.flush hclock hW rfl rfl, hle, fun _ => hbound hroom⟩
  | flushFails henv hseek =>
      obtain ⟨W, hW, hserving, hle, hbound⟩ := h
      rw [Life.Sound, (DB.flushMemtableLocked_frame hseek _).seqNum]
      exact ⟨W, hW, hserving.flush hclock hW henv hseek, hle, fun _ => hbound hroom⟩
  | getSnapshot =>
      obtain ⟨W, hW, hserving, hle, hbound⟩ := h
      exact ⟨W, hW, hserving.withWatermark _, hle, fun _ => hbound hroom⟩
  | releaseSnapshot =>
      obtain ⟨W, hW, hserving, hle, hbound⟩ := h
      exact ⟨W, hW, hserving.withWatermark _, hle, fun _ => hbound hroom⟩
  | close =>
      obtain ⟨W, hW, hserving, -, -⟩ := h
      obtain ⟨contents, hkeeps⟩ := hserving.keeps
      exact hserving.sound_leaves hW hkeeps.files (List.prefix_refl _) _
  | kill hop hlog =>
      -- the record of the interrupted write may be in the log, so it takes its number too
      obtain ⟨W, hW, hserving, hle, hbound⟩ := h
      have hseq := hbound hroom
      obtain ⟨W', hW', hserving', -⟩ := hserving.write_numbered hW hle (by omega) hop
      obtain ⟨contents, hkeeps⟩ := hserving'.keeps
      have hfiles := hkeeps.files
      rw [Op.write_ticks, Op.write_dir] at hfiles
      exact hserving'.sound_leaves hW' hfiles hlog _
  | killFlushing henv hlog =>
      obtain ⟨W, hW, hserving, -, -⟩ := h
      obtain ⟨contents, hkeeps⟩ := hserving.keeps
      obtain ⟨contents', hgrown⟩ := hkeeps.flush hclock hW.withinLimits henv
      obtain rfl : _ = none := hatomic
      exact hserving.sound_leaves hW hgrown.keeps.files hlog _
  | sweep => exact ⟨rfl, h.2⟩
  | restart hopen =>
      obtain ⟨hleft, W, hW, hlog, contents, hholding⟩ := h
      obtain ⟨hserving, hbound⟩ := serving_restart hclock hW hlog hholding hleft hcount hopen
      exact ⟨_, hW.subset (Set.sep_subset _ _), hserving, fun e he => he.2, hbound _⟩

/-- Over any number of processes, and with flushes that fail, the stored entries are
identified by their numbers, if in every state the footers can count the blocks of the
tables. -/
theorem seqNums_identify (hclock : StrictMono clock) {s : Life}
    (h : Reaches (LifeStep clock) (fun s event => s.Room ∧ s.Countable ∧ event.Atomic)
      Life.start s) (hroom : s.Room) (hcount : s.Countable) : s.Identified := by
  have hsound : s.Sound clock := h.invariant (Life.Sound clock) (sound_start clock)
    fun _ _ _ hs hmay hstep => sound_step hclock hs hmay.1 hmay.2.1 hmay.2.2 hstep
  cases s with
  | running db fsynced flushing =>
      obtain ⟨W, hW, hserving, hle, hbound⟩ := hsound
      have hmem := fun e => (hserving.contains fsynced flushing).stores hW hcount (e := e)
      refine ⟨fun a b ha hb => hW.unique a (hmem a ha) b (hmem b hb), ?_⟩
      rintro _ _ _ ⟨⟩ op e hop hentry x hx huser
      have hseq := hbound hroom
      have hnum := (entry?_recorded hentry hop (by omega)).2
      have hxle := hle x (hmem x hx)
      refine (InternalKey.lt_iff_seqNum _ _).mpr (Or.inr ⟨huser.symm, Or.inl ?_⟩)
      change x.seqNum < e.seqNum
      omega
  | down disk =>
      obtain ⟨hleft, W, hW, hlog, contents, hholding⟩ := hsound
      have hfiles : disk.files = disk.dir := by rw [Disk.files, hleft]
      have hcontains : Contains clock W (.down disk) :=
        ⟨hlog, by simp [Life.memtable], _, contents,
          (congrArg (Holding W clock _ _) hfiles).mpr hholding⟩
      refine ⟨fun a b ha hb => hW.unique a (hcontains.stores hW hcount ha) b
        (hcontains.stores hW hcount hb), ?_⟩
      rintro _ _ _ ⟨⟩

end Stored

/-- A write that fills a block of its own. -/
def fillBlock : Op := .put [] (List.replicate Config.defaultBlockSize 0)

theorem fillBlock_accepted : fillBlock.Accepted := by
  refine ⟨Nat.zero_le _, ?_⟩
  rw [List.length_replicate]
  decide

/-- The versions of `n` such writes. -/
def filled (n : Nat) : List Entry := history 0 (List.replicate n fillBlock)

theorem replicate_fillBlock_accepted (n : Nat) : ∀ op ∈ List.replicate n fillBlock, op.Accepted :=
  fun _ hop => List.eq_of_mem_replicate hop ▸ fillBlock_accepted

theorem filled_length (n : Nat) : (filled n).length = n := by
  rw [filled, history_length, List.length_replicate]
  intro op hop
  rw [List.eq_of_mem_replicate hop]
  simp [fillBlock]

theorem filled_succ (n : Nat) : ∃ e, fillBlock.entry? (n + 1) = some e ∧
    filled (n + 1) = filled n ++ [e] := by
  refine ⟨_, rfl, ?_⟩
  have hlength : (history 0 (List.replicate n fillBlock)).length = n := filled_length n
  rw [filled, List.replicate_succ', history_append, hlength, Nat.zero_add]
  rfl

def blockEntry (seqNum : Nat) : Entry where
  key := (makeInternalKey [] seqNum internalKeyKindSet).encode
  value := List.replicate Config.defaultBlockSize 0

theorem mem_filled (n : Nat) (x : Entry) : x ∈ filled n ↔ ∃ i < n, x = blockEntry (i + 1) := by
  induction n with
  | zero => simp [filled, history]
  | succ n ih =>
      obtain ⟨e, he, hfilled⟩ := filled_succ n
      obtain rfl := Option.some.inj he
      rw [hfilled, List.mem_append, ih, List.mem_singleton]
      constructor
      · rintro (⟨i, hi, rfl⟩ | rfl)
        · exact ⟨i, by omega, rfl⟩
        · exact ⟨n, Nat.lt_succ_self n, rfl⟩
      · rintro ⟨i, hi, rfl⟩
        rcases Nat.lt_succ_iff_lt_or_eq.mp hi with hi | rfl
        · exact Or.inl ⟨i, hi, rfl⟩
        · exact Or.inr rfl

theorem mem_fullBlockRun (n : Nat) (x : Entry) :
    x ∈ fullBlockRun n ↔ ∃ i < n, x = blockEntry (i + 1) := by
  rw [fullBlockRun, List.mem_map]
  constructor
  · rintro ⟨i, hi, rfl⟩
    have hi' := List.mem_range.mp hi
    refine ⟨n - 1 - i, by omega, ?_⟩
    rw [blockEntry, show n - 1 - i + 1 = n - i by omega]
  · rintro ⟨i, hi, rfl⟩
    refine ⟨n - 1 - i, List.mem_range.mpr (by omega), ?_⟩
    rw [blockEntry, show n - (n - 1 - i) = i + 1 by omega]

theorem blockEntry_seqNum {seqNum : Nat} (h : seqNum ≤ seqNumMax) :
    (blockEntry seqNum).seqNum = seqNum := by
  rw [Entry.seqNum, blockEntry, Entry.ik_encode]
  exact trailerSeqNum_makeTrailer h _

section Filling

variable {n : Nat} (hn : n ≤ seqNumMax)

include hn

theorem filled_recorded : ∀ e ∈ filled n, Recorded 0 e :=
  history_recorded (replicate_fillBlock_accepted n) (by rwa [List.length_replicate, Nat.zero_add])

theorem filled_seqNum_le : ∀ e ∈ filled n, e.seqNum ≤ n := by
  intro e he
  obtain ⟨i, hi, rfl⟩ := (mem_filled n e).mp he
  rw [blockEntry_seqNum (by omega)]
  omega

theorem filled_pairwise : (filled n).Pairwise fun a b => a.seqNum < b.seqNum :=
  history_pairwise (replicate_fillBlock_accepted n) (by rwa [List.length_replicate, Nat.zero_add])

theorem memtableOf_filled : (memtableOf (filled n)).tree = fullBlockRun n := by
  refine (memtableOf (filled n)).sorted.eq_of_mem_iff (fullBlockRun_sorted hn) fun x => ?_
  rw [mem_memtableOf (filled_pairwise hn), mem_fullBlockRun, mem_filled]

end Filling

/-- The database after `n` writes, each of which fills a block and is never flushed. -/
def filledDB (n ticks : Nat) : DB := writeAll { emptyDB with ticks } (List.replicate n fillBlock)

theorem filledDB_eq (n ticks : Nat) : filledDB n ticks =
    { emptyDB with
      wal := (filled n).foldl WAL.write emptyDB.wal
      memtable := memtableOf (filled n)
      seqNum := n
      ticks } := by
  have hlength : 0 + (history 0 (List.replicate n fillBlock)).length = n :=
    (Nat.zero_add _).trans (filled_length n)
  rw [filledDB, writeAll_eq]
  simp only [emptyDB, hlength]
  rfl

theorem filledDB_succ (n ticks : Nat) :
    fillBlock.write (filledDB n ticks) = filledDB (n + 1) ticks := by
  rw [filledDB, filledDB, List.replicate_succ', writeAll_append]

theorem flush_noSpace (n ticks : Nat) :
    (filledDB n ticks).flushMemtableLocked (faulty stampedClock fileSizes .flushWrite) =
      (filledDB n (ticks + 1), .error (.io .flushWrite)) := by
  rw [filledDB_eq, filledDB_eq, DB.flushMemtableLocked, DB.flushTable]
  rfl

/-- The directory after the flush of `n` such writes. -/
def filledDir (n ticks : Nat) : TableDir :=
  FMap.empty.write (sstName (stampedClock ticks)) (fileOf (fullBlockRun n))

theorem eq_of_read_filledDir {n ticks : Nat} (hn : n ≤ 2 ^ 32) {name : Bytes} {es : List Entry}
    (hread : (filledDir n ticks).read name = some (fileOf es)) (hes : ∀ x ∈ es, WithinLimits x) :
    es = fullBlockRun n := by
  by_cases heq : name = sstName (stampedClock ticks)
  · rw [heq, filledDir, FMap.read_write_self, Option.some.injEq] at hread
    have hsize := fileSize_fullBlockRun_lt hn
    have hfit := offsetsFit_of_fileSize hsize
    rw [← fileOf_length, hread, fileOf_length] at hsize
    exact (fileOf_injective (fun x hx => fullBlockRun_withinLimits hx) hes hfit
      (offsetsFit_of_fileSize hsize) hread).symm
  · rw [filledDir, FMap.read_write_of_ne _ _ heq, FMap.read_empty] at hread
    simp at hread

theorem room_filled {n : Nat} (hn : n ≤ 2 ^ 32) {s : Life}
    (hmem : ∀ e ∈ s.memtable, e.seqNum ≤ n + 1)
    (hlog : ∀ e ∈ (openWAL s.log).replay.1, e.seqNum ≤ n + 1)
    (hdir : s.dir = FMap.empty ∨ ∃ ticks, s.dir = filledDir n ticks) : s.Room := by
  have hmax : 2 ^ 32 + 1 < seqNumMax - 1 := by decide
  rintro e (he | he | ⟨name, es, hread, hes, he⟩)
  · exact (hmem e he).trans_lt (by omega)
  · exact (hlog e he).trans_lt (by omega)
  · rcases hdir with hdir | ⟨ticks, hdir⟩
    · rw [hdir, FMap.read_empty] at hread
      simp at hread
    · rw [hdir] at hread
      obtain rfl := eq_of_read_filledDir hn hread hes
      obtain ⟨i, hi, rfl⟩ := (mem_fullBlockRun n e).mp he
      rw [blockEntry_seqNum (by omega)]
      omega

/-- The process is not killed. -/
def LifeEvent.Unforced : LifeEvent → Prop
  | .kill .. => False
  | .killFlushing .. => False
  | _ => True

theorem LifeEvent.Unforced.atomic {event : LifeEvent} (h : event.Unforced) : event.Atomic := by
  cases event with
  | killFlushing => exact h.elim
  | _ => trivial

theorem LifeEvent.Unforced.fileKept {event : LifeEvent} (h : event.Unforced) (s : Life) :
    FileKept s event := by
  cases event with
  | kill => exact h.elim
  | killFlushing => exact h.elim
  | _ => cases s <;> trivial

section Filled

variable {n : Nat} (hn : n ≤ 2 ^ 32) {may : Life → LifeEvent → Prop}
  (hmay : ∀ s event, s.Room → event.Unforced →
    (s.dir = FMap.empty ∨ ∃ ticks, s.dir = filledDir n ticks) → may s event)

include hn hmay

theorem may_filled {m ticks : Nat} (hm : m ≤ n) (fsynced : Nat) (flushing : Bool)
    (event : LifeEvent) (hevent : event.Unforced) :
    may (.running (filledDB m ticks) fsynced flushing) event := by
  have hmax : 2 ^ 32 ≤ seqNumMax := by decide
  have hfilled : ∀ e ∈ filled m, e.seqNum ≤ n + 1 := fun e he =>
    (filled_seqNum_le (by omega) e he).trans (by omega)
  refine hmay _ _ (room_filled hn ?_ ?_ (Or.inl ?_)) hevent (Or.inl ?_)
  · intro e he
    rw [Life.memtable, filledDB_eq] at he
    exact hfilled e (mem_of_mem_memtableOf he)
  · intro e he
    have hstream : (filledDB m ticks).wal.writer.stream = encodeRecords (filled m) := by
      rw [filledDB_eq]
      exact stream_foldl_write (filled m) emptyDB.wal
    rw [Life.log, hstream, replay_of_frames (frames_encodeRecords fun x hx =>
      loggable_of_wellFormed (filled_recorded (by omega) x hx).wellFormed)] at he
    exact hfilled e he
  · rw [Life.dir, filledDB_eq]
    rfl
  · rw [Life.dir, filledDB_eq]
    rfl

/-- The calls that fill the memtable go on after their flush has failed. -/
theorem reaches_filled {m : Nat} (hm : m ≤ n) : ∃ ticks fsynced,
    Reaches (LifeStep stampedClock) may Life.start (.running (filledDB m ticks) fsynced false) := by
  induction m with
  | zero => exact ⟨0, 0, Reaches.start⟩
  | succ m ih =>
      obtain ⟨ticks, fsynced, hreach⟩ := ih (by omega)
      have hwrite := hreach.step (may_filled hn hmay (by omega) fsynced false (.write _) trivial)
        (LifeStep.write fillBlock_accepted)
      rw [filledDB_succ] at hwrite
      cases hflushing : fillBlock.flushes (filledDB m ticks) with
      | false => exact ⟨ticks, _, hflushing ▸ hwrite⟩
      | true =>
          rw [hflushing] at hwrite
          have hfails := hwrite.step (may_filled hn hmay hm _ true (.flushFails _) trivial)
            (@LifeStep.flushFails _ stampedClock _ _ (faulty stampedClock fileSizes .flushWrite)
              _ rfl rfl (congrArg Prod.snd (flush_noSpace (m + 1) ticks)))
          rw [flush_noSpace] at hfails
          dsimp only at hfails
          exact ⟨ticks + 1, _, hfails⟩

theorem reaches_closed : ∃ ticks disk, disk.log = [] ∧ disk.files = filledDir n ticks ∧
    Reaches (LifeStep stampedClock) may Life.start (.down disk) := by
  have hmax : 2 ^ 32 ≤ seqNumMax := by decide
  obtain ⟨ticks, fsynced, hreach⟩ := reaches_filled hn hmay le_rfl
  have hcalled : Reaches (LifeStep stampedClock) may Life.start
      (.running (filledDB n ticks) fsynced true) :=
    hreach.step (may_filled hn hmay le_rfl fsynced false (.write .flush) trivial)
      (@LifeStep.write _ stampedClock _ _ .flush trivial)
  have hflushed := hcalled.step (may_filled hn hmay le_rfl _ true (.flush fileSizes) trivial)
    (@LifeStep.flush _ stampedClock _ _ fileSizes)
  have htree : (filledDB n ticks).memtable.tree = fullBlockRun n := by
    rw [filledDB_eq]
    exact memtableOf_filled (by omega)
  have hdb : ((filledDB n ticks).flushMemtableLocked (healthy stampedClock fileSizes)).1 =
      { emptyDB with
        wal := { (filledDB n ticks).wal with writer := ⟨[], []⟩ }
        sstables := [tableOf (sstName (stampedClock ticks)) (fullBlockRun n)]
        seqNum := n
        dir := filledDir n ticks
        ticks := ticks + 2 } := by
    rw [flushMemtableLocked_healthy, flushedDB, htree, filledDB_eq]
    rfl
  rw [hdb] at hflushed
  refine ⟨ticks, _, ?_, ?_, hflushed.step ?_ LifeStep.close⟩
  · rfl
  · rfl
  · refine hmay _ _ (room_filled hn ?_ ?_ (Or.inr ⟨ticks, rfl⟩)) trivial (Or.inr ⟨ticks, rfl⟩)
    · exact fun e he => absurd he List.not_mem_nil
    · exact fun e he => absurd he List.not_mem_nil

end Filled

/-- The write after the restart. -/
def laterEntry (seqNum : Nat) : Entry where
  key := (makeInternalKey [1] seqNum internalKeyKindSet).encode
  value := []

theorem laterEntry_seqNum {seqNum : Nat} (h : seqNum ≤ seqNumMax) :
    (laterEntry seqNum).seqNum = seqNum := by
  rw [Entry.seqNum, laterEntry, Entry.ik_encode]
  exact trailerSeqNum_makeTrailer h _

theorem replay_laterEntry (seqNum : Nat) :
    (openWAL ((openWAL []).write (laterEntry seqNum)).writer.stream).replay.1 =
      [laterEntry seqNum] := by
  have hloggable : ∀ e ∈ [laterEntry seqNum], Loggable e := by
    rw [List.forall_mem_singleton]
    refine ⟨?_, Nat.zero_le _⟩
    rw [laterEntry, InternalKey.encode_length]
    exact (by decide : 1 + 8 ≤ maxEncodedKeyLen)
  have hstream : ((openWAL []).write (laterEntry seqNum)).writer.stream =
      encodeRecords [laterEntry seqNum] := by
    rw [WAL.stream_write]
    simp [encodeRecords, openWAL, Writer.stream]
  rw [hstream, replay_of_frames (frames_encodeRecords hloggable)]

/-- What `Open` makes of the directory depends on what it finds in the table. -/
def reopenedFilled (n ticks openTicks seqNum : Nat) (sst : SSTable) : DB :=
  { emptyDB with sstables := [sst], dir := filledDir n ticks, ticks := openTicks, seqNum }

theorem reaches_reopened {n : Nat} (hn : n ≤ 2 ^ 32) {may : Life → LifeEvent → Prop}
    (hmay : ∀ s event, s.Room → event.Unforced →
      (s.dir = FMap.empty ∨ ∃ ticks, s.dir = filledDir n ticks) → may s event)
    {seqNum : Nat} (hseq : seqNum ≤ n) (hopen : ∀ ticks openTicks, ∃ sst,
      openDB [] (filledDir n ticks) openTicks =
        .ok (reopenedFilled n ticks openTicks seqNum sst)) :
    ∃ s ticks, Reaches (LifeStep stampedClock) may Life.start s ∧ s.Room ∧
      s.dir = filledDir n ticks ∧ laterEntry (seqNum + 1) ∈ s.memtable := by
  have hmax : 2 ^ 32 < seqNumMax := by decide
  obtain ⟨ticks, disk, hlog, hfiles, hdown⟩ := reaches_closed hn hmay
  obtain ⟨sst, hopen⟩ := hopen ticks disk.ticks
  have hnone : ∀ e ∈ (openWAL []).replay.1, e.seqNum ≤ n + 1 :=
    fun e he => absurd he List.not_mem_nil
  have hup := hdown.step (hmay _ .restart (room_filled hn (by simp [Life.memtable])
    (by rw [Life.log, hlog]; exact hnone) (Or.inr ⟨ticks, hfiles⟩)) trivial
    (Or.inr ⟨ticks, hfiles⟩)) (LifeStep.restart (by rw [hlog, hfiles]; exact hopen))
  have hput : Op.Accepted (.put [1] []) := by decide
  have hstored := hup.step (hmay _ (.write (.put [1] [])) (room_filled hn
    (by simp [Life.memtable, reopenedFilled, emptyDB, newMemTable]) hnone
    (Or.inr ⟨ticks, rfl⟩)) trivial (Or.inr ⟨ticks, rfl⟩)) (LifeStep.write hput)
  refine ⟨_, ticks, hstored, room_filled hn ?_ ?_ (Or.inr ⟨ticks, rfl⟩), rfl, ?_⟩
  · change ∀ e ∈ [laterEntry (seqNum + 1)], e.seqNum ≤ n + 1
    rw [List.forall_mem_singleton, laterEntry_seqNum (by omega)]
    omega
  · change ∀ e ∈ (openWAL ((openWAL []).write (laterEntry (seqNum + 1))).writer.stream).replay.1,
      e.seqNum ≤ n + 1
    rw [replay_laterEntry, List.forall_mem_singleton, laterEntry_seqNum (by omega)]
    omega
  · exact List.mem_cons_self

theorem filledDir_descending (n ticks : Nat) : (filledDir n ticks).descending =
    [(sstName (stampedClock ticks), fileOf (fullBlockRun n))] := by
  refine FMap.descending_eq _ (List.pairwise_singleton _ _) fun f => ?_
  rw [FMap.read_eq_some_iff]
  rfl

theorem inFile_filledDir {n : Nat} (hn : 0 < n) (ticks : Nat) :
    InFile (filledDir n ticks) (blockEntry 1) :=
  ⟨sstName (stampedClock ticks), fullBlockRun n, FMap.read_write_self _ _ _,
    fun _ hx => fullBlockRun_withinLimits hx, (mem_fullBlockRun n _).mpr ⟨0, hn, rfl⟩⟩

/-- The index that is read back from `2 ^ 32` blocks is empty, so `Open` finds no numbers. -/
theorem openDB_outgrown {n : Nat} (hn : n = 2 ^ 32) (ticks openTicks : Nat) : ∃ sst,
    openDB [] (filledDir n ticks) openTicks = .ok (reopenedFilled n ticks openTicks 0 sst) := by
  have hfit := offsetsFit_of_fileSize (fileSize_fullBlockRun_lt hn.le)
  have hlimits : ∀ x ∈ fullBlockRun n, WithinLimits x := fun x hx => fullBlockRun_withinLimits hx
  have hopen := openTable_fileOf_take (sstName (stampedClock ticks)) hlimits hfit
  have hnone : (cutBlocks (fullBlockRun n)).length % 2 ^ 32 = 0 := by
    rw [cutBlocks_length, blockCount_fullBlockRun, hn, Nat.mod_self]
  rw [hnone, List.take_zero] at hopen
  have hread : (filledDir n ticks).read (sstName (stampedClock ticks)) =
      some (fileOf (fullBlockRun n)) := FMap.read_write_self _ _ _
  refine ⟨{ tableOf (sstName (stampedClock ticks)) (fullBlockRun n) with index := [] }, ?_⟩
  rw [openDB, openAllInDir, filledDir_descending]
  simp only [openAll, hopen, maxSeqNumInTables, newBlockIterator, tableOf, hread, readBlocks]
  rfl

/-- After the restart the numbers begin again at one, which the table has already. -/
theorem outgrown_reuses {n : Nat} (hn : n = 2 ^ 32) :
    ∃ s, Reaches (LifeStep stampedClock)
        (fun s event => s.Room ∧ event.Atomic ∧ FileKept s event) Life.start s ∧
      s.Room ∧ ¬ s.Identified := by
  obtain ⟨s, ticks, hreach, hroom, hdir, hlater⟩ := reaches_reopened hn.le
    (fun s event hroom hevent _ => And.intro hroom
      (And.intro hevent.atomic (hevent.fileKept s)))
    (Nat.zero_le n) (openDB_outgrown hn)
  refine ⟨s, hreach, hroom, ?_⟩
  rintro ⟨hunique, -⟩
  have hfile : InFile s.dir (blockEntry 1) := hdir ▸ inFile_filledDir (by omega) ticks
  have hsame := hunique (laterEntry 1) (blockEntry 1) (Or.inl hlater) (Or.inr (Or.inr hfile))
    (by rw [laterEntry_seqNum (by decide), blockEntry_seqNum (by decide)])
  have hkey := congrArg (fun e : Entry => e.key.length) hsame
  simp only [laterEntry, blockEntry, InternalKey.encode_length] at hkey
  exact absurd hkey (by decide)

theorem restart_reuses_seqNum :
    ∃ s, Reaches (LifeStep stampedClock)
        (fun s event => s.Room ∧ event.Atomic ∧ FileKept s event) Life.start s ∧
      s.Room ∧ ¬ s.Identified :=
  outgrown_reuses rfl

theorem maxSeqNumOf_fullBlockRun {n : Nat} (hn : n ≤ seqNumMax) :
    maxSeqNumOf 0 (fullBlockRun n) = n := by
  have hnum : ∀ i < n, (blockEntry (i + 1)).seqNum = i + 1 :=
    fun i hi => blockEntry_seqNum (by omega)
  refine le_antisymm (maxSeqNumOf_le (Nat.zero_le _) fun e he => ?_) ?_
  · obtain ⟨i, hi, rfl⟩ := (mem_fullBlockRun n e).mp he
    rw [hnum i hi]
    omega
  · cases n with
    | zero => exact Nat.zero_le _
    | succ m =>
        have hmem := (mem_fullBlockRun (m + 1) _).mpr ⟨m, Nat.lt_succ_self m, rfl⟩
        have hle := (le_maxSeqNumOf 0 (fullBlockRun (m + 1))).2 _ hmem
        rwa [hnum m (Nat.lt_succ_self m)] at hle

theorem openDB_filled {n : Nat} (hn : n < 2 ^ 32) (ticks openTicks : Nat) : ∃ sst,
    openDB [] (filledDir n ticks) openTicks = .ok (reopenedFilled n ticks openTicks n sst) := by
  have hlimits : ∀ x ∈ fullBlockRun n, WithinLimits x := fun x hx => fullBlockRun_withinLimits hx
  have hcount : (cutBlocks (fullBlockRun n)).length < 2 ^ 32 := by
    rwa [cutBlocks_length, blockCount_fullBlockRun]
  have hopen := openTable_fileOf (sstName (stampedClock ticks)) hlimits hcount
  have hread : (filledDir n ticks).read (sstName (stampedClock ticks)) =
      some (fileOf (fullBlockRun n)) := FMap.read_write_self _ _ _
  have hiter := newBlockIterator_tableOf hlimits hread
  have hmax := maxSeqNumOf_fullBlockRun (hn.le.trans (by decide : 2 ^ 32 ≤ seqNumMax))
  refine ⟨tableOf (sstName (stampedClock ticks)) (fullBlockRun n), ?_⟩
  rw [openDB, openAllInDir, filledDir_descending]
  simp only [openAll, hopen, maxSeqNumInTables]
  rw [hiter]
  simp only [hmax]
  change Except.ok { reopenedFilled n ticks openTicks n _ with seqNum := max 0 n } = _
  rw [Nat.zero_max]
  rfl

theorem countable_filled {n : Nat} (hn : n < 2 ^ 32) {s : Life}
    (hdir : s.dir = FMap.empty ∨ ∃ ticks, s.dir = filledDir n ticks) : s.Countable := by
  intro name es hread hes
  rcases hdir with hdir | ⟨ticks, hdir⟩
  · rw [hdir, FMap.read_empty] at hread
    simp at hread
  · rw [hdir] at hread
    obtain rfl := eq_of_read_filledDir hn.le hread hes
    rwa [blockCount_fullBlockRun]

/-- One write before a restart, in its table, and one after it. -/
theorem seqNums_identify_reopened :
    ∃ s : Life, InFile s.dir (blockEntry 1) ∧ laterEntry 2 ∈ s.memtable ∧
      Reaches (LifeStep stampedClock) (fun s event => s.Room ∧ s.Countable ∧ event.Atomic)
        Life.start s ∧ s.Identified := by
  have hone : 1 < 2 ^ 32 := by decide
  obtain ⟨s, ticks, hreach, hroom, hdir, hlater⟩ := reaches_reopened hone.le
    (fun s event hroom hevent hdir =>
      And.intro hroom (And.intro (countable_filled hone hdir) hevent.atomic))
    le_rfl (openDB_filled hone)
  exact ⟨s, hdir ▸ inFile_filledDir Nat.one_pos ticks, hlater, hreach,
    seqNums_identify stampedClock_strictMono hreach hroom
      (countable_filled hone (Or.inr ⟨ticks, hdir⟩))⟩

end Hcdb.Db
