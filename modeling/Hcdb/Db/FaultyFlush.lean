import Hcdb.Compaction.Faults
import Hcdb.Db.Levels

/-!
A flush in which one I/O call fails.  Every exit leaves the versions where point reads
find them, except between two deletions of a compaction: the table list still names
the files that are already gone, and a read that meets one of them ends there.
-/

namespace Hcdb.Db

open Hcdb.Lib.ByteString
open Hcdb.Lib.FiniteMap
open Hcdb.Base
open Hcdb.Memtable
open Hcdb.Sstable
open Hcdb.Compaction

theorem faulty_compaction_fails (clock : Nat → Nat) (stat : TableDir → Bytes → Option Nat) (db : DB)
    (c c' : Compaction.IoCall) :
    ((faulty clock stat (.compaction c)).compaction db).fails c' = decide (c' = c) := by
  simp [Env.compaction, faulty]

section Missing

variable [Runtime]

/-- A read of the key has to open the file of the table. -/
def OpensFile (t : Table) (key : Bytes) : Prop :=
  t.entries ≠ [] ∧ (bloomOf t.entries).mightContain key = some true

/-- On its way along the tables a read of the key opens a file that is gone. -/
def MeetsLost (lost : List Bytes) (key : Bytes) (snapshot : Nat) : List Table → Prop
  | [] => False
  | t :: ts =>
      t.name ∈ lost ∧ OpensFile t key ∨
        versionAt t.entries key snapshot = none ∧ MeetsLost lost key snapshot ts

instance (t : Table) (key : Bytes) : Decidable (OpensFile t key) :=
  inferInstanceAs (Decidable (_ ∧ _))

instance decidableMeetsLost (lost : List Bytes) (key : Bytes) (snapshot : Nat) :
    (ts : List Table) → Decidable (MeetsLost lost key snapshot ts)
  | [] => inferInstanceAs (Decidable False)
  | t :: ts =>
      have := decidableMeetsLost lost key snapshot ts
      inferInstanceAs (Decidable (t.name ∈ lost ∧ OpensFile t key ∨
        versionAt t.entries key snapshot = none ∧ MeetsLost lost key snapshot ts))

theorem not_meetsLost_nil (key : Bytes) (snapshot : Nat) (ts : List Table) :
    ¬ MeetsLost [] key snapshot ts := by
  induction ts with
  | nil => exact id
  | cons t ts ih => simp [MeetsLost, ih]

variable {dir : TableDir} {t : Table} {key : Bytes}

theorem lookup_gone (h : dir.read t.name = none) (hopens : OpensFile t key) (snapshot : Nat) :
    ∃ e, t.sst.lookup (readBlock dir) key snapshot = .error e := by
  have hread : ∀ idx, readBlock dir t.sst idx = .error .notExist := by
    intro idx
    have hfile : dir.read t.sst.filePath = none := h
    simp only [readBlock, hfile]
  have hblocks : t.blocks ≠ [] := by
    intro hnil
    exact hopens.1 (by rw [← t.blocks_flatten, hnil, List.flatten_nil])
  have hlen : t.start key snapshot < t.sst.index.length := by
    rw [t.index_length]
    rcases Nat.eq_zero_or_pos (t.start key snapshot) with hzero | hpos
    · rw [hzero]
      exact List.length_pos_of_ne_nil hblocks
    · exact (t.head?_start_le hpos).1
  have hbloom : t.sst.bloom.mightContain key = some true := hopens.2
  refine ⟨.notExist, ?_⟩
  simp only [SSTable.lookup, hbloom,
    newIterator_error _ t.sst key snapshot (List.getElem?_eq_getElem hlen) (hread _)]

theorem lookup_unopened (read : BlockReader) (hopens : ¬ OpensFile t key) (snapshot : Nat) :
    t.sst.lookup read key snapshot = .ok .absent ∧ versionAt t.entries key snapshot = none := by
  obtain ⟨b, hb⟩ := mightContain_bloomOf_isSome t.entries key
  have hbloom : t.sst.bloom.mightContain key = some b := hb
  cases b with
  | false =>
      refine ⟨by simp only [SSTable.lookup, hbloom], ?_⟩
      cases hver : versionAt t.entries key snapshot with
      | none => rfl
      | some e =>
          have hkey := (Entry.matchesAt_iff.mp (versionAt_matches hver)).1
          have hyes := mightContain_bloomOf (versionAt_mem hver)
          rw [hkey, hb] at hyes
          simp at hyes
  | true =>
      have hnil : t.entries = [] := by
        by_contra hne
        exact hopens ⟨hne, hb⟩
      have hindex : t.sst.index = [] := by
        rw [t.index_eq, Table.blocks, hnil]
        rfl
      obtain ⟨it, hit, hyields⟩ := newIterator_yields read t.sst key snapshot (by simp [hindex])
      have hnone : it.current? = none := by
        simp only [reachable, hindex, List.drop_nil, Iterator.blocksFrom, List.dropWhile_nil,
          List.filter_nil] at hyields
        cases hyields with
        | nil hnone => exact hnone
      exact ⟨by simp only [SSTable.lookup, hbloom, hit, hnone], by rw [hnil]; rfl⟩

/-- A read ends without an answer at the first lost file it opens. -/
theorem searchSSTables_lost {lost : List Bytes} {ts : List Table} {snapshot : Nat}
    (h : ∀ t ∈ ts, dir.read t.name = if t.name ∈ lost then none else some t.content)
    (key : Bytes) (hsnap : snapshot ≤ seqNumMax) :
    searchSSTables (readBlock dir) (ts.map Table.sst) key snapshot =
      if MeetsLost lost key snapshot ts then none
      else answer (versionAt (layersOf ts).flatten key snapshot) := by
  induction ts with
  | nil => simp [searchSSTables, layersOf, answer, versionAt]
  | cons t ts ih =>
      have hrest := ih fun t' ht' => h t' (by simp [ht'])
      have hhere := h t (by simp)
      have hflat : (layersOf (t :: ts)).flatten = t.entries ++ (layersOf ts).flatten := rfl
      rw [List.map_cons, searchSSTables, hflat, versionAt_append]
      by_cases hopens : OpensFile t key
      · by_cases hlost : t.name ∈ lost
        · rw [if_pos hlost] at hhere
          obtain ⟨e, he⟩ := lookup_gone hhere hopens snapshot
          have hmeets : MeetsLost lost key snapshot (t :: ts) := Or.inl ⟨hlost, hopens⟩
          rw [he, if_pos hmeets]
        · rw [if_neg hlost] at hhere
          rw [(t.intact_readBlock hhere).lookup_eq key hsnap]
          cases hver : versionAt t.entries key snapshot with
          | none =>
              simp only [KeyLookup.ofEntry?, hrest, MeetsLost, hlost, hver, false_and, false_or,
                true_and, Option.none_or]
          | some e =>
              rw [if_neg (by simp [MeetsLost, hlost, hver])]
              by_cases hk : e.kind = internalKeyKindDelete
              · simp [KeyLookup.ofEntry?, answer, hk]
              · simp [KeyLookup.ofEntry?, answer, hk]
      · obtain ⟨hlookup, hver⟩ := lookup_unopened (readBlock dir) hopens snapshot
        simp only [hlookup, hrest, MeetsLost, hopens, hver, and_false, false_or, true_and,
          Option.none_or]

end Missing

section Flush

variable [Runtime] {clock : Nat → Nat} {stat : TableDir → Bytes → Option Nat} {db db' : DB}
  {ts : List Table} {call : IoCall} {e : DbErr}

/-- The names of the tables `ts` that are gone when this call of the flush fails. -/
def lostNames (stat : TableDir → Bytes → Option Nat) (clock : Nat → Nat) (db : DB)
    (ts : List Table) : IoCall → List Bytes
  | .compaction c =>
      Compaction.lostNames ((healthy clock stat).compaction (flushedDB clock db)) ts c
  | _ => []

theorem Represents.name_ne (h : Represents clock db ts) (hclock : StrictMono clock) {t : Table}
    (ht : t ∈ ts) (i : Nat) : t.name ≠ sstName (clock (db.ticks + i)) := by
  intro heq
  have hheld := h.held t ht
  rw [heq, h.fresh hclock (Nat.le_add_right _ i)] at hheld
  simp at hheld

theorem flushMemtableLocked_faulty (clock : Nat → Nat) (stat : TableDir → Bytes → Option Nat)
    (db : DB) (c : Compaction.IoCall) :
    db.flushMemtableLocked (faulty clock stat (.compaction c)) =
      (flushedDB clock db).compactTables (faulty clock stat (.compaction c)) := by
  simp only [DB.flushMemtableLocked, DB.flushTable, DB.resetWAL, faulty, reduceCtorEq,
    decide_false, Bool.false_eq_true, if_false, flush_eq]
  rfl

theorem Represents.compactTables_fault (h : Represents clock db ts) (hclock : StrictMono clock)
    {c : Compaction.IoCall}
    (hfail : db.compactTables (faulty clock stat (.compaction c)) = (db', .error e)) :
    db'.memtable = db.memtable ∧ db'.sstables = db.sstables ∧
      ∀ t ∈ ts, db'.dir.read t.name =
        if t.name ∈ Compaction.lostNames ((healthy clock stat).compaction db) ts c then none
        else some t.content := by
  unfold DB.compactTables at hfail
  rw [h.sstables] at hfail
  generalize hcompact : Compaction.compact ((faulty clock stat (.compaction c)).compaction db)
    db.dir (ts.map Table.sst) db.watermark.floor = res at hfail
  obtain ⟨dir, res⟩ := res
  cases res with
  | ok compacted => simp at hfail
  | error err =>
      obtain ⟨rfl, -⟩ := Prod.mk.inj hfail
      refine ⟨rfl, h.sstables.symm, fun t ht => ?_⟩
      have hgone := compact_fault h.held h.nodup (fun i _ t ht => h.name_ne hclock ht i)
        (faulty_compaction_fails clock stat db c) hcompact ht
      cases c <;> exact hgone

/-- What a failed flush leaves: the memtable is still there, or it is the first table
and the files are those that no deletion has reached. -/
theorem Represents.flush_fault (h : Represents clock db ts) (hclock : StrictMono clock)
    (hfail : db.flushMemtableLocked (faulty clock stat call) = (db', .error e)) :
    (db'.memtable = db.memtable ∧ db'.sstables = db.sstables ∧
      (∀ t ∈ ts, db'.dir.read t.name = some t.content) ∧
      lostNames stat clock db (flushedTable clock h :: ts) call = []) ∨
    (db'.memtable = newMemTable ∧ db'.sstables = (flushedTable clock h :: ts).map Table.sst ∧
      ∀ t ∈ flushedTable clock h :: ts, db'.dir.read t.name =
        if t.name ∈ lostNames stat clock db (flushedTable clock h :: ts) call then none
        else some t.content) := by
  have hflushed := h.flushedDB hclock
  have hmoved : ∀ t ∈ flushedTable clock h :: ts, (Db.flushedDB clock db).dir.read t.name =
      if t.name ∈ ([] : List Bytes) then none else some t.content := by
    simpa using hflushed.held
  cases call with
  | flushWrite =>
      simp only [DB.flushMemtableLocked, DB.flushTable, faulty, decide_true, if_true] at hfail
      obtain ⟨rfl, -⟩ := Prod.mk.inj hfail
      exact Or.inl ⟨rfl, rfl, h.held, rfl⟩
  | flushDirSync =>
      -- the new file is there already, but not in the table list
      simp only [DB.flushMemtableLocked, DB.flushTable, faulty, reduceCtorEq, decide_false,
        decide_true, Bool.false_eq_true, if_false, if_true, flush_eq] at hfail
      obtain ⟨rfl, -⟩ := Prod.mk.inj hfail
      exact Or.inl ⟨rfl, rfl, fun t ht => hflushed.held t (List.mem_cons_of_mem _ ht), rfl⟩
  | walTruncate =>
      simp only [DB.flushMemtableLocked, DB.flushTable, DB.resetWAL, faulty, reduceCtorEq,
        decide_false, decide_true, Bool.false_eq_true, if_false, if_true, flush_eq] at hfail
      obtain ⟨rfl, -⟩ := Prod.mk.inj hfail
      exact Or.inr ⟨rfl, hflushed.sstables, hmoved⟩
  | walSeek =>
      simp only [DB.flushMemtableLocked, DB.flushTable, DB.resetWAL, faulty, reduceCtorEq,
        decide_false, decide_true, Bool.false_eq_true, if_false, if_true, flush_eq] at hfail
      obtain ⟨rfl, -⟩ := Prod.mk.inj hfail
      exact Or.inr ⟨rfl, hflushed.sstables, hmoved⟩
  | compaction c =>
      rw [flushMemtableLocked_faulty] at hfail
      obtain ⟨hmem, hsst, hfiles⟩ := hflushed.compactTables_fault hclock hfail
      exact Or.inr ⟨hmem, hsst.trans hflushed.sstables, hfiles⟩

theorem Represents.getAt_fault (h : Represents clock db ts) (hclock : StrictMono clock)
    (hfail : db.flushMemtableLocked (faulty clock stat call) = (db', .error e)) (key : Bytes)
    {snapshot : Nat} (hsnap : snapshot ≤ seqNumMax) :
    db'.getAt key snapshot =
      if MeetsLost (lostNames stat clock db (flushedTable clock h :: ts) call) key snapshot
        (flushedTable clock h :: ts) then none
      else answer (versionAt (stored db ts) key snapshot) := by
  rcases h.flush_fault hclock hfail with ⟨hmem, hsst, hfiles, hlost⟩ | ⟨hmem, hsst, hfiles⟩
  · have hintact : ∀ t ∈ ts, Table.Intact (readBlock db'.dir) t :=
      fun t ht => t.intact_readBlock (hfiles t ht)
    rw [hlost, if_neg (not_meetsLost_nil _ _ _), DB.getAt, hmem, hsst, h.sstables,
      getFrom_eq h.valid (forall₂_serves hintact) key hsnap]
    rfl
  · have hempty : newMemTable.get key snapshot = .absent := rfl
    rw [DB.getAt, getFrom, hmem, hsst, hempty]
    exact searchSSTables_lost hfiles key hsnap

/-- A flush in which one call fails leaves every read at a protected snapshot as it was
exactly when no read of a live key opens a file that was deleted before the call. -/
theorem failed_flush_keeps_reads_iff (h : Represents clock db ts) (hclock : StrictMono clock)
    (hfail : db.flushMemtableLocked (faulty clock stat call) = (db', .error e)) :
    (∀ key snapshot, db.watermark.floor ≤ snapshot → snapshot ≤ seqNumMax →
        db'.getAt key snapshot = db.getAt key snapshot) ↔
      ∀ key snapshot, db.watermark.floor ≤ snapshot → snapshot ≤ seqNumMax →
        answer (versionAt (stored db ts) key snapshot) ≠ none →
        ¬ MeetsLost (lostNames stat clock db (flushedTable clock h :: ts) call) key snapshot
          (flushedTable clock h :: ts) := by
  constructor
  · intro hsame key snapshot hfloor hsnap hlive hmeets
    have hread := hsame key snapshot hfloor hsnap
    rw [h.getAt_fault hclock hfail key hsnap, if_pos hmeets, h.getAt_eq key hsnap] at hread
    exact hlive hread.symm
  · intro hclear key snapshot hfloor hsnap
    rw [h.getAt_fault hclock hfail key hsnap, h.getAt_eq key hsnap]
    split
    · rename_i hmeets
      by_contra hne
      exact hclear key snapshot hfloor hsnap (Ne.symm hne) hmeets
    · rfl

theorem Represents.flush_remove_error (h : Represents clock db ts)
    (stat : TableDir → Bytes → Option Nat) (hclock : StrictMono clock) {j : Nat}
    (hbig : Config.defaultCompactionThreshold ≤ (flushedTable clock h :: ts).length)
    (hj : j < (doomedNames ((healthy clock stat).compaction (Db.flushedDB clock db))
      (flushedTable clock h :: ts)).length) :
    ∃ db' e, db.flushMemtableLocked (faulty clock stat (.compaction (.remove j))) =
      (db', .error e) := by
  have hflushed := h.flushedDB hclock
  obtain ⟨dir', e, hcompact⟩ := compact_remove_error db.watermark.floor hflushed.held
    hflushed.nodup (fun i _ t ht => hflushed.name_ne hclock ht i)
    (faulty_compaction_fails clock stat (Db.flushedDB clock db) (.remove j)) hbig hj
  rw [flushMemtableLocked_faulty, DB.compactTables, hflushed.sstables]
  have hcompact' : compact ((faulty clock stat (.compaction (.remove j))).compaction
      (Db.flushedDB clock db)) (Db.flushedDB clock db).dir
      ((flushedTable clock h :: ts).map Table.sst) (Db.flushedDB clock db).watermark.floor =
      (dir', .error e) := hcompact
  rw [hcompact']
  exact ⟨_, _, rfl⟩

end Flush

/-- A database with one value in its memtable. -/
def onePut : DB := (Op.put [107] [1]).write emptyDB

theorem shows_onePut :
    Shows stampedClock onePut (Levels.empty.write (.put [107] [1])) :=
  (shows_emptyDB stampedClock).write ⟨by decide, by decide⟩

theorem failed_flush_keeps_reads_onePut :
    (onePut.flushMemtableLocked (faulty stampedClock fileSizes .walTruncate)).2 =
        .error (.io .walTruncate) ∧
      ∀ key snapshot, onePut.watermark.floor ≤ snapshot → snapshot ≤ seqNumMax →
        (onePut.flushMemtableLocked (faulty stampedClock fileSizes .walTruncate)).1.getAt key
          snapshot = onePut.getAt key snapshot := by
  obtain ⟨ts, hts, -⟩ := shows_onePut.tables
  have herr : ∀ db : DB, (db.flushMemtableLocked (faulty stampedClock fileSizes .walTruncate)).2 =
      .error (.io .walTruncate) := fun _ => rfl
  refine ⟨herr onePut, ?_⟩
  apply (failed_flush_keeps_reads_iff hts stampedClock_strictMono (Prod.ext rfl (herr onePut))).mpr
  intro key snapshot _ _ _
  exact not_meetsLost_nil _ _ _

/-- Three tables, and a fourth key in the memtable. -/
def fourKeyOps : List Op :=
  [.put [97] [1], .flush, .put [98] [1], .flush, .put [99] [1], .flush, .put [100] [1]]

def fourKeys : DB := run stampedClock emptyDB (onDisk fourKeyOps)

theorem shows_fourKeys :
    Shows stampedClock fourKeys (unpinned [setVersion [100] 4 [1]] 10
      [[setVersion [99] 3 [1]], [setVersion [98] 2 [1]], [setVersion [97] 1 [1]]] 4) := by
  refine (shows_emptyDB stampedClock).run stampedClock_strictMono ?_
  refine .write ⟨by decide, by decide⟩ rfl rfl ?_
  refine .flush (by decide) rfl ?_
  refine .write ⟨by decide, by decide⟩ rfl rfl ?_
  refine .flush (by decide) rfl ?_
  refine .write ⟨by decide, by decide⟩ rfl rfl ?_
  refine .flush (by decide) rfl ?_
  exact .write ⟨by decide, by decide⟩ rfl rfl (.nil _)

theorem doomedNames_four {env : Compaction.Env} {t₀ t₁ t₂ t₃ : Table}
    (h : ∀ t ∈ [t₀, t₁, t₂, t₃], statSize env.stat t.name = 119897) :
    doomedNames env [t₀, t₁, t₂, t₃] = [t₀.name, t₁.name, t₂.name, t₃.name] := by
  simp only [List.forall_mem_cons, List.not_mem_nil, false_imp_iff, implies_true, and_true] at h
  obtain ⟨h₀, h₁, h₂, h₃⟩ := h
  have hsame : isSimilarSize 119897 119897 = true := by decide
  have hgroups : groupsOf env.stat [t₀, t₁, t₂, t₃] = [[t₀, t₁, t₂, t₃]] := by
    simp [groupsOf, groupBySize, groupLoop, h₀, h₁, h₂, h₃, hsame]
  simp [doomedNames, hgroups, doomed, doomedOf]

/-- The newest key is there before the flush that fails, and not after it. -/
theorem failed_remove_loses_key :
    (∃ e, (fourKeys.flushMemtableLocked (faulty stampedClock fileSizes
        (.compaction (.remove 1)))).2 = .error e) ∧
      fourKeys.get [100] = some [1] ∧
      (fourKeys.flushMemtableLocked (faulty stampedClock fileSizes
        (.compaction (.remove 1)))).1.get [100] = none := by
  obtain ⟨ts, hts, hlayers⟩ := shows_fourKeys.tables
  have hmem := shows_fourKeys.mem
  have hget : fourKeys.get [100] = some [1] := by
    rw [DB.get, shows_fourKeys.getAt_eq [100] le_rfl]
    decide
  generalize fourKeys = db at hts hmem hget ⊢
  simp only [layersOf, unpinned, List.map_eq_cons_iff, List.map_eq_nil_iff] at hlayers
  obtain ⟨t₁, _, rfl, h₁, t₂, _, rfl, h₂, t₃, _, rfl, h₃, rfl⟩ := hlayers
  have h₀ : (flushedTable stampedClock hts).entries = [setVersion [100] 4 [1]] := hmem
  have hflushed := hts.flushedDB stampedClock_strictMono
  have hsizes : ∀ t ∈ [flushedTable stampedClock hts, t₁, t₂, t₃],
      statSize (fileSizes (flushedDB stampedClock db).dir) t.name = 119897 := by
    intro t ht
    rw [statSize, fileSizes, hflushed.held t ht]
    have hlen : fileSize t.entries = 119897 := by
      simp only [List.mem_cons, List.not_mem_nil, or_false] at ht
      rcases ht with rfl | rfl | rfl | rfl
      · rw [h₀]; rfl
      · rw [h₁]; rfl
      · rw [h₂]; rfl
      · rw [h₃]; rfl
    exact (fileOf_length t.entries).trans hlen
  have hdoomed : doomedNames ((healthy stampedClock fileSizes).compaction
      (flushedDB stampedClock db)) [flushedTable stampedClock hts, t₁, t₂, t₃] = _ :=
    doomedNames_four hsizes
  obtain ⟨db', e, hfail⟩ := hts.flush_remove_error fileSizes stampedClock_strictMono
    (by simp [Config.defaultCompactionThreshold]) (j := 1) (by rw [hdoomed]; simp)
  refine ⟨⟨e, by rw [hfail]⟩, hget, ?_⟩
  have hmeets : MeetsLost (lostNames fileSizes stampedClock db
      [flushedTable stampedClock hts, t₁, t₂, t₃] (.compaction (.remove 1))) [100] seqNumMax
      [flushedTable stampedClock hts, t₁, t₂, t₃] := by
    refine Or.inl ⟨?_, ?_, ?_⟩
    · rw [lostNames, Compaction.lostNames, hdoomed]
      simp
    · rw [h₀]
      simp
    · rw [h₀]
      exact mightContain_bloomOf (e := setVersion [100] 4 [1]) (by simp)
  rw [hfail, DB.get, hts.getAt_fault stampedClock_strictMono hfail [100] le_rfl, if_pos hmeets]

end Hcdb.Db
