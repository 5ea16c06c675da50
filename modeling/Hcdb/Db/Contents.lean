import Hcdb.Compaction.Contents
import Hcdb.Db.Life

namespace Hcdb.Db

open Hcdb.Lib.ByteString
open Hcdb.Lib.FiniteMap
open Hcdb.Base
open Hcdb.Memtable
open Hcdb.Sstable
open Hcdb.Compaction (Holding Made Shelved)
open Hcdb.Wal

def limited : Set Entry := {e | WithinLimits e}

theorem withinLimits_of_loggable {e : Entry} (h : Loggable e) : WithinLimits e :=
  ⟨h.keyLength, h.valueLength⟩

theorem shelved_resetWAL {db : DB} (h : Shelved db.dir db.sstables) (env : Env) :
    Shelved (db.resetWAL env).1.dir (db.resetWAL env).1.sstables := by
  unfold DB.resetWAL
  split
  · exact h
  · simp only
    split <;> exact h

variable [Runtime] {clock : Nat → Nat} {W : Set Entry} {contents contents' : Nat → List Entry}
  {db : DB} {env : Env}

/-- The memtable, the files and the tables hold entries of `W`, the tables what
`contents` says. -/
structure Keeps (clock : Nat → Nat) (W : Set Entry) (contents : Nat → List Entry) (db : DB) :
    Prop where
  memtable : ∀ e ∈ db.memtable.tree, e ∈ W
  files : Holding W clock db.ticks contents db.dir
  tables : ∀ sst ∈ db.sstables, Made clock db.ticks contents sst

/-- Tables are added, and those that were made before stay what they are. -/
structure Grown (clock : Nat → Nat) (W : Set Entry) (contents : Nat → List Entry) (db db' : DB)
    (contents' : Nat → List Entry) : Prop where
  ticks : db.ticks ≤ db'.ticks
  same : Set.EqOn contents' contents (Set.Iio db.ticks)
  keeps : Keeps clock W contents' db'

theorem Keeps.grown_self (h : Keeps clock W contents db) :
    Grown clock W contents db db contents where
  ticks := le_rfl
  same := Set.eqOn_refl _ _
  keeps := h

theorem Grown.trans {db' db'' : DB} {contents'' : Nat → List Entry}
    (h : Grown clock W contents db db' contents')
    (h' : Grown clock W contents' db' db'' contents'') :
    Grown clock W contents db db'' contents'' where
  ticks := h.ticks.trans h'.ticks
  same := (h'.same.mono (Set.Iio_subset_Iio h.ticks)).trans h.same
  keeps := h'.keeps

theorem Keeps.write (h : Keeps clock W contents db) {op : Op} {e : Entry}
    (hentry : op.entry? (db.seqNum + 1) = some e) :
    Keeps clock (Set.insert e W) contents (op.write db) := by
  rw [Op.write_eq, hentry]
  refine ⟨?_, h.files.of_subset (Set.subset_insert e W), h.tables⟩
  intro x hx
  rcases (mem_insert_tree db.memtable _ _).mp hx with rfl | ⟨hx, -⟩
  · exact Or.inl rfl
  · exact Or.inr (h.memtable x hx)

theorem Keeps.flushTable (h : Keeps clock W contents db) (henv : env.clock = clock) :
    ∃ contents', Grown clock W contents db (db.flushTable env).1 contents' := by
  have hold : ∀ sst ∈ db.sstables, ∀ contents', Set.EqOn contents' contents (Set.Iio db.ticks) →
      Made clock (db.ticks + 1) contents' sst :=
    fun sst hsst contents' hsame => (h.tables sst hsst).mono (Nat.le_succ _) hsame
  have hfile := h.files.write h.memtable
  have hsame := Compaction.eqOn_update contents db.ticks db.memtable.tree
  unfold DB.flushTable
  simp only [flush_eq, henv]
  split
  · exact ⟨contents, Nat.le_succ _, Set.eqOn_refl _ _, h.memtable, h.files.mono (Nat.le_succ _),
      fun sst hsst => hold sst hsst _ (Set.eqOn_refl _ _)⟩
  · split
    · exact ⟨_, Nat.le_succ _, hsame, h.memtable, hfile, fun sst hsst => hold sst hsst _ hsame⟩
    · refine ⟨_, Nat.le_succ _, hsame, by simp [newMemTable], hfile, fun sst hsst => ?_⟩
      rcases List.mem_cons.mp hsst with rfl | hsst
      · refine ⟨db.ticks, Nat.lt_succ_self _, rfl, ?_⟩
        rw [Function.update_self]
        exact List.prefix_refl _
      · exact hold sst hsst _ hsame

theorem Keeps.resetWAL (h : Keeps clock W contents db) (env : Env) :
    Grown clock W contents db (db.resetWAL env).1 contents := by
  have hsame : ∀ wal, Grown clock W contents db { db with wal } contents :=
    fun wal => ⟨le_rfl, Set.eqOn_refl _ _, h.memtable, h.files, h.tables⟩
  unfold DB.resetWAL
  split
  · exact h.grown_self
  · simp only
    split <;> exact hsame _

theorem Keeps.compactTables (h : Keeps clock W contents db) (hclock : StrictMono clock)
    (hW : ∀ e ∈ W, WithinLimits e) (henv : env.clock = clock) :
    ∃ contents', Grown clock W contents db (db.compactTables env).1 contents' := by
  have hnow : ∀ i, (env.compaction db).now i = clock (db.ticks + i) := by
    intro i
    rw [← henv]
    rfl
  have hle : db.ticks ≤ db.ticks + db.sstables.length := Nat.le_add_right _ _
  obtain ⟨contents', hsame, hheld, hres⟩ :=
    h.files.compact hclock hW hnow h.tables db.watermark.floor
  refine ⟨contents', ?_⟩
  unfold DB.compactTables
  cases hout : Compaction.compact (env.compaction db) db.dir db.sstables db.watermark.floor with
  | mk dir res =>
      rw [hout] at hheld hres
      cases res with
      | error e => exact ⟨hle, hsame, h.memtable, hheld, fun sst hsst =>
          (h.tables sst hsst).mono hle hsame⟩
      | ok compacted => exact ⟨hle, hsame, h.memtable, hheld, hres compacted rfl⟩

theorem Keeps.flush (h : Keeps clock W contents db) (hclock : StrictMono clock)
    (hW : ∀ e ∈ W, WithinLimits e) (henv : env.clock = clock) :
    ∃ contents', Grown clock W contents db (db.flushMemtableLocked env).1 contents' := by
  obtain ⟨contents₁, htable⟩ := h.flushTable henv
  unfold DB.flushMemtableLocked
  cases hflush : db.flushTable env with
  | mk db₁ res₁ =>
      rw [hflush] at htable
      cases res₁ with
      | error e => exact ⟨contents₁, htable⟩
      | ok _ =>
          have hreset := htable.trans (htable.keeps.resetWAL env)
          simp only
          cases hwal : db₁.resetWAL env with
          | mk db₂ res₂ =>
              rw [hwal] at hreset
              cases res₂ with
              | error e => exact ⟨contents₁, hreset⟩
              | ok _ =>
                  obtain ⟨contents₂, hcompact⟩ := hreset.keeps.compactTables hclock hW henv
                  exact ⟨contents₂, hreset.trans hcompact⟩

/-- The call in any environment, with whatever fails in it. -/
def Op.exec (env : Env) (db : DB) : Op → DB × Except DbErr Unit
  | .put key value => db.put env key value
  | .delete key => db.delete env key
  | .flush => db.forceFlush env

theorem Op.exec_eq {op : Op} (hop : op.Accepted) (env : Env) (db : DB) :
    op.exec env db =
      if op.flushes db then (op.write db).flushMemtableLocked env else (op.write db, .ok ()) := by
  cases op with
  | put key value =>
      rw [exec, DB.put_eq hop.1 hop.2, DB.flushIfFullLocked_eq]
      rfl
  | delete key =>
      rw [exec, DB.delete_eq hop, DB.flushIfFullLocked_eq]
      rfl
  | flush => rfl

theorem Op.exec_refused {op : Op} {e : DbErr} (h : op.check = .error e) (env : Env) (db : DB) :
    op.exec env db = (db, .error e) := by
  obtain ⟨key, value, rfl, hkey, rfl⟩ | ⟨key, value, rfl, hkey, hvalue, rfl⟩ |
    ⟨key, rfl, hkey, rfl⟩ := check_eq_error h
  · rw [exec, DB.put, if_pos hkey]
  · rw [exec, DB.put, if_neg hkey, if_pos hvalue]
  · rw [exec, DB.delete, if_pos hkey]

/-- A call changes nothing, or writes, and then may flush. -/
theorem Op.exec_cases (env : Env) (db : DB) (op : Op) :
    (op.exec env db).1 = db ∨
      op.Accepted ∧ ((op.exec env db).1 = op.write db ∨
        (op.exec env db).1 = ((op.write db).flushMemtableLocked env).1) := by
  by_cases hop : op.Accepted
  · refine Or.inr ⟨hop, ?_⟩
    rw [exec_eq hop]
    split
    · exact Or.inr rfl
    · exact Or.inl rfl
  · obtain ⟨e, hcheck⟩ := exists_check_error hop
    exact Or.inl (by rw [exec_refused hcheck])

theorem Keeps.write_limited (h : Keeps clock limited contents db) {op : Op} (hop : op.Accepted) :
    Keeps clock limited contents (op.write db) := by
  cases hentry : op.entry? (db.seqNum + 1) with
  | none =>
      obtain rfl := entry?_eq_none hentry
      exact h
  | some e =>
      have hkeeps := h.write hentry
      have hset : Set.insert e limited = limited :=
        Set.insert_eq_of_mem (withinLimits_of_loggable (entry?_written hentry hop).loggable)
      rwa [hset] at hkeeps

theorem Keeps.exec (h : Keeps clock limited contents db) (hclock : StrictMono clock)
    (henv : env.clock = clock) (op : Op) :
    ∃ contents', Grown clock limited contents db (op.exec env db).1 contents' := by
  rcases op.exec_cases env db with hsame | ⟨hop, hcases⟩
  · rw [hsame]
    exact ⟨contents, h.grown_self⟩
  · have hwrite : Grown clock limited contents db (op.write db) contents :=
      ⟨(op.write_ticks db).ge, Set.eqOn_refl _ _, h.write_limited hop⟩
    rcases hcases with hdb | hdb
    · rw [hdb]
      exact ⟨contents, hwrite⟩
    · obtain ⟨contents', hflush⟩ := hwrite.keeps.flush hclock (fun e he => he) henv
      rw [hdb]
      exact ⟨contents', hwrite.trans hflush⟩

theorem Keeps.fresh (h : Keeps clock W contents db) (hclock : StrictMono clock) {i : Nat}
    (hi : db.ticks ≤ i) : ∀ sst ∈ db.sstables, sst.filePath ≠ sstName (clock i) := by
  intro sst hsst heq
  obtain ⟨j, hj, hpath, -⟩ := h.tables sst hsst
  have hsame := hclock.injective (sstName_injective (hpath.symm.trans heq))
  omega

theorem Keeps.shelved_flushTable (h : Keeps clock W contents db) (hclock : StrictMono clock)
    (henv : env.clock = clock) (hs : Shelved db.dir db.sstables) :
    Shelved (db.flushTable env).1.dir (db.flushTable env).1.sstables := by
  have hfresh := h.fresh hclock le_rfl
  unfold DB.flushTable
  simp only [flush_eq, henv]
  split
  · exact hs
  · have hkept : Shelved (db.dir.write (sstName (clock db.ticks)) (fileOf db.memtable.tree))
        db.sstables := hs.of_read fun name hname => Compaction.read_write_ne_none hname _ _
    split
    · exact hkept
    · refine ⟨List.nodup_cons.mpr ⟨?_, hs.nodup⟩, List.forall_mem_cons.mpr ⟨?_, hkept.present⟩⟩
      · intro hmem
        obtain ⟨sst, hsst, heq⟩ := List.mem_map.mp hmem
        exact hfresh sst hsst heq
      · rw [show (tableOf (sstName (clock db.ticks)) db.memtable.tree).filePath =
          sstName (clock db.ticks) from rfl, FMap.read_write_self]
        simp

theorem Keeps.shelved_compactTables (h : Keeps clock W contents db) (hclock : StrictMono clock)
    (henv : env.clock = clock) (hok : ∀ k, env.fails (.compaction (.remove k)) = false)
    (hs : Shelved db.dir db.sstables) :
    Shelved (db.compactTables env).1.dir (db.compactTables env).1.sstables := by
  have hnow : (env.compaction db).now = fun i => clock (db.ticks + i) := by
    rw [← henv]
    rfl
  have hinj : Function.Injective (env.compaction db).now := by
    rw [hnow]
    exact hclock.injective.comp (add_right_injective db.ticks)
  have hfresh : ∀ i < db.sstables.length, ∀ sst ∈ db.sstables,
      sst.filePath ≠ sstName ((env.compaction db).now i) := by
    rw [hnow]
    exact fun i _ => h.fresh hclock (Nat.le_add_right _ _)
  have hremove : ∀ k, (env.compaction db).fails (.remove k) = false := hok
  have hshelved := Compaction.compact_shelved hremove hs hfresh hinj db.watermark.floor
  unfold DB.compactTables
  rcases hout : Compaction.compact (env.compaction db) db.dir db.sstables db.watermark.floor with
    ⟨dir, _ | compacted⟩
  · rw [hout] at hshelved
    exact hshelved
  · rw [hout] at hshelved
    exact hshelved

theorem Keeps.shelved_flush (h : Keeps clock W contents db) (hclock : StrictMono clock)
    (henv : env.clock = clock) (hok : ∀ k, env.fails (.compaction (.remove k)) = false)
    (hs : Shelved db.dir db.sstables) :
    Shelved (db.flushMemtableLocked env).1.dir (db.flushMemtableLocked env).1.sstables := by
  have htable := h.shelved_flushTable hclock henv hs
  obtain ⟨contents₁, hgrown⟩ := h.flushTable henv
  unfold DB.flushMemtableLocked
  rcases hflush : db.flushTable env with ⟨db₁, _ | _⟩
  · rw [hflush] at htable
    exact htable
  · rw [hflush] at htable hgrown
    have hreset := shelved_resetWAL htable env
    have hkeeps := (hgrown.keeps.resetWAL env).keeps
    simp only
    rcases hwal : db₁.resetWAL env with ⟨db₂, _ | _⟩
    · rw [hwal] at hreset
      exact hreset
    · rw [hwal] at hreset hkeeps
      exact hkeeps.shelved_compactTables hclock henv hok hreset

theorem Keeps.shelved_exec (h : Keeps clock limited contents db) (hclock : StrictMono clock)
    (henv : env.clock = clock) (hok : ∀ k, env.fails (.compaction (.remove k)) = false) (op : Op)
    (hs : Shelved db.dir db.sstables) :
    Shelved (op.exec env db).1.dir (op.exec env db).1.sstables := by
  rcases op.exec_cases env db with hsame | ⟨hop, hcases⟩
  · rwa [hsame]
  · have hkeeps := h.write_limited hop
    have hwritten : Shelved (op.write db).dir (op.write db).sstables := by
      rw [Op.write_eq]
      split <;> exact hs
    rcases hcases with hdb | hdb
    · rwa [hdb]
    · rw [hdb]
      exact hkeeps.shelved_flush hclock henv hok hwritten

theorem rebuildMemtable_limited (log : Bytes) :
    ∀ e ∈ (rebuildMemtable (openWAL log)).1.tree, e ∈ limited := by
  have hfold : ∀ (es : List Entry) (acc : MemTable × Nat), (∀ e ∈ es, Loggable e) →
      (∀ e ∈ acc.1.tree, e ∈ limited) → ∀ e ∈ (es.foldl rebuildEntry acc).1.tree, e ∈ limited := by
    intro es
    induction es with
    | nil => exact fun acc _ hacc => hacc
    | cons x es ih =>
        intro acc hes hacc
        obtain ⟨hx, hrest⟩ := List.forall_mem_cons.mp hes
        refine ih _ hrest fun e he => ?_
        unfold rebuildEntry at he
        simp only at he
        split at he
        · rcases (mem_insert_tree acc.1 _ _).mp he with rfl | ⟨he, -⟩
          · exact ⟨hx.keyLength, Nat.zero_le _⟩
          · exact hacc e he
        · rcases (mem_insert_tree acc.1 _ _).mp he with rfl | ⟨he, -⟩
          · exact withinLimits_of_loggable hx
          · exact hacc e he
  refine hfold _ _ (WAL.replay_loggable log) ?_
  simp [newMemTable]

theorem keeps_openDB {log : Bytes} {dir : TableDir} {ticks : Nat}
    (hfiles : Holding limited clock ticks contents dir)
    (hsize : ∀ name content, dir.read name = some content → content.length < 2 ^ 63)
    (hopen : openDB log dir ticks = .ok db) : Keeps clock limited contents db := by
  obtain ⟨tables, maxSeq, htables, -, rfl⟩ := openDB_eq_ok hopen
  refine ⟨rebuildMemtable_limited log, hfiles, fun sst hsst => ?_⟩
  obtain ⟨name, content, hread, hsst⟩ := (mem_openAllInDir htables sst).mp hsst
  obtain ⟨i, hi, rfl, rfl⟩ := hfiles.files name content hread
  have hlength := hsize _ _ hread
  rw [fileOf_length] at hlength
  rw [openTable_fileOf_take _ (hfiles.entries i) (offsetsFit_of_fileSize hlength)] at hsst
  obtain rfl := Except.ok.inj hsst
  exact ⟨i, hi, rfl, List.take_prefix _ _⟩

theorem shelved_openDB {log : Bytes} {dir : TableDir} {ticks : Nat}
    (hopen : openDB log dir ticks = .ok db) : Shelved db.dir db.sstables := by
  obtain ⟨tables, maxSeq, htables, -, rfl⟩ := openDB_eq_ok hopen
  refine ⟨?_, fun sst hsst => ?_⟩
  · change (tables.map SSTable.filePath).Nodup
    rw [openAll_paths htables]
    exact dir.nodup_descending
  · obtain ⟨name, content, hread, hsst⟩ := (mem_openAllInDir htables sst).mp hsst
    rw [openTable_filePath hsst, hread]
    simp

end Hcdb.Db
