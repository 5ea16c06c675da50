import Hcdb.Compaction.Restart
import Hcdb.Db.Recovery

/-!
The order in which the next process finds the tables.  A process keeps them in the order
of its list, and `Open` takes them in that of their names; as long as both are newest
first it makes no difference which of the two a read goes by.
-/

namespace Hcdb.Compaction

open Hcdb.Lib.ByteString
open Hcdb.Sstable

section Relisted

variable [Runtime] {env : Env} {ts us : List Table} {dir : TableDir}

theorem Ready.filter_doomed_perm (h : Ready env ts dir) :
    (ts.filter fun t => !decide (t.name ∈ doomedNames env ts)).Perm
      (singles (groupsOf env.stat ts)) := by
  have hperm := (doomed_append_singles_perm (groupsOf env.stat ts)).trans
    (groupBySize_flatten_perm _ ts)
  have hgone : (doomed (groupsOf env.stat ts)).filter
      (fun t => !decide (t.name ∈ doomedNames env ts)) = [] := by
    refine List.filter_eq_nil_iff.mpr fun t ht => ?_
    have hmem : t ∈ ts := hperm.mem_iff.mp (List.mem_append_left _ ht)
    have hname : t.name ∈ doomedNames env ts :=
      List.mem_map_of_mem (mem_doomedOf.mpr ⟨hmem, List.mem_map_of_mem ht⟩)
    simp [hname]
  have hstay : (singles (groupsOf env.stat ts)).filter
      (fun t => !decide (t.name ∈ doomedNames env ts)) = singles (groupsOf env.stat ts) :=
    List.filter_eq_self.mpr fun t ht => by simp [(h.single_mem ht).2]
  have hfilter := hperm.filter fun t => !decide (t.name ∈ doomedNames env ts)
  rw [List.filter_append, hgone, hstay, List.nil_append] at hfilter
  exact hfilter.symm

/-- The files after a compaction, in the order of their names, are the tables of its list
in some order. -/
theorem Ready.relisted (h : Ready env ts dir) (hl : Listed dir us) (hperm : us.Perm ts)
    (hnames : LaterNames env.now ts) (hcount : (layersOf ts).flatten.length < 2 ^ 32)
    (floor : Nat) :
    ∃ us', Listed (resultDir env floor ts dir) us' ∧ us'.Perm (resultOf env floor ts) := by
  unfold resultDir resultOf
  split
  · exact ⟨us, hl, hperm⟩
  · have hincreasing : (newTables env.now floor 0 (groupsOf env.stat ts)).Pairwise
        fun t t' => t.name < t'.name :=
      newTables_names_lt hnames floor (by simpa using groupsOf_length_le env.stat ts)
    have hlater : ∀ t ∈ newTables env.now floor 0 (groupsOf env.stat ts), ∀ t' ∈ ts,
        t'.name < t.name := by
      intro t ht t' ht'
      obtain ⟨i, g, -, hi, -, -, rfl⟩ := mem_newTables ht
      rw [mergedTable_name]
      have hle := groupsOf_length_le env.stat ts
      exact hnames.name_lt ht' (by omega)
    have hkeep : (newTables env.now floor 0 (groupsOf env.stat ts)).reverse.filter
        (fun t => !decide (t.name ∈ doomedNames env ts)) =
        (newTables env.now floor 0 (groupsOf env.stat ts)).reverse := by
      refine List.filter_eq_self.mpr fun t ht => ?_
      simp only [Bool.not_eq_true', decide_eq_false_iff_not]
      intro hmem
      obtain ⟨t', ht', hsame, -⟩ := doomedNames_subset hmem
      exact absurd hsame (hlater t (List.mem_reverse.mp ht) t' ht').ne
    have hstores := stores_removeNames (stores_writeTables hl.stores h.nodup_new
      fun t ht t' ht' => (hlater t ht t' (hperm.mem_iff.mp ht')).ne) (doomedNames env ts)
    rw [List.filter_append, hkeep] at hstores
    refine ⟨_, ⟨hstores, ?_, ?_⟩, ?_⟩
    · refine List.pairwise_append.mpr ⟨List.pairwise_reverse.mpr hincreasing,
        hl.descending.sublist List.filter_sublist, fun t ht t' ht' => ?_⟩
      exact hlater t (List.mem_reverse.mp ht) t' (hperm.mem_iff.mp (List.mem_of_mem_filter ht'))
    · intro t ht
      rcases List.mem_append.mp ht with ht | ht
      · obtain ⟨i, g, -, -, hg, -, rfl⟩ := mem_newTables (List.mem_reverse.mp ht)
        have hsub : g.Sublist ts := groupBySize_sublist hg
        apply countable_mergedTable (h.newestFirst_group hg)
        exact (hsub.map Table.entries).flatten.length_le.trans_lt hcount
      · exact hl.countable t (List.mem_of_mem_filter ht)
    · refine List.Perm.trans ?_ (outTables_perm env.now floor 0 (groupsOf env.stat ts)).symm
      exact (List.reverse_perm _).append ((hperm.filter _).trans h.filter_doomed_perm)

end Relisted

end Hcdb.Compaction

namespace Hcdb.Db

open Hcdb.Lib.ByteString
open Hcdb.Base
open Hcdb.Memtable
open Hcdb.Sstable
open Hcdb.Compaction
open Hcdb.Wal

theorem versionAt_of_mem_iff {es es' : List Entry} (h : NewestFirst es) (h' : NewestFirst es')
    (hmem : ∀ e, e ∈ es ↔ e ∈ es') (key : Bytes) (snapshot : Nat) :
    versionAt es key snapshot = versionAt es' key snapshot := by
  apply Option.ext
  intro e
  rw [h.versionAt_eq_some_iff, h'.versionAt_eq_some_iff, hmem]
  simp only [hmem]

variable [Runtime] {clock : Nat → Nat} {db : DB} {ts us : List Table} {stat : Stat}

/-- The directory opens as the tables of the list in an order that is newest first. -/
structure Relists (dir : TableDir) (ts us : List Table) : Prop where
  listed : Listed dir us
  perm : us.Perm ts
  newestFirst : NewestFirst (layersOf us).flatten

theorem relists_emptyDB : Relists emptyDB.dir [] [] where
  listed := listed_emptyDB
  perm := List.Perm.refl _
  newestFirst := List.Pairwise.nil

theorem Relists.mem_layers (h : Relists db.dir ts us) (e : Entry) :
    e ∈ (layersOf us).flatten ↔ e ∈ (layersOf ts).flatten :=
  (h.perm.map Table.entries).flatten.mem_iff

theorem Relists.versionAt_eq (h : Relists db.dir ts us) (hnf : NewestFirst (layersOf ts).flatten)
    (key : Bytes) (snapshot : Nat) :
    versionAt (layersOf us).flatten key snapshot = versionAt (layersOf ts).flatten key snapshot :=
  versionAt_of_mem_iff h.newestFirst hnf h.mem_layers key snapshot

/-- A flush whose compaction keeps recency, in the list and in the names of the files, with
room in the format of the tables. -/
structure TidyFlush (clock : Nat → Nat) (db : DB) (stat : Stat) : Prop where
  recency : RecencyKept stat (flushedDB clock db)
  reopened : ∀ ssts,
    openAllInDir (db.flushMemtableLocked (healthy clock stat)).1.dir = .ok ssts →
      NewestFirst (ssts.map
        (entriesIn (db.flushMemtableLocked (healthy clock stat)).1.dir)).flatten
  stamp : ∀ i ≤ db.ticks + db.sstables.length + 1, Stamp (clock i)
  room : (flushedDB clock db).layers.flatten.length < 2 ^ 32

theorem DB.compactTables_dir (env : Env) (db : DB) :
    (db.compactTables env).1.dir =
      (compact (env.compaction db) db.dir db.sstables db.watermark.floor).1 := by
  unfold compactTables
  rcases compact (env.compaction db) db.dir db.sstables db.watermark.floor with ⟨dir, _ | ssts⟩
  · rfl
  · rfl

theorem TidyFlush.withWal (h : TidyFlush clock db stat) (wal : WAL) :
    TidyFlush clock { db with wal } stat where
  recency := h.recency
  reopened := by
    have hreopened := h.reopened
    rw [flushMemtableLocked_healthy, DB.compactTables_dir] at hreopened ⊢
    exact hreopened
  stamp := h.stamp
  room := h.room

theorem Ordered.flush_eq (h : Ordered clock db ts) (hclock : StrictMono clock) (stat : Stat) :
    db.flushMemtableLocked (healthy clock stat) =
      (Db.compactedDB clock stat (Db.flushedDB clock db) (flushedTable clock h.toRepresents :: ts),
        .ok ()) := by
  have hflushed := h.flushedDB hclock
  rw [flushMemtableLocked_healthy,
    hflushed.toRepresents.compactTables_eq hclock hflushed.layers_newestFirst]

theorem Represents.relist (h : Represents clock db ts) (hperm : us.Perm ts) :
    Represents clock { db with sstables := us.map Table.sst } us where
  sstables := rfl
  held t ht := h.held t (hperm.mem_iff.mp ht)
  nodup := (hperm.map Table.name).nodup_iff.mpr h.nodup
  stamped := h.stamped
  wellFormed := h.wellFormed

theorem Represents.laterNames (h : Represents clock db ts) (hclock : StrictMono clock)
    (hstamp : ∀ i < db.ticks + ts.length, Stamp (clock i)) (stat : Stat) :
    LaterNames ((healthy clock stat).compaction db).now ts where
  stamp i hi := hstamp _ (Nat.add_lt_add_left hi _)
  increasing i _ j hj := hclock (Nat.add_lt_add_left hj _)
  later t ht := by
    have hread : db.dir.read t.name ≠ none := by
      rw [h.held t ht]
      simp
    obtain ⟨i, hi, hname⟩ := h.stamped t.name hread
    exact ⟨clock i, hstamp i (Nat.lt_add_right _ hi), hname,
      fun j _ => hclock (hi.trans_le (Nat.le_add_right _ _))⟩

theorem layers_of_listed {dir : TableDir} (h : Listed dir us) :
    (us.map Table.sst).map (entriesIn dir) = layersOf us := by
  rw [List.map_map]
  refine List.map_congr_left fun t ht => ?_
  rw [Function.comp_apply, entriesIn, t.newBlockIterator_eq (h.held t ht)]
  rfl

/-- After a tidy flush the next process finds the tables of the list, newest first. -/
theorem Ordered.relists_flush (h : Ordered clock db ts) (hclock : StrictMono clock)
    (hr : Relists db.dir ts us) (htidy : TidyFlush clock db stat) :
    ∃ us', Relists (Db.compactedDB clock stat (Db.flushedDB clock db)
        (flushedTable clock h.toRepresents :: ts)).dir
      (compactedTables clock stat (Db.flushedDB clock db)
        (flushedTable clock h.toRepresents :: ts)) us' := by
  have hflushed := h.flushedDB hclock
  have hlength : db.sstables.length = ts.length := by rw [h.sstables, List.length_map]
  have hroom := htidy.room
  rw [hflushed.layers_eq] at hroom
  have hcountable : (flushedTable clock h.toRepresents).Countable :=
    Table.countable_of_length_lt (lt_of_le_of_lt (by simp) hroom)
  have hlisted : Listed (Db.flushedDB clock db).dir (flushedTable clock h.toRepresents :: us) :=
    @listed_flushedDB _ clock { db with sstables := us.map Table.sst } us hr.listed
      (h.toRepresents.relist hr.perm) hclock
      (fun i hi => htidy.stamp i (le_add_right (le_add_right hi))) hcountable
  have hnames := hflushed.toRepresents.laterNames hclock (fun i hi => htidy.stamp i (by
    have hticks : (Db.flushedDB clock db).ticks = db.ticks + 1 := rfl
    rw [hticks, List.length_cons] at hi
    omega)) stat
  obtain ⟨us', hlisted', hperm⟩ := (hflushed.ready hclock stat).relisted hlisted
    (hr.perm.cons _) hnames hroom (Db.flushedDB clock db).watermark.floor
  refine ⟨us', hlisted', hperm, ?_⟩
  have hnewest := htidy.reopened (us'.map Table.sst)
  rw [h.flush_eq hclock stat] at hnewest
  rw [← layers_of_listed hlisted']
  exact hnewest hlisted'.openAllInDir_eq

end Hcdb.Db
