import Hcdb.Db.CompactionCrash
import Hcdb.Db.Recovery

/-!
A temporary file that a crash left behind.  `OpenAllInDir` opens whatever lies in the
directory, so `Open` fails on a leftover that does not read as a table, and reads
take the versions of one that does.
-/

namespace Hcdb.Db

open Hcdb.Lib.ByteString
open Hcdb.Lib.FiniteMap
open Hcdb.Lib.SortedList
open Hcdb.Base
open Hcdb.Memtable
open Hcdb.Sstable
open Hcdb.Compaction
open Hcdb.Wal

/-- One run of entries more, between the runs that are read before it and those that
are read behind it, changes no outcome.  A point read takes its version of a key when
no run before it has one, a merge when it is the newest. -/
def Redundant (front : List (List Entry)) (layer : List Entry) (back : List (List Entry)) : Prop :=
  ∀ key e, versionAt layer key seqNumMax = some e →
    (versionAt front.flatten key seqNumMax = none →
      answer (some e) = answer (versionAt back.flatten key seqNumMax)) ∧
    (newestAt (front ++ layer :: back) key seqNumMax = some e →
      answer (some e) = answer (newestAt (front ++ back) key seqNumMax))

theorem redundant_iff {front back : List (List Entry)} {layer : List Entry} :
    Redundant front layer back ↔ ∀ key,
      answer (versionAt (front ++ layer :: back).flatten key seqNumMax) =
          answer (versionAt (front ++ back).flatten key seqNumMax) ∧
        answer (newestAt (front ++ layer :: back) key seqNumMax) =
          answer (newestAt (front ++ back) key seqNumMax) := by
  refine forall_congr' fun key => ?_
  have hpoint : versionAt (front ++ layer :: back).flatten key seqNumMax =
      (versionAt front.flatten key seqNumMax).or ((versionAt layer key seqNumMax).or
        (versionAt back.flatten key seqNumMax)) := by
    rw [List.flatten_append, List.flatten_cons, versionAt_append, versionAt_append]
  have hpoint' : versionAt (front ++ back).flatten key seqNumMax =
      (versionAt front.flatten key seqNumMax).or (versionAt back.flatten key seqNumMax) := by
    rw [List.flatten_append, versionAt_append]
  have hinsert := newestAt_insert front layer back key seqNumMax
  rw [hpoint, hpoint']
  cases hv : versionAt layer key seqNumMax with
  | none =>
      have hmerge : newestAt (front ++ layer :: back) key seqNumMax =
          newestAt (front ++ back) key seqNumMax := by
        rcases hinsert with ⟨e, he, -⟩ | hsame
        · rw [hv] at he
          simp at he
        · exact hsame
      simp [hmerge]
  | some e =>
      simp only [Option.some.injEq, forall_eq', Option.some_or]
      refine and_congr ?_ ?_
      · cases versionAt front.flatten key seqNumMax with
        | none => simp
        | some f => simp
      · constructor
        · intro h
          rcases hinsert with ⟨e', he', hnew⟩ | hsame
          · obtain rfl : e = e' := Option.some.inj (hv.symm.trans he')
            rw [hnew]
            exact h hnew
          · rw [hsame]
        · intro h hnew
          rw [← h, hnew]

theorem fresh_tmpName {ts : List Table} (hnames : ∀ t ∈ ts, ∃ nanos, t.name = sstName nanos)
    (name : Bytes) : ∀ t ∈ ts, t.name ≠ tmpName name := by
  intro t ht heq
  obtain ⟨nanos, hname⟩ := hnames t ht
  exact tmpName_ne_sstName name nanos (heq.symm.trans hname)

theorem openTable_short (name : Bytes) {file : Bytes} (h : file.length < footerLen) :
    openTable name file = .error .badSeek := by
  simp only [openTable, readFooterWithBloom, if_pos h]

section Leftover

variable [Runtime] {db db' : DB} {layers layers' : List (List Entry)}

/-- `Get` and `Scan` return what these runs hold. -/
structure ReadsAs (db : DB) (layers : List (List Entry)) : Prop where
  get : ∀ key, db.get key = answer (versionAt layers.flatten key seqNumMax)
  scan : ∀ lowerBound upperBound, ∃ m, db.scan lowerBound upperBound = .ok m ∧
    SortedBy Prod.fst m.drain ∧ ∀ u v, (u, v) ∈ m.drain ↔
      inRange lowerBound upperBound u = true ∧ answer (newestAt layers u seqNumMax) = some v

theorem readsAs_of_serves (hmem : ∀ e ∈ db.memtable.tree, e.ik.valid = true)
    (h : List.Forall₂ (Serves (readBlock db.dir)) db.sstables layers) :
    ReadsAs db (db.memtable.tree :: layers) where
  get key := getFrom_eq hmem h key le_rfl
  scan lowerBound upperBound := scanFrom_serves hmem h lowerBound upperBound le_rfl

/-- Every `Get` and `Scan` returns the same on both databases. -/
structure SameResults (db db' : DB) : Prop where
  get : ∀ key, db'.get key = db.get key
  scan : ∀ lowerBound upperBound, ∃ m m', db.scan lowerBound upperBound = .ok m ∧
    db'.scan lowerBound upperBound = .ok m' ∧ m'.drain = m.drain

theorem sameResults_iff (h : ReadsAs db layers) (h' : ReadsAs db' layers') :
    SameResults db db' ↔ ∀ key,
      answer (versionAt layers'.flatten key seqNumMax) =
          answer (versionAt layers.flatten key seqNumMax) ∧
        answer (newestAt layers' key seqNumMax) = answer (newestAt layers key seqNumMax) := by
  constructor
  · rintro ⟨hget, hscan⟩ key
    refine ⟨by rw [← h.get, ← h'.get, hget], ?_⟩
    -- the scan of this one key
    obtain ⟨m, m', hm, hm', hsame⟩ := hscan key (some key)
    obtain ⟨n, hn, -, hpairs⟩ := h.scan key (some key)
    obtain ⟨n', hn', -, hpairs'⟩ := h'.scan key (some key)
    obtain rfl : m = n := Except.ok.inj (hm.symm.trans hn)
    obtain rfl : m' = n' := Except.ok.inj (hm'.symm.trans hn')
    have hin : inRange key (some key) key = true := by simp [inRange, belowUpper]
    apply Option.ext
    intro v
    have hpair := hpairs key v
    have hpair' := hpairs' key v
    rw [hin] at hpair hpair'
    simp only [true_and] at hpair hpair'
    rw [← hpair, ← hpair', hsame]
  · intro hall
    refine ⟨fun key => by rw [h.get, h'.get, (hall key).1], fun lowerBound upperBound => ?_⟩
    obtain ⟨m, hm, hsorted, hpairs⟩ := h.scan lowerBound upperBound
    obtain ⟨m', hm', hsorted', hpairs'⟩ := h'.scan lowerBound upperBound
    refine ⟨m, m', hm, hm', hsorted'.eq_of_mem_iff hsorted ?_⟩
    rintro ⟨u, v⟩
    rw [hpairs', hpairs, (hall u).2]

variable {dir : TableDir} {ts : List Table}

theorem openDB_write (h : Listed dir ts) {name : Bytes} (hfresh : ∀ t ∈ ts, t.name ≠ name)
    (file : Bytes) {es : List Entry} (hlog : ∀ e ∈ es, Loggable e)
    (htomb : ∀ e ∈ es, e.kind = internalKeyKindDelete → e.value = []) (n ticks : Nat) :
    openDB ((encodeRecords es).take n) (dir.write name file) ticks =
      match openTable name file with
      | .error e => .error (.sst e)
      | .ok sst =>
          match readBlocks file sst.index with
          | .error e => .error (.sst e)
          | .ok entries => .ok { reopened ts (wholeWithin n es) (dir.write name file) ticks with
              sstables := (newerTables name ts).map Table.sst ++
                sst :: (olderTables name ts).map Table.sst
              seqNum := max (maxSeqNumOf 0 (wholeWithin n es)) (maxSeqNumOf (maxSeqNumOf
                (maxSeqNumOf 0 (layersOf (newerTables name ts)).flatten) entries)
                  (layersOf (olderTables name ts)).flatten) } := by
  have hsub := (wholeWithin_initial n es).subset
  have hheld : ∀ ts' ⊆ ts, ∀ t ∈ ts', (dir.write name file).read t.name = some t.content := by
    intro ts' hts' t ht
    rw [FMap.read_write_of_ne _ _ (hfresh t (hts' ht)), h.held t (hts' ht)]
  rw [openDB, rebuildMemtable, WAL.replay_take hlog n]
  simp only [foldl_rebuildEntry fun e he => htomb e (hsub he), h.openAllInDir_write hfresh file]
  cases hopen : openTable name file with
  | error e => rfl
  | ok sst =>
      have hread : newBlockIterator (dir.write name file) sst = readBlocks file sst.index := by
        rw [newBlockIterator, openTable_filePath hopen, FMap.read_write_self]
      simp only [maxSeqNumInTables_append (hheld (newerTables name ts) List.filter_sublist.subset),
        maxSeqNumInTables, hread]
      cases readBlocks file sst.index with
      | error e => rfl
      | ok entries =>
          simp only [maxSeqNumInTables_eq (hheld (olderTables name ts) List.filter_sublist.subset)]
          rfl

/-- The file opens under this name, and all of its blocks decode. -/
def OpensAs (name file : Bytes) (sst : SSTable) : Prop :=
  openTable name file = .ok sst ∧ ∃ entries, readBlocks file sst.index = .ok entries

/-- The directory with the first `n` bytes of the file that a writer was about to
install as `t`. -/
def leftoverDir (dir : TableDir) (t : Table) (n : Nat) : TableDir :=
  dir.write (tmpName t.name) (t.content.take n)

/-- The leftover opens as a table whose entries are redundant in the place where it is
listed, between `ts` and behind the memtable `mem`. -/
def LeftoverRedundant (dir : TableDir) (ts : List Table) (mem : List Entry) (t : Table) (n : Nat) :
    Prop :=
  ∃ sst layer, OpensAs (tmpName t.name) (t.content.take n) sst ∧
    Serves (readBlock (leftoverDir dir t n)) sst layer ∧
    Redundant (mem :: layersOf (newerTables (tmpName t.name) ts)) layer
      (layersOf (olderTables (tmpName t.name) ts))

/-- The leftover does not open, or reads as a sorted run of entries. -/
def LeftoverOrderly (dir : TableDir) (t : Table) (n : Nat) : Prop :=
  ∀ sst, OpensAs (tmpName t.name) (t.content.take n) sst →
    ∃ layer, Serves (readBlock (leftoverDir dir t n)) sst layer

theorem serves_write (h : Listed dir ts) {name : Bytes} (hfresh : ∀ t ∈ ts, t.name ≠ name)
    (file : Bytes) {ts' : List Table} (hsub : ts' ⊆ ts) :
    List.Forall₂ (Serves (readBlock (dir.write name file))) (ts'.map Table.sst) (layersOf ts') := by
  apply forall₂_serves
  intro t ht
  apply Table.intact_readBlock
  rw [FMap.read_write_of_ne _ _ (hfresh t (hsub ht)), h.held t (hsub ht)]

theorem sameResults_leftover_iff (h : Listed dir ts)
    (hnames : ∀ t ∈ ts, ∃ nanos, t.name = sstName nanos) {es : List Entry}
    (hwf : ∀ e ∈ es, e.WellFormed) (htomb : ∀ e ∈ es, e.kind = internalKeyKindDelete → e.value = [])
    (k ticks : Nat) {t : Table} {n : Nat} {sst : SSTable} {layer : List Entry}
    (hopens : OpensAs (tmpName t.name) (t.content.take n) sst)
    (hserves : Serves (readBlock (leftoverDir dir t n)) sst layer) :
    ∃ db', openDB ((encodeRecords es).take k) (leftoverDir dir t n) ticks = .ok db' ∧
      (SameResults (reopened ts (wholeWithin k es) dir ticks) db' ↔
        Redundant ((memtableOf (wholeWithin k es)).tree ::
            layersOf (newerTables (tmpName t.name) ts))
          layer (layersOf (olderTables (tmpName t.name) ts))) := by
  have hfresh := fresh_tmpName hnames t.name
  have hvalid : ∀ e ∈ (memtableOf (wholeWithin k es)).tree, e.ik.valid = true := fun e he =>
    (hwf e ((wholeWithin_initial k es).subset (mem_of_mem_memtableOf he))).valid
  obtain ⟨hopen, entries, hentries⟩ := hopens
  have hdb := openDB_write h hfresh (t.content.take n)
    (fun e he => loggable_of_wellFormed (hwf e he)) htomb k ticks
  rw [hopen] at hdb
  simp only [hentries] at hdb
  refine ⟨_, hdb, ?_⟩
  have hbefore : ReadsAs (reopened ts (wholeWithin k es) dir ticks)
      ((memtableOf (wholeWithin k es)).tree :: layersOf ts) :=
    readsAs_of_serves hvalid (forall₂_serves fun t ht => Table.intact_readBlock (h.held t ht))
  have hsplit : layersOf ts = layersOf (newerTables (tmpName t.name) ts) ++
      layersOf (olderTables (tmpName t.name) ts) := by
    rw [layersOf, ← List.map_append, h.newer_append_older]
  rw [hsplit] at hbefore
  rw [redundant_iff]
  apply sameResults_iff hbefore
  refine readsAs_of_serves hvalid (List.rel_append ?_ (List.Forall₂.cons hserves ?_))
  · exact serves_write h hfresh _ List.filter_sublist.subset
  · exact serves_write h hfresh _ List.filter_sublist.subset

/-- A leftover with redundant entries does no harm; and one that does none has
redundant entries, unless it opens as a table whose entries are out of order. -/
theorem leftover_harmless_iff (h : Listed dir ts)
    (hnames : ∀ t ∈ ts, ∃ nanos, t.name = sstName nanos) {es : List Entry}
    (hwf : ∀ e ∈ es, e.WellFormed) (htomb : ∀ e ∈ es, e.kind = internalKeyKindDelete → e.value = [])
    (k ticks : Nat) (t : Table) (n : Nat) :
    ∃ db, openDB ((encodeRecords es).take k) dir ticks = .ok db ∧
      (LeftoverRedundant dir ts db.memtable.tree t n →
        ∃ db', openDB ((encodeRecords es).take k) (leftoverDir dir t n) ticks = .ok db' ∧
          SameResults db db') ∧
      (LeftoverOrderly dir t n →
        (∃ db', openDB ((encodeRecords es).take k) (leftoverDir dir t n) ticks = .ok db' ∧
          SameResults db db') →
        LeftoverRedundant dir ts db.memtable.tree t n) := by
  have hlog : ∀ e ∈ es, Loggable e := fun e he => loggable_of_wellFormed (hwf e he)
  refine ⟨_, openDB_eq h hlog htomb k ticks, ?_, ?_⟩
  · rintro ⟨sst, layer, hopens, hserves, hredundant⟩
    obtain ⟨db', hdb', hiff⟩ := sameResults_leftover_iff h hnames hwf htomb k ticks hopens hserves
    exact ⟨db', hdb', hiff.mpr hredundant⟩
  · rintro horderly ⟨db', hdb', hsame⟩
    obtain ⟨sst, hopens⟩ : ∃ sst, OpensAs (tmpName t.name) (t.content.take n) sst := by
      have hdb := openDB_write h (fresh_tmpName hnames t.name) (t.content.take n) hlog htomb k
        ticks
      rw [← leftoverDir, hdb'] at hdb
      split at hdb
      · simp at hdb
      · rename_i sst hopen
        split at hdb
        · simp at hdb
        · rename_i entries hentries
          exact ⟨sst, hopen, entries, hentries⟩
    obtain ⟨layer, hserves⟩ := horderly sst hopens
    obtain ⟨db'', hdb'', hiff⟩ := sameResults_leftover_iff h hnames hwf htomb k ticks hopens hserves
    obtain rfl : db' = db'' := Except.ok.inj (hdb'.symm.trans hdb'')
    exact ⟨sst, layer, hopens, hserves, hiff.mp hsame⟩

theorem not_opensAs_short {name file : Bytes} (h : file.length < footerLen) (sst : SSTable) :
    ¬ OpensAs name file sst := by
  rintro ⟨hopen, -⟩
  rw [openTable_short name h] at hopen
  simp at hopen

theorem serves_of_index_nil {read : BlockReader} {sst : SSTable} (hindex : sst.index = [])
    (hbloom : ∀ key, sst.bloom.mightContain key ≠ none) : Serves read sst [] := by
  have hopens : ∀ lowerBound snapshot, OpensOn read lowerBound snapshot sst [] := by
    intro lowerBound snapshot
    obtain ⟨it, hit, hyields⟩ := newIterator_yields read sst lowerBound snapshot
      (by simp [hindex])
    have hnil : reachable read sst lowerBound snapshot = [] := by
      simp [reachable, hindex, Sstable.Iterator.blocksFrom]
    rw [hnil] at hyields
    exact ⟨sortedBy_nil, it, hit, hyields⟩
  refine ⟨fun key snapshot _ => ?_, fun lowerBound snapshot _ => hopens lowerBound snapshot⟩
  obtain ⟨-, it, hit, hyields⟩ := hopens key snapshot
  have hnone : it.current? = none := hyields.current?_eq
  have habsent : KeyLookup.ofEntry? (versionAt [] key snapshot) = .absent := rfl
  rw [SSTable.lookup, habsent]
  cases hmight : sst.bloom.mightContain key with
  | none => exact absurd hmight (hbloom key)
  | some b =>
      cases b with
      | false => rfl
      | true => simp only [hit, hnone]

/-- The table under the name that its file has until it is renamed. -/
def tmpTable (t : Table) : Table := { t with name := tmpName t.name }

theorem opensAs_complete {t : Table} (hcount : t.Countable) {n : Nat} (hn : t.content.length ≤ n)
    (dir : TableDir) : OpensAs (tmpName t.name) (t.content.take n) (tmpTable t).sst ∧
      Serves (readBlock (leftoverDir dir t n)) (tmpTable t).sst t.entries := by
  have hread : (leftoverDir dir t n).read (tmpTable t).name = some (tmpTable t).content := by
    rw [leftoverDir, List.take_of_length_le hn]
    exact FMap.read_write_self _ _ _
  have hopen : openTable (tmpName t.name) t.content = .ok (tmpTable t).sst :=
    Table.openTable_eq (t := tmpTable t) hcount
  have hblocks := Table.newBlockIterator_eq hread
  have hpath : (leftoverDir dir t n).read (tmpTable t).sst.filePath = some t.content := hread
  rw [newBlockIterator, hpath] at hblocks
  refine ⟨?_, serves_of_intact (Table.intact_readBlock hread)⟩
  rw [List.take_of_length_le hn]
  exact ⟨hopen, _, hblocks⟩

/-- A leftover shorter than a footer does not open, a complete one opens as what was
written, and one whose index is empty as nothing. -/
theorem leftoverOrderly_of {t : Table} (hcount : t.Countable) {n : Nat} (dir : TableDir)
    (h : n < footerLen ∨ t.content.length ≤ n ∨ ∀ sst,
      OpensAs (tmpName t.name) (t.content.take n) sst →
        sst.index = [] ∧ ∀ key, sst.bloom.mightContain key ≠ none) :
    LeftoverOrderly dir t n := by
  intro sst hopens
  rcases h with hshort | hcomplete | hempty
  · exact absurd hopens (not_opensAs_short ((List.length_take_le _ _).trans_lt hshort) sst)
  · obtain ⟨hopens', hserves⟩ := opensAs_complete hcount hcomplete dir
    obtain rfl : sst = (tmpTable t).sst := Except.ok.inj (hopens.1.symm.trans hopens'.1)
    exact ⟨_, hserves⟩
  · obtain ⟨hindex, hbloom⟩ := hempty sst hopens
    exact ⟨[], serves_of_index_nil hindex hbloom⟩

end Leftover

/-- The newest of `evenTables` once more, under a later stamp. -/
def copyTable : Table := byteTable (10 ^ 18 + 5) 97 1 4

theorem stamped_evenTables : ∀ t ∈ evenTables, ∃ nanos, t.name = sstName nanos := by
  intro t ht
  have hmem : t.name ∈ fourStamps.map sstName :=
    (show evenTables.map Table.name = fourStamps.map sstName from rfl) ▸ List.mem_map_of_mem ht
  obtain ⟨nanos, -, hname⟩ := List.mem_map.mp hmem
  exact ⟨nanos, hname.symm⟩

theorem redundant_copyTable :
    Redundant [[]] copyTable.entries (layersOf evenTables) := by
  intro key e he
  obtain rfl : setVersion [97] 4 [1] = e := by
    have hmem := versionAt_mem he
    exact (List.mem_singleton.mp hmem).symm
  have hkey : [97] = key := (Entry.matchesAt_iff.mp (versionAt_matches he)).1
  subst hkey
  exact ⟨fun _ => by decide, fun _ => by decide⟩

/-- The complete file of a copy is left behind. -/
theorem leftover_harmless_copy :
    ∃ db db', openDB [] (writeTables FMap.empty evenTables) 0 = .ok db ∧
      openDB [] (leftoverDir (writeTables FMap.empty evenTables) copyTable
        copyTable.content.length) 0 = .ok db' ∧
      SameResults db db' := by
  have hcount : copyTable.Countable := Table.countable_of_length_lt (by decide)
  have hes : ∀ e ∈ ([] : List Entry), e.WellFormed := by simp
  obtain ⟨db, hdb, hharmless, -⟩ := leftover_harmless_iff listed_evenTables stamped_evenTables hes
    (by simp) 0 0 copyTable copyTable.content.length
  obtain rfl : reopened evenTables [] (writeTables FMap.empty evenTables) 0 = db :=
    Except.ok.inj ((openDB_eq listed_evenTables (by simp) (by simp) 0 0).symm.trans hdb)
  obtain ⟨hopens, hserves⟩ := opensAs_complete hcount le_rfl (writeTables FMap.empty evenTables)
  have hnewer : newerTables (tmpName copyTable.name) evenTables = [] :=
    List.filter_eq_nil_iff.mpr (by decide)
  have holder : olderTables (tmpName copyTable.name) evenTables = evenTables :=
    List.filter_eq_self.mpr (by decide)
  have hredundant : LeftoverRedundant (writeTables FMap.empty evenTables) evenTables [] copyTable
      copyTable.content.length := by
    refine ⟨_, _, hopens, hserves, ?_⟩
    rw [hnewer, holder]
    exact redundant_copyTable
  obtain ⟨db', hdb', hsame⟩ := hharmless hredundant
  exact ⟨_, db', hdb, hdb', hsame⟩

/-- Ten bytes of the file are left behind, and `Open` fails. -/
theorem open_fails_on_cut_leftover :
    (∃ db, openDB [] (writeTables FMap.empty evenTables) 0 = .ok db) ∧
      openDB [] (leftoverDir (writeTables FMap.empty evenTables) copyTable 10) 0 =
        .error (.sst .badSeek) := by
  have hes : ∀ e ∈ ([] : List Entry), Loggable e := by simp
  refine ⟨⟨_, openDB_eq listed_evenTables hes (by simp) 0 0⟩, ?_⟩
  have hcut := openDB_write listed_evenTables (fresh_tmpName stamped_evenTables copyTable.name)
    (copyTable.content.take 10) hes (by simp) 0 0
  rw [openTable_short _ ((List.length_take_le _ _).trans_lt (by decide))] at hcut
  exact hcut

end Hcdb.Db
