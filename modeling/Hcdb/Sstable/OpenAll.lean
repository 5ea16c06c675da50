import Hcdb.Lib.Decimal
import Hcdb.Sstable.Table

namespace Hcdb.Sstable

open Hcdb.Lib.ByteString
open Hcdb.Lib.Decimal
open Hcdb.Lib.FiniteMap
open Hcdb.Lib.SortedList
open Hcdb.Base

/-- `fmt.Sprintf("%d.sst", time.Now().UnixNano())`, relative to the directory. -/
def sstName (nanos : Nat) : Bytes := decimal nanos ++ [46, 115, 115, 116]

/-- A table is written under this name and then renamed. -/
def tmpName (finalName : Bytes) : Bytes := finalName ++ [46, 116, 109, 112]

/-- A reading of the clock with nineteen digits, as every one from September 2001
to November 2286 has. -/
structure Stamp (nanos : Nat) : Prop where
  ge : 10 ^ 18 ≤ nanos
  lt : nanos < 10 ^ 19

instance (nanos : Nat) : Decidable (Stamp nanos) :=
  decidable_of_iff (10 ^ 18 ≤ nanos ∧ nanos < 10 ^ 19)
    ⟨fun ⟨h₁, h₂⟩ => ⟨h₁, h₂⟩, fun ⟨h₁, h₂⟩ => ⟨h₁, h₂⟩⟩

theorem sstName_lt {a b : Nat} (ha : Stamp a) (hb : Stamp b) (h : a < b) :
    sstName a < sstName b := by
  apply append_lt_append
  · rw [decimal_length ha.ge ha.lt, decimal_length hb.ge hb.lt]
  · exact decimal_lt ha.ge hb.lt h

theorem tmpName_ne_sstName (name : Bytes) (nanos : Nat) : tmpName name ≠ sstName nanos := by
  intro heq
  have hlast := congrArg List.getLast? heq
  rw [tmpName, sstName, List.getLast?_append, List.getLast?_append] at hlast
  exact absurd hlast (by simp)

theorem sstName_injective : Function.Injective sstName :=
  fun _ _ h => decimal_injective (List.append_cancel_right h)

/-- The loop of `OpenAllInDir`. -/
def openAll : List (Bytes × Bytes) → Except SstErr (List SSTable)
  | [] => .ok []
  | (name, file) :: files =>
      match openTable name file with
      | .error e => .error e
      | .ok sst =>
          match openAll files with
          | .error e => .error e
          | .ok ssts => .ok (sst :: ssts)

/-- `OpenAllInDir`: every file of the directory, whatever its name ends in. -/
def openAllInDir (dir : TableDir) : Except SstErr (List SSTable) :=
  openAll dir.descending

theorem openAll_append {files files' : List (Bytes × Bytes)} {ssts : List SSTable}
    (h : openAll files = .ok ssts) :
    openAll (files ++ files') =
      match openAll files' with
      | .error e => .error e
      | .ok ssts' => .ok (ssts ++ ssts') := by
  induction files generalizing ssts with
  | nil =>
      obtain rfl := Except.ok.inj h
      rw [List.nil_append]
      cases openAll files' <;> rfl
  | cons f files ih =>
      rw [openAll] at h
      rw [List.cons_append, openAll]
      cases hopen : openTable f.1 f.2 with
      | error e => simp [hopen] at h
      | ok sst =>
          simp only [hopen] at h ⊢
          cases hrest : openAll files with
          | error e => simp [hrest] at h
          | ok rest =>
              simp only [hrest, Except.ok.injEq] at h
              subst h
              rw [ih hrest]
              cases openAll files' <;> rfl

theorem mem_openAll {files : List (Bytes × Bytes)} {ssts : List SSTable}
    (h : openAll files = .ok ssts) (sst : SSTable) :
    sst ∈ ssts ↔ ∃ f ∈ files, openTable f.1 f.2 = .ok sst := by
  induction files generalizing ssts with
  | nil =>
      obtain rfl := Except.ok.inj h
      simp
  | cons f files ih =>
      rw [openAll] at h
      cases hopen : openTable f.1 f.2 with
      | error e => simp [hopen] at h
      | ok first =>
          cases hrest : openAll files with
          | error e => simp [hopen, hrest] at h
          | ok rest =>
              simp only [hopen, hrest, Except.ok.injEq] at h
              subst h
              rw [List.mem_cons, ih hrest, List.exists_mem_cons_iff, hopen, Except.ok.injEq,
                eq_comm]

theorem openTable_filePath {path file : Bytes} {sst : SSTable} (h : openTable path file = .ok sst) :
    sst.filePath = path := by
  unfold openTable at h
  split at h
  · simp at h
  · split at h
    · simp at h
    · split at h
      · simp at h
      · obtain rfl := Except.ok.inj h
        rfl

theorem openAll_paths {files : List (Bytes × Bytes)} {ssts : List SSTable}
    (h : openAll files = .ok ssts) : ssts.map SSTable.filePath = files.map Prod.fst := by
  induction files generalizing ssts with
  | nil =>
      obtain rfl := Except.ok.inj h
      rfl
  | cons f files ih =>
      rw [openAll] at h
      cases hopen : openTable f.1 f.2 with
      | error e => simp [hopen] at h
      | ok sst =>
          cases hrest : openAll files with
          | error e => simp [hopen, hrest] at h
          | ok rest =>
              simp only [hopen, hrest, Except.ok.injEq] at h
              rw [← h, List.map_cons, List.map_cons, openTable_filePath hopen, ih hrest]

theorem mem_openAllInDir {dir : TableDir} {ssts : List SSTable} (h : openAllInDir dir = .ok ssts)
    (sst : SSTable) :
    sst ∈ ssts ↔ ∃ name content, dir.read name = some content ∧
      openTable name content = .ok sst := by
  rw [mem_openAll h]
  constructor
  · rintro ⟨⟨name, content⟩, hf, hopen⟩
    rw [FMap.mem_descending] at hf
    exact ⟨name, content, (FMap.read_eq_some_iff dir).mpr hf, hopen⟩
  · rintro ⟨name, content, hread, hopen⟩
    refine ⟨(name, content), ?_, hopen⟩
    rw [FMap.mem_descending]
    exact (FMap.read_eq_some_iff dir).mp hread

theorem length_le_length_flatten {α : Type*} {l : List (List α)} (h : ∀ x ∈ l, x ≠ []) :
    l.length ≤ l.flatten.length := by
  induction l with
  | nil => simp
  | cons x l ih =>
      have hrest := ih fun y hy => h y (by simp [hy])
      have hpos : 0 < x.length := List.length_pos_of_ne_nil (h x (by simp))
      rw [List.flatten_cons, List.length_append, List.length_cons]
      omega

/-- The table fills fewer blocks than its footer can count. -/
def Table.Countable (t : Table) : Prop := t.blocks.length < 2 ^ 32

theorem Table.countable_of_length_lt {t : Table} (h : t.entries.length < 2 ^ 32) : t.Countable := by
  have hle := length_le_length_flatten fun block hb => t.blocks_ne_nil hb
  rw [t.blocks_flatten] at hle
  exact hle.trans_lt h

section Tables

variable [Runtime]

theorem Table.openTable_eq {t : Table} (h : t.Countable) :
    openTable t.name t.content = .ok t.sst :=
  openTable_fileOf t.name t.withinLimits h

theorem openAll_eq {ts : List Table} (h : ∀ t ∈ ts, t.Countable) :
    openAll (ts.map fun t => (t.name, t.content)) = .ok (ts.map Table.sst) := by
  induction ts with
  | nil => rfl
  | cons t ts ih =>
      simp only [List.map_cons, openAll, Table.openTable_eq (h t (by simp)),
        ih fun t' ht' => h t' (by simp [ht'])]

/-- The directory holds exactly these tables. -/
def Stores (dir : TableDir) (ts : List Table) : Prop :=
  ∀ name content, dir.read name = some content ↔
    ∃ t ∈ ts, t.name = name ∧ t.content = content

/-- A directory that holds exactly the tables `ts`, which `OpenAllInDir` lists in this
order. -/
structure Listed (dir : TableDir) (ts : List Table) : Prop where
  stores : Stores dir ts
  descending : ts.Pairwise fun t t' => t'.name < t.name
  countable : ∀ t ∈ ts, t.Countable

variable {dir : TableDir} {ts : List Table}

theorem Listed.held (h : Listed dir ts) : ∀ t ∈ ts, dir.read t.name = some t.content :=
  fun t ht => (h.stores t.name t.content).mpr ⟨t, ht, rfl, rfl⟩

theorem Listed.nodup (h : Listed dir ts) : (ts.map Table.name).Nodup := by
  rw [List.Nodup, List.pairwise_map]
  exact h.descending.imp fun hlt heq => absurd heq hlt.ne'

theorem Listed.mem_files (h : Listed dir ts) (f : Bytes × Bytes) :
    f ∈ ts.map (fun t => (t.name, t.content)) ↔ dir.read f.1 = some f.2 := by
  rw [h.stores f.1 f.2, List.mem_map]
  constructor
  · rintro ⟨t, ht, rfl⟩
    exact ⟨t, ht, rfl, rfl⟩
  · rintro ⟨t, ht, hname, hcontent⟩
    exact ⟨t, ht, Prod.ext hname hcontent⟩

theorem Listed.openAllInDir_eq (h : Listed dir ts) :
    openAllInDir dir = .ok (ts.map Table.sst) := by
  have hlist : dir.descending = ts.map fun t => (t.name, t.content) := by
    apply FMap.descending_eq _ _ h.mem_files
    rw [List.pairwise_map]
    exact h.descending
  rw [openAllInDir, hlist, openAll_eq h.countable]

def newerTables (name : Bytes) (ts : List Table) : List Table :=
  ts.filter fun t => decide (name < t.name)

def olderTables (name : Bytes) (ts : List Table) : List Table :=
  ts.filter fun t => !decide (name < t.name)

theorem Listed.newer_append_older (h : Listed dir ts) (name : Bytes) :
    newerTables name ts ++ olderTables name ts = ts := by
  have hmono : ts.Pairwise fun t t' =>
      decide (name < t'.name) = true → decide (name < t.name) = true := by
    apply List.Pairwise.imp _ h.descending
    intro t t' hlt hname
    exact decide_eq_true ((of_decide_eq_true hname).trans hlt)
  rw [newerTables, olderTables, ← takeWhile_eq_filter hmono, ← dropWhile_eq_filter_not hmono,
    List.takeWhile_append_dropWhile]

theorem Listed.descending_write (h : Listed dir ts) {name : Bytes}
    (hfresh : ∀ t ∈ ts, t.name ≠ name) (file : Bytes) :
    (dir.write name file).descending =
      (newerTables name ts).map (fun t => (t.name, t.content)) ++
        (name, file) :: (olderTables name ts).map fun t => (t.name, t.content) := by
  have hnewer : ∀ t ∈ newerTables name ts, name < t.name := fun t ht =>
    of_decide_eq_true (List.mem_filter.mp ht).2
  have holder : ∀ t ∈ olderTables name ts, t.name < name := by
    intro t ht
    obtain ⟨hts, hnot⟩ := List.mem_filter.mp ht
    have hle : t.name ≤ name := not_lt.mp (by simpa using hnot)
    exact lt_of_le_of_ne hle (hfresh t hts)
  have hdesc := h.descending
  rw [← h.newer_append_older name, List.pairwise_append] at hdesc
  obtain ⟨hdesc₁, hdesc₂, hcross⟩ := hdesc
  apply FMap.descending_eq
  · refine List.pairwise_append.mpr ⟨List.pairwise_map.mpr hdesc₁, List.pairwise_cons.mpr
      ⟨?_, List.pairwise_map.mpr hdesc₂⟩, ?_⟩
    · intro f hf
      obtain ⟨t, ht, rfl⟩ := List.mem_map.mp hf
      exact holder t ht
    · intro f hf g hg
      obtain ⟨t, ht, rfl⟩ := List.mem_map.mp hf
      rcases List.mem_cons.mp hg with rfl | hg
      · exact hnewer t ht
      · obtain ⟨t', ht', rfl⟩ := List.mem_map.mp hg
        exact hcross t ht t' ht'
  · rintro ⟨fname, content⟩
    have hfiles := h.mem_files (fname, content)
    rw [← h.newer_append_older name, List.map_append, List.mem_append] at hfiles
    by_cases hname : fname = name
    · subst hname
      have hnone : ¬ dir.read fname = some content := by
        intro hread
        obtain ⟨t, ht, heq, -⟩ := (h.stores _ _).mp hread
        exact hfresh t ht heq
      rw [List.mem_append, List.mem_cons, or_left_comm, hfiles, or_iff_left hnone,
        FMap.read_write_self, Prod.mk.injEq, Option.some.injEq]
      exact ⟨fun heq => heq.2.symm, fun heq => ⟨rfl, heq.symm⟩⟩
    · rw [FMap.read_write_of_ne _ _ hname, ← hfiles, List.mem_append, List.mem_cons]
      have hne : (fname, content) ≠ (name, file) := fun heq => hname (congrArg Prod.fst heq)
      simp only [hne, false_or]

/-- A file that is not one of the tables is opened in the place of its name. -/
theorem Listed.openAllInDir_write (h : Listed dir ts) {name : Bytes}
    (hfresh : ∀ t ∈ ts, t.name ≠ name) (file : Bytes) :
    openAllInDir (dir.write name file) =
      match openTable name file with
      | .error e => .error e
      | .ok sst => .ok ((newerTables name ts).map Table.sst ++
          sst :: (olderTables name ts).map Table.sst) := by
  have hlist := h.descending_write hfresh file
  have hopen : ∀ ts' ⊆ ts, openAll (ts'.map fun t => (t.name, t.content)) =
      .ok (ts'.map Table.sst) := fun ts' hsub => openAll_eq fun t ht => h.countable t (hsub ht)
  rw [openAllInDir, hlist, openAll_append (hopen (newerTables name ts) List.filter_sublist.subset),
    openAll, hopen (olderTables name ts) List.filter_sublist.subset]
  cases openTable name file <;> rfl

end Tables

end Hcdb.Sstable
