import Hcdb.Compaction.Files

/-!
Where the entries on the disk come from.  Whatever fails during a compaction, and in
whatever order its tables stand, the files hold nothing but entries that were read from
the tables that went in.
-/

namespace Hcdb.Compaction

open Hcdb.Lib.ByteString
open Hcdb.Lib.FiniteMap
open Hcdb.Lib.SortedList
open Hcdb.Lib.Retain
open Hcdb.Base
open Hcdb.Sstable

theorem mem_of_mem_mergeIterators {iterators : List (List Entry)} {floor : Nat} {e : Entry}
    (h : e ∈ mergeIterators iterators floor) : e ∈ iterators.flatten := by
  rw [mergeIterators_eq, mem_sortBy] at h
  exact (retain_sublist _ _).subset h

theorem read_of_removeLoop (env : Env) (compacted : List Bytes) (tables : List SSTable) (i : Nat)
    {dir : TableDir} {name content : Bytes}
    (h : (removeLoop env compacted i dir tables).1.read name = some content) :
    dir.read name = some content := by
  induction tables generalizing i dir with
  | nil => exact h
  | cons sst tables ih =>
      rw [removeLoop] at h
      split at h
      · split at h
        · exact h
        · have hrest := ih _ h
          by_cases heq : name = sst.filePath
          · rw [heq, FMap.read_remove_self] at hrest
            simp at hrest
          · rwa [FMap.read_remove_of_ne _ heq] at hrest
      · exact ih _ h

theorem groupBySimilarSize_length_le (stat : Bytes → Option Nat) (tables : List SSTable) :
    (groupBySimilarSize stat tables).length ≤ tables.length := by
  have hperm := (groupBySize_flatten_perm (fun sst => statSize stat sst.filePath) tables).length_eq
  have hle := length_le_length_flatten
    fun g (hg : g ∈ groupBySimilarSize stat tables) => groupBySize_ne_nil hg
  exact hle.trans (Nat.le_of_eq hperm)

theorem eqOn_update (contents : Nat → List Entry) (n : Nat) (es : List Entry) :
    Set.EqOn (Function.update contents n es) contents (Set.Iio n) :=
  fun _ hi => Function.update_of_ne (Nat.ne_of_lt hi) _ _

section Holding

variable [Runtime] {W : Set Entry} {clock : Nat → Nat} {n n' : Nat}
  {contents contents' : Nat → List Entry} {dir : TableDir}

/-- Every file carries one of the first `n` readings of the clock in its name and was
written from what `contents` says of that reading, which are entries of `W`. -/
structure Holding (W : Set Entry) (clock : Nat → Nat) (n : Nat) (contents : Nat → List Entry)
    (dir : TableDir) : Prop where
  entries : ∀ i, ∀ e ∈ contents i, e ∈ W
  files : ∀ name content, dir.read name = some content →
    ∃ i < n, name = sstName (clock i) ∧ content = fileOf (contents i)

/-- The table was made at one of the first `n` readings of the clock.  The file may be
gone, and a table that was opened may miss the last blocks of its file. -/
def Made (clock : Nat → Nat) (n : Nat) (contents : Nat → List Entry) (sst : SSTable) : Prop :=
  ∃ i < n, sst.filePath = sstName (clock i) ∧ sst.index <+: indexFrom 0 (cutBlocks (contents i))

/-- The entries of the file that was stamped with reading `i`, if it is still there. -/
def present (clock : Nat → Nat) (contents : Nat → List Entry) (dir : TableDir) (i : Nat) :
    List Entry :=
  match dir.read (sstName (clock i)) with
  | some _ => contents i
  | none => []

theorem Made.mono {sst : SSTable} (h : Made clock n contents sst) (hn : n ≤ n')
    (hcontents : Set.EqOn contents' contents (Set.Iio n)) : Made clock n' contents' sst := by
  obtain ⟨i, hi, hpath, hindex⟩ := h
  refine ⟨i, hi.trans_le hn, hpath, ?_⟩
  rwa [hcontents hi]

namespace Holding

theorem mono (h : Holding W clock n contents dir) (hn : n ≤ n') :
    Holding W clock n' contents dir where
  entries := h.entries
  files name content hread := by
    obtain ⟨i, hi, hfile⟩ := h.files name content hread
    exact ⟨i, hi.trans_le hn, hfile⟩

theorem write (h : Holding W clock n contents dir) {es : List Entry} (hes : ∀ e ∈ es, e ∈ W) :
    Holding W clock (n + 1) (Function.update contents n es)
      (dir.write (sstName (clock n)) (fileOf es)) where
  entries i := by
    by_cases hi : i = n
    · rw [hi, Function.update_self]
      exact hes
    · rw [Function.update_of_ne hi]
      exact h.entries i
  files name content hread := by
    by_cases hname : name = sstName (clock n)
    · rw [hname, FMap.read_write_self, Option.some.injEq] at hread
      exact ⟨n, Nat.lt_succ_self n, hname, by rw [Function.update_self, hread]⟩
    · rw [FMap.read_write_of_ne _ _ hname] at hread
      obtain ⟨i, hi, hfile⟩ := h.files name content hread
      exact ⟨i, hi.trans (Nat.lt_succ_self n), by rwa [Function.update_of_ne hi.ne]⟩

theorem of_read (h : Holding W clock n contents dir) {dir' : TableDir}
    (hread : ∀ name content, dir'.read name = some content → dir.read name = some content) :
    Holding W clock n contents dir' where
  entries := h.entries
  files name content h' := h.files name content (hread _ _ h')

theorem of_subset (h : Holding W clock n contents dir) {W' : Set Entry} (hsub : W ⊆ W') :
    Holding W' clock n contents dir where
  entries i e he := hsub (h.entries i e he)
  files := h.files

theorem file_eq (h : Holding W clock n contents dir) (hclock : StrictMono clock) {i : Nat}
    {content : Bytes} (hread : dir.read (sstName (clock i)) = some content) :
    content = fileOf (contents i) := by
  obtain ⟨j, -, hname, hfile⟩ := h.files _ content hread
  rw [hfile, hclock.injective (sstName_injective hname)]

theorem present (h : Holding W clock n contents dir) (hclock : StrictMono clock) {W' : Set Entry}
    (hW' : ∀ i, dir.read (sstName (clock i)) = some (fileOf (contents i)) →
      ∀ e ∈ contents i, e ∈ W') :
    Holding W' clock n (Compaction.present clock contents dir) dir where
  entries i e he := by
    unfold Compaction.present at he
    split at he
    · rename_i content hread
      exact hW' i (h.file_eq hclock hread ▸ hread) e he
    · simp at he
  files name content hread := by
    obtain ⟨i, hi, rfl, hfile⟩ := h.files name content hread
    exact ⟨i, hi, rfl, by rwa [Compaction.present, hread]⟩

theorem newBlockIterator_subset (h : Holding W clock n contents dir) (hclock : StrictMono clock)
    (hW : ∀ e ∈ W, WithinLimits e) {sst : SSTable} (hsst : Made clock n contents sst)
    {entries : List Entry} (hread : newBlockIterator dir sst = .ok entries) :
    ∀ e ∈ entries, e ∈ W := by
  obtain ⟨i, -, hpath, hindex⟩ := hsst
  cases hcontent : dir.read sst.filePath with
  | none =>
      rw [newBlockIterator, hcontent] at hread
      simp at hread
  | some content =>
      have hfile : content = fileOf (contents i) := h.file_eq hclock (hpath ▸ hcontent)
      rw [newBlockIterator, hcontent, hfile] at hread
      obtain ⟨blocks, hblocks, hread'⟩ :=
        readBlocks_of_initial (fun e he => hW e (h.entries i e he)) hindex
      obtain rfl := Except.ok.inj (hread.symm.trans hread')
      intro e he
      obtain ⟨block, hblock, he⟩ := List.mem_flatten.mp he
      refine h.entries i e ?_
      rw [← cutBlocks_flatten (contents i)]
      exact List.mem_flatten.mpr ⟨block, hblocks.subset hblock, he⟩

theorem readAll_subset (h : Holding W clock n contents dir) (hclock : StrictMono clock)
    (hW : ∀ e ∈ W, WithinLimits e) {group : List SSTable}
    (hgroup : ∀ sst ∈ group, Made clock n contents sst) {iterators : List (List Entry)}
    (hread : readAll dir group = .ok iterators) : ∀ e ∈ iterators.flatten, e ∈ W := by
  induction group generalizing iterators with
  | nil =>
      obtain rfl := Except.ok.inj hread
      simp
  | cons sst group ih =>
      obtain ⟨hsst, hrestMade⟩ := List.forall_mem_cons.mp hgroup
      rw [readAll] at hread
      cases hone : newBlockIterator dir sst with
      | error e => simp [hone] at hread
      | ok entries =>
          cases hrest : readAll dir group with
          | error e => simp [hone, hrest] at hread
          | ok its =>
              simp only [hone, hrest, Except.ok.injEq] at hread
              subst hread
              intro e he
              rcases List.mem_append.mp he with he | he
              · exact h.newBlockIterator_subset hclock hW hsst hone e he
              · exact ih hrestMade hrest e he

section Compacting

variable {env : Env} {g : Nat}

theorem mergeGroup (h : Holding W clock n contents dir) (hclock : StrictMono clock)
    (hW : ∀ e ∈ W, WithinLimits e) (hnow : env.now g = clock n) {group : List SSTable}
    (hgroup : ∀ sst ∈ group, Made clock n contents sst) (floor : Nat) :
    ∃ contents', Set.EqOn contents' contents (Set.Iio n) ∧
      Holding W clock (n + 1) contents' (mergeGroup env floor g dir group).1 ∧
      ∀ sst, (Compaction.mergeGroup env floor g dir group).2 = .ok sst →
        Made clock (n + 1) contents' sst := by
  have hsame := h.mono (Nat.le_succ n)
  unfold Compaction.mergeGroup
  split
  · exact ⟨contents, Set.eqOn_refl _ _, hsame, by simp⟩
  · cases hread : readAll dir group with
    | error e => exact ⟨contents, Set.eqOn_refl _ _, hsame, by simp⟩
    | ok iterators =>
        simp only
        split
        · exact ⟨contents, Set.eqOn_refl _ _, hsame, by simp⟩
        · have hes : ∀ e ∈ mergeIterators iterators floor, e ∈ W := fun e he =>
            h.readAll_subset hclock hW hgroup hread e (mem_of_mem_mergeIterators he)
          rw [writeSSTableFromBlockEntries_eq, hnow]
          refine ⟨_, eqOn_update contents n (mergeIterators iterators floor), ?_, ?_⟩
          · split
            · exact h.write hes
            · exact h.write hes
          · split
            · simp
            · rintro sst ⟨⟩
              refine ⟨n, Nat.lt_succ_self n, rfl, ?_⟩
              rw [Function.update_self]
              exact List.prefix_refl _

theorem mergeRun (hclock : StrictMono clock) (hW : ∀ e ∈ W, WithinLimits e) {floor : Nat}
    {groups : List (List SSTable)} {dir' : TableDir}
    {res : Except CompactErr (List SSTable × List Bytes)}
    (hrun : MergeRun env floor g dir groups dir' res) (h : Holding W clock n contents dir)
    (hnow : ∀ i, env.now (g + i) = clock (n + i))
    (hgroups : ∀ group ∈ groups, ∀ sst ∈ group, Made clock n contents sst) :
    ∃ contents', Set.EqOn contents' contents (Set.Iio n) ∧
      Holding W clock (n + groups.length) contents' dir' ∧
      ∀ out, res = .ok out → ∀ sst ∈ out.1, Made clock (n + groups.length) contents' sst := by
  have hsub : ∀ n : Nat, Set.Iio n ⊆ Set.Iio (n + 1) :=
    fun n => Set.Iio_subset_Iio (Nat.le_succ n)
  have hlen : ∀ (n : Nat) (group : List SSTable) (groups : List (List SSTable)),
      n + (group :: groups).length = n + 1 + groups.length := by
    intro n group groups
    rw [List.length_cons]
    omega
  induction hrun generalizing n contents with
  | nil =>
      refine ⟨contents, Set.eqOn_refl _ _, h, ?_⟩
      rintro _ ⟨⟩
      simp
  | @single g _ _ group groups res _ _ ih =>
      obtain ⟨hgroup, hrest⟩ := List.forall_mem_cons.mp hgroups
      have hnow' : ∀ i, env.now (g + 1 + i) = clock (n + 1 + i) := by
        intro i
        rw [Nat.add_assoc, Nat.add_assoc, hnow]
      obtain ⟨contents', hsame, hheld, hres⟩ := ih (h.mono (Nat.le_succ n)) hnow'
        fun group' h' sst hsst =>
          (hrest group' h' sst hsst).mono (Nat.le_succ n) (Set.eqOn_refl _ _)
      rw [hlen]
      refine ⟨contents', hsame.mono (hsub n), hheld, ?_⟩
      cases res with
      | error e => simp [Except.map]
      | ok out =>
          rintro _ ⟨⟩ sst hsst
          rcases List.mem_append.mp hsst with hsst | hsst
          · exact (hgroup sst hsst).mono (by omega) (hsame.mono (hsub n))
          · exact hres out rfl sst hsst
  | @failed g _ _ _ _ _ hmerge =>
      obtain ⟨hgroup, -⟩ := List.forall_mem_cons.mp hgroups
      have hnext : env.now g = clock n := hnow 0
      obtain ⟨contents', hsame, hheld, -⟩ := h.mergeGroup hclock hW hnext hgroup floor
      rw [hmerge] at hheld
      exact ⟨contents', hsame, hheld.mono (by rw [hlen]; omega), by simp⟩
  | @merged g _ _ _ group groups sst res hmerge _ ih =>
      obtain ⟨hgroup, hrest⟩ := List.forall_mem_cons.mp hgroups
      have hnow' : ∀ i, env.now (g + 1 + i) = clock (n + 1 + i) := by
        intro i
        rw [Nat.add_assoc, Nat.add_assoc, hnow]
      have hnext : env.now g = clock n := hnow 0
      obtain ⟨contents₁, hsame₁, hheld₁, hnew⟩ := h.mergeGroup hclock hW hnext hgroup floor
      rw [hmerge] at hheld₁ hnew
      obtain ⟨contents', hsame, hheld, hres⟩ := ih hheld₁ hnow'
        fun group' h' sst hsst => (hrest group' h' sst hsst).mono (Nat.le_succ n) hsame₁
      rw [hlen]
      refine ⟨contents', (hsame.mono (hsub n)).trans hsame₁, hheld, ?_⟩
      cases res with
      | error e => simp [Except.map]
      | ok out =>
          rintro _ ⟨⟩ sst' hsst'
          rcases List.mem_cons.mp hsst' with rfl | hsst'
          · exact (hnew sst' rfl).mono (by omega) hsame
          · exact hres out rfl sst' hsst'

theorem compact (h : Holding W clock n contents dir) (hclock : StrictMono clock)
    (hW : ∀ e ∈ W, WithinLimits e) (hnow : ∀ i, env.now i = clock (n + i)) {tables : List SSTable}
    (htables : ∀ sst ∈ tables, Made clock n contents sst) (floor : Nat) :
    ∃ contents', Set.EqOn contents' contents (Set.Iio n) ∧
      Holding W clock (n + tables.length) contents' (compact env dir tables floor).1 ∧
      ∀ result, (Compaction.compact env dir tables floor).2 = .ok result →
        ∀ sst ∈ result, Made clock (n + tables.length) contents' sst := by
  unfold Compaction.compact
  split
  · refine ⟨contents, Set.eqOn_refl _ _, h.mono (Nat.le_add_right _ _), ?_⟩
    rintro result ⟨⟩ sst hsst
    exact (htables sst hsst).mono (Nat.le_add_right _ _) (Set.eqOn_refl _ _)
  · have hgroups : ∀ group ∈ groupBySimilarSize env.stat tables, ∀ sst ∈ group,
        Made clock n contents sst :=
      fun group hgroup sst hsst => htables sst ((groupBySize_sublist hgroup).subset hsst)
    have hlen := Nat.add_le_add_left (groupBySimilarSize_length_le env.stat tables) n
    have hnow' : ∀ i, env.now (0 + i) = clock (n + i) := by
      intro i
      rw [Nat.zero_add, hnow]
    obtain ⟨contents', hsame, hheld, hres⟩ := mergeRun hclock hW
      (mergeRun_mergeLoop env floor 0 dir (groupBySimilarSize env.stat tables)) h hnow' hgroups
    refine ⟨contents', hsame, ?_⟩
    have hheld := hheld.mono hlen
    cases hloop : Compaction.mergeLoop env floor 0 dir (groupBySimilarSize env.stat tables) with
    | mk dir' res =>
        rw [hloop] at hheld hres
        cases res with
        | error e => exact ⟨hheld, by simp⟩
        | ok out =>
            have hleft := hheld.of_read fun name content => read_of_removeLoop env out.2 tables 0
            have hresult := hres out rfl
            simp only
            cases hremove : removeLoop env out.2 0 dir' tables with
            | mk dir'' res =>
                rw [hremove] at hleft
                cases res with
                | error e => exact ⟨hleft, by simp⟩
                | ok _ =>
                    refine ⟨hleft, ?_⟩
                    rintro result ⟨⟩ sst hsst
                    exact (hresult sst hsst).mono hlen (Set.eqOn_refl _ _)

end Compacting

end Holding

end Holding

/-- The tables have different files, and all of them are there. -/
structure Shelved (dir : TableDir) (tables : List SSTable) : Prop where
  nodup : (tables.map SSTable.filePath).Nodup
  present : ∀ sst ∈ tables, dir.read sst.filePath ≠ none

theorem Shelved.of_read {dir dir' : TableDir} {tables : List SSTable} (h : Shelved dir tables)
    (hread : ∀ name, dir.read name ≠ none → dir'.read name ≠ none) : Shelved dir' tables where
  nodup := h.nodup
  present sst hsst := hread _ (h.present sst hsst)

theorem read_write_ne_none {dir : TableDir} {name : Bytes} (h : dir.read name ≠ none)
    (name' content : Bytes) : (dir.write name' content).read name ≠ none := by
  by_cases hname : name = name'
  · rw [hname, FMap.read_write_self]
    simp
  · rwa [FMap.read_write_of_ne _ _ hname]

theorem removeLoop_shelved {env : Env} (hok : ∀ k, env.fails (.remove k) = false)
    (compacted : List Bytes) {tables : List SSTable} (i : Nat) {dir : TableDir}
    (h : Shelved dir tables) :
    ∃ dir', removeLoop env compacted i dir tables = (dir', .ok ()) ∧
      ∀ name, name ∉ compacted → dir'.read name = dir.read name := by
  induction tables generalizing i dir with
  | nil => exact ⟨dir, rfl, fun _ _ => rfl⟩
  | cons sst tables ih =>
      obtain ⟨hsst, hpresent⟩ := List.forall_mem_cons.mp h.present
      obtain ⟨hnew, hnodup⟩ := List.nodup_cons.mp h.nodup
      rw [removeLoop]
      by_cases hmem : sst.filePath ∈ compacted
      · have hrest : Shelved (dir.remove sst.filePath) tables := by
          refine ⟨hnodup, fun sst' hsst' => ?_⟩
          rw [FMap.read_remove_of_ne]
          · exact hpresent sst' hsst'
          · exact fun heq => hnew (heq ▸ List.mem_map_of_mem hsst')
        obtain ⟨dir', hloop, hkeep⟩ := ih (i + 1) hrest
        rw [if_pos hmem, if_neg (by simp [hok, hsst])]
        refine ⟨dir', hloop, fun name hname => ?_⟩
        rw [hkeep name hname, FMap.read_remove_of_ne]
        exact fun heq => hname (heq ▸ hmem)
      · rw [if_neg hmem]
        exact ih i ⟨hnodup, hpresent⟩

section Shelved

variable [Runtime] {env : Env} {floor g : Nat} {dir : TableDir}

theorem mergeGroup_read {name : Bytes} (h : dir.read name ≠ none) (group : List SSTable) :
    (mergeGroup env floor g dir group).1.read name ≠ none := by
  unfold mergeGroup
  split
  · exact h
  · split
    · exact h
    · simp only
      split
      · exact h
      · split
        · exact read_write_ne_none h _ _
        · exact read_write_ne_none h _ _

variable {groups : List (List SSTable)} {dir' : TableDir}
  {res : Except CompactErr (List SSTable × List Bytes)}

theorem MergeRun.read_ne_none (hrun : MergeRun env floor g dir groups dir' res) {name : Bytes}
    (h : dir.read name ≠ none) : dir'.read name ≠ none := by
  induction hrun with
  | nil => exact h
  | single _ _ ih => exact ih h
  | @failed g dir _ group _ _ hmerge =>
      have hread : (mergeGroup env floor g dir group).1.read name ≠ none := mergeGroup_read h group
      rwa [hmerge] at hread
  | @merged g dir _ _ group _ _ _ hmerge _ ih =>
      have hread : (mergeGroup env floor g dir group).1.read name ≠ none := mergeGroup_read h group
      rw [hmerge] at hread
      exact ih hread

theorem mergeGroup_ok {group : List SSTable} {sst : SSTable}
    (h : mergeGroup env floor g dir group = (dir', .ok sst)) :
    sst.filePath = sstName (env.now g) ∧ dir'.read sst.filePath ≠ none := by
  unfold mergeGroup at h
  split at h
  · simp at h
  · split at h
    · simp at h
    · simp only [writeSSTableFromBlockEntries_eq] at h
      split at h
      · simp at h
      · split at h
        · simp at h
        · obtain ⟨rfl, hsst⟩ := Prod.mk.inj h
          obtain rfl := Except.ok.inj hsst
          refine ⟨rfl, ?_⟩
          rw [show (tableOf (sstName (env.now g)) _).filePath = sstName (env.now g) from rfl,
            FMap.read_write_self]
          simp

/-- The loop gives out the tables that it has been given, apart from those that it has
compacted, and new ones. -/
theorem MergeRun.paths_perm (hrun : MergeRun env floor g dir groups dir' res)
    {out : List SSTable × List Bytes} (hok : res = .ok out) :
    ∃ names, names.Sublist ((List.range' g groups.length).map fun i => sstName (env.now i)) ∧
      (∀ name ∈ names, dir'.read name ≠ none) ∧
      (out.1.map SSTable.filePath ++ out.2).Perm
        (groups.flatten.map SSTable.filePath ++ names) := by
  induction hrun generalizing out with
  | nil =>
      obtain rfl := Except.ok.inj hok
      exact ⟨[], List.Sublist.refl _, by simp, List.Perm.refl _⟩
  | @single g _ _ group groups res _ _ ih =>
      cases res with
      | error e => simp [Except.map] at hok
      | ok rest =>
          obtain rfl := Except.ok.inj hok
          obtain ⟨names, hsub, hread, hperm⟩ := ih rfl
          refine ⟨names, ?_, hread, ?_⟩
          · rw [List.length_cons, List.range'_succ, List.map_cons]
            exact hsub.cons _
          · rw [List.map_append, List.flatten_cons, List.map_append, List.append_assoc,
              List.append_assoc]
            exact hperm.append_left _
  | failed _ => simp at hok
  | @merged g _ _ _ group groups sst res hmerge hrest ih =>
      cases res with
      | error e => simp [Except.map] at hok
      | ok rest =>
          obtain rfl := Except.ok.inj hok
          obtain ⟨names, hsub, hread, hperm⟩ := ih rfl
          obtain ⟨hpath, hfile⟩ := mergeGroup_ok hmerge
          refine ⟨sst.filePath :: names, ?_, ?_, ?_⟩
          · rw [List.length_cons, List.range'_succ, List.map_cons, hpath]
            exact hsub.cons_cons _
          · exact List.forall_mem_cons.mpr ⟨hrest.read_ne_none hfile, hread⟩
          · -- the group moves to the files to delete, its merged table to the front
            rw [List.perm_iff_count] at hperm ⊢
            intro name
            have hcount := hperm name
            simp only [List.map_cons, List.flatten_cons, List.map_append, List.count_append,
              List.count_cons] at hcount ⊢
            omega

/-- As long as no `os.Remove` fails, the tables that a compaction returns have their
files, and so have the old ones when it returns an error. -/
theorem compact_shelved (hok : ∀ k, env.fails (.remove k) = false) {tables : List SSTable}
    (h : Shelved dir tables)
    (hfresh : ∀ i < tables.length, ∀ sst ∈ tables, sst.filePath ≠ sstName (env.now i))
    (hinj : Function.Injective env.now) (floor : Nat) :
    Shelved (compact env dir tables floor).1
      (match (compact env dir tables floor).2 with
        | .ok result => result
        | .error _ => tables) := by
  unfold compact
  split
  · exact h
  · have hrun := mergeRun_mergeLoop env floor 0 dir (groupBySimilarSize env.stat tables)
    rcases hloop : mergeLoop env floor 0 dir (groupBySimilarSize env.stat tables) with
      ⟨dir', _ | out⟩
    · rw [hloop] at hrun
      exact h.of_read fun name hname => hrun.read_ne_none hname
    · rw [hloop] at hrun
      have hmerged : Shelved dir' tables := h.of_read fun name hname => hrun.read_ne_none hname
      obtain ⟨dir'', hremove, hkeep⟩ := removeLoop_shelved hok out.2 0 hmerged
      simp only [hremove]
      obtain ⟨names, hsub, hread, hperm⟩ := hrun.paths_perm rfl
      have hflat : ((groupBySimilarSize env.stat tables).flatten.map SSTable.filePath).Perm
          (tables.map SSTable.filePath) := (groupBySize_flatten_perm _ tables).map _
      have hperm := hperm.trans (hflat.append_right names)
      -- the new names are different, and none of them was in use
      have hrange : (List.range' 0 (groupBySimilarSize env.stat tables).length).Nodup :=
        List.nodup_range'
      have hnames : names.Nodup := (hrange.map (sstName_injective.comp hinj)).sublist hsub
      have hapart : ∀ a ∈ tables.map SSTable.filePath, ∀ b ∈ names, a ≠ b := by
        intro a ha b hb
        obtain ⟨sst, hsst, rfl⟩ := List.mem_map.mp ha
        obtain ⟨i, hi, rfl⟩ := List.mem_map.mp (hsub.subset hb)
        have hlen := groupBySimilarSize_length_le env.stat tables
        have hlt := (List.mem_range'_1.mp hi).2
        exact hfresh i (by omega) sst hsst
      have hnodup := hperm.nodup_iff.mpr (List.nodup_append.mpr ⟨h.nodup, hnames, hapart⟩)
      obtain ⟨hout, -, hdisjoint⟩ := List.nodup_append.mp hnodup
      refine ⟨hout, fun sst hsst => ?_⟩
      have hpath := List.mem_map_of_mem (f := SSTable.filePath) hsst
      rw [hkeep _ fun hmem => hdisjoint _ hpath _ hmem rfl]
      rcases List.mem_append.mp (hperm.mem_iff.mp (List.mem_append_left _ hpath)) with hold | hnew
      · obtain ⟨sst', hsst', heq⟩ := List.mem_map.mp hold
        exact heq ▸ hmerged.present sst' hsst'
      · exact hread _ hnew
end Shelved

end Hcdb.Compaction
