import Hcdb.Sstable.Run

/-!
The two sources of a scan, the memtable and a table, over the same entries.  They go
through the same pairs as long as no block of the table outgrows the length field of
its index entry.
-/

namespace Hcdb.Sstable

open Hcdb.Lib.ByteString
open Hcdb.Lib.SortedList
open Hcdb.Lib.Traversal
open Hcdb.Lib.FiniteMap
open Hcdb.Base
open Hcdb.Memtable

theorem yields_memtableIterator (it : Memtable.Iterator) :
    Yields Memtable.Iterator.current? Memtable.Iterator.next it (it.entries.drop it.pos) := by
  generalize hn : it.entries.length - it.pos = n
  induction n generalizing it with
  | zero =>
      rw [List.drop_eq_nil_of_le (by omega)]
      apply Yields.nil
      rw [Memtable.Iterator.current?, Memtable.Iterator.valid, if_neg (by simp; omega)]
  | succ n ih =>
      have hlt : it.pos < it.entries.length := by omega
      rw [List.drop_eq_getElem_cons hlt]
      refine Yields.cons ?_ (ih it.next (by simp only [Memtable.Iterator.next]; omega))
      rw [Memtable.Iterator.current?, Memtable.Iterator.valid, if_pos (by simpa using hlt),
        List.getElem?_eq_getElem hlt]

/-- The entries of the list that a scan from `lowerBound` at `snapshot` sees. -/
def visibleFrom (entries : List Entry) (lowerBound : Bytes) (snapshot : Nat) : List Entry :=
  entries.filter fun e => decide (lowerBound ≤ e.userKey) && decide (e.seqNum ≤ snapshot)

/-- An iterator over the table written from the list and one over a memtable that
holds the list both go through what the scan sees of it. -/
def SourcesAgree [Runtime] (path : Bytes) (entries : List Entry) : Prop :=
  ∀ (dir : TableDir) (mt : MemTable),
    dir.read path = some (writeSSTableFromBlockEntries path entries).2 → mt.tree = entries →
    ∀ (lowerBound : Bytes) (snapshot : Nat), snapshot ≤ seqNumMax →
      (∃ it, newIterator (readBlock dir) (writeSSTableFromBlockEntries path entries).1 lowerBound
          snapshot = .ok it ∧
        Yields Iterator.current? (Iterator.next (readBlock dir)) it
          (visibleFrom entries lowerBound snapshot)) ∧
      Yields Memtable.Iterator.current? Memtable.Iterator.next
        (Memtable.newIterator mt lowerBound none snapshot) (visibleFrom entries lowerBound snapshot)

section Fits

variable [Runtime] {entries : List Entry}

theorem sourcesAgree_of_fits (path : Bytes) (hs : Sorted entries)
    (hv : ∀ e ∈ entries, e.ik.valid = true)
    (hfits : ∀ block ∈ cutBlocks entries, FitsIndex block) : SourcesAgree path entries := by
  intro dir mt hfile htree lowerBound snapshot hsnap
  rw [writeSSTableFromBlockEntries_eq] at hfile ⊢
  constructor
  · have hread : List.Forall₂ (fun idx block =>
        readBlock dir (tableOf path entries) idx = .ok block) (tableOf path entries).index
        (cutBlocks entries) := by
      apply (forall₂_readBlockFrom_of_fits hfits).imp
      intro idx block hblock
      have hpath : dir.read (tableOf path entries).filePath = some (fileOf entries) := hfile
      rw [readBlock, hpath]
      exact hblock
    exact newIterator_yields_run rfl hread hs hv lowerBound hsnap
  · have hyields := yields_memtableIterator (Memtable.newIterator mt lowerBound none snapshot)
    have hentries := newIterator_entries mt (htree ▸ hv) lowerBound none hsnap
    have hpos : (Memtable.newIterator mt lowerBound none snapshot).pos = 0 := rfl
    rw [hpos, List.drop_zero, hentries, htree] at hyields
    simp only [inRange, belowUpper, Bool.and_true] at hyields
    exact hyields

end Fits

theorem readBlockEntry_size {r rest : Bytes} {e : Entry}
    (h : readBlockEntry r = .ok (e, rest)) : entrySize e + rest.length = r.length := by
  simp only [readBlockEntry, bind, Except.bind, pure, Except.pure] at h
  split at h
  · simp at h
  · rename_i keyLen hkeyLen
    split at h
    · simp at h
    · rename_i valLen hvalLen
      split at h
      · simp at h
      · rename_i key hkey
        split at h
        · simp at h
        · rename_i value hvalue
          have h₁ := readWord_eq_ok hkeyLen
          have h₂ := readWord_eq_ok hvalLen
          obtain ⟨h₃, -⟩ := readFull_eq_ok hkey
          obtain ⟨h₄, -⟩ := readFull_eq_ok hvalue
          obtain ⟨rfl, rfl⟩ := Prod.mk.inj (Except.ok.inj h)
          have h₃' := congrArg List.length h₃
          have h₄' := congrArg List.length h₄
          rw [List.length_append] at h₃' h₄'
          simp only [entrySize]
          omega

theorem readBlockEntries_size {n : Nat} {r : Bytes} {es : List Entry}
    (h : readBlockEntries n r = .ok es) : (es.map entrySize).sum ≤ r.length := by
  induction n generalizing r es with
  | zero =>
      rw [← Except.ok.inj h]
      exact Nat.zero_le _
  | succ n ih =>
      simp only [readBlockEntries, bind, Except.bind, pure, Except.pure] at h
      split at h
      · simp at h
      · rename_i first hfirst
        split at h
        · simp at h
        · rename_i rest hrest
          have hentry := readBlockEntry_size hfirst
          have hle := ih hrest
          rw [← Except.ok.inj h, List.map_cons, List.sum_cons]
          omega

theorem int32_le (n : Nat) : int32 n ≤ n ∧ (2 ^ 31 ≤ n → int32 n < n) := by
  have hlt : int32 n < (4294967296 + 1) / 2 := Int.bmod_lt (by decide)
  by_cases hn : n < 2 ^ 31
  · rw [int32_natCast hn]
    exact ⟨le_rfl, fun h => by omega⟩
  · exact ⟨by omega, fun _ => by omega⟩

section Oversize

variable [Runtime]

theorem decodeBlock_size {blockBytes : Bytes} {es : List Entry}
    (h : decodeBlock blockBytes = .ok es) : 8 + (es.map entrySize).sum ≤ blockBytes.length := by
  unfold decodeBlock at h
  split at h
  · simp at h
  · rename_i hlen
    simp only at h
    split at h
    · simp at h
    · split at h
      · simp at h
      · rename_i numEntries reader hword
        split at h
        · simp at h
        · rename_i entries hentries
          have hdata := readWord_eq_ok hword
          have hle := readBlockEntries_size hentries
          rw [List.length_take] at hdata
          rw [← Except.ok.inj h]
          omega

theorem readBlockFrom_size {file : Bytes} {idx : IndexEntry} {es : List Entry}
    (h : readBlockFrom file idx = .ok es) : (8 + (es.map entrySize).sum : Nat) ≤ idx.length := by
  unfold readBlockFrom at h
  split at h
  · simp at h
  · split at h
    · simp at h
    · rename_i hneg
      split at h
      · simp at h
      · rename_i bytes rest hfull
        obtain ⟨-, hlen⟩ := readFull_eq_ok hfull
        have hle := decodeBlock_size h
        omega

variable {read : BlockReader} {sst : SSTable}

theorem blocksFrom_size
    (hread : ∀ idx es, read sst idx = .ok es →
      ((8 + (es.map entrySize).sum : Nat) : Int) ≤ idx.length)
    (offset : Nat) (blocks : List (List Entry)) :
    ((Iterator.blocksFrom read sst (indexFrom offset blocks)).map entrySize).sum ≤
      (blocks.flatten.map entrySize).sum ∧
    ((∃ block ∈ blocks, ¬ FitsIndex block) →
      ((Iterator.blocksFrom read sst (indexFrom offset blocks)).map entrySize).sum <
        (blocks.flatten.map entrySize).sum) := by
  induction blocks generalizing offset with
  | nil => simp [indexFrom, Iterator.blocksFrom]
  | cons block blocks ih =>
      obtain ⟨hle, hlt⟩ := ih (offset + (encodeBlock block).length)
      obtain ⟨hint, hint'⟩ := int32_le (encodeBlock block).length
      rw [encodeBlock_length] at hint hint'
      rw [List.exists_mem_cons_iff, List.flatten_cons, List.map_append, List.sum_append, indexFrom,
        Iterator.blocksFrom]
      -- nothing is read of this block and the blocks behind it
      have hnone : 0 ≤ (block.map entrySize).sum + (blocks.flatten.map entrySize).sum ∧
          ((¬ FitsIndex block ∨ ∃ b ∈ blocks, ¬ FitsIndex b) →
            0 < (block.map entrySize).sum + (blocks.flatten.map entrySize).sum) := by
        refine ⟨Nat.zero_le _, ?_⟩
        rintro (hbig | hbig)
        · unfold FitsIndex at hbig
          omega
        · have := hlt hbig
          omega
      split
      · exact hnone
      · exact hnone
      · rename_i e es hblock
        have hsize := hread _ _ hblock
        simp only [encodeBlock_length] at hsize
        rw [List.map_append, List.sum_append]
        refine ⟨by omega, ?_⟩
        rintro (hbig | hbig)
        · unfold FitsIndex at hbig
          have := hint' (by omega)
          omega
        · have := hlt hbig
          omega

end Oversize

theorem visibleFrom_nil (entries : List Entry) : visibleFrom entries [] seqNumMax = entries := by
  apply List.filter_eq_self.mpr
  intro e _
  rw [Bool.and_eq_true, decide_eq_true_eq, decide_eq_true_eq]
  exact ⟨not_lt.mp (List.not_lt_nil _), e.seqNum_le_seqNumMax⟩

section Iff

variable [Runtime] {entries : List Entry}

theorem startOf_zero (hs : Sorted entries) (hv : ∀ e ∈ entries, e.ik.valid = true)
    (hne : cutBlocks entries ≠ []) : startOf entries [] seqNumMax = 0 := by
  by_contra hpos
  have hlen := List.length_pos_iff.mpr hne
  obtain ⟨e, he, -, -⟩ := firstKeyOf_mem (cutBlocks_ne_nil (List.getElem_mem hlen))
  have hlt := lt_of_lt_startOf hs hlen (Nat.pos_of_ne_zero hpos) he
  have hmem : e ∈ entries := by
    rw [← cutBlocks_flatten entries]
    exact List.mem_flatten_of_mem (List.getElem_mem hlen) he
  rcases (lt_makeSearchKeyAt_iff (hv e hmem) [] le_rfl).mp hlt with hu | ⟨-, hseq⟩
  · exact absurd hu (List.not_lt_nil _)
  · exact absurd e.seqNum_le_seqNumMax (not_le.mpr hseq)

/-- A scan of everything comes back with less than was written when a block does not
fit its index entry. -/
theorem not_yields_of_oversize {dir : TableDir} {path : Bytes} {it : Iterator} (hs : Sorted entries)
    (hv : ∀ e ∈ entries, e.ik.valid = true)
    (hfile : dir.read path = some (fileOf entries))
    (hbig : ∃ block ∈ cutBlocks entries, ¬ FitsIndex block)
    (hit : newIterator (readBlock dir) (tableOf path entries) [] seqNumMax = .ok it) :
    ¬ Yields Iterator.current? (Iterator.next (readBlock dir)) it entries := by
  intro hall
  obtain ⟨it', hit', hyields⟩ := newIterator_yields (readBlock dir) (tableOf path entries) []
    seqNumMax (by
      intro idx hidx
      cases hread : readBlock dir (tableOf path entries) idx with
      | ok es => exact ⟨es, rfl⟩
      | error e =>
          rw [newIterator_error _ _ _ _ hidx hread] at hit
          cases hit)
  obtain rfl : it = it' := Except.ok.inj (hit.symm.trans hit')
  have hlist := hall.unique hyields
  have hsub : entries.Sublist (reachable (readBlock dir) (tableOf path entries) [] seqNumMax) := by
    nth_rewrite 1 [hlist]
    exact List.filter_sublist.trans (List.dropWhile_sublist _)
  have hstart : startBlock (tableOf path entries).index (encodeSearchKeyAt [] seqNumMax) = 0 := by
    obtain ⟨block, hblock, -⟩ := hbig
    exact startOf_zero hs hv (List.ne_nil_of_mem hblock)
  rw [reachable, hstart, List.drop_zero] at hsub
  -- what the iterator reaches has fewer bytes than the entries
  have hsize : ∀ idx es, readBlock dir (tableOf path entries) idx = .ok es →
      ((8 + (es.map entrySize).sum : Nat) : Int) ≤ idx.length := by
    intro idx es hread
    have hpath : dir.read (tableOf path entries).filePath = some (fileOf entries) := hfile
    rw [readBlock, hpath] at hread
    exact readBlockFrom_size hread
  have hlt := (blocksFrom_size hsize 0 (cutBlocks entries)).2 hbig
  rw [cutBlocks_flatten] at hlt
  have hle := (hsub.map entrySize).sum_le_sum (by simp)
  exact absurd hlt (not_lt.mpr hle)

theorem fits_of_sourcesAgree {path : Bytes} (hs : Sorted entries)
    (hv : ∀ e ∈ entries, e.ik.valid = true) (hagree : SourcesAgree path entries) :
    ∀ block ∈ cutBlocks entries, FitsIndex block := by
  by_contra hbig
  push Not at hbig
  have hread : (FMap.empty.write path (fileOf entries)).read path = some (fileOf entries) := by simp
  have hwrite := writeSSTableFromBlockEntries_eq path entries
  obtain ⟨⟨it, hit, hyields⟩, -⟩ := hagree (FMap.empty.write path (fileOf entries))
    { tree := entries, size := 0, sorted := hs } (by rw [hread, hwrite]) rfl [] seqNumMax le_rfl
  rw [hwrite] at hit
  rw [visibleFrom_nil] at hyields
  exact not_yields_of_oversize hs hv hread hbig hit hyields

/-- The two sources of a scan agree on a list exactly when every block of its table
fits its index entry. -/
theorem sourcesAgree_iff (path : Bytes) (entries : List Entry)
    (hsorted : entries.Pairwise Entry.Before)
    (hkind : ∀ e ∈ entries, e.kind = internalKeyKindSet ∨ e.kind = internalKeyKindDelete) :
    SourcesAgree path entries ↔ ∀ block ∈ cutBlocks entries, FitsIndex block := by
  have hs : Sorted entries := hsorted.imp Entry.before_iff.mp
  have hv : ∀ e ∈ entries, e.ik.valid = true := fun e he =>
    InternalKey.valid_of_kind_eq (hkind e he)
  exact ⟨fits_of_sourcesAgree hs hv, sourcesAgree_of_fits path hs hv⟩

end Iff

theorem sourcesAgree_iff_twoVersions :
    SourcesAgree [1] [setVersion [107] 2 [1], setVersion [107] 1 [2]] :=
  (sourcesAgree_iff [1] _ (by decide) (by decide)).mpr (by
    intro block hblock
    have hcut : cutBlocks [setVersion [107] 2 [1], setVersion [107] 1 [2]] =
        [[setVersion [107] 2 [1], setVersion [107] 1 [2]]] := by decide
    rw [hcut, List.mem_singleton] at hblock
    rw [hblock]
    unfold FitsIndex
    decide)

theorem not_sourcesAgree_of_length {value : Bytes} (hlen : 2 ^ 31 ≤ value.length) :
    ¬ SourcesAgree [1] [setVersion [107] 1 value] := by
  intro hagree
  generalize he : setVersion [107] 1 value = e at hagree
  have hvalid : ∀ b ∈ [e], b.ik.valid = true := by
    intro b hb
    have hik : e.ik = (setVersion [107] 1 []).ik := by
      rw [← he]
      rfl
    rw [List.mem_singleton.mp hb, hik]
    decide
  have hfits := fits_of_sourcesAgree (List.pairwise_singleton _ _) hvalid hagree
  have hmem : e ∈ (cutBlocks [e]).flatten := by
    rw [cutBlocks_flatten]
    exact List.mem_singleton_self _
  obtain ⟨block, hblock, hin⟩ := List.mem_flatten.mp hmem
  have hsum := List.single_le_sum (by simp) _ (List.mem_map_of_mem (f := entrySize) hin)
  have hsize : 2 ^ 31 ≤ entrySize e := by
    have hvalue : e.value = value := by rw [← he, setVersion]
    unfold entrySize
    rw [hvalue]
    omega
  have hfit := hfits block hblock
  unfold FitsIndex at hfit
  omega

/-- The length of a block of 2³¹ bytes wraps around in its index entry. -/
theorem not_sourcesAgree_oversize :
    [setVersion [107] 1 (List.replicate (2 ^ 31) 0)].Pairwise Entry.Before ∧
      ¬ SourcesAgree [1] [setVersion [107] 1 (List.replicate (2 ^ 31) 0)] := by
  generalize hn : 2 ^ 31 = n
  refine ⟨List.pairwise_singleton _ _, not_sourcesAgree_of_length ?_⟩
  rw [List.length_replicate, hn]

end Hcdb.Sstable
