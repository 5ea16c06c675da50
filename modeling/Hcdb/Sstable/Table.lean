import Hcdb.Sstable.Run
import Hcdb.Sstable.RoundTrip

namespace Hcdb.Sstable

open Hcdb.Lib.ByteString
open Hcdb.Lib.SortedList
open Hcdb.Lib.Traversal
open Hcdb.Lib.FiniteMap
open Hcdb.Base
open Hcdb.Bloomfilter

/-- `Lookup`, with the block reads left to `read`. -/
def SSTable.lookup [Runtime] (read : BlockReader) (sst : SSTable) (userKey : Bytes)
    (snapshot : Nat) : Except SstErr KeyLookup :=
  match sst.bloom.mightContain userKey with
  | none => .error .panic
  | some false => .ok .absent
  | some true =>
      match newIterator read sst userKey snapshot with
      | .error e => .error e
      | .ok it =>
          match it.current? with
          | none => .ok .absent
          | some e =>
              if e.userKey ≠ userKey then .ok .absent
              else if e.kind = internalKeyKindDelete then .ok .deleted
              else .ok (.found e.value)

/-- A file name together with the entries of a complete table. -/
structure Table where
  name : Bytes
  entries : List Entry
  sorted : Sorted entries
  wellFormed : ∀ e ∈ entries, e.WellFormed

namespace Table

/-- The blocks that the entries are cut into. -/
def blocks (t : Table) : List (List Entry) := cutBlocks t.entries

theorem withinLimits (t : Table) : ∀ e ∈ t.entries, WithinLimits e :=
  fun e he => withinLimits_of_wellFormed (t.wellFormed e he)

theorem valid (t : Table) : ∀ e ∈ t.entries, e.ik.valid = true :=
  fun e he => (t.wellFormed e he).valid

theorem blocks_flatten (t : Table) : t.blocks.flatten = t.entries :=
  cutBlocks_flatten t.entries

theorem drop_flatten_sublist (t : Table) (n : Nat) :
    (t.blocks.drop n).flatten.Sublist t.entries := by
  conv_rhs => rw [cutBlocks_split t.entries n]
  exact List.sublist_append_right _ _

theorem blocks_ne_nil (t : Table) {block : List Entry} (h : block ∈ t.blocks) : block ≠ [] :=
  cutBlocks_ne_nil h

theorem blocks_sorted (t : Table) {block : List Entry} (h : block ∈ t.blocks) : Sorted block :=
  cutBlocks_sorted t.sorted h

theorem blocks_lt (t : Table) {i j : Nat} (hj : j < t.blocks.length) (hij : i < j) {a b : Entry}
    (ha : a ∈ t.blocks[i]) (hb : b ∈ t.blocks[j]) : a.ik < b.ik :=
  cutBlocks_lt t.sorted hj hij ha hb

variable [Runtime]

def sst (t : Table) : SSTable := tableOf t.name t.entries

def content (t : Table) : Bytes := fileOf t.entries

end Table

namespace Table

variable [Runtime] (t : Table)

theorem index_eq : t.sst.index = indexFrom 0 t.blocks := rfl

theorem index_length : t.sst.index.length = t.blocks.length :=
  indexFrom_length 0 _

/-- The block that a seek to `userKey` at `snapshot` loads first. -/
def start (userKey : Bytes) (snapshot : Nat) : Nat :=
  startBlock t.sst.index (encodeSearchKeyAt userKey snapshot)

theorem lt_of_start_lt {userKey : Bytes} {snapshot i : Nat} (hi : i < t.blocks.length)
    (h : t.start userKey snapshot < i) {e : Entry} (he : e ∈ t.blocks[i]) :
    makeSearchKeyAt userKey snapshot < e.ik :=
  lt_of_startOf_lt t.sorted hi h he

theorem head?_start_le {userKey : Bytes} {snapshot : Nat} (hpos : 0 < t.start userKey snapshot) :
    ∃ h : t.start userKey snapshot < t.blocks.length, ∀ a,
      t.blocks[t.start userKey snapshot].head? = some a →
        a.ik ≤ makeSearchKeyAt userKey snapshot :=
  head?_startOf_le t.sorted hpos

theorem lt_of_lt_start {userKey : Bytes} {snapshot i : Nat} (hi : i < t.blocks.length)
    (h : i < t.start userKey snapshot) {e : Entry} (he : e ∈ t.blocks[i]) :
    e.ik < makeSearchKeyAt userKey snapshot :=
  lt_of_lt_startOf t.sorted hi h he

theorem dropWhile_drop_start (userKey : Bytes) (snapshot : Nat) :
    t.entries.dropWhile (fun e => decide (e.ik < makeSearchKeyAt userKey snapshot)) =
      ((t.blocks.drop (t.start userKey snapshot)).flatten).dropWhile
        fun e => decide (e.ik < makeSearchKeyAt userKey snapshot) :=
  dropWhile_drop_startOf t.sorted userKey snapshot

end Table

namespace Table

variable [Runtime] {read : BlockReader} {t : Table}

/-- The reader returns the blocks of the table, all of them. -/
def Intact (read : BlockReader) (t : Table) : Prop :=
  List.Forall₂ (fun idx block => read t.sst idx = .ok block) t.sst.index t.blocks

/-- The reader returns a block of the table as it was written or fails on it: a
missing file, a short read or a checksum mismatch. -/
def Damaged (read : BlockReader) (t : Table) : Prop :=
  List.Forall₂ (fun idx block => read t.sst idx = .ok block ∨ ∃ e, read t.sst idx = .error e)
    t.sst.index t.blocks

theorem Intact.damaged (h : Intact read t) : Damaged read t :=
  h.imp fun _ _ => Or.inl

theorem intact_readBlock {dir : TableDir} (h : dir.read t.name = some t.content) :
    Intact (readBlock dir) t := by
  apply (forall₂_readBlockFrom_fileOf t.withinLimits).imp
  intro idx block hread
  have hfile : dir.read t.sst.filePath = some t.content := h
  rw [readBlock, hfile]
  exact hread

theorem newBlockIterator_eq {dir : TableDir} (h : dir.read t.name = some t.content) :
    newBlockIterator dir t.sst = .ok t.entries :=
  newBlockIterator_tableOf t.withinLimits h

/-- The first block that a search loads can be read. -/
def Starts (read : BlockReader) (t : Table) (userKey : Bytes) (snapshot : Nat) : Prop :=
  ∀ idx, t.sst.index[t.start userKey snapshot]? = some idx → ∃ es, read t.sst idx = .ok es

theorem Intact.starts (h : Intact read t) (userKey : Bytes) (snapshot : Nat) :
    Starts read t userKey snapshot := by
  intro idx hidx
  obtain ⟨hlt, rfl⟩ := List.getElem?_eq_some_iff.mp hidx
  exact ⟨_, (List.forall₂_iff_get.mp h).2 _ hlt (t.index_length ▸ hlt)⟩

theorem Damaged.reachable_initial (h : Damaged read t) (userKey : Bytes) (snapshot : Nat) :
    reachable read t.sst userKey snapshot <+:
      (t.blocks.drop (t.start userKey snapshot)).flatten :=
  blocksFrom_initial (List.forall₂_drop _ h)

theorem Intact.reachable_eq (h : Intact read t) (userKey : Bytes) (snapshot : Nat) :
    reachable read t.sst userKey snapshot =
      (t.blocks.drop (t.start userKey snapshot)).flatten :=
  blocksFrom_eq_flatten (fun _ hb => t.blocks_ne_nil (List.mem_of_mem_drop hb))
    (List.forall₂_drop _ h)

theorem Damaged.reachable_sublist (h : Damaged read t) (userKey : Bytes) (snapshot : Nat) :
    (reachable read t.sst userKey snapshot).Sublist t.entries :=
  (h.reachable_initial userKey snapshot).sublist.trans (t.drop_flatten_sublist _)

/-- A lookup whose first block can be read answers with the newest visible version
among the entries it can reach. -/
theorem Damaged.lookup_eq (h : Damaged read t) {userKey : Bytes} {snapshot : Nat}
    (hsnap : snapshot ≤ seqNumMax) (hstart : Starts read t userKey snapshot) :
    t.sst.lookup read userKey snapshot = .ok (KeyLookup.ofEntry?
      (versionAt (reachable read t.sst userKey snapshot) userKey snapshot)) := by
  have hsub := h.reachable_sublist userKey snapshot
  unfold SSTable.lookup
  obtain ⟨b, hb⟩ := mightContain_bloomOf_isSome t.entries userKey
  have hbloom : t.sst.bloom.mightContain userKey = some b := hb
  rw [hbloom]
  cases b with
  | false =>
      -- the filter knows every user key of the table, so none of them is this one
      have hnone : versionAt (reachable read t.sst userKey snapshot) userKey snapshot = none := by
        rw [versionAt, List.find?_eq_none]
        intro e he hm
        have hmem := mightContain_bloomOf (hsub.subset he)
        rw [(Entry.matchesAt_iff.mp hm).1, hb] at hmem
        simp at hmem
      rw [hnone]
      rfl
  | true =>
      obtain ⟨it, hit, hyields⟩ := newIterator_yields read t.sst userKey snapshot hstart
      have hhead := head?_visible_searchKey (t.sorted.sublist hsub)
        (fun e he => t.valid e (hsub.subset he)) userKey hsnap
      rw [← hyields.current?_eq] at hhead
      rw [← hhead]
      simp only [hit]
      cases it.current? with
      | none => rfl
      | some e =>
          by_cases hu : e.userKey = userKey
          · by_cases hk : e.kind = internalKeyKindDelete
            · simp [hu, hk, Option.filter, KeyLookup.ofEntry?]
            · simp [hu, hk, Option.filter, KeyLookup.ofEntry?]
          · simp [hu, Option.filter, KeyLookup.ofEntry?]

theorem Intact.lookup_eq (h : Intact read t) (userKey : Bytes) {snapshot : Nat}
    (hsnap : snapshot ≤ seqNumMax) :
    t.sst.lookup read userKey snapshot =
      .ok (KeyLookup.ofEntry? (versionAt t.entries userKey snapshot)) := by
  have hsub := h.damaged.reachable_sublist userKey snapshot
  have hhead := head?_visible_searchKey (t.sorted.sublist hsub)
    (fun e he => t.valid e (hsub.subset he)) userKey hsnap
  rw [h.reachable_eq, ← t.dropWhile_drop_start,
    head?_visible_searchKey t.sorted t.valid userKey hsnap, ← h.reachable_eq] at hhead
  rw [h.damaged.lookup_eq hsnap (h.starts userKey snapshot), hhead]

theorem Damaged.newIterator_yields (h : Damaged read t) {lowerBound : Bytes} {snapshot : Nat}
    (hsnap : snapshot ≤ seqNumMax) (hstart : Starts read t lowerBound snapshot) :
    ∃ it, newIterator read t.sst lowerBound snapshot = .ok it ∧
      Yields Iterator.current? (Iterator.next read) it
        ((reachable read t.sst lowerBound snapshot).filter
          fun e => decide (lowerBound ≤ e.userKey) && e.ik.visible snapshot) := by
  have hsub := h.reachable_sublist lowerBound snapshot
  obtain ⟨it, hit, hyields⟩ := Sstable.newIterator_yields read t.sst lowerBound snapshot hstart
  rw [filter_visible_searchKey (t.sorted.sublist hsub)
    (fun e he => t.valid e (hsub.subset he)) lowerBound hsnap] at hyields
  exact ⟨it, hit, hyields⟩

theorem Intact.newIterator_yields (h : Intact read t) (lowerBound : Bytes) {snapshot : Nat}
    (hsnap : snapshot ≤ seqNumMax) :
    ∃ it, newIterator read t.sst lowerBound snapshot = .ok it ∧
      Yields Iterator.current? (Iterator.next read) it
        (t.entries.filter fun e => decide (lowerBound ≤ e.userKey) && e.ik.visible snapshot) :=
  newIterator_yields_run rfl h t.sorted t.valid lowerBound hsnap

end Table

/-- What a block and its index entry take in the file. -/
def blockBytes (block : List Entry) : Nat :=
  24 + (block.map entrySize).sum + (firstKeyOf block).length

/-- The size of the file of a run of entries.  The bloom filter has the same size in
every file. -/
def fileSize [Runtime] (entries : List Entry) : Nat :=
  ((cutBlocks entries).map blockBytes).sum + (Runtime.bloomSize + 7) / 8 + 32

theorem fileSize_singleton [Runtime] (e : Entry) :
    fileSize [e] = e.key.length + entrySize e + (Runtime.bloomSize + 7) / 8 + 56 := by
  have hcut : cutBlocks [e] = [[e]] := by
    rw [cutBlocks, cutFrom]
    split <;> rfl
  rw [fileSize, hcut]
  simp only [List.map_cons, List.map_nil, List.sum_cons, List.sum_nil, blockBytes, firstKeyOf]
  omega

theorem data_index_length [Runtime] (blocks : List (List Entry)) (offset : Nat) :
    (dataOf blocks).length + (encodeIndex (indexFrom offset blocks)).length =
      (blocks.map blockBytes).sum := by
  induction blocks generalizing offset with
  | nil => rfl
  | cons block blocks ih =>
      have hrest := ih (offset + (encodeBlock block).length)
      simp only [dataOf, encodeIndex, indexFrom, List.flatMap_cons, List.length_append,
        encodeBlock_length, encodeIndexEntry_length, List.map_cons, List.sum_cons,
        blockBytes] at hrest ⊢
      omega

theorem offsetsFit_of_fileSize [Runtime] {entries : List Entry} (h : fileSize entries < 2 ^ 63) :
    OffsetsFit entries := by
  rw [OffsetsFit, data_index_length]
  unfold fileSize at h
  omega

theorem fileOf_length [Runtime] (entries : List Entry) :
    (fileOf entries).length = fileSize entries := by
  have hblocks := data_index_length (cutBlocks entries) 0
  have hbloom : (bloomOf entries).bits.length = Runtime.bloomSize := by
    rw [(bloomOf entries).length_bits, bloomOf_size]
  simp only [fileOf, fileSize, List.length_append, leBytes_length, serialize, packBits_length,
    encodeFooterWithBloom_length, footerLen, hbloom]
  omega

end Hcdb.Sstable
