import Hcdb.Bloomfilter
import Hcdb.Memtable
import Hcdb.Sstable.Index

namespace Hcdb.Sstable

open Hcdb.Lib.ByteString
open Hcdb.Base
open Hcdb.Bloomfilter
open Hcdb.Memtable

/-- The path is relative to the SSTable directory.  The block cache is not part of
the table here: every block is read from the file. -/
structure SSTable where
  filePath : Bytes
  index : List IndexEntry
  bloom : BloomFilter
  deriving DecidableEq

/-- The entries of the block that is being filled. -/
structure BlockCollector where
  entries : List Entry
  sizeEstimate : Nat
  lastFirstKey : Bytes
  deriving DecidableEq, Repr

def newBlockCollector : BlockCollector where
  entries := []
  sizeEstimate := 0
  lastFirstKey := []

/-- `add`; the first key is that of the first entry. -/
def BlockCollector.add (bc : BlockCollector) (e : Entry) : BlockCollector where
  entries := bc.entries ++ [e]
  sizeEstimate := bc.sizeEstimate + (e.key.length + e.value.length + 8)
  lastFirstKey := if bc.entries.length = 0 then e.key else bc.lastFirstKey

/-- Conversion to a Go `int32`. -/
def int32 (x : Int) : Int :=
  Int.bmod x 4294967296

theorem int32_natCast {n : Nat} (h : n < 2 ^ 31) : int32 n = n := by
  have hn : n < 2147483648 := by simpa using h
  rw [int32, Int.bmod_eq_of_le]
  · simp
  · norm_num
    omega

def indexSize (entries : List IndexEntry) : Nat :=
  entries.foldl (fun size e => size + (4 + e.firstKey.length + 8 + 4)) 0

/-- The variables a writer updates while it walks its entries. -/
structure WriterState where
  out : Bytes
  collector : BlockCollector
  indexEntries : List IndexEntry
  currentOffset : Int

def WriterState.init : WriterState where
  out := []
  collector := newBlockCollector
  indexEntries := []
  currentOffset := 0

section Writers

variable [Runtime]

/-- Write the collected block and record it in the index. -/
def WriterState.flushBlock (st : WriterState) : WriterState :=
  let blockBytes := encodeBlock st.collector.entries
  let newOffset := st.currentOffset + blockBytes.length
  { out := st.out ++ blockBytes
    collector := newBlockCollector
    indexEntries := st.indexEntries ++
      [{ firstKey := st.collector.lastFirstKey
         offset := st.currentOffset
         length := int32 (newOffset - st.currentOffset) }]
    currentOffset := newOffset }

/-- The closure `flushCurrent` of `WriteSSTableFromBlockEntries`. -/
def WriterState.flushCurrent (st : WriterState) : WriterState :=
  if st.collector.entries.length = 0 then st else st.flushBlock

/-- Everything after the last block: index, bloom filter, footer. -/
def finishFile (st : WriterState) (bloom : BloomFilter) : Bytes :=
  let indexOffset := st.currentOffset
  let bloomBytes := serialize bloom
  let bloomOffset := indexOffset + indexSize st.indexEntries
  st.out ++ encodeIndex st.indexEntries ++ leBytes 4 bloomBytes.length ++ bloomBytes ++
    encodeFooterWithBloom indexOffset st.indexEntries.length bloomOffset

/-- A block is closed when its estimate reaches the block size. -/
def writeEntry (st : WriterState) (e : Entry) : WriterState :=
  let st := { st with collector := st.collector.add e }
  if Config.defaultBlockSize ≤ st.collector.sizeEstimate then st.flushCurrent else st

/-- The table that a compaction writes, and its file. -/
def writeSSTableFromBlockEntries (finalPath : Bytes) (entries : List Entry) : SSTable × Bytes :=
  let bloom := entries.foldl (fun bloom e => bloom.add e.userKey) newBloomFilter
  let st := (entries.foldl writeEntry WriterState.init).flushCurrent
  ({ filePath := finalPath, index := st.indexEntries, bloom }, finishFile st bloom)

/-- The callback `Flush` hands to `Ascend`. -/
def flushEntry (acc : WriterState × BloomFilter) (e : Entry) : WriterState × BloomFilter :=
  let bloom := acc.2.add e.userKey
  let st := { acc.1 with collector := acc.1.collector.add e }
  if Config.defaultBlockSize ≤ st.collector.sizeEstimate then (st.flushBlock, bloom)
  else (st, bloom)

/-- The table that a flush writes, and its file. -/
def flush (memTable : MemTable) (finalPath : Bytes) : SSTable × Bytes :=
  let acc := memTable.tree.foldl flushEntry (WriterState.init, newBloomFilter)
  let st := if 0 < acc.1.collector.entries.length then acc.1.flushBlock else acc.1
  ({ filePath := finalPath, index := st.indexEntries, bloom := acc.2 }, finishFile st acc.2)

end Writers

/-- How the writers cut a run into blocks, with the entries and size collected so
far. -/
def cutFrom (collected : List Entry) (size : Nat) : List Entry → List (List Entry)
  | [] => if collected = [] then [] else [collected]
  | e :: es =>
      if Config.defaultBlockSize ≤ size + entrySize e then
        (collected ++ [e]) :: cutFrom [] 0 es
      else cutFrom (collected ++ [e]) (size + entrySize e) es

/-- The blocks that the writer makes of the entries. -/
def cutBlocks (entries : List Entry) : List (List Entry) :=
  cutFrom [] 0 entries

def firstKeyOf (block : List Entry) : Bytes :=
  match block with
  | [] => []
  | e :: _ => e.key

section Layout

variable [Runtime]

/-- The index of a run of blocks that starts at byte `offset`. -/
def indexFrom (offset : Nat) : List (List Entry) → List IndexEntry
  | [] => []
  | block :: blocks =>
      { firstKey := firstKeyOf block
        offset
        length := int32 (encodeBlock block).length } ::
        indexFrom (offset + (encodeBlock block).length) blocks

/-- The filter over the user keys. -/
def bloomOf (entries : List Entry) : BloomFilter :=
  entries.foldl (fun bloom e => bloom.add e.userKey) newBloomFilter

/-- The table with these entries, as the writer leaves it in memory. -/
def tableOf (path : Bytes) (entries : List Entry) : SSTable where
  filePath := path
  index := indexFrom 0 (cutBlocks entries)
  bloom := bloomOf entries

def dataOf (blocks : List (List Entry)) : Bytes :=
  blocks.flatMap encodeBlock

/-- The file with these entries, as the writer leaves it on disk. -/
def fileOf (entries : List Entry) : Bytes :=
  let blocks := cutBlocks entries
  let index := indexFrom 0 blocks
  dataOf blocks ++ encodeIndex index ++ leBytes 4 (serialize (bloomOf entries)).length ++
    serialize (bloomOf entries) ++
    encodeFooterWithBloom (dataOf blocks).length index.length
      ((dataOf blocks).length + indexSize index : Nat)

/-- A writer has written `blocks` and collects `collected`. -/
structure WriterState.Holds (st : WriterState) (blocks : List (List Entry))
    (collected : List Entry) : Prop where
  out : st.out = dataOf blocks
  index : st.indexEntries = indexFrom 0 blocks
  offset : st.currentOffset = (dataOf blocks).length
  entries : st.collector.entries = collected
  size : st.collector.sizeEstimate = (collected.map entrySize).sum
  firstKey : st.collector.lastFirstKey = firstKeyOf collected

theorem indexFrom_append (offset : Nat) (blocks blocks' : List (List Entry)) :
    indexFrom offset (blocks ++ blocks') =
      indexFrom offset blocks ++ indexFrom (offset + (dataOf blocks).length) blocks' := by
  induction blocks generalizing offset with
  | nil => simp [indexFrom, dataOf]
  | cons block blocks ih =>
      simp only [List.cons_append, indexFrom, ih, dataOf, List.flatMap_cons, List.length_append]
      rw [Nat.add_assoc]

theorem holds_init : WriterState.init.Holds [] [] where
  out := rfl
  index := rfl
  offset := rfl
  entries := rfl
  size := rfl
  firstKey := rfl

theorem WriterState.Holds.add {st : WriterState} {blocks : List (List Entry)}
    {collected : List Entry} (h : st.Holds blocks collected) (e : Entry) :
    WriterState.Holds { st with collector := st.collector.add e } blocks (collected ++ [e]) where
  out := h.out
  index := h.index
  offset := h.offset
  entries := by simp [BlockCollector.add, h.entries]
  size := by simp [BlockCollector.add, h.size, entrySize]
  firstKey := by
    have hlen := congrArg List.length h.entries
    cases collected with
    | nil => simp [BlockCollector.add, hlen, firstKeyOf]
    | cons c cs => simp [BlockCollector.add, hlen, h.firstKey, firstKeyOf]

theorem WriterState.Holds.flushBlock {st : WriterState} {blocks : List (List Entry)}
    {collected : List Entry} (h : st.Holds blocks collected) :
    st.flushBlock.Holds (blocks ++ [collected]) [] where
  out := by simp [WriterState.flushBlock, h.out, h.entries, dataOf]
  index := by
    simp [WriterState.flushBlock, h.index, h.entries, h.firstKey, h.offset, indexFrom_append,
      indexFrom]
  offset := by simp [WriterState.flushBlock, h.offset, h.entries, dataOf]
  entries := rfl
  size := rfl
  firstKey := rfl

theorem WriterState.Holds.writeEntry {st : WriterState} {blocks : List (List Entry)}
    {collected : List Entry} (h : st.Holds blocks collected) (e : Entry) :
    if Config.defaultBlockSize ≤ (collected.map entrySize).sum + entrySize e then
      (Sstable.writeEntry st e).Holds (blocks ++ [collected ++ [e]]) []
    else (Sstable.writeEntry st e).Holds blocks (collected ++ [e]) := by
  have hadd := h.add e
  have hsize : (st.collector.add e).sizeEstimate =
      (collected.map entrySize).sum + entrySize e := by
    simpa using hadd.size
  have hne : ¬ (st.collector.add e).entries.length = 0 := by
    simp [BlockCollector.add]
  unfold Sstable.writeEntry
  simp only [hsize]
  split
  · rw [WriterState.flushCurrent, if_neg hne]
    exact hadd.flushBlock
  · exact hadd

theorem holds_foldl_writeEntry {st : WriterState} {blocks : List (List Entry)}
    {collected : List Entry} (h : st.Holds blocks collected) (entries : List Entry) :
    (entries.foldl writeEntry st).flushCurrent.Holds
      (blocks ++ cutFrom collected (collected.map entrySize).sum entries) [] := by
  induction entries generalizing st blocks collected with
  | nil =>
      rw [List.foldl_nil, WriterState.flushCurrent, h.entries, cutFrom]
      by_cases hnil : collected = []
      · subst hnil
        simpa using h
      · have hlen : ¬ collected.length = 0 := fun hc => hnil (List.eq_nil_of_length_eq_zero hc)
        rw [if_neg hlen, if_neg hnil]
        exact h.flushBlock
  | cons e entries ih =>
      have hstep := h.writeEntry e
      rw [List.foldl_cons, cutFrom]
      split at hstep
      · rename_i hfull
        rw [if_pos hfull]
        have hrest := ih hstep
        simpa [List.append_assoc] using hrest
      · rename_i hroom
        rw [if_neg hroom]
        have hrest := ih hstep
        simpa using hrest

/-- The callback of `Flush` writes the blocks that `writeEntry` writes, and adds
the keys to the filter on the way instead of in a pass of its own. -/
theorem foldl_flushEntry (entries : List Entry) (st : WriterState) (bloom : BloomFilter) :
    entries.foldl flushEntry (st, bloom) =
      (entries.foldl writeEntry st,
        entries.foldl (fun bloom e => bloom.add e.userKey) bloom) := by
  induction entries generalizing st bloom with
  | nil => rfl
  | cons e entries ih =>
      rw [List.foldl_cons, List.foldl_cons, List.foldl_cons, ← ih]
      congr 1
      unfold flushEntry writeEntry WriterState.flushCurrent
      have hne : ¬ ({ st with collector := st.collector.add e } :
          WriterState).collector.entries.length = 0 := by simp [BlockCollector.add]
      simp only [if_neg hne]
      split <;> rfl

theorem finishFile_of_holds {st : WriterState} {entries : List Entry}
    (h : st.Holds (cutBlocks entries) []) : finishFile st (bloomOf entries) = fileOf entries := by
  unfold finishFile fileOf
  simp only [h.out, h.index, h.offset]
  push_cast
  rfl

/-- The compaction-side writer returns the table of its entries and leaves their
file image. -/
theorem writeSSTableFromBlockEntries_eq (path : Bytes) (entries : List Entry) :
    writeSSTableFromBlockEntries path entries = (tableOf path entries, fileOf entries) := by
  have h := holds_foldl_writeEntry holds_init entries
  unfold writeSSTableFromBlockEntries
  simp only [Prod.mk.injEq]
  refine ⟨?_, finishFile_of_holds h⟩
  rw [tableOf, bloomOf, h.index]
  rfl

theorem flush_eq (memTable : MemTable) (path : Bytes) :
    flush memTable path = (tableOf path memTable.tree, fileOf memTable.tree) := by
  rw [← writeSSTableFromBlockEntries_eq]
  unfold flush writeSSTableFromBlockEntries
  rw [foldl_flushEntry]
  have hst : ∀ st : WriterState,
      (if 0 < st.collector.entries.length then st.flushBlock else st) = st.flushCurrent := by
    intro st
    unfold WriterState.flushCurrent
    by_cases hlen : st.collector.entries.length = 0
    · simp [hlen]
    · rw [if_pos (by omega), if_neg hlen]
  simp only [hst]

/-- The two writers leave the same bytes and return the same index and filter. -/
theorem writers_agree (memTable : MemTable) (path path' : Bytes) :
    (flush memTable path).2 = (writeSSTableFromBlockEntries path' memTable.ascend).2 ∧
    (flush memTable path).1.index =
      (writeSSTableFromBlockEntries path' memTable.ascend).1.index ∧
    (flush memTable path).1.bloom =
      (writeSSTableFromBlockEntries path' memTable.ascend).1.bloom := by
  rw [flush_eq, writeSSTableFromBlockEntries_eq]
  exact ⟨rfl, rfl, rfl⟩

end Layout

end Hcdb.Sstable
