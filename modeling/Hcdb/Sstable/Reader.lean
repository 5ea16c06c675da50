import Hcdb.Lib.FiniteMap
import Hcdb.Sstable.Writer
import Mathlib.Algebra.Order.BigOperators.Group.List

namespace Hcdb.Sstable

open Hcdb.Lib.ByteString
open Hcdb.Lib.FiniteMap
open Hcdb.Base
open Hcdb.Bloomfilter

/-- The SSTable directory: file names and contents. -/
abbrev TableDir := FMap Bytes Bytes

/-- The filter at the offset that the footer gives. -/
def readBloom (file : Bytes) (bloomOffset : Int) : Except SstErr BloomFilter :=
  match seekStart file bloomOffset with
  | .error e => .error e
  | .ok r =>
      match readWord 4 r with
      | .error e => .error (.read e)
      | .ok (bloomLen, r) =>
          match readFull bloomLen r with
          | .error e => .error (.read e)
          | .ok (bloomBytes, _) =>
              match deserialize bloomBytes with
              | none => .error .panic
              | some bloom => .ok bloom

/-- `Open` on the contents of the file at `path`. -/
def openTable (path : Bytes) (file : Bytes) : Except SstErr SSTable :=
  match readFooterWithBloom file with
  | .error e => .error e
  | .ok footer =>
      match decodeIndex file footer.indexOffset footer.numEntries with
      | .error e => .error e
      | .ok index =>
          match readBloom file footer.bloomOffset with
          | .error e => .error e
          | .ok bloom => .ok { filePath := path, index, bloom }

section Blocks

variable [Runtime]

/-- Seek to a block, read its bytes and decode them.  A negative length panics in
`make`. -/
def readBlockFrom (file : Bytes) (idx : IndexEntry) : Except SstErr (List Entry) :=
  match seekStart file idx.offset with
  | .error e => .error e
  | .ok r =>
      if idx.length < 0 then .error .panic
      else
        match readFull idx.length.toNat r with
        | .error e => .error (.read e)
        | .ok (blockBytes, _) => decodeBlock blockBytes

/-- `readBlock` with an empty cache. -/
def readBlock (dir : TableDir) (sst : SSTable) (idx : IndexEntry) : Except SstErr (List Entry) :=
  match dir.read sst.filePath with
  | none => .error .notExist
  | some file => readBlockFrom file idx

/-- All blocks one after the other. -/
def readBlocks (file : Bytes) : List IndexEntry → Except SstErr (List Entry)
  | [] => .ok []
  | idx :: index =>
      match readBlockFrom file idx with
      | .error e => .error e
      | .ok blockEntries =>
          match readBlocks file index with
          | .error e => .error e
          | .ok entries => .ok (blockEntries ++ entries)

/-- `NewBlockIterator`: all entries of the table. -/
def newBlockIterator (dir : TableDir) (sst : SSTable) : Except SstErr (List Entry) :=
  match dir.read sst.filePath with
  | none => .error .notExist
  | some file => readBlocks file sst.index

end Blocks

/-- Key and value lengths inside the limits that `Put` and `Delete` enforce. -/
structure WithinLimits (e : Entry) : Prop where
  keyLength : e.key.length ≤ Config.maxKeyLength + internalTrailerLen
  valueLength : e.value.length ≤ Config.maxValueLength

theorem withinLimits_of_wellFormed {e : Entry} (h : e.WellFormed) : WithinLimits e :=
  ⟨h.keyLength, h.valueLength⟩

theorem WithinLimits.fitsWords {e : Entry} (h : WithinLimits e) : FitsWords e :=
  fitsWords_of_length_le h.keyLength h.valueLength

/-- No entry is larger than this. -/
def maxEntrySize : Nat := 1049616

theorem WithinLimits.entrySize_le {e : Entry} (h : WithinLimits e) :
    entrySize e ≤ maxEntrySize := by
  obtain ⟨hk, hv⟩ := h
  unfold Config.maxKeyLength internalTrailerLen at hk
  unfold Config.maxValueLength at hv
  unfold entrySize maxEntrySize
  omega

/-- What the writers guarantee of every block. -/
structure BlockOk (block : List Entry) : Prop where
  ne_nil : block ≠ []
  size : (block.map entrySize).sum < Config.defaultBlockSize + maxEntrySize
  limits : ∀ e ∈ block, WithinLimits e

/-- The length of the encoded block fits the `int32` of its index entry. -/
def FitsIndex (block : List Entry) : Prop :=
  8 + (block.map entrySize).sum < 2 ^ 31

theorem BlockOk.fitsIndex {block : List Entry} (h : BlockOk block) : FitsIndex block := by
  have hsize := h.size
  unfold Config.defaultBlockSize maxEntrySize at hsize
  unfold FitsIndex
  omega

theorem eight_mul_length_le (es : List Entry) : 8 * es.length ≤ (es.map entrySize).sum := by
  induction es with
  | nil => simp
  | cons e es ih =>
      have hentry : 8 ≤ entrySize e := by
        unfold entrySize
        omega
      simp only [List.length_cons, List.map_cons, List.sum_cons]
      omega

theorem FitsIndex.length_lt {block : List Entry} (h : FitsIndex block) :
    block.length < 2 ^ 32 := by
  have hle := eight_mul_length_le block
  unfold FitsIndex at h
  omega

theorem FitsIndex.fitsWords {block : List Entry} (h : FitsIndex block) {e : Entry}
    (he : e ∈ block) : FitsWords e := by
  have hle : entrySize e ≤ (block.map entrySize).sum :=
    List.single_le_sum (by simp) _ (List.mem_map_of_mem he)
  have hsize : entrySize e = e.key.length + e.value.length + 8 := rfl
  unfold FitsIndex at h
  exact ⟨by omega, by omega⟩

theorem cutFrom_flatten (collected : List Entry) (size : Nat) (entries : List Entry) :
    (cutFrom collected size entries).flatten = collected ++ entries := by
  induction entries generalizing collected size with
  | nil =>
      unfold cutFrom
      split
      · rename_i h
        simp [h]
      · simp
  | cons e entries ih =>
      unfold cutFrom
      split
      · rw [List.flatten_cons, ih]
        simp
      · rw [ih]
        simp

theorem cutFrom_blockOk {collected : List Entry} {entries : List Entry}
    (hsize : (collected.map entrySize).sum < Config.defaultBlockSize)
    (hc : ∀ e ∈ collected, WithinLimits e) (he : ∀ e ∈ entries, WithinLimits e) :
    ∀ block ∈ cutFrom collected (collected.map entrySize).sum entries, BlockOk block := by
  induction entries generalizing collected with
  | nil =>
      intro block hblock
      unfold cutFrom at hblock
      split at hblock
      · simp at hblock
      · rename_i hne
        simp only [List.mem_singleton] at hblock
        subst hblock
        exact ⟨hne, by omega, hc⟩
  | cons e entries ih =>
      have hlim := he e (by simp)
      have hrest : ∀ a ∈ entries, WithinLimits a := fun a ha => he a (by simp [ha])
      have hall : ∀ a ∈ collected ++ [e], WithinLimits a := by
        intro a ha
        rcases List.mem_append.mp ha with ha | ha
        · exact hc a ha
        · rw [List.mem_singleton] at ha
          exact ha ▸ hlim
      have hsum : ((collected ++ [e]).map entrySize).sum =
          (collected.map entrySize).sum + entrySize e := by simp
      have hentry := hlim.entrySize_le
      intro block hblock
      unfold cutFrom at hblock
      split at hblock
      · -- only the last entry of a block goes beyond the block size
        rcases List.mem_cons.mp hblock with rfl | hblock
        · exact ⟨by simp, by rw [hsum]; omega, hall⟩
        · have hempty : (([] : List Entry).map entrySize).sum < Config.defaultBlockSize := by
            simp [Config.defaultBlockSize]
          exact ih hempty (by simp) hrest block hblock
      · rename_i hroom
        rw [← hsum] at hblock hroom
        exact ih (by omega) hall hrest block hblock

theorem cutBlocks_flatten (entries : List Entry) : (cutBlocks entries).flatten = entries := by
  simp [cutBlocks, cutFrom_flatten]

theorem cutBlocks_blockOk {entries : List Entry} (h : ∀ e ∈ entries, WithinLimits e) :
    ∀ block ∈ cutBlocks entries, BlockOk block := by
  have hempty : (([] : List Entry).map entrySize).sum < Config.defaultBlockSize := by
    simp [Config.defaultBlockSize]
  exact cutFrom_blockOk hempty (by simp) h

theorem indexSize_eq_sum (entries : List IndexEntry) :
    indexSize entries = (encodeIndex entries).length := by
  have hfold : ∀ (l : List IndexEntry) (n : Nat),
      l.foldl (fun size e => size + (4 + e.firstKey.length + 8 + 4)) n =
        n + (encodeIndex l).length := by
    intro l
    induction l with
    | nil => simp [encodeIndex]
    | cons e l ih =>
        intro n
        rw [List.foldl_cons, ih]
        simp only [encodeIndex, List.flatMap_cons, List.length_append, encodeIndexEntry_length]
        omega
  simpa [indexSize] using hfold entries 0

section Layout

variable [Runtime]

theorem BlockOk.encodeBlock_length_lt {block : List Entry} (h : BlockOk block) :
    (encodeBlock block).length < 2 ^ 21 := by
  have hsize := h.size
  rw [encodeBlock_length]
  unfold Config.defaultBlockSize maxEntrySize at hsize
  omega

theorem FitsIndex.int32_length {block : List Entry} (h : FitsIndex block) :
    int32 (encodeBlock block).length = (encodeBlock block).length := by
  apply int32_natCast
  rw [encodeBlock_length]
  exact h

theorem readBlockFrom_append {block : List Entry} (h : FitsIndex block) (front back : Bytes) :
    readBlockFrom (front ++ encodeBlock block ++ back)
      { firstKey := firstKeyOf block, offset := front.length,
        length := int32 (encodeBlock block).length } = .ok block := by
  have hseek : seekStart (front ++ encodeBlock block ++ back) front.length =
      .ok (encodeBlock block ++ back) := by
    simp [seekStart]
  have hfull : readFull (encodeBlock block).length (encodeBlock block ++ back) =
      .ok (encodeBlock block, back) := readFull_append _ _ rfl
  have hdecode : decodeBlock (encodeBlock block) = .ok block :=
    decodeBlock_encodeBlock h.length_lt fun e he => h.fitsWords he
  have hnonneg : ¬ ((encodeBlock block).length : Int) < 0 := by omega
  rw [h.int32_length, readBlockFrom]
  simp only [hseek, if_neg hnonneg, Int.toNat_natCast, hfull, hdecode]

theorem forall₂_readBlockFrom {blocks : List (List Entry)} (h : ∀ b ∈ blocks, FitsIndex b)
    (front back : Bytes) :
    List.Forall₂ (fun idx block => readBlockFrom (front ++ dataOf blocks ++ back) idx = .ok block)
      (indexFrom front.length blocks) blocks := by
  induction blocks generalizing front with
  | nil => exact List.Forall₂.nil
  | cons block blocks ih =>
      have hsplit : front ++ dataOf (block :: blocks) ++ back =
          front ++ encodeBlock block ++ (dataOf blocks ++ back) := by
        simp [dataOf]
      have hrest : front ++ dataOf (block :: blocks) ++ back =
          (front ++ encodeBlock block) ++ dataOf blocks ++ back := by
        simp [dataOf]
      refine List.Forall₂.cons ?_ ?_
      · rw [hsplit]
        exact readBlockFrom_append (h block (by simp)) front _
      · rw [hrest]
        have := ih (fun b hb => h b (by simp [hb])) (front ++ encodeBlock block)
        rwa [List.length_append] at this

theorem readBlocks_of_forall₂ {file : Bytes} {index : List IndexEntry}
    {blocks : List (List Entry)}
    (h : List.Forall₂ (fun idx block => readBlockFrom file idx = .ok block) index blocks) :
    readBlocks file index = .ok blocks.flatten := by
  induction h with
  | nil => rfl
  | cons hread _ ih => simp [readBlocks, hread, ih]

theorem fileOf_eq (entries : List Entry) : ∃ back,
    fileOf entries = dataOf (cutBlocks entries) ++ back := by
  unfold fileOf
  simp only [List.append_assoc]
  exact ⟨_, rfl⟩

theorem forall₂_readBlockFrom_of_fits {entries : List Entry}
    (h : ∀ block ∈ cutBlocks entries, FitsIndex block) :
    List.Forall₂ (fun idx block => readBlockFrom (fileOf entries) idx = .ok block)
      (indexFrom 0 (cutBlocks entries)) (cutBlocks entries) := by
  obtain ⟨back, hfile⟩ := fileOf_eq entries
  rw [hfile]
  exact forall₂_readBlockFrom h [] back

theorem forall₂_readBlockFrom_fileOf {entries : List Entry}
    (h : ∀ e ∈ entries, WithinLimits e) :
    List.Forall₂ (fun idx block => readBlockFrom (fileOf entries) idx = .ok block)
      (indexFrom 0 (cutBlocks entries)) (cutBlocks entries) :=
  forall₂_readBlockFrom_of_fits fun block hblock => (cutBlocks_blockOk h block hblock).fitsIndex

theorem exists_readBlockFrom_fileOf {entries : List Entry} (h : ∀ e ∈ entries, WithinLimits e)
    {idx : IndexEntry} (hidx : idx ∈ indexFrom 0 (cutBlocks entries)) :
    ∃ block, readBlockFrom (fileOf entries) idx = .ok block := by
  obtain ⟨hlen, hblocks⟩ := List.forall₂_iff_get.mp (forall₂_readBlockFrom_fileOf h)
  obtain ⟨i, hi, rfl⟩ := List.mem_iff_getElem.mp hidx
  exact ⟨_, hblocks i hi (hlen ▸ hi)⟩

theorem indexFrom_length (offset : Nat) (blocks : List (List Entry)) :
    (indexFrom offset blocks).length = blocks.length := by
  induction blocks generalizing offset with
  | nil => rfl
  | cons block blocks ih => simp [indexFrom, ih]

theorem bloomOf_size (entries : List Entry) : (bloomOf entries).size = Runtime.bloomSize := by
  rw [bloomOf, ← List.foldl_map, foldl_add_size]
  rfl

theorem bloomOf_numHash (entries : List Entry) :
    (bloomOf entries).numHash = Runtime.bloomNumHash := by
  rw [bloomOf, ← List.foldl_map, foldl_add_numHash]
  rfl

theorem mightContain_bloomOf {entries : List Entry} {e : Entry} (he : e ∈ entries) :
    (bloomOf entries).mightContain e.userKey = some true := by
  have hpos : 0 < (bloomOf entries).size := bloomOf_size entries ▸ Runtime.bloomSize_pos
  have hlt : (bloomOf entries).size < 2 ^ 32 := bloomOf_size entries ▸ Runtime.bloomSize_lt
  apply mightContain_of_covers _ hpos hlt
  rw [bloomOf, ← List.foldl_map]
  apply covers_foldl_add _ _ Runtime.bloomSize_pos Runtime.bloomSize_lt
  exact Or.inl (List.mem_map_of_mem he)

theorem mightContain_bloomOf_isSome (entries : List Entry) (userKey : Bytes) :
    ∃ b, (bloomOf entries).mightContain userKey = some b :=
  mightContain_isSome _ _ (bloomOf_size entries ▸ Runtime.bloomSize_pos)
    (bloomOf_size entries ▸ Runtime.bloomSize_lt)

end Layout

end Hcdb.Sstable
