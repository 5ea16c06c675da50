import Hcdb.Sstable.Reader

namespace Hcdb.Sstable

open Hcdb.Lib.ByteString
open Hcdb.Lib.SortedList
open Hcdb.Base
open Hcdb.Bloomfilter

/-- The number of blocks that entries of these sizes fill, with `size` bytes
already collected: a block ends with the entry that brings it to the block size,
and what is left over at the end is a block too. -/
def blockCount (size : Nat) : List Nat → Nat
  | [] => if size = 0 then 0 else 1
  | n :: sizes =>
      if Config.defaultBlockSize ≤ size + n then blockCount 0 sizes + 1
      else blockCount (size + n) sizes

theorem entrySize_pos (e : Entry) : 0 < entrySize e := by
  unfold entrySize
  omega

theorem cutFrom_length (collected entries : List Entry) :
    (cutFrom collected (collected.map entrySize).sum entries).length =
      blockCount (collected.map entrySize).sum (entries.map entrySize) := by
  induction entries generalizing collected with
  | nil =>
      cases collected with
      | nil => rfl
      | cons c cs =>
          have hpos := entrySize_pos c
          have hne : ¬ ((c :: cs).map entrySize).sum = 0 := by
            simp only [List.map_cons, List.sum_cons]
            omega
          rw [List.map_nil, blockCount, if_neg hne]
          rfl
  | cons e entries ih =>
      have hsum : ((collected ++ [e]).map entrySize).sum =
          (collected.map entrySize).sum + entrySize e := by simp
      rw [cutFrom, List.map_cons, blockCount]
      split
      · rw [List.length_cons]
        have hrest := ih []
        simp only [List.map_nil, List.sum_nil] at hrest
        rw [hrest]
      · rw [← hsum]
        exact ih (collected ++ [e])

theorem cutBlocks_length (entries : List Entry) :
    (cutBlocks entries).length = blockCount 0 (entries.map entrySize) :=
  cutFrom_length [] entries

theorem BlockOk.firstKeyOf_length {block : List Entry} (h : BlockOk block) :
    (firstKeyOf block).length ≤ Config.maxKeyLength + internalTrailerLen := by
  obtain ⟨hne, -, hlim⟩ := h
  cases block with
  | nil => exact absurd rfl hne
  | cons e es => exact (hlim e (by simp)).keyLength

theorem readIndexEntries_length {n : Nat} {r : Bytes} {index : List IndexEntry}
    (h : readIndexEntries n r = .ok index) : index.length = n := by
  induction n generalizing r index with
  | zero =>
      simp only [readIndexEntries, Except.ok.injEq] at h
      simp [← h]
  | succ n ih =>
      simp only [readIndexEntries, bind, Except.bind, pure, Except.pure] at h
      split at h
      · simp at h
      · rename_i p _
        split at h
        · simp at h
        · rename_i tail htail
          simp only [Except.ok.injEq] at h
          rw [← h, List.length_cons, ih htail]

theorem encodeIndex_eq_nil {index : List IndexEntry} (h : (encodeIndex index).length = 0) :
    index = [] := by
  cases index with
  | nil => rfl
  | cons idx index =>
      rw [encodeIndex, List.flatMap_cons, List.length_append, encodeIndexEntry_length] at h
      omega

theorem openTable_index_length {path file : Bytes} {sst : SSTable} {footer : Footer}
    (hopen : openTable path file = .ok sst) (hfooter : readFooterWithBloom file = .ok footer) :
    sst.index.length = footer.numEntries := by
  rw [openTable, hfooter] at hopen
  simp only at hopen
  split at hopen
  · simp at hopen
  · rename_i index hindex
    split at hopen
    · simp at hopen
    · simp only [Except.ok.injEq] at hopen
      rw [← hopen]
      rw [decodeIndex] at hindex
      split at hindex
      · simp at hindex
      · split at hindex
        · simp at hindex
        · rename_i hread
          simp only [Except.ok.injEq] at hindex
          rw [← hindex]
          exact readIndexEntries_length hread

section Opening

variable [Runtime]

/-- The index entries describe adjacent blocks from byte `start` to byte `stop`,
each of them non-empty and listed under its first key. -/
def TilesFrom (file : Bytes) (start : Int) (index : List IndexEntry) (stop : Int) : Prop :=
  match index with
  | [] => start = stop
  | idx :: index =>
      idx.offset = start ∧
      (∃ e es, readBlockFrom file idx = .ok (e :: es) ∧ idx.firstKey = e.key) ∧
      TilesFrom file (idx.offset + idx.length) index stop

/-- Opening what `WriteSSTableFromBlockEntries` wrote gives the index and the
filter of the table it returned, the blocks hold the entries in order, and the
index tiles the data region. -/
def RoundTrips (path : Bytes) (entries : List Entry) : Prop :=
  ∃ sst footer,
    openTable path (writeSSTableFromBlockEntries path entries).2 = .ok sst ∧
    sst.index = (writeSSTableFromBlockEntries path entries).1.index ∧
    sst.bloom = (writeSSTableFromBlockEntries path entries).1.bloom ∧
    (∀ dir : TableDir, dir.read path = some (writeSSTableFromBlockEntries path entries).2 →
      newBlockIterator dir sst = .ok entries) ∧
    readFooterWithBloom (writeSSTableFromBlockEntries path entries).2 = .ok footer ∧
    TilesFrom (writeSSTableFromBlockEntries path entries).2 0 sst.index footer.indexOffset

theorem dataOf_length_le {blocks : List (List Entry)} (h : ∀ b ∈ blocks, BlockOk b) :
    (dataOf blocks).length ≤ 2 ^ 21 * blocks.length := by
  induction blocks with
  | nil => simp [dataOf]
  | cons block blocks ih =>
      have hblock := (h block (by simp)).encodeBlock_length_lt
      have hrest := ih fun b hb => h b (by simp [hb])
      simp only [dataOf, List.flatMap_cons, List.length_append, List.length_cons] at hrest ⊢
      omega

theorem indexFrom_encodable {blocks : List (List Entry)} (h : ∀ b ∈ blocks, BlockOk b)
    {offset : Nat} (hoff : offset + (dataOf blocks).length < 2 ^ 63) :
    ∀ idx ∈ indexFrom offset blocks, idx.Encodable := by
  induction blocks generalizing offset with
  | nil => simp [indexFrom]
  | cons block blocks ih =>
      have hok := h block (by simp)
      have hlen := hok.encodeBlock_length_lt
      have hkey := hok.firstKeyOf_length
      have hint := hok.fitsIndex.int32_length
      unfold Config.maxKeyLength internalTrailerLen at hkey
      have hdata : (dataOf (block :: blocks)).length =
          (encodeBlock block).length + (dataOf blocks).length := by
        simp [dataOf]
      rw [hdata] at hoff
      intro idx hidx
      rw [indexFrom, List.mem_cons] at hidx
      rcases hidx with rfl | hidx
      · refine ⟨?_, ?_, ?_, ?_, ?_⟩
        · change (firstKeyOf block).length < 2 ^ 32
          omega
        · change (0 : Int) ≤ offset
          omega
        · change (offset : Int) < 2 ^ 63
          omega
        · simp only [hint]
          omega
        · simp only [hint]
          omega
      · exact ih (fun b hb => h b (by simp [hb])) (by omega) idx hidx

theorem encodeIndex_length_le {blocks : List (List Entry)} (h : ∀ b ∈ blocks, BlockOk b)
    (offset : Nat) : (encodeIndex (indexFrom offset blocks)).length ≤ 2 ^ 11 * blocks.length := by
  induction blocks generalizing offset with
  | nil => simp [indexFrom, encodeIndex]
  | cons block blocks ih =>
      have hkey := (h block (by simp)).firstKeyOf_length
      unfold Config.maxKeyLength internalTrailerLen at hkey
      have hrest := ih (fun b hb => h b (by simp [hb])) (offset + (encodeBlock block).length)
      simp only [indexFrom, encodeIndex, List.flatMap_cons, List.length_append,
        encodeIndexEntry_length, List.length_cons] at hrest ⊢
      omega

/-- The offsets in the footer fit a signed word of eight bytes. -/
def OffsetsFit (entries : List Entry) : Prop :=
  (dataOf (cutBlocks entries)).length +
    (encodeIndex (indexFrom 0 (cutBlocks entries))).length < 2 ^ 63

theorem offsetsFit_of_count {entries : List Entry} (h : ∀ e ∈ entries, WithinLimits e)
    (hcount : (cutBlocks entries).length < 2 ^ 32) : OffsetsFit entries := by
  have hok := cutBlocks_blockOk h
  have hdata := dataOf_length_le hok
  have hindex := encodeIndex_length_le hok 0
  unfold OffsetsFit
  omega

theorem readFooterWithBloom_fileOf {entries : List Entry} (hfit : OffsetsFit entries) :
    readFooterWithBloom (fileOf entries) =
      .ok { indexOffset := (dataOf (cutBlocks entries)).length
            numEntries := (cutBlocks entries).length % 2 ^ 32
            bloomOffset := ((dataOf (cutBlocks entries)).length +
              (encodeIndex (indexFrom 0 (cutBlocks entries))).length : Nat) } := by
  unfold OffsetsFit at hfit
  have hoffset : leInt (leIntBytes 8 (dataOf (cutBlocks entries)).length) =
      (dataOf (cutBlocks entries)).length :=
    leInt_leIntBytes_of_nonneg (by norm_num; omega)
  have hbloom : leInt (leIntBytes 8 ((dataOf (cutBlocks entries)).length +
        (encodeIndex (indexFrom 0 (cutBlocks entries))).length : Nat)) =
      ((dataOf (cutBlocks entries)).length +
        (encodeIndex (indexFrom 0 (cutBlocks entries))).length : Nat) :=
    leInt_leIntBytes_of_nonneg (by norm_num; omega)
  unfold fileOf
  simp only [indexSize_eq_sum]
  rw [readFooterWithBloom_append, hoffset, hbloom, indexFrom_length]

theorem decodeIndex_fileOf {entries : List Entry} (h : ∀ e ∈ entries, WithinLimits e)
    (hfit : OffsetsFit entries) {n : Nat}
    (hn : n ≤ (cutBlocks entries).length) :
    decodeIndex (fileOf entries) (dataOf (cutBlocks entries)).length n =
      .ok ((indexFrom 0 (cutBlocks entries)).take n) := by
  have hok := cutBlocks_blockOk h
  unfold OffsetsFit at hfit
  have henc := indexFrom_encodable hok (by omega : 0 + (dataOf (cutBlocks entries)).length < 2 ^ 63)
  have hseek : ∀ back : Bytes, seekStart (dataOf (cutBlocks entries) ++ back)
      (dataOf (cutBlocks entries)).length = .ok back := by
    intro back
    simp [seekStart]
  unfold fileOf
  simp only [List.append_assoc]
  rw [decodeIndex, hseek]
  simp only
  rw [readIndexEntries_take henc _ n (by rwa [indexFrom_length])]

theorem readBloom_fileOf (entries : List Entry) :
    readBloom (fileOf entries) ((dataOf (cutBlocks entries)).length +
      (encodeIndex (indexFrom 0 (cutBlocks entries))).length : Nat) = .ok (bloomOf entries) := by
  have hsize : (bloomOf entries).size < 2 ^ 32 := bloomOf_size entries ▸ Runtime.bloomSize_lt
  have hnum : (bloomOf entries).numHash < 2 ^ 32 :=
    bloomOf_numHash entries ▸ Runtime.bloomNumHash_lt
  have hlen : (serialize (bloomOf entries)).length < 256 ^ 4 := by
    rw [serialize_length]
    omega
  have hseek : ∀ front back : Bytes, seekStart (front ++ back) (front.length : Nat) = .ok back := by
    intro front back
    simp [seekStart]
  unfold fileOf
  simp only [List.append_assoc]
  rw [← List.append_assoc, ← List.length_append, readBloom, hseek]
  simp only
  rw [readWord_append _ hlen]
  simp only [readFull_append _ _ rfl, deserialize_serialize hsize hnum]

/-- What a table opened from too many blocks is: its index stops short. -/
theorem openTable_fileOf_take (path : Bytes) {entries : List Entry}
    (h : ∀ e ∈ entries, WithinLimits e) (hfit : OffsetsFit entries) :
    openTable path (fileOf entries) =
      .ok { tableOf path entries with
            index := (tableOf path entries).index.take ((cutBlocks entries).length % 2 ^ 32) } := by
  rw [openTable, readFooterWithBloom_fileOf hfit]
  simp only
  rw [decodeIndex_fileOf h hfit (Nat.mod_le _ _)]
  simp only [readBloom_fileOf]
  rfl

theorem openTable_fileOf (path : Bytes) {entries : List Entry}
    (h : ∀ e ∈ entries, WithinLimits e) (hcount : (cutBlocks entries).length < 2 ^ 32) :
    openTable path (fileOf entries) = .ok (tableOf path entries) := by
  rw [openTable_fileOf_take path h (offsetsFit_of_count h hcount), Nat.mod_eq_of_lt hcount,
    List.take_of_length_le (by rw [tableOf, indexFrom_length])]

theorem newBlockIterator_tableOf {dir : TableDir} {path : Bytes} {entries : List Entry}
    (h : ∀ e ∈ entries, WithinLimits e) (hread : dir.read path = some (fileOf entries)) :
    newBlockIterator dir (tableOf path entries) = .ok entries := by
  have hblocks := readBlocks_of_forall₂ (forall₂_readBlockFrom_fileOf h)
  rw [cutBlocks_flatten] at hblocks
  have hfile : dir.read (tableOf path entries).filePath = some (fileOf entries) := hread
  rw [newBlockIterator, hfile]
  exact hblocks

theorem readBlocks_of_initial {entries : List Entry} (h : ∀ e ∈ entries, WithinLimits e)
    {index : List IndexEntry} (hindex : index <+: indexFrom 0 (cutBlocks entries)) :
    ∃ blocks, blocks <+: cutBlocks entries ∧
      readBlocks (fileOf entries) index = .ok blocks.flatten := by
  refine ⟨_, List.take_prefix index.length (cutBlocks entries), readBlocks_of_forall₂ ?_⟩
  have htake := List.forall₂_take index.length (forall₂_readBlockFrom_fileOf h)
  rwa [← List.prefix_iff_eq_take.mp hindex] at htake

/-- The bytes of the index determine it, also when the count in the footer has overflowed. -/
theorem indexFrom_eq_of_fileOf_eq {entries entries' : List Entry}
    (h : ∀ e ∈ entries, WithinLimits e) (h' : ∀ e ∈ entries', WithinLimits e)
    (hfit : OffsetsFit entries) (hfit' : OffsetsFit entries')
    (heq : fileOf entries = fileOf entries') :
    indexFrom 0 (cutBlocks entries) = indexFrom 0 (cutBlocks entries') := by
  wlog hle : (cutBlocks entries).length ≤ (cutBlocks entries').length
  · exact (this h' h hfit' hfit heq.symm (by omega)).symm
  have hfooter := readFooterWithBloom_fileOf hfit
  rw [heq, readFooterWithBloom_fileOf hfit', Except.ok.injEq, Footer.mk.injEq] at hfooter
  obtain ⟨hdata, -, hbloom⟩ := hfooter
  have hread := decodeIndex_fileOf h hfit le_rfl
  rw [heq, ← hdata, decodeIndex_fileOf h' hfit' hle, Except.ok.injEq,
    List.take_of_length_le (Nat.le_of_eq (indexFrom_length 0 (cutBlocks entries)))] at hread
  have hsplit : (encodeIndex (indexFrom 0 (cutBlocks entries'))).length =
      (encodeIndex (indexFrom 0 (cutBlocks entries))).length +
        (encodeIndex ((indexFrom 0 (cutBlocks entries')).drop
          (cutBlocks entries).length)).length := by
    rw [← hread, ← List.length_append, encodeIndex, encodeIndex, encodeIndex,
      ← List.flatMap_append, List.take_append_drop]
  have hnil := encodeIndex_eq_nil (by omega :
    (encodeIndex ((indexFrom 0 (cutBlocks entries')).drop (cutBlocks entries).length)).length = 0)
  rw [← hread]
  conv_rhs => rw [← List.take_append_drop (cutBlocks entries).length
    (indexFrom 0 (cutBlocks entries')), hnil, List.append_nil]

/-- A file tells what it was written from. -/
theorem fileOf_injective {entries entries' : List Entry} (h : ∀ e ∈ entries, WithinLimits e)
    (h' : ∀ e ∈ entries', WithinLimits e) (hfit : OffsetsFit entries)
    (hfit' : OffsetsFit entries') (heq : fileOf entries = fileOf entries') :
    entries = entries' := by
  have hindex := indexFrom_eq_of_fileOf_eq h h' hfit hfit' heq
  have hread := readBlocks_of_forall₂ (forall₂_readBlockFrom_fileOf h)
  rw [heq, hindex, readBlocks_of_forall₂ (forall₂_readBlockFrom_fileOf h'), cutBlocks_flatten,
    cutBlocks_flatten] at hread
  exact (Except.ok.inj hread).symm

theorem tilesFrom_fileOf {file : Bytes} {blocks : List (List Entry)} {offset : Nat}
    (hok : ∀ b ∈ blocks, BlockOk b)
    (h : List.Forall₂ (fun idx block => readBlockFrom file idx = .ok block)
      (indexFrom offset blocks) blocks) :
    TilesFrom file offset (indexFrom offset blocks) (offset + (dataOf blocks).length : Nat) := by
  induction blocks generalizing offset with
  | nil => simp [indexFrom, TilesFrom, dataOf]
  | cons block blocks ih =>
      rw [indexFrom] at h ⊢
      obtain ⟨hread, hrest⟩ := List.forall₂_cons.mp h
      have hint := (hok block (by simp)).fitsIndex.int32_length
      refine ⟨rfl, ?_, ?_⟩
      · cases block with
        | nil => exact absurd rfl (hok [] (by simp)).ne_nil
        | cons e es => exact ⟨e, es, hread, rfl⟩
      · have htail := ih (fun b hb => hok b (by simp [hb])) hrest
        simp only [hint]
        simp only [dataOf, List.flatMap_cons, List.length_append] at htail ⊢
        rw [← Nat.add_assoc]
        exact_mod_cast htail

theorem numEntries_fileOf {entries : List Entry} {footer : Footer}
    (h : readFooterWithBloom (fileOf entries) = .ok footer) :
    footer.numEntries = (cutBlocks entries).length % 2 ^ 32 := by
  unfold fileOf at h
  simp only at h
  rw [readFooterWithBloom_append, indexFrom_length] at h
  simp only [Except.ok.injEq] at h
  rw [← h]

theorem RoundTrips.blockCount_lt {path : Bytes} {entries : List Entry}
    (h : RoundTrips path entries) : blockCount 0 (entries.map entrySize) < 2 ^ 32 := by
  rw [← cutBlocks_length]
  unfold RoundTrips at h
  rw [writeSSTableFromBlockEntries_eq] at h
  obtain ⟨sst, footer, hopen, hindex, -, -, hfooter, -⟩ := h
  have hlen := openTable_index_length hopen hfooter
  have hnum := numEntries_fileOf hfooter
  have hsame : sst.index.length = (cutBlocks entries).length := by
    rw [hindex]
    exact indexFrom_length 0 _
  omega

/-- A run of entries round-trips exactly when it fills fewer than `2 ^ 32` blocks:
the footer counts the blocks in four bytes and nothing checks the conversion. -/
theorem roundTrips_iff_blockCount_lt (path : Bytes) {entries : List Entry}
    (hlimits : ∀ e ∈ entries, WithinLimits e) :
    RoundTrips path entries ↔ blockCount 0 (entries.map entrySize) < 2 ^ 32 := by
  constructor
  · exact RoundTrips.blockCount_lt
  · rw [← cutBlocks_length]
    unfold RoundTrips
    rw [writeSSTableFromBlockEntries_eq]
    intro hcount
    refine ⟨tableOf path entries, _, openTable_fileOf path hlimits hcount, rfl, rfl, ?_,
      readFooterWithBloom_fileOf (offsetsFit_of_count hlimits hcount), ?_⟩
    · exact fun dir hdir => newBlockIterator_tableOf hlimits hdir
    · have htiles := tilesFrom_fileOf (cutBlocks_blockOk hlimits)
        (forall₂_readBlockFrom_fileOf hlimits)
      rw [Nat.zero_add] at htiles
      exact htiles

end Opening

theorem roundTrips_two_versions :
    RoundTrips [1] [{ key := (makeInternalKey [97] 2 internalKeyKindDelete).encode, value := [] },
      { key := (makeInternalKey [97] 1 internalKeyKindSet).encode, value := [7] }] :=
  (roundTrips_iff_blockCount_lt [1] (by
    intro e he
    simp only [List.mem_cons, List.not_mem_nil, or_false] at he
    rcases he with rfl | rfl
    · exact ⟨by decide, by decide⟩
    · exact ⟨by decide, by decide⟩)).mpr (by decide)

/-- `n` versions of the empty user key, newest first, each of which fills a block. -/
def fullBlockRun (n : Nat) : List Entry :=
  (List.range n).map fun i =>
    { key := (makeInternalKey [] (n - i) internalKeyKindSet).encode
      value := List.replicate Config.defaultBlockSize 0 }

theorem fullBlockRun_sorted {n : Nat} (hn : n ≤ seqNumMax) : Sorted (fullBlockRun n) := by
  unfold Sorted SortedBy fullBlockRun
  rw [List.pairwise_map]
  apply List.Pairwise.imp_of_mem _ List.pairwise_lt_range
  intro i j hi hj hij
  have hi' := List.mem_range.mp hi
  have hj' := List.mem_range.mp hj
  simp only [Entry.ik, InternalKey.decode_encode]
  rw [InternalKey.lt_iff_seqNum]
  refine Or.inr ⟨rfl, Or.inl ?_⟩
  change trailerSeqNum _ < trailerSeqNum _
  simp only [makeInternalKey]
  rw [trailerSeqNum_makeTrailer (by omega), trailerSeqNum_makeTrailer (by omega)]
  omega

theorem fullBlockRun_key_length {n : Nat} {e : Entry} (he : e ∈ fullBlockRun n) :
    e.key.length = internalTrailerLen := by
  obtain ⟨i, -, rfl⟩ := List.mem_map.mp he
  rw [InternalKey.encode_length]
  rfl

theorem fullBlockRun_withinLimits {n : Nat} {e : Entry} (he : e ∈ fullBlockRun n) :
    WithinLimits e := by
  have hkey := fullBlockRun_key_length he
  obtain ⟨i, -, rfl⟩ := List.mem_map.mp he
  refine ⟨by omega, ?_⟩
  simp only [List.length_replicate]
  decide

theorem blockCount_fullBlockRun (n : Nat) :
    blockCount 0 ((fullBlockRun n).map entrySize) = n := by
  have hsizes : ∀ sizes : List Nat, (∀ s ∈ sizes, Config.defaultBlockSize ≤ s) →
      blockCount 0 sizes = sizes.length := by
    intro sizes
    induction sizes with
    | nil =>
        intro _
        rfl
    | cons s sizes ih =>
        intro h
        have hs : Config.defaultBlockSize ≤ 0 + s := by
          rw [Nat.zero_add]
          exact h s (by simp)
        rw [blockCount, if_pos hs, ih fun a ha => h a (by simp [ha]), List.length_cons]
  rw [hsizes]
  · simp [fullBlockRun]
  · intro s hs
    obtain ⟨e, he, rfl⟩ := List.mem_map.mp hs
    obtain ⟨i, -, rfl⟩ := List.mem_map.mp he
    simp only [entrySize, List.length_replicate]
    omega

/-- With `2 ^ 32` blocks the reopened index is empty. -/
theorem not_roundTrips_fullBlockRun :
    Sorted (fullBlockRun (2 ^ 32)) ∧
    (∀ e ∈ fullBlockRun (2 ^ 32), internalTrailerLen ≤ e.key.length ∧ WithinLimits e) ∧
    ¬ RoundTrips [1] (fullBlockRun (2 ^ 32)) := by
  refine ⟨fullBlockRun_sorted (by unfold seqNumMax; omega), fun e he =>
    ⟨(fullBlockRun_key_length he).ge, fullBlockRun_withinLimits he⟩, fun hround => ?_⟩
  have hlt := hround.blockCount_lt
  rw [blockCount_fullBlockRun] at hlt
  exact lt_irrefl _ hlt

end Hcdb.Sstable
