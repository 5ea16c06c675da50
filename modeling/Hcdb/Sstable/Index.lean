import Hcdb.Sstable.Block

namespace Hcdb.Sstable

open Hcdb.Lib.ByteString
open Hcdb.Base

/-- Where a block begins, how long it is, and the first key in it. -/
structure IndexEntry where
  firstKey : Bytes
  offset : Int
  length : Int
  deriving DecidableEq, Repr, Inhabited

def encodeIndexEntry (idx : IndexEntry) : Bytes :=
  leBytes 4 idx.firstKey.length ++ idx.firstKey ++ leIntBytes 8 idx.offset ++
    leIntBytes 4 idx.length

def encodeIndex (entries : List IndexEntry) : Bytes :=
  entries.flatMap encodeIndexEntry

def readIndexEntry (r : Bytes) : Except ReadErr (IndexEntry × Bytes) := do
  let (keyLen, r) ← readWord 4 r
  let (firstKey, r) ← readFull keyLen r
  let (offset, r) ← readInt 8 r
  let (length, r) ← readInt 4 r
  return ({ firstKey, offset, length }, r)

/-- As many entries as the footer says. -/
def readIndexEntries : Nat → Bytes → Except ReadErr (List IndexEntry)
  | 0, _ => .ok []
  | n + 1, r => do
      let (idx, r) ← readIndexEntry r
      let index ← readIndexEntries n r
      return idx :: index

/-- `Seek(offset, io.SeekStart)`: the rest of the file from there on, which is
empty past its end. -/
def seekStart (file : Bytes) (offset : Int) : Except SstErr Bytes :=
  if offset < 0 then .error .badSeek else .ok (file.drop offset.toNat)

/-- The index is read from the offset that the footer gives. -/
def decodeIndex (file : Bytes) (indexOffset : Int) (numEntries : Nat) :
    Except SstErr (List IndexEntry) :=
  match seekStart file indexOffset with
  | .error e => .error e
  | .ok r =>
      match readIndexEntries numEntries r with
      | .error e => .error (.read e)
      | .ok index => .ok index

def encodeFooterWithBloom (indexOffset : Int) (numEntries : Nat) (bloomOffset : Int) : Bytes :=
  leIntBytes 8 indexOffset ++ leBytes 4 numEntries ++ leIntBytes 8 bloomOffset

def footerLen : Nat := 20

/-- The last bytes of a table file. -/
structure Footer where
  indexOffset : Int
  numEntries : Nat
  bloomOffset : Int
  deriving DecidableEq, Repr

def readFooter (r : Bytes) : Except ReadErr Footer := do
  let (indexOffset, r) ← readInt 8 r
  let (numEntries, r) ← readWord 4 r
  let (bloomOffset, _) ← readInt 8 r
  return { indexOffset, numEntries, bloomOffset }

def readFooterWithBloom (file : Bytes) : Except SstErr Footer :=
  -- the seek back from the end fails on a file shorter than the footer
  if file.length < footerLen then .error .badSeek
  else
    match readFooter (file.drop (file.length - footerLen)) with
    | .error e => .error (.read e)
    | .ok footer => .ok footer

/-- The binary search of `searchIndex`; `result` is the last block known not to begin after
the target. -/
def searchIndexLoop (index : List IndexEntry) (target : InternalKey) :
    Nat → Int → Int → Int → Int
  | 0, _, _, result => result
  | fuel + 1, lo, hi, result =>
      if lo ≤ hi then
        let mid := (lo + hi) / 2
        let firstKey := decodeInternalKey (index.getD mid.toNat default).firstKey
        if internalCompare bytesCompare firstKey target ≠ .gt then
          searchIndexLoop index target fuel (mid + 1) hi mid
        else
          searchIndexLoop index target fuel lo (mid - 1) result
      else result

/-- The last block whose first key sorts at or before the key, or `-1`.  Every
iteration removes at least one block from the interval. -/
def searchIndex (index : List IndexEntry) (key : Bytes) : Int :=
  searchIndexLoop index (decodeInternalKey key) index.length 0 (index.length - 1) (-1)

/-- The index entry can be written and read back unchanged. -/
structure IndexEntry.Encodable (idx : IndexEntry) : Prop where
  key : idx.firstKey.length < 2 ^ 32
  offset_nonneg : 0 ≤ idx.offset
  offset_lt : idx.offset < 2 ^ 63
  length_nonneg : 0 ≤ idx.length
  length_lt : idx.length < 2 ^ 31

theorem encodeIndexEntry_length (idx : IndexEntry) :
    (encodeIndexEntry idx).length = 4 + idx.firstKey.length + 8 + 4 := by
  simp [encodeIndexEntry]
  omega

theorem readInt_of_range {width : Nat} {x : Int} (rest : Bytes) (h0 : 0 ≤ x)
    (hx : 2 * x < (256 ^ width : Nat)) :
    readInt width (leIntBytes width x ++ rest) = .ok (x, rest) := by
  obtain ⟨n, rfl⟩ := Int.eq_ofNat_of_zero_le h0
  exact readInt_append rest (by exact_mod_cast hx)

theorem readIndexEntry_append {idx : IndexEntry} (h : idx.Encodable) (rest : Bytes) :
    readIndexEntry (encodeIndexEntry idx ++ rest) = .ok (idx, rest) := by
  have hkeyLen : readWord 4 (encodeIndexEntry idx ++ rest) = .ok (idx.firstKey.length,
      idx.firstKey ++ (leIntBytes 8 idx.offset ++ (leIntBytes 4 idx.length ++ rest))) := by
    rw [encodeIndexEntry]
    simp only [List.append_assoc]
    exact readWord_append _ h.key
  have hoff : readInt 8 (leIntBytes 8 idx.offset ++ (leIntBytes 4 idx.length ++ rest)) =
      .ok (idx.offset, leIntBytes 4 idx.length ++ rest) := by
    apply readInt_of_range _ h.offset_nonneg
    have := h.offset_lt
    norm_num at this ⊢
    omega
  have hlen : readInt 4 (leIntBytes 4 idx.length ++ rest) = .ok (idx.length, rest) := by
    apply readInt_of_range _ h.length_nonneg
    have := h.length_lt
    norm_num at this ⊢
    omega
  simp only [readIndexEntry, hkeyLen, readFull_append idx.firstKey _ rfl, hoff, hlen, bind,
    Except.bind, pure, Except.pure]

theorem readIndexEntries_encodeIndex {index : List IndexEntry}
    (h : ∀ idx ∈ index, idx.Encodable) (rest : Bytes) :
    readIndexEntries index.length (encodeIndex index ++ rest) = .ok index := by
  induction index with
  | nil => rfl
  | cons idx index ih =>
      have hread := readIndexEntry_append (h idx (by simp)) (encodeIndex index ++ rest)
      have htail := ih fun a ha => h a (by simp [ha])
      have hsplit : encodeIndex (idx :: index) ++ rest =
          encodeIndexEntry idx ++ (encodeIndex index ++ rest) := by
        simp [encodeIndex]
      simp only [List.length_cons, hsplit, readIndexEntries, hread, htail, bind, Except.bind, pure,
        Except.pure]

theorem readIndexEntries_take {index : List IndexEntry} (h : ∀ idx ∈ index, idx.Encodable)
    (rest : Bytes) (n : Nat) (hn : n ≤ index.length) :
    readIndexEntries n (encodeIndex index ++ rest) = .ok (index.take n) := by
  have hsplit : encodeIndex index ++ rest =
      encodeIndex (index.take n) ++ (encodeIndex (index.drop n) ++ rest) := by
    rw [← List.append_assoc]
    congr 1
    rw [encodeIndex, encodeIndex, encodeIndex, ← List.flatMap_append, List.take_append_drop]
  have hlen : (index.take n).length = n := by simp [hn]
  have hfront : ∀ idx ∈ index.take n, idx.Encodable :=
    fun idx hidx => h idx (List.mem_of_mem_take hidx)
  have hread := readIndexEntries_encodeIndex hfront (encodeIndex (index.drop n) ++ rest)
  rw [hlen] at hread
  rw [hsplit, hread]

theorem encodeFooterWithBloom_length (indexOffset : Int) (numEntries : Nat) (bloomOffset : Int) :
    (encodeFooterWithBloom indexOffset numEntries bloomOffset).length = footerLen := by
  simp [encodeFooterWithBloom, footerLen]

/-- The footer is found at the end of any file that ends with it; the entry count
comes back modulo `2 ^ 32`. -/
theorem readFooterWithBloom_append (front : Bytes) (indexOffset : Int) (numEntries : Nat)
    (bloomOffset : Int) :
    readFooterWithBloom (front ++ encodeFooterWithBloom indexOffset numEntries bloomOffset) =
      .ok { indexOffset := leInt (leIntBytes 8 indexOffset)
            numEntries := numEntries % 2 ^ 32
            bloomOffset := leInt (leIntBytes 8 bloomOffset) } := by
  have hlen : (front ++ encodeFooterWithBloom indexOffset numEntries bloomOffset).length -
      footerLen = front.length := by
    rw [List.length_append, encodeFooterWithBloom_length]
    omega
  have hge : ¬ (front ++ encodeFooterWithBloom indexOffset numEntries bloomOffset).length <
      footerLen := by
    rw [List.length_append, encodeFooterWithBloom_length]
    omega
  have h1 : readInt 8 (encodeFooterWithBloom indexOffset numEntries bloomOffset) =
      .ok (leInt (leIntBytes 8 indexOffset), leBytes 4 numEntries ++ leIntBytes 8 bloomOffset) := by
    rw [encodeFooterWithBloom, List.append_assoc, readInt,
      readFull_append _ _ (leIntBytes_length 8 indexOffset)]
  have h2 : readWord 4 (leBytes 4 numEntries ++ leIntBytes 8 bloomOffset) =
      .ok (numEntries % 2 ^ 32, leIntBytes 8 bloomOffset) := by
    rw [readWord, readFull_append _ _ (leBytes_length 4 numEntries)]
    simp only [leNat_leBytes]
    rfl
  have h3 : readInt 8 (leIntBytes 8 bloomOffset) = .ok (leInt (leIntBytes 8 bloomOffset), []) := by
    have hread := readFull_append (leIntBytes 8 bloomOffset) [] (leIntBytes_length 8 bloomOffset)
    rw [List.append_nil] at hread
    rw [readInt, hread]
  rw [readFooterWithBloom, if_neg hge, hlen, List.drop_left]
  simp only [readFooter, h1, h2, h3, bind, Except.bind, pure, Except.pure]

end Hcdb.Sstable
