import Hcdb.Base.Entry
import Hcdb.Runtime

namespace Hcdb.Sstable

open Hcdb.Lib.ByteString
open Hcdb.Base

/-- How reading a table fails.  `panic` is a run-time panic of the Go program, not
an error value. -/
inductive SstErr where
  | notExist
  | badSeek
  | read (e : ReadErr)
  | blockTooSmall
  | blockCRCMismatch
  | panic
  deriving DecidableEq, Repr

/-- The texts `decodeBlock` puts into its own two errors. -/
def SstErr.text : SstErr → Option String
  | .blockTooSmall => some "block too small"
  | .blockCRCMismatch => some "block CRC mismatch"
  | _ => none

def writeBlockEntry (e : Entry) : Bytes :=
  leBytes 4 e.key.length ++ leBytes 4 e.value.length ++ e.key ++ e.value

/-- The part of a block that its CRC covers. -/
def blockData (entries : List Entry) : Bytes :=
  leBytes 4 entries.length ++ entries.flatMap writeBlockEntry

def readBlockEntry (r : Bytes) : Except ReadErr (Entry × Bytes) := do
  let (keyLen, r) ← readWord 4 r
  let (valLen, r) ← readWord 4 r
  let (key, r) ← readFull keyLen r
  let (value, r) ← readFull valLen r
  return ({ key, value }, r)

/-- As many entries as the header of the block says. -/
def readBlockEntries : Nat → Bytes → Except ReadErr (List Entry)
  | 0, _ => .ok []
  | n + 1, r => do
      let (e, r) ← readBlockEntry r
      let entries ← readBlockEntries n r
      return e :: entries

section Encoding

variable [Runtime]

/-- The data of the block, and behind it their checksum. -/
def encodeBlock (entries : List Entry) : Bytes :=
  blockData entries ++ leBytes 4 (Runtime.checksumIEEE (blockData entries)).toNat

/-- The checksum is compared before the entries are read. -/
def decodeBlock (blockBytes : Bytes) : Except SstErr (List Entry) :=
  if blockBytes.length < 4 then .error .blockTooSmall
  else
    let data := blockBytes.take (blockBytes.length - 4)
    let storedCRC := leNat (blockBytes.drop (blockBytes.length - 4))
    if (Runtime.checksumIEEE data).toNat ≠ storedCRC then .error .blockCRCMismatch
    else
      match readWord 4 data with
      | .error e => .error (.read e)
      | .ok (numEntries, reader) =>
          match readBlockEntries numEntries reader with
          | .error e => .error (.read e)
          | .ok entries => .ok entries

end Encoding

/-- Both lengths of the entry fit the four-byte length words. -/
def FitsWords (e : Entry) : Prop :=
  e.key.length < 2 ^ 32 ∧ e.value.length < 2 ^ 32

theorem fitsWords_of_length_le {e : Entry}
    (hk : e.key.length ≤ Config.maxKeyLength + internalTrailerLen)
    (hv : e.value.length ≤ Config.maxValueLength) : FitsWords e := by
  unfold Config.maxKeyLength internalTrailerLen at hk
  unfold Config.maxValueLength at hv
  exact ⟨by omega, by omega⟩

/-- The bytes one entry adds to the collector's size estimate, and to its block. -/
def entrySize (e : Entry) : Nat :=
  e.key.length + e.value.length + 8

theorem writeBlockEntry_length (e : Entry) : (writeBlockEntry e).length = entrySize e := by
  simp [writeBlockEntry, entrySize]
  omega

theorem blockData_length (entries : List Entry) :
    (blockData entries).length = 4 + (entries.map entrySize).sum := by
  rw [blockData, List.length_append, leBytes_length, List.length_flatMap]
  simp only [writeBlockEntry_length]

theorem readBlockEntry_append {e : Entry} (he : FitsWords e) (rest : Bytes) :
    readBlockEntry (writeBlockEntry e ++ rest) = .ok (e, rest) := by
  obtain ⟨hk, hv⟩ := he
  have hkey : readWord 4 (writeBlockEntry e ++ rest) =
      .ok (e.key.length, leBytes 4 e.value.length ++ (e.key ++ (e.value ++ rest))) := by
    rw [writeBlockEntry]
    simp only [List.append_assoc]
    exact readWord_append _ hk
  have hval : readWord 4 (leBytes 4 e.value.length ++ (e.key ++ (e.value ++ rest))) =
      .ok (e.value.length, e.key ++ (e.value ++ rest)) := readWord_append _ hv
  simp only [readBlockEntry, hkey, hval, readFull_append e.key _ rfl,
    readFull_append e.value _ rfl, bind, Except.bind, pure, Except.pure]

theorem readBlockEntries_flatMap {entries : List Entry} (h : ∀ e ∈ entries, FitsWords e)
    (rest : Bytes) :
    readBlockEntries entries.length (entries.flatMap writeBlockEntry ++ rest) = .ok entries := by
  induction entries with
  | nil => rfl
  | cons e entries ih =>
      have hread := readBlockEntry_append (h e (by simp)) (entries.flatMap writeBlockEntry ++ rest)
      have htail := ih fun a ha => h a (by simp [ha])
      simp only [List.length_cons, List.flatMap_cons, List.append_assoc, readBlockEntries, hread,
        htail, bind, Except.bind, pure, Except.pure]

section RoundTrip

variable [Runtime]

@[simp] theorem encodeBlock_length (entries : List Entry) :
    (encodeBlock entries).length = 8 + (entries.map entrySize).sum := by
  rw [encodeBlock, List.length_append, blockData_length, leBytes_length]
  omega

theorem decodeBlock_encodeBlock {entries : List Entry} (hlen : entries.length < 2 ^ 32)
    (h : ∀ e ∈ entries, FitsWords e) : decodeBlock (encodeBlock entries) = .ok entries := by
  have hlength := encodeBlock_length entries
  have hdata : (encodeBlock entries).length - 4 = (blockData entries).length := by
    rw [hlength, blockData_length]
    omega
  have htake : (encodeBlock entries).take (blockData entries).length = blockData entries :=
    List.take_left
  have hdrop : (encodeBlock entries).drop (blockData entries).length =
      leBytes 4 (Runtime.checksumIEEE (blockData entries)).toNat := List.drop_left
  have hcrc : leNat (leBytes 4 (Runtime.checksumIEEE (blockData entries)).toNat) =
      (Runtime.checksumIEEE (blockData entries)).toNat :=
    leNat_leBytes_of_lt (UInt32.toNat_lt _)
  have hcount : readWord 4 (blockData entries) =
      .ok (entries.length, entries.flatMap writeBlockEntry) := readWord_append _ hlen
  have hentries := readBlockEntries_flatMap h []
  rw [List.append_nil] at hentries
  rw [decodeBlock, if_neg (by omega)]
  simp only [hdata, htake, hdrop, hcrc, ne_eq, not_true_eq_false, if_false, hcount, hentries]

end RoundTrip

end Hcdb.Sstable
