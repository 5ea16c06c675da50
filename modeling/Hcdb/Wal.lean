import Hcdb.Lib.BufferedWriter
import Hcdb.Base.Entry
import Hcdb.Runtime

namespace Hcdb.Wal

open Hcdb.Lib.ByteString
open Hcdb.Lib.BufferedWriter
open Hcdb.Base

/-- Bounds a key as it is stored, its trailer included. -/
def maxEncodedKeyLen : Nat := Config.maxKeyLength + internalTrailerLen

/-- The buffer size of `bufio.NewWriter`. -/
def bufferSize : Nat := 4096

/-- The buffered log file, and the writes since the last `Sync`. -/
structure WAL where
  writer : Writer
  putCounter : Nat

/-- `Open` on a log file with these contents. -/
def openWAL (file : Bytes) : WAL where
  writer := { file, buf := [] }
  putCounter := 0

/-- The part of a record that the checksum covers. -/
def writeDataBuff (entry : Entry) : Bytes :=
  leBytes 4 entry.key.length ++ leBytes 4 entry.value.length ++ entry.key ++ entry.value

namespace WAL

def sync (wal : WAL) : WAL := { wal with writer := wal.writer.flush }

section Append

variable [Runtime]

/-- The length, the data and the checksum go to the buffer. -/
def append (wal : WAL) (entry : Entry) : WAL :=
  let dataBytes := writeDataBuff entry
  let checksum := Runtime.checksumIEEE dataBytes
  let totalLength := dataBytes.length + 4
  let w := wal.writer.write bufferSize (leBytes 4 totalLength)
  let w := w.write bufferSize dataBytes
  let w := w.write bufferSize (leBytes 4 checksum.toNat)
  { wal with writer := w }

/-- One record, and a sync whenever `DEFAULT_SYNC_THRESHOLD` of them have come
together. -/
def write (wal : WAL) (entry : Entry) : WAL :=
  let wal := wal.append entry
  let wal := { wal with putCounter := wal.putCounter + 1 }
  if Config.defaultSyncThreshold ≤ wal.putCounter then { wal.sync with putCounter := 0 } else wal

def put (wal : WAL) (key value : Bytes) : WAL := wal.write { key, value }

def delete (wal : WAL) (key : Bytes) : WAL := wal.write { key, value := [] }

end Append

end WAL

/-- One turn of the loop of `Replay`: the end of the log, damage together with the
line that is printed about it, or a record and what follows it. -/
inductive RecordRead where
  | eof
  | corrupt (message : String)
  | record (entry : Entry) (rest : Bytes)
  deriving DecidableEq, Repr

/-- The part of a turn that parses the data of a record whose checksum is right. -/
def parseData (dataPart rest : Bytes) : RecordRead :=
  match readWord 4 dataPart with
  | .error _ => .corrupt "Error reading key length:"
  | .ok (keyLength, r) =>
      match readWord 4 r with
      | .error _ => .corrupt "Error reading value length:"
      | .ok (valueLength, r) =>
          if maxEncodedKeyLen < keyLength ∨ Config.maxValueLength < valueLength then
            .corrupt "Key length or value length is greater than expected:"
          else
            match readFull keyLength r with
            | .error _ => .corrupt "Error reading key:"
            | .ok (key, r) =>
                match readFull valueLength r with
                | .error _ => .corrupt "Error reading value:"
                | .ok (value, _) => .record { key, value } rest

section Replay

variable [Runtime]

/-- One record from the front of the file, or why there is none. -/
def readRecord (r : Bytes) : RecordRead :=
  match readWord 4 r with
  | .error .eof => .eof
  | .error .unexpectedEOF => .corrupt "Error reading total length:"
  | .ok (totalLength, r) =>
      if 4 + maxEncodedKeyLen + 4 + Config.maxValueLength + 4 < totalLength then
        .corrupt "Total length is greater than expected:"
      else
        match readFull totalLength r with
        | .error _ => .corrupt "Error reading record buffer:"
        | .ok (recordBuf, rest) =>
            if recordBuf.length < 4 then .corrupt "Record buffer is less than expected:"
            else
              let dataPart := recordBuf.take (recordBuf.length - 4)
              let storedCRC := leNat (recordBuf.drop (recordBuf.length - 4))
              if (Runtime.checksumIEEE dataPart).toNat ≠ storedCRC then
                .corrupt "Computed CRC does not match stored CRC:"
              else parseData dataPart rest

/-- The loop of `Replay` from `startOffset` on: the entries, and the offset at which
the file is cut off when a record is damaged.  Every record takes at least one byte,
so `fuel` above the length of the rest is enough. -/
def replayLoop : Nat → Nat → Bytes → List Entry × Option Nat
  | 0, _, _ => ([], none)
  | fuel + 1, startOffset, r =>
      match readRecord r with
      | .eof => ([], none)
      | .corrupt _ => ([], some startOffset)
      | .record entry rest =>
          let (entries, cut) := replayLoop fuel (startOffset + (r.length - rest.length)) rest
          (entry :: entries, cut)

/-- The records up to the first that cannot be read, where the file is cut. -/
def WAL.replay (wal : WAL) : List Entry × WAL :=
  let w := wal.writer.flush
  match replayLoop (w.file.length + 1) 0 w.file with
  | (entries, none) => (entries, { wal with writer := w })
  | (entries, some offset) =>
      (entries, { wal with writer := { w with file := w.file.take offset } })

end Replay

/-- What replay accepts of the lengths of a record. -/
structure Loggable (e : Entry) : Prop where
  keyLength : e.key.length ≤ maxEncodedKeyLen
  valueLength : e.value.length ≤ Config.maxValueLength

theorem loggable_of_wellFormed {e : Entry} (h : e.WellFormed) : Loggable e :=
  ⟨h.keyLength, h.valueLength⟩

def recordLength (e : Entry) : Nat := 16 + e.key.length + e.value.length

/-- The records that lie in the first `n` bytes of a log as a whole. -/
def wholeWithin : Nat → List Entry → List Entry
  | _, [] => []
  | n, e :: es => if recordLength e ≤ n then e :: wholeWithin (n - recordLength e) es else []

theorem wholeWithin_initial (n : Nat) (es : List Entry) : wholeWithin n es <+: es := by
  induction es generalizing n with
  | nil => exact List.nil_prefix
  | cons e es ih =>
      unfold wholeWithin
      split
      · exact List.cons_prefix_cons.mpr ⟨rfl, ih _⟩
      · exact List.nil_prefix

theorem writeDataBuff_length (e : Entry) :
    (writeDataBuff e).length = 8 + e.key.length + e.value.length := by
  simp only [writeDataBuff, List.length_append, leBytes_length]

theorem Loggable.writeDataBuff_length_le {e : Entry} (h : Loggable e) :
    (writeDataBuff e).length + 4 ≤ 4 + maxEncodedKeyLen + 4 + Config.maxValueLength + 4 := by
  have hk := h.keyLength
  have hv := h.valueLength
  rw [writeDataBuff_length]
  omega

theorem Loggable.totalLength_lt {e : Entry} (h : Loggable e) :
    (writeDataBuff e).length + 4 < 256 ^ 4 := by
  refine h.writeDataBuff_length_le.trans_lt ?_
  decide

theorem parseData_writeDataBuff {e : Entry} (h : Loggable e) (rest : Bytes) :
    parseData (writeDataBuff e) rest = .record e rest := by
  have hk := h.keyLength
  have hv := h.valueLength
  have hkey : e.key.length < 256 ^ 4 := hk.trans_lt (by decide)
  have hvalue : e.value.length < 256 ^ 4 := hv.trans_lt (by decide)
  have hfull : readFull e.value.length e.value = .ok (e.value, []) := by
    have := readFull_append e.value [] rfl
    rwa [List.append_nil] at this
  have hlimits : ¬ (maxEncodedKeyLen < e.key.length ∨ Config.maxValueLength < e.value.length) := by
    omega
  simp only [parseData, writeDataBuff, List.append_assoc, readWord_append _ hkey,
    readWord_append _ hvalue, if_neg hlimits, readFull_append e.key _ rfl, hfull]

section Records

variable [Runtime]

/-- The bytes `Append` writes. -/
def encodeRecord (e : Entry) : Bytes :=
  leBytes 4 ((writeDataBuff e).length + 4) ++ writeDataBuff e ++
    leBytes 4 (Runtime.checksumIEEE (writeDataBuff e)).toNat

def encodeRecords (es : List Entry) : Bytes := es.flatMap encodeRecord

theorem encodeRecord_length (e : Entry) : (encodeRecord e).length = recordLength e := by
  simp only [encodeRecord, recordLength, List.length_append, leBytes_length, writeDataBuff_length]
  omega

theorem encodeRecords_length (es : List Entry) :
    (encodeRecords es).length = (es.map recordLength).sum := by
  rw [encodeRecords, List.length_flatMap]
  simp only [encodeRecord_length]

theorem wholeWithin_all (es : List Entry) : wholeWithin (encodeRecords es).length es = es := by
  rw [encodeRecords_length]
  induction es with
  | nil => rfl
  | cons e es ih =>
      rw [List.map_cons, List.sum_cons, wholeWithin, if_pos (Nat.le_add_right _ _),
        Nat.add_sub_cancel_left, ih]

theorem wholeWithin_append (es es' : List Entry) (n : Nat) :
    wholeWithin ((encodeRecords es).length + n) (es ++ es') = es ++ wholeWithin n es' := by
  rw [encodeRecords_length]
  induction es with
  | nil => rw [List.map_nil, List.sum_nil, Nat.zero_add, List.nil_append, List.nil_append]
  | cons e es ih =>
      rw [List.map_cons, List.sum_cons, Nat.add_assoc, List.cons_append, wholeWithin,
        if_pos (Nat.le_add_right _ _), Nat.add_sub_cancel_left, ih, List.cons_append]

theorem WAL.stream_append (wal : WAL) (e : Entry) :
    (wal.append e).writer.stream = wal.writer.stream ++ encodeRecord e := by
  simp only [append, Writer.stream_write, encodeRecord, List.append_assoc]

theorem WAL.stream_write (wal : WAL) (e : Entry) :
    (wal.write e).writer.stream = wal.writer.stream ++ encodeRecord e := by
  unfold write
  simp only
  split
  · simp only [sync, Writer.stream_flush, stream_append]
  · exact stream_append wal e

theorem WAL.append_of_room {wal : WAL} {e : Entry}
    (h : wal.writer.buf.length + recordLength e ≤ bufferSize) :
    wal.append e = { wal with
      writer := { wal.writer with buf := wal.writer.buf ++ encodeRecord e } } := by
  have hdata := writeDataBuff_length e
  unfold recordLength at h
  have hlength : wal.writer.write bufferSize (leBytes 4 ((writeDataBuff e).length + 4)) =
      { wal.writer with buf := wal.writer.buf ++ leBytes 4 ((writeDataBuff e).length + 4) } :=
    Writer.write_of_room (by simp only [leBytes_length]; omega)
  have hbody : Writer.write bufferSize
      { wal.writer with buf := wal.writer.buf ++ leBytes 4 ((writeDataBuff e).length + 4) }
      (writeDataBuff e) =
      { wal.writer with
        buf := wal.writer.buf ++ leBytes 4 ((writeDataBuff e).length + 4) ++ writeDataBuff e } :=
    Writer.write_of_room (by simp only [List.length_append, leBytes_length]; omega)
  simp only [append, hlength, hbody]
  rw [Writer.write_of_room (by simp only [List.length_append, leBytes_length]; omega)]
  simp only [encodeRecord, List.append_assoc]

theorem WAL.file_prefix_append (wal : WAL) (e : Entry) :
    wal.writer.file <+: (wal.append e).writer.file :=
  ((Writer.file_prefix_write _ _ _).trans (Writer.file_prefix_write _ _ _)).trans
    (Writer.file_prefix_write _ _ _)

theorem WAL.length_buf_append_le {wal : WAL} (h : wal.writer.buf.length ≤ bufferSize) (e : Entry) :
    (wal.append e).writer.buf.length ≤ bufferSize :=
  Writer.length_buf_write_le (Writer.length_buf_write_le (Writer.length_buf_write_le h _) _) _

theorem WAL.write_of_counting {wal : WAL} (e : Entry)
    (hcount : wal.putCounter + 1 < Config.defaultSyncThreshold) :
    wal.write e = { wal.append e with putCounter := wal.putCounter + 1 } := by
  have hcounter : (wal.append e).putCounter = wal.putCounter := rfl
  rw [write]
  simp only [hcounter]
  rw [if_neg (not_le.mpr hcount)]

theorem WAL.write_unsynced {wal : WAL} {e : Entry}
    (h : wal.writer.buf.length + recordLength e ≤ bufferSize)
    (hcount : wal.putCounter + 1 < Config.defaultSyncThreshold) :
    wal.write e =
      { writer := { wal.writer with buf := wal.writer.buf ++ encodeRecord e }
        putCounter := wal.putCounter + 1 } := by
  rw [write_of_counting e hcount, append_of_room h]

theorem WAL.write_synced {wal : WAL} (e : Entry)
    (hcount : Config.defaultSyncThreshold ≤ wal.putCounter + 1) :
    wal.write e =
      { writer := { file := wal.writer.stream ++ encodeRecord e, buf := [] }
        putCounter := 0 } := by
  have hstream := stream_append wal e
  rw [write]
  simp only
  rw [if_pos (by exact hcount), ← hstream]
  rfl

/-- The buffer never holds more than its size, so the rest of the stream is in the file. -/
theorem WAL.length_buf_foldl_write_le (es : List Entry) {wal : WAL}
    (h : wal.writer.buf.length ≤ bufferSize) :
    (es.foldl WAL.write wal).writer.buf.length ≤ bufferSize := by
  induction es generalizing wal with
  | nil => exact h
  | cons e es ih =>
      apply ih
      by_cases hcount : Config.defaultSyncThreshold ≤ wal.putCounter + 1
      · rw [write_synced e hcount]
        exact Nat.zero_le _
      · rw [write_of_counting e (not_le.mp hcount)]
        exact length_buf_append_le h e

theorem WAL.foldl_write_unsynced {es : List Entry} {wal : WAL}
    (h : wal.writer.buf.length + (encodeRecords es).length ≤ bufferSize)
    (hcount : wal.putCounter + es.length < Config.defaultSyncThreshold) :
    es.foldl WAL.write wal =
      { writer := { wal.writer with buf := wal.writer.buf ++ encodeRecords es }
        putCounter := wal.putCounter + es.length } := by
  induction es generalizing wal with
  | nil => simp [encodeRecords]
  | cons e es ih =>
      have hcons : encodeRecords (e :: es) = encodeRecord e ++ encodeRecords es := rfl
      rw [hcons, List.length_append, encodeRecord_length] at h
      rw [List.length_cons] at hcount
      rw [List.foldl_cons, write_unsynced (by omega) (by omega), ih]
      · simp only [hcons, List.append_assoc, List.length_cons, WAL.mk.injEq, true_and]
        omega
      · simp only [List.length_append, encodeRecord_length]
        omega
      · simp only
        omega

end Records

end Hcdb.Wal
