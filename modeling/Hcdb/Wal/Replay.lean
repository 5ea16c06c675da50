import Hcdb.Lib.Framing
import Hcdb.Wal

/-!
Replaying a log.  A record is a frame: what `Replay` makes of it does not depend on
what follows, and it accepts no part of one.  So a torn log gives back its whole
records, and a damaged one is cut where further records can be appended.
-/

namespace Hcdb.Wal

open Hcdb.Lib.ByteString
open Hcdb.Lib.BufferedWriter
open Hcdb.Lib.Framing
open Hcdb.Base

theorem parseData_ne_eof (dataPart rest : Bytes) : parseData dataPart rest ≠ .eof := by
  unfold parseData
  repeat' split
  all_goals simp

theorem parseData_rest {dataPart rest rest' : Bytes} {e : Entry}
    (h : parseData dataPart rest = .record e rest') :
    rest' = rest ∧ ∀ x, parseData dataPart x = .record e x := by
  unfold parseData at h ⊢
  repeat' split at h
  all_goals simp_all

theorem loggable_of_parseData {dataPart rest rest' : Bytes} {e : Entry}
    (h : parseData dataPart rest = .record e rest') : Loggable e := by
  unfold parseData at h
  split at h
  · simp at h
  · split at h
    · simp at h
    · split at h
      · simp at h
      · rename_i hlimits
        split at h
        · simp at h
        · rename_i key r hkey
          split at h
          · simp at h
          · rename_i value _ hvalue
            obtain ⟨rfl, -⟩ := RecordRead.record.inj h
            obtain ⟨-, hkeyLength⟩ := readFull_eq_ok hkey
            obtain ⟨-, hvalueLength⟩ := readFull_eq_ok hvalue
            obtain ⟨hk, hv⟩ := not_or.mp hlimits
            exact ⟨hkeyLength ▸ not_lt.mp hk, hvalueLength ▸ not_lt.mp hv⟩

section Frames

variable [Runtime]

/-- The checks that a record passes before it is parsed. -/
structure Checked (lengthWord recordBuf : Bytes) : Prop where
  word : lengthWord.length = 4
  length : recordBuf.length = leNat lengthWord
  bounded : recordBuf.length ≤ 4 + maxEncodedKeyLen + 4 + Config.maxValueLength + 4
  checksum : 4 ≤ recordBuf.length
  agrees : (Runtime.checksumIEEE (recordBuf.take (recordBuf.length - 4))).toNat =
    leNat (recordBuf.drop (recordBuf.length - 4))

theorem Checked.readRecord_eq {lengthWord recordBuf : Bytes} (h : Checked lengthWord recordBuf)
    (rest : Bytes) : readRecord (lengthWord ++ (recordBuf ++ rest)) =
      parseData (recordBuf.take (recordBuf.length - 4)) rest := by
  have hbounded := h.bounded
  rw [readRecord, readWord, readFull_append _ _ h.word]
  simp only
  rw [← h.length, if_neg (not_lt.mpr hbounded), readFull_append _ _ rfl]
  simp only [if_neg (not_lt.mpr h.checksum), h.agrees, ne_eq, not_true_eq_false, if_false]

theorem checked_of_readRecord {r rest : Bytes} {e : Entry} (h : readRecord r = .record e rest) :
    ∃ lengthWord recordBuf, Checked lengthWord recordBuf ∧ r = lengthWord ++ (recordBuf ++ rest) ∧
      ∀ x, parseData (recordBuf.take (recordBuf.length - 4)) x = .record e x := by
  unfold readRecord at h
  split at h
  · simp at h
  · simp at h
  · rename_i totalLength r' hword
    rw [readWord] at hword
    split at hword
    · rename_i lengthWord r'' hfull
      obtain ⟨rfl, hlen⟩ := readFull_eq_ok hfull
      obtain ⟨rfl, rfl⟩ := Prod.mk.inj (Except.ok.inj hword)
      split at h
      · simp at h
      · rename_i hsize
        split at h
        · simp at h
        · rename_i recordBuf rest' hbuf
          obtain ⟨rfl, hbufLen⟩ := readFull_eq_ok hbuf
          split at h
          · simp at h
          · rename_i hlong
            simp only at h
            split at h
            · simp at h
            · rename_i hcrc
              obtain ⟨rfl, hparse⟩ := parseData_rest h
              exact ⟨lengthWord, recordBuf, ⟨hlen, hbufLen, by omega, by omega, not_not.mp hcrc⟩,
                rfl, hparse⟩
    · simp at hword

theorem readRecord_nil : readRecord [] = .eof := by
  rw [readRecord, readWord, readFull_nil (by omega)]

theorem readRecord_eof {r : Bytes} (h : readRecord r = .eof) : r = [] := by
  unfold readRecord at h
  split at h
  · rename_i heof
    by_contra hne
    rw [readWord] at heof
    by_cases hlen : r.length < 4
    · rw [readFull_of_lt hlen hne] at heof
      simp at heof
    · simp [readFull, not_lt.mp hlen] at heof
  · simp at h
  · split at h
    · simp at h
    · split at h
      · simp at h
      · split at h
        · simp at h
        · simp only at h
          split at h
          · simp at h
          · exact absurd h (parseData_ne_eof _ _)

/-- The next record of a log, if there is a whole one. -/
def nextRecord (r : Bytes) : Option (Entry × Bytes) :=
  match readRecord r with
  | .record entry rest => some (entry, rest)
  | _ => none

theorem nextRecord_eq_some {r rest : Bytes} {e : Entry} :
    nextRecord r = some (e, rest) ↔ readRecord r = .record e rest := by
  unfold nextRecord
  split
  · rename_i entry rest' h
    rw [h]
    simp
  · rename_i h
    simp only [reduceCtorEq, false_iff]
    exact h e rest

theorem nextRecord_nil : nextRecord [] = none := by
  rw [nextRecord, readRecord_nil]

theorem framed_nextRecord : Framed nextRecord := by
  intro r e rest h
  obtain ⟨lengthWord, recordBuf, hchecked, rfl, hparse⟩ :=
    checked_of_readRecord (nextRecord_eq_some.mp h)
  refine ⟨lengthWord ++ recordBuf, (List.append_assoc _ _ _).symm, ?_, fun x => ?_⟩
  · intro hnil
    have hword := hchecked.word
    rw [(List.append_eq_nil_iff.mp hnil).1] at hword
    simp at hword
  · rw [nextRecord_eq_some, List.append_assoc, hchecked.readRecord_eq, hparse]

theorem readRecord_encodeRecord {e : Entry} (h : Loggable e) (rest : Bytes) :
    readRecord (encodeRecord e ++ rest) = .record e rest := by
  have hcrc : leNat (leBytes 4 (Runtime.checksumIEEE (writeDataBuff e)).toNat) =
      (Runtime.checksumIEEE (writeDataBuff e)).toNat :=
    leNat_leBytes_of_lt (UInt32.toNat_lt _)
  have hlen : (writeDataBuff e ++
      leBytes 4 (Runtime.checksumIEEE (writeDataBuff e)).toNat).length =
        (writeDataBuff e).length + 4 := by
    rw [List.length_append, leBytes_length]
  have hchecked : Checked (leBytes 4 ((writeDataBuff e).length + 4))
      (writeDataBuff e ++ leBytes 4 (Runtime.checksumIEEE (writeDataBuff e)).toNat) := by
    refine ⟨leBytes_length _ _, ?_, hlen ▸ h.writeDataBuff_length_le, by omega, ?_⟩
    · rw [hlen, leNat_leBytes_of_lt h.totalLength_lt]
    · rw [hlen, Nat.add_sub_cancel, List.take_left, List.drop_left, hcrc]
  rw [encodeRecord, List.append_assoc, List.append_assoc, ← List.append_assoc (writeDataBuff e),
    hchecked.readRecord_eq, hlen, Nat.add_sub_cancel, List.take_left, parseData_writeDataBuff h]

/-- A record that is cut short is damage, unless nothing of it is there. -/
theorem readRecord_take {e : Entry} (h : Loggable e) {n : Nat} (hn : n < recordLength e) :
    if n = 0 then readRecord ((encodeRecord e).take n) = .eof
    else ∃ message, readRecord ((encodeRecord e).take n) = .corrupt message := by
  have hlen : ((encodeRecord e).take n).length = n := by
    rw [List.length_take, encodeRecord_length]
    omega
  split
  · rename_i hzero
    rw [hzero, List.take_zero, readRecord, readWord, readFull_nil (by omega)]
  · rename_i hpos
    by_cases hword : n < 4
    · refine ⟨"Error reading total length:", ?_⟩
      rw [readRecord, readWord, readFull_of_lt (by omega)]
      intro hnil
      rw [hnil] at hlen
      exact hpos hlen.symm
    · -- the length is there, and promises more than what is left
      have hsplit : (encodeRecord e).take n = leBytes 4 ((writeDataBuff e).length + 4) ++
          (writeDataBuff e ++ leBytes 4 (Runtime.checksumIEEE (writeDataBuff e)).toNat).take
            (n - 4) := by
        rw [encodeRecord, List.append_assoc, List.take_append, leBytes_length,
          List.take_of_length_le (by rw [leBytes_length]; omega)]
      have hshort : ((writeDataBuff e ++
          leBytes 4 (Runtime.checksumIEEE (writeDataBuff e)).toNat).take (n - 4)).length <
            (writeDataBuff e).length + 4 := by
        rw [List.length_take, List.length_append, leBytes_length, writeDataBuff_length]
        unfold recordLength at hn
        omega
      refine ⟨"Error reading record buffer:", ?_⟩
      rw [hsplit, readRecord, readWord_append _ h.totalLength_lt]
      simp only
      obtain ⟨err, herr⟩ := readFull_short hshort
      rw [if_neg (not_lt.mpr h.writeDataBuff_length_le), herr]

theorem wholeFrame_encodeRecord {e : Entry} (h : Loggable e) :
    WholeFrame nextRecord (encodeRecord e) e where
  ne_nil := by
    intro hnil
    have hlen := encodeRecord_length e
    rw [hnil, List.length_nil, recordLength] at hlen
    omega
  read_append rest := nextRecord_eq_some.mpr (readRecord_encodeRecord h rest)
  torn n hn := by
    rw [encodeRecord_length] at hn
    have htorn := readRecord_take h hn
    unfold nextRecord
    split at htorn
    · rw [htorn]
    · obtain ⟨message, htorn⟩ := htorn
      rw [htorn]

theorem forall₂_wholeFrame {es : List Entry} (h : ∀ e ∈ es, Loggable e) :
    List.Forall₂ (WholeFrame nextRecord) (es.map encodeRecord) es := by
  rw [List.forall₂_map_left_iff]
  exact List.forall₂_same.mpr fun e he => wholeFrame_encodeRecord (h e he)

theorem frames_encodeRecords {es : List Entry} (h : ∀ e ∈ es, Loggable e) :
    Frames nextRecord (encodeRecords es) es :=
  ⟨es.map encodeRecord, rfl, (forall₂_wholeFrame h).imp fun _ _ hframe => hframe.toFrame⟩

/-- The loop reads records while there are any, and cuts off what is left. -/
theorem replayLoop_eq {fuel start : Nat} {r : Bytes} (hfuel : r.length < fuel) :
    replayLoop fuel start r = ((readMany nextRecord fuel r).1,
      if (readMany nextRecord fuel r).2 = [] then none
      else some (start + (r.length - (readMany nextRecord fuel r).2.length))) := by
  induction fuel generalizing start r with
  | zero => omega
  | succ fuel ih =>
      rw [replayLoop, readMany]
      cases hread : readRecord r with
      | eof =>
          obtain rfl := readRecord_eof hread
          simp [nextRecord, hread]
      | corrupt message =>
          have hne : r ≠ [] := by
            rintro rfl
            rw [readRecord_nil] at hread
            simp at hread
          simp [nextRecord, hread, hne]
      | record e rest =>
          -- what the loop cuts off is counted from the end of the last record
          have hnext := nextRecord_eq_some.mpr hread
          obtain ⟨p, rfl, hframe⟩ := framed_nextRecord r e rest hnext
          have hpos := List.length_pos_of_ne_nil hframe.ne_nil
          rw [List.length_append] at hfuel
          obtain ⟨q, hq, -, -⟩ := readMany_frames framed_nextRecord
            (by omega : rest.length < fuel)
          have hlen := congrArg List.length hq
          rw [List.length_append] at hlen
          rw [hnext]
          simp only [ih (by omega : rest.length < fuel), List.length_append, Nat.add_sub_cancel]
          congr 3
          omega

/-- `Replay` returns the records at the front of the log and leaves just these. -/
theorem WAL.replay_eq (b : Bytes) :
    (openWAL b).replay = ((readMany nextRecord (b.length + 1) b).1,
      openWAL (b.take (b.length - (readMany nextRecord (b.length + 1) b).2.length))) := by
  have hflush : (openWAL b).writer.flush.file = b := List.append_nil _
  rw [replay, hflush, replayLoop_eq (Nat.lt_succ_self _)]
  by_cases hleft : (readMany nextRecord (b.length + 1) b).2 = []
  · simp [hleft, openWAL, Writer.flush]
  · simp [hleft, openWAL, Writer.flush]

theorem WAL.replay_frames (b : Bytes) :
    ∃ p, Frames nextRecord p (openWAL b).replay.1 ∧ p <+: b ∧ (openWAL b).replay.2 = openWAL p := by
  obtain ⟨p, hp, hframes, -⟩ := readMany_frames framed_nextRecord
    (Nat.lt_succ_self b.length : b.length < b.length + 1)
  rw [replay_eq]
  generalize readMany nextRecord (b.length + 1) b = res at hp hframes ⊢
  have hlen := congrArg List.length hp
  rw [List.length_append] at hlen
  have htake : b.take (b.length - res.2.length) = p := by
    rw [hlen, Nat.add_sub_cancel]
    exact (List.prefix_iff_eq_take.mp ⟨_, hp.symm⟩).symm
  exact ⟨p, hframes, ⟨_, hp.symm⟩, by rw [htake]⟩

theorem WAL.replay_loggable (b : Bytes) : ∀ e ∈ (openWAL b).replay.1, Loggable e := by
  obtain ⟨p, ⟨ps, -, hps⟩, -, -⟩ := WAL.replay_frames b
  generalize (openWAL b).replay.1 = es at hps ⊢
  induction hps with
  | nil => simp
  | cons hframe _ ih =>
      have hnext := nextRecord_eq_some.mp (hframe.read_append [])
      obtain ⟨_, _, -, -, hparse⟩ := checked_of_readRecord hnext
      exact List.forall_mem_cons.mpr ⟨loggable_of_parseData (hparse []), ih⟩

theorem replay_of_frames {p : Bytes} {es : List Entry} (h : Frames nextRecord p es) :
    (openWAL p).replay = (es, openWAL p) := by
  rw [WAL.replay_eq, h.readMany_eq framed_nextRecord nextRecord_nil (Nat.lt_succ_self _),
    List.length_nil, Nat.sub_zero, List.take_length]

theorem WAL.stream_foldl_append (es : List Entry) (wal : WAL) :
    (es.foldl WAL.append wal).writer.stream = wal.writer.stream ++ encodeRecords es := by
  induction es generalizing wal with
  | nil => simp [encodeRecords]
  | cons e es ih =>
      rw [List.foldl_cons, ih, stream_append, List.append_assoc]
      rfl

theorem wholeWithin_eq_take (n : Nat) (es : List Entry) :
    wholeWithin n es = es.take (wholeCount n (es.map encodeRecord)) := by
  induction es generalizing n with
  | nil => rfl
  | cons e es ih =>
      rw [wholeWithin, List.map_cons, wholeCount, encodeRecord_length]
      split
      · rw [ih, List.take_succ_cons]
      · rfl

theorem flatten_take_records (es : List Entry) (k : Nat) :
    ((es.map encodeRecord).take k).flatten = encodeRecords (es.take k) := by
  rw [← List.map_take]
  rfl

theorem WAL.replay_records_take {es : List Entry} (h : ∀ e ∈ es, Loggable e) (n : Nat) :
    (openWAL ((encodeRecords es).take n)).replay =
      (es.take (wholeCount n (es.map encodeRecord)),
        openWAL (encodeRecords (es.take (wholeCount n (es.map encodeRecord))))) := by
  have hframes := forall₂_wholeFrame h
  have hflat : (es.map encodeRecord).flatten = encodeRecords es := rfl
  have hcount : wholeCount n (es.map encodeRecord) < ((encodeRecords es).take n).length + 1 := by
    refine Nat.lt_succ_of_le (wholeCount_le_length (fun p hp => ?_) n)
    obtain ⟨e, he, rfl⟩ := List.mem_map.mp hp
    exact (wholeFrame_encodeRecord (h e he)).ne_nil
  have hmany := readMany_take hframes nextRecord_nil hcount
  have hinitial := flatten_take_wholeCount n (es.map encodeRecord)
  rw [flatten_take_records, hflat] at hinitial
  rw [flatten_take_records, hflat] at hmany
  rw [replay_eq, hmany]
  have hlen := hinitial.length_le
  rw [List.length_drop, Nat.sub_sub_self hlen, ← List.prefix_iff_eq_take.mp hinitial]

theorem WAL.replay_take {es : List Entry} (h : ∀ e ∈ es, Loggable e) (n : Nat) :
    (openWAL ((encodeRecords es).take n)).replay =
      (wholeWithin n es, openWAL (encodeRecords (wholeWithin n es))) := by
  rw [replay_records_take h, wholeWithin_eq_take]

/-- What a log holds after these writes, in its file and in its buffer. -/
def appended (es : List Entry) : Bytes :=
  (es.foldl WAL.append (openWAL [])).writer.stream

theorem appended_eq (es : List Entry) : appended es = encodeRecords es :=
  WAL.stream_foldl_append es (openWAL [])

/-- Cut after any number of bytes, a log replays to the entries whose records lie in
these bytes, and is truncated to the end of the last of them. -/
theorem replay_torn {es : List Entry} (h : ∀ e ∈ es, Loggable e) (n : Nat) :
    ∃ k ≤ es.length, (∀ i < es.length, i < k ↔ (appended (es.take (i + 1))).length ≤ n) ∧
      (openWAL ((appended es).take n)).replay =
        (es.take k, openWAL ((appended es).take (appended (es.take k)).length)) := by
  refine ⟨wholeCount n (es.map encodeRecord), ?_, fun i hi => ?_, ?_⟩
  · have hle := wholeCount_le n (es.map encodeRecord)
    rwa [List.length_map] at hle
  · rw [lt_wholeCount_iff (by rwa [List.length_map]), flatten_take_records, appended_eq]
  · have hinitial : encodeRecords (es.take (wholeCount n (es.map encodeRecord))) <+:
        encodeRecords es := by
      rw [← flatten_take_records]
      exact (List.take_prefix _ _).flatten
    rw [appended_eq, appended_eq, WAL.replay_records_take h,
      ← List.prefix_iff_eq_take.mp hinitial]

/-- Whatever a log file holds, `Replay` leaves a prefix of it which replays to the same
entries and to which further records can be appended. -/
theorem replay_damaged (b : Bytes) :
    (openWAL b).replay.2.writer.file <+: b ∧
      (openWAL (openWAL b).replay.2.writer.file).replay =
        ((openWAL b).replay.1, openWAL (openWAL b).replay.2.writer.file) ∧
      ∀ fs : List Entry, (∀ e ∈ fs, Loggable e) →
        (fs.foldl WAL.append (openWAL b).replay.2).sync.writer.file =
          (openWAL b).replay.2.writer.file ++ encodeRecords fs ∧
        (openWAL ((openWAL b).replay.2.writer.file ++ encodeRecords fs)).replay =
          ((openWAL b).replay.1 ++ fs,
            openWAL ((openWAL b).replay.2.writer.file ++ encodeRecords fs)) := by
  obtain ⟨p, hframes, hinitial, hleft⟩ := WAL.replay_frames b
  rw [hleft]
  refine ⟨hinitial, replay_of_frames hframes, fun fs hfs => ⟨?_, ?_⟩⟩
  · have hstream := WAL.stream_foldl_append fs (openWAL p)
    have hbuf : (openWAL p).writer.stream = p := List.append_nil p
    rw [hbuf] at hstream
    exact hstream
  · exact replay_of_frames (hframes.append (frames_encodeRecords hfs))

end Frames

def twoRecords : List Entry :=
  [⟨(InternalKey.mk [97] 257).encode, [1]⟩, ⟨(InternalKey.mk [97] 513).encode, [2]⟩]

theorem loggable_twoRecords : ∀ e ∈ twoRecords, Loggable e := by
  rw [twoRecords, List.forall_mem_cons, List.forall_mem_singleton]
  exact ⟨⟨by decide, by decide⟩, by decide, by decide⟩

/-- The first record takes 26 bytes, the cut falls into the second one. -/
theorem replay_torn_twoRecords :
    (∀ e ∈ twoRecords, Loggable e) ∧
      ∃ k ≤ twoRecords.length,
        (∀ i < twoRecords.length, i < k ↔ (appended (twoRecords.take (i + 1))).length ≤ 30) ∧
        (openWAL ((appended twoRecords).take 30)).replay =
          (twoRecords.take k,
            openWAL ((appended twoRecords).take (appended (twoRecords.take k)).length)) :=
  ⟨loggable_twoRecords, replay_torn loggable_twoRecords 30⟩

/-- Bytes that are no record, and two records after them. -/
theorem replay_damaged_noise :
    (∀ e ∈ twoRecords, Loggable e) ∧
      (openWAL ((openWAL [1, 0]).replay.2.writer.file ++ encodeRecords twoRecords)).replay =
        ((openWAL [1, 0]).replay.1 ++ twoRecords,
          openWAL ((openWAL [1, 0]).replay.2.writer.file ++ encodeRecords twoRecords)) :=
  ⟨loggable_twoRecords, ((replay_damaged [1, 0]).2.2 twoRecords loggable_twoRecords).2⟩

end Hcdb.Wal
