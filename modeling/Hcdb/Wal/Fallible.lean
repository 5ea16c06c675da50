import Hcdb.Faultinjection
import Hcdb.Wal.Replay

/-!
The log on a file that can fail.  The buffer stops at the first error, so whatever was
tried, the file holds the records up to there and at most a part of one more.
-/

namespace Hcdb.Wal

open Hcdb.Lib.ByteString
open Hcdb.Lib.Fallible
open Hcdb.Base
open Hcdb.Faultinjection

variable {σ ε : Type*}

/-- `WAL` with a buffer that can meet an error. -/
structure FallibleWAL (σ ε : Type*) where
  writer : Buffered σ ε
  putCounter : Nat

def newFallibleWAL (sink : σ) : FallibleWAL σ ε where
  writer := { sink, buf := [], err := none }
  putCounter := 0

namespace FallibleWAL

section Append

variable [Runtime]

/-- `append`, where the write may report an error. -/
def append (out : Sink σ ε) (wal : FallibleWAL σ ε) (entry : Entry) :
    FallibleWAL σ ε × Option ε :=
  let dataBytes := writeDataBuff entry
  let checksum := Runtime.checksumIEEE dataBytes
  let totalLength := dataBytes.length + 4
  let w := wal.writer.write out bufferSize (leBytes 4 totalLength)
  if w.err.isSome then ({ wal with writer := w }, w.err)
  else
    let w := w.write out bufferSize dataBytes
    if w.err.isSome then ({ wal with writer := w }, w.err)
    else
      let w := w.write out bufferSize (leBytes 4 checksum.toNat)
      ({ wal with writer := w }, w.err)

variable {out : Sink σ ε} {wal : FallibleWAL σ ε}

/-- The early returns make no difference: a buffer that has met an error stays as it is. -/
theorem append_eq (out : Sink σ ε) (wal : FallibleWAL σ ε) (e : Entry) :
    wal.append out e =
      let w := ((wal.writer.write out bufferSize (leBytes 4 ((writeDataBuff e).length + 4))).write
        out bufferSize (writeDataBuff e)).write out bufferSize
          (leBytes 4 (Runtime.checksumIEEE (writeDataBuff e)).toNat)
      ({ wal with writer := w }, w.err) := by
  rw [append]
  dsimp only
  split
  · rename_i herr
    have hne := Option.isSome_iff_ne_none.mp herr
    rw [Buffered.write_of_err hne, Buffered.write_of_err hne]
  · split
    · rename_i herr
      rw [Buffered.write_of_err (Option.isSome_iff_ne_none.mp herr)]
    · rfl

theorem append_err (e : Entry) : (wal.append out e).2 = (wal.append out e).1.writer.err := by
  rw [append_eq]

theorem append_of_err (h : wal.writer.err ≠ none) (e : Entry) :
    wal.append out e = (wal, wal.writer.err) := by
  rw [append_eq, Buffered.write_of_err h, Buffered.write_of_err h, Buffered.write_of_err h]

theorem carries_append {stream : Bytes} (h : wal.writer.Carries out stream) (e : Entry) :
    (wal.append out e).1.writer.Carries out (stream ++ encodeRecord e) := by
  rw [append_eq, encodeRecord, ← List.append_assoc, ← List.append_assoc]
  exact ((h.write _ _).write _ _).write _ _

theorem keeps_append {ok failed : σ → Prop} (h : wal.writer.Keeps ok failed)
    (hturn : Buffered.Turns out ok failed) (e : Entry) :
    (wal.append out e).1.writer.Keeps ok failed := by
  rw [append_eq]
  exact ((h.write hturn _ _).write hturn _ _).write hturn _ _

end Append

end FallibleWAL

/-- The calls that the log makes of its file, each of which may fail.  `durable` is how many
of the bytes a loss of power leaves. -/
structure LogFile (σ ε : Type*) extends Sink σ ε where
  sync : σ → σ × Option ε
  truncate : σ → σ × Option ε
  seek : σ → σ × Option ε
  durable : σ → Nat
  durable_le : ∀ s, durable s ≤ (bytes s).length
  durable_write : ∀ s p, durable s ≤ durable (write s p).1
  bytes_sync : ∀ s, bytes (sync s).1 = bytes s
  durable_sync : ∀ s, durable s ≤ durable (sync s).1
  synced : ∀ s, (sync s).2 = none → durable (sync s).1 = (bytes s).length
  truncated : ∀ s, (truncate s).2 = none → bytes (truncate s).1 = []
  bytes_seek : ∀ s, bytes (seek s).1 = bytes s

namespace FallibleWAL

/-- The buffer is flushed first, and then the file is synced. -/
def sync (file : LogFile σ ε) (wal : FallibleWAL σ ε) : FallibleWAL σ ε × Option ε :=
  let w := wal.writer.flush file.toSink
  if w.err.isSome then ({ wal with writer := w }, w.err)
  else
    let (sink, err) := file.sync w.sink
    ({ wal with writer := { w with sink } }, err)

/-- `resetWAL` on the log: the buffer forgets its error only after both calls. -/
def reset (file : LogFile σ ε) (wal : FallibleWAL σ ε) : FallibleWAL σ ε × Option ε :=
  match file.truncate wal.writer.sink with
  | (sink, some e) => ({ wal with writer := { wal.writer with sink } }, some e)
  | (sink, none) =>
      match file.seek sink with
      | (sink, some e) => ({ wal with writer := { wal.writer with sink } }, some e)
      | (sink, none) => ({ wal with writer := { sink, buf := [], err := none } }, none)

section Write

variable [Runtime]

def write (file : LogFile σ ε) (wal : FallibleWAL σ ε) (entry : Entry) :
    FallibleWAL σ ε × Option ε :=
  match wal.append file.toSink entry with
  | (wal, some e) => (wal, some e)
  | (wal, none) =>
      let wal := { wal with putCounter := wal.putCounter + 1 }
      if Config.defaultSyncThreshold ≤ wal.putCounter then
        match wal.sync file with
        | (wal, some e) => (wal, some e)
        | (wal, none) => ({ wal with putCounter := 0 }, none)
      else (wal, none)

def put (file : LogFile σ ε) (wal : FallibleWAL σ ε) (key value : Bytes) :
    FallibleWAL σ ε × Option ε :=
  wal.write file { key, value }

def delete (file : LogFile σ ε) (wal : FallibleWAL σ ε) (key : Bytes) :
    FallibleWAL σ ε × Option ε :=
  wal.write file { key, value := [] }

end Write

theorem turns_durable (file : LogFile σ ε) (n : Nat) :
    Buffered.Turns file.toSink (n ≤ file.durable ·) (n ≤ file.durable ·) :=
  fun s p h =>
    ⟨fun _ => h.trans (file.durable_write s p), fun _ => h.trans (file.durable_write s p)⟩

theorem keeps_durable {file : LogFile σ ε} {w : Buffered σ ε} {n : Nat}
    (h : w.Keeps (n ≤ file.durable ·) (n ≤ file.durable ·)) : n ≤ file.durable w.sink := by
  by_cases hok : w.err = none
  · exact h.before hok
  · exact h.after hok

variable {file : LogFile σ ε} {wal : FallibleWAL σ ε} {stream : Bytes}

/-- `Sync` writes nothing new, and makes all durable if it succeeds. -/
structure Synced (file : LogFile σ ε) (stream : Bytes) (wal wal' : FallibleWAL σ ε)
    (err : Option ε) : Prop where
  carries : wal'.writer.Carries file.toSink stream
  durable : file.durable wal.writer.sink ≤ file.durable wal'.writer.sink
  putCounter : wal'.putCounter = wal.putCounter
  sticky : wal'.writer.err = none → wal.writer.err = none
  secured : err = none → wal'.writer.err = none ∧ file.durable wal'.writer.sink = stream.length

theorem synced_sync (h : wal.writer.Carries file.toSink stream) :
    Synced file stream wal (wal.sync file).1 (wal.sync file).2 := by
  have hflush := h.flush
  have hkept : file.durable wal.writer.sink ≤
      file.durable (wal.writer.flush file.toSink).sink :=
    keeps_durable (Buffered.Keeps.flush ⟨fun _ => le_rfl, fun _ => le_rfl⟩ (turns_durable file _))
  have hsticky : (wal.writer.flush file.toSink).err = none → wal.writer.err = none := by
    intro hnone
    by_contra herr
    have hsame : wal.writer.flush file.toSink = wal.writer := Buffered.flush_of_err herr
    exact herr (hsame ▸ hnone)
  rw [sync]
  dsimp only
  split
  · rename_i herr
    exact ⟨hflush, hkept, rfl, hsticky,
      fun hnone => absurd hnone (Option.isSome_iff_ne_none.mp herr)⟩
  · rename_i herr
    have hnone := Option.not_isSome_iff_eq_none.mp herr
    have hbytes := file.bytes_sync (wal.writer.flush file.toSink).sink
    refine ⟨⟨?_, ?_, fun hne => absurd hnone hne⟩, hkept.trans (file.durable_sync _), rfl,
      hsticky, fun hok => ⟨hnone, ?_⟩⟩
    · exact hbytes ▸ hflush.arrived
    · exact fun _ => hbytes.symm ▸ hflush.whole hnone
    · have hall := hflush.whole hnone
      rw [Buffered.flush_buf hnone, List.append_nil] at hall
      exact (file.synced _ hok).trans (congrArg List.length hall)

theorem reset_done {wal' : FallibleWAL σ ε} (h : wal.reset file = (wal', none)) :
    wal'.writer.Carries file.toSink [] ∧ wal'.writer.err = none ∧
      wal'.putCounter = wal.putCounter := by
  rw [reset] at h
  split at h
  · simp at h
  · rename_i sink htruncate
    split at h
    · simp at h
    · rename_i sink' hseek
      obtain rfl := (Prod.mk.inj h).1
      have hbytes : file.bytes sink' = [] := by
        have htruncated := file.truncated wal.writer.sink (by rw [htruncate])
        have hsame := file.bytes_seek sink
        rw [htruncate] at htruncated
        rw [hseek] at hsame
        exact hsame.trans htruncated
      refine ⟨⟨?_, fun _ => ?_, fun hne => absurd rfl hne⟩, rfl, rfl⟩
      · exact hbytes ▸ List.prefix_refl _
      · dsimp only
        rw [hbytes, List.append_nil]

section Logged

variable [Runtime]

/-- A record that is written is counted, or made durable with all before it. -/
structure Appended (file : LogFile σ ε) (stream : Bytes) (wal wal' : FallibleWAL σ ε)
    (err : Option ε) : Prop where
  carries : wal'.writer.Carries file.toSink stream
  durable : file.durable wal.writer.sink ≤ file.durable wal'.writer.sink
  failed : err ≠ none → wal.putCounter ≤ wal'.putCounter
  done : err = none → wal'.writer.err = none ∧
    (wal'.putCounter = wal.putCounter + 1 ∧ wal'.putCounter < Config.defaultSyncThreshold ∨
      file.durable wal'.writer.sink = stream.length)

theorem appended_write (h : wal.writer.Carries file.toSink stream) (e : Entry) :
    Appended file (stream ++ encodeRecord e) wal (wal.write file e).1 (wal.write file e).2 := by
  have happend := carries_append h e
  have hstart : wal.writer.Keeps (file.durable wal.writer.sink ≤ file.durable ·)
      (file.durable wal.writer.sink ≤ file.durable ·) := ⟨fun _ => le_rfl, fun _ => le_rfl⟩
  have hkept := keeps_durable (keeps_append hstart (turns_durable file _) e)
  have hcounter : (wal.append file.toSink e).1.putCounter = wal.putCounter := by rw [append_eq]
  have herr : (wal.append file.toSink e).2 = (wal.append file.toSink e).1.writer.err :=
    append_err e
  rw [write]
  rcases hresult : wal.append file.toSink e with ⟨wal₁, _ | err⟩
  · rw [hresult] at happend hkept hcounter herr
    dsimp only at happend hkept hcounter herr ⊢
    split
    · -- the count is complete
      have hsync : Synced file (stream ++ encodeRecord e)
          { wal₁ with putCounter := wal₁.putCounter + 1 }
          (FallibleWAL.sync file { wal₁ with putCounter := wal₁.putCounter + 1 }).1
          (FallibleWAL.sync file { wal₁ with putCounter := wal₁.putCounter + 1 }).2 :=
        synced_sync happend
      rcases hres : FallibleWAL.sync file { wal₁ with putCounter := wal₁.putCounter + 1 } with
        ⟨wal₂, _ | err⟩
      · rw [hres] at hsync
        exact ⟨hsync.carries, hkept.trans hsync.durable, fun hne => absurd rfl hne,
          fun _ => ⟨(hsync.secured rfl).1, Or.inr (hsync.secured rfl).2⟩⟩
      · rw [hres] at hsync
        refine ⟨hsync.carries, hkept.trans hsync.durable, fun _ => ?_, fun hne => by simp at hne⟩
        have hsame := hsync.putCounter
        dsimp only at hsame ⊢
        omega
    · rename_i hfew
      refine ⟨happend, hkept, fun hne => absurd rfl hne, fun _ => ⟨herr.symm, Or.inl ⟨?_, ?_⟩⟩⟩
      · rw [hcounter]
      · exact not_le.mp hfew
  · rw [hresult] at happend hkept hcounter
    exact ⟨happend, hkept, fun _ => hcounter.ge, fun hne => by simp at hne⟩

theorem write_of_err (h : wal.writer.err ≠ none) (e : Entry) :
    ∃ err, wal.write file e = (wal, some err) := by
  obtain ⟨err, herr⟩ := Option.ne_none_iff_exists'.mp h
  rw [write, append_of_err h, herr]
  exact ⟨err, rfl⟩

end Logged

end FallibleWAL

/-- What is done with the log before the crash. -/
inductive LogCall where
  | append (e : Entry)
  | flush

def LogCall.entry? : LogCall → Option Entry
  | .append e => some e
  | .flush => none

def entriesOf (calls : List LogCall) : List Entry := calls.filterMap LogCall.entry?

section Torn

variable [Runtime]

def FallibleWAL.call (out : Sink σ ε) (wal : FallibleWAL σ ε) : LogCall → FallibleWAL σ ε
  | .append e => (wal.append out e).1
  | .flush => { wal with writer := wal.writer.flush out }

theorem FallibleWAL.carries_calls {out : Sink σ ε} {wal : FallibleWAL σ ε} {stream : Bytes}
    (h : wal.writer.Carries out stream) (calls : List LogCall) :
    (calls.foldl (call out) wal).writer.Carries out
      (stream ++ encodeRecords (entriesOf calls)) := by
  induction calls generalizing wal stream with
  | nil => simpa [entriesOf, encodeRecords] using h
  | cons c calls ih =>
      cases c with
      | append e =>
          have hstream := ih (carries_append h e)
          rw [List.append_assoc] at hstream
          exact hstream
      | flush => exact ih h.flush

theorem FallibleWAL.keeps_calls {out : Sink σ ε} {wal : FallibleWAL σ ε} {ok failed : σ → Prop}
    (h : wal.writer.Keeps ok failed) (hturn : Buffered.Turns out ok failed)
    (calls : List LogCall) : (calls.foldl (call out) wal).writer.Keeps ok failed := by
  induction calls generalizing wal with
  | nil => exact h
  | cons c calls ih =>
      cases c with
      | append e => exact ih (keeps_append h hturn e)
      | flush => exact ih (h.flush hturn)

/-- The log of the crash tests: a file with these records, and a writer that fails after
`failAfter` more bytes. -/
def tornWAL (old : List Entry) (failAfter : Nat) :
    FallibleWAL (FaultyWriter Bytes) (FaultErr Empty) :=
  newFallibleWAL (newFaultyWriter (encodeRecords old) failAfter)

/-- Whatever is appended and flushed, the crash leaves the first `failAfter` bytes of it,
the last flush tells whether that is all, and the next process finds the records that are
whole. -/
theorem torn_write_recovery (old : List Entry) (failAfter : Nat) (calls : List LogCall)
    (hold : ∀ e ∈ old, Loggable e) (hnew : ∀ e ∈ entriesOf calls, Loggable e) :
    let last := (calls.foldl (FallibleWAL.call (faultySink (Sink.plain Empty)))
      (tornWAL old failAfter)).writer.flush (faultySink (Sink.plain Empty))
    last.sink.w = encodeRecords old ++ (encodeRecords (entriesOf calls)).take failAfter ∧
      (last.err = none ↔ (encodeRecords (entriesOf calls)).length ≤ failAfter) ∧
      (openWAL last.sink.w).replay =
        (old ++ wholeWithin failAfter (entriesOf calls),
          openWAL (encodeRecords (old ++ wholeWithin failAfter (entriesOf calls)))) := by
  intro last
  have hstart : (tornWAL old failAfter).writer.Carries (faultySink (Sink.plain Empty))
      (encodeRecords old) :=
    ⟨List.prefix_refl _, fun _ => List.append_nil _, fun herr => absurd rfl herr⟩
  have hcarries : last.Carries (faultySink (Sink.plain Empty)) _ :=
    (FallibleWAL.carries_calls hstart calls).flush
  have hturn := turns_faultySink (ε := Empty) (encodeRecords old) failAfter
  have hkeeps : last.Keeps _ _ :=
    (FallibleWAL.keeps_calls ⟨fun _ => ⟨rfl, Nat.zero_le _, rfl⟩, fun herr => absurd rfl herr⟩
      hturn calls).flush hturn
  have hleft : last.sink.w =
      encodeRecords old ++ (encodeRecords (entriesOf calls)).take failAfter ∧
      (last.err = none ↔ (encodeRecords (entriesOf calls)).length ≤ failAfter) := by
    by_cases hok : last.err = none
    · -- all has arrived, within the count
      obtain ⟨-, hcount, hlength⟩ := hkeeps.before hok
      have hall : last.sink.w = encodeRecords old ++ encodeRecords (entriesOf calls) := by
        have hwhole := hcarries.whole hok
        rwa [Buffered.flush_buf hok, List.append_nil] at hwhole
      rw [hall, List.length_append] at hlength
      have hfits : (encodeRecords (entriesOf calls)).length ≤ failAfter := by omega
      exact ⟨by rw [hall, List.take_of_length_le hfits], iff_of_true hok hfits⟩
    · have hlength := hkeeps.after hok
      have harrived : last.sink.w <+: _ := hcarries.arrived
      have hshort := hcarries.short hok
      have heq := List.prefix_iff_eq_take.mp harrived
      rw [hlength, List.take_length_add_append] at heq
      refine ⟨heq, iff_of_false hok ?_⟩
      have hlen : (faultySink (Sink.plain Empty)).bytes last.sink = last.sink.w := rfl
      rw [hlen, hlength, List.length_append] at hshort
      omega
  refine ⟨hleft.1, hleft.2, ?_⟩
  have hlog : ∀ e ∈ old ++ entriesOf calls, Loggable e := fun e he =>
    (List.mem_append.mp he).elim (hold e) (hnew e)
  have htake : last.sink.w = (encodeRecords (old ++ entriesOf calls)).take
      ((encodeRecords old).length + failAfter) := by
    rw [hleft.1, encodeRecords, encodeRecords, encodeRecords, List.flatMap_append,
      List.take_length_add_append]
  rw [htake, WAL.replay_take hlog, wholeWithin_append]

end Torn

/-- The file of the crash tests as the file of a log. -/
def tornFile : LogFile (FaultyWriter Bytes) (FaultErr Empty) where
  toSink := faultySink (Sink.plain Empty)
  sync fw := (fw, none)
  truncate fw := ({ fw with w := [] }, none)
  seek fw := (fw, none)
  durable fw := fw.w.length
  durable_le _ := le_rfl
  durable_write fw p := by
    rw [show (faultySink (Sink.plain Empty)).write fw p = fw.write (Sink.plain Empty) p from rfl]
    have hwrote : (fw.write (Sink.plain Empty) p).1.w = fw.w ++ _ :=
      (faultySink (Sink.plain Empty)).wrote fw p
    rw [hwrote, List.length_append]
    exact Nat.le_add_right _ _
  bytes_sync _ := rfl
  durable_sync _ := le_rfl
  synced _ _ := rfl
  truncated _ _ := rfl
  bytes_seek _ := rfl

/-- The second record is torn after nine bytes. -/
theorem torn_write_recovery_twoRecords :
    let last := ([LogCall.append twoRecords[0], .flush, .append twoRecords[1]].foldl
      (FallibleWAL.call (faultySink (Sink.plain Empty))) (tornWAL [] 35)).writer.flush
        (faultySink (Sink.plain Empty))
    last.err ≠ none ∧ (openWAL last.sink.w).replay.1 = [twoRecords[0]] := by
  have h := torn_write_recovery [] 35 [.append twoRecords[0], .flush, .append twoRecords[1]]
    (by simp) loggable_twoRecords
  intro last
  refine ⟨fun hnone => absurd (h.2.1.mp hnone) (by decide), ?_⟩
  rw [h.2.2]
  decide

/-- A file on which nothing fails. -/
def steadyFile (ε : Type*) : LogFile Bytes ε where
  toSink := Sink.plain ε
  sync s := (s, none)
  truncate _ := ([], none)
  seek s := (s, none)
  durable s := s.length
  durable_le _ := le_rfl
  durable_write s p := by
    rw [show ((Sink.plain ε).write s p).1 = s ++ p from rfl, List.length_append]
    exact Nat.le_add_right _ _
  bytes_sync _ := rfl
  durable_sync _ := le_rfl
  synced _ _ := rfl
  truncated _ _ := rfl
  bytes_seek _ := rfl

namespace FallibleWAL

/-- A log as one on which nothing has failed so far. -/
def ofWAL (wal : WAL) : FallibleWAL Bytes ε where
  writer := Buffered.ofWriter wal.writer
  putCounter := wal.putCounter

theorem sync_ofWAL (wal : WAL) :
    (ofWAL wal : FallibleWAL Bytes ε).sync (steadyFile ε) = (ofWAL wal.sync, none) := by
  rw [sync, ofWAL]
  dsimp only
  rw [show (steadyFile ε).toSink = Sink.plain ε from rfl, Buffered.flush_ofWriter]
  rfl

theorem reset_ofWAL (wal : WAL) :
    (ofWAL wal : FallibleWAL Bytes ε).reset (steadyFile ε) =
      (ofWAL { wal with writer := { file := [], buf := [] } }, none) := rfl

section

variable [Runtime]

theorem append_ofWAL (wal : WAL) (e : Entry) :
    (ofWAL wal : FallibleWAL Bytes ε).append (Sink.plain ε) e = (ofWAL (wal.append e), none) := by
  rw [append_eq, WAL.append, ofWAL, ofWAL]
  dsimp only
  rw [Buffered.write_ofWriter, Buffered.write_ofWriter, Buffered.write_ofWriter, Buffered.ofWriter]

theorem write_ofWAL (wal : WAL) (e : Entry) :
    (ofWAL wal : FallibleWAL Bytes ε).write (steadyFile ε) e = (ofWAL (wal.write e), none) := by
  rw [write, show (steadyFile ε).toSink = Sink.plain ε from rfl, append_ofWAL, WAL.write]
  dsimp only
  have hcounter : (ofWAL (wal.append e) : FallibleWAL Bytes ε).putCounter =
      (wal.append e).putCounter := rfl
  rw [hcounter]
  split
  · rename_i hfull
    have hsync := sync_ofWAL (ε := ε)
      { wal.append e with putCounter := (wal.append e).putCounter + 1 }
    rw [ofWAL] at hsync
    dsimp only at hsync
    rw [show (ofWAL (wal.append e) : FallibleWAL Bytes ε).writer =
      Buffered.ofWriter (wal.append e).writer from rfl, hsync]
    rfl
  · rfl

end

end FallibleWAL

end Hcdb.Wal
