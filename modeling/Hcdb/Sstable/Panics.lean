import Hcdb.Sstable.Cached
import Hcdb.Sstable.RoundTrip
import Mathlib.Data.List.TakeWhile

/-!
Run-time panics in `Open` and `Lookup`.  Only the data blocks of a file carry a checksum;
the bloom filter and the index are taken as they are read, and three things in them can
bring the process down.
-/

namespace Hcdb.Sstable

open Hcdb.Lib.ByteString
open Hcdb.Lib.Asking
open Hcdb.Lib.FiniteMap
open Hcdb.Base
open Hcdb.Bloomfilter

section Seek

variable (read : BlockReader)

/-- The block at which a run of blocks breaks off because it cannot be read. -/
def brokenOff (sst : SSTable) : List IndexEntry → Option IndexEntry
  | [] => none
  | idx :: index =>
      match read sst idx with
      | .error _ => some idx
      | .ok [] => none
      | .ok (_ :: _) => brokenOff sst index

/-- The run of blocks breaks off because reading one of them panics. -/
def PanicsIn (sst : SSTable) (index : List IndexEntry) : Prop :=
  ∃ idx, brokenOff read sst index = some idx ∧ read sst idx = .error .panic

/-- A read that the program makes panics. -/
def Panics {α : Type} (p : Reading α) : Prop :=
  p.Meets (fun q => read q.1 q.2) (· = .error .panic)

variable {read} {sst : SSTable} {idx : IndexEntry} {index : List IndexEntry}

theorem mem_of_brokenOff (h : brokenOff read sst index = some idx) : idx ∈ index := by
  induction index with
  | nil => simp [brokenOff] at h
  | cons first index ih =>
      unfold brokenOff at h
      split at h
      · exact Option.some.inj h ▸ List.mem_cons_self
      · simp at h
      · exact List.mem_cons_of_mem _ (ih h)

theorem not_panicsIn_nil : ¬ PanicsIn read sst [] := by
  rintro ⟨idx, hidx, -⟩
  simp [brokenOff] at hidx

theorem panicsIn_cons_error {e : SstErr} (h : read sst idx = .error e) :
    PanicsIn read sst (idx :: index) ↔ e = .panic := by
  simp [PanicsIn, brokenOff, h]

theorem not_panicsIn_cons_nil (h : read sst idx = .ok []) :
    ¬ PanicsIn read sst (idx :: index) := by
  simp [PanicsIn, brokenOff, h]

theorem panicsIn_cons_ok {e : Entry} {es : List Entry} (h : read sst idx = .ok (e :: es)) :
    PanicsIn read sst (idx :: index) ↔ PanicsIn read sst index := by
  simp [PanicsIn, brokenOff, h]

variable (read) in
/-- Behind the block of the iterator the run breaks off in a panic. -/
def Iterator.PanicAhead (it : Iterator) : Prop :=
  PanicsIn read it.sst (it.sst.index.drop (it.blockIdx + 1))

theorem not_panics_pure {α : Type} (a : α) : ¬ Panics read (pure a : Reading α) :=
  Program.not_meets_pure a

theorem panics_bind {α β : Type} {p : Reading α} {a : α}
    (hp : ComputesOn read (fun _ => True) p a) (f : α → Reading β) :
    Panics read (p >>= f) ↔ Panics read p ∨ Panics read (f a) :=
  hp.meets_bind f

theorem panics_loadBlock (it : Iterator) : Panics read (Cached.loadBlock it) ↔
    ∃ idx, it.sst.index[it.blockIdx]? = some idx ∧ read it.sst idx = .error .panic := by
  unfold Cached.loadBlock
  cases hidx : it.sst.index[it.blockIdx]? with
  | none => simp [not_panics_pure]
  | some idx =>
      have hask : ComputesOn read (fun _ => True) (Program.asking (it.sst, idx))
          (read it.sst idx) := Computes.asking ⟨trivial, List.mem_of_getElem? hidx⟩
      simp only [Option.some.injEq, exists_eq_left']
      rw [panics_bind hask]
      refine (or_iff_left ?_).trans (Program.meets_asking _)
      cases read it.sst idx with
      | error e => exact not_panics_pure _
      | ok entries => exact not_panics_pure _

variable (read) in
theorem panics_advance (it : Iterator) :
    (Panics read (Cached.advance it) ↔ (it.advance read).2 = false ∧ it.PanicAhead read) ∧
    ((it.advance read).2 = true →
      ((it.advance read).1.PanicAhead read ↔ it.PanicAhead read)) := by
  unfold Cached.advance Iterator.advance
  split
  · exact ⟨by simp [not_panics_pure], fun _ => Iff.rfl⟩
  · have hload : ComputesOn read (fun _ => True) (Cached.loadBlock it.leave)
        (it.leave.loadBlock read) := computes_loadBlock trivial
    rw [panics_bind hload, panics_loadBlock, or_iff_left (by
      cases it.leave.loadBlock read with
      | error e => exact not_panics_pure _
      | ok next => exact not_panics_pure _)]
    have hleave : it.leave.sst.index[it.leave.blockIdx]? = it.sst.index[it.blockIdx + 1]? := rfl
    rw [hleave]
    unfold Iterator.PanicAhead Iterator.loadBlock
    simp only
    cases hidx : it.sst.index[it.blockIdx + 1]? with
    | none =>
        rw [List.getElem?_eq_none_iff] at hidx
        simp [List.drop_eq_nil_of_le hidx, not_panicsIn_nil]
    | some idx =>
        obtain ⟨hlt, hget⟩ := List.getElem?_eq_some_iff.mp hidx
        rw [List.drop_eq_getElem_cons hlt, hget]
        have hsst : it.leave.sst = it.sst := rfl
        cases hread : read it.sst idx with
        | error e =>
            simp [hsst, hread, panicsIn_cons_error hread]
        | ok entries =>
            cases entries with
            | nil => simp [hsst, hread, not_panicsIn_cons_nil hread]
            | cons e es => simp [hsst, hread, panicsIn_cons_ok hread]

variable (read) in
theorem panics_skipLoop (skip : Entry → Bool) {fuel : Nat} {it : Iterator}
    (hfuel : (it.remaining read).length ≤ fuel) :
    (Panics read (Cached.skipLoop skip fuel it) ↔
      it.valid = true ∧ (it.remaining read).all skip = true ∧ it.PanicAhead read) ∧
    ((Iterator.skipLoop read skip fuel it).valid = true →
      ((Iterator.skipLoop read skip fuel it).PanicAhead read ↔ it.PanicAhead read)) := by
  induction fuel generalizing it with
  | zero =>
      have hnil : it.remaining read = [] := List.length_eq_zero_iff.mp (by omega)
      have hvalid : it.valid ≠ true := by
        rw [it.valid_eq_isSome, it.current?_eq_head? read, hnil]
        simp
      exact ⟨iff_of_false (not_panics_pure _) fun h => hvalid h.1, fun _ => Iff.rfl⟩
  | succ fuel ih =>
      have hcur := it.current?_eq_head? read
      have hval := it.valid_eq_isSome
      unfold Cached.skipLoop Iterator.skipLoop
      cases hrem : it.remaining read with
      | nil =>
          rw [hrem] at hcur
          rw [hcur] at hval
          simp [hcur, hval, not_panics_pure]
      | cons e es =>
          rw [hrem] at hcur
          have hvalid : it.valid = true := by rw [hval, hcur]; rfl
          obtain ⟨hadv, hflag, -⟩ := Iterator.advance_remaining read hvalid
          rw [hrem, List.tail_cons] at hadv
          obtain ⟨hstep, hahead⟩ := panics_advance read it
          simp only [hcur, List.head?_cons]
          by_cases hskip : skip e = true
          · have hcomputes : ComputesOn read (fun _ => True) (Cached.advance it)
                (it.advance read) := computes_advance trivial
            rw [if_pos hskip, if_pos hskip, panics_bind hcomputes, hstep]
            rcases hpair : it.advance read with ⟨it', flag⟩
            rw [hpair] at hadv hflag hahead
            simp only at hadv hflag hahead
            -- the flag of `advance` tells whether the run has broken off
            cases flag with
            | true =>
                have hlen : (it'.remaining read).length ≤ fuel := by
                  rw [hrem, List.length_cons] at hfuel
                  rw [hadv]
                  omega
                obtain ⟨hloop, hend⟩ := ih hlen
                rw [hadv, hahead rfl, ← hflag] at hloop
                refine ⟨?_, fun h => (hend h).trans (hahead rfl)⟩
                simp [hloop, hvalid, hskip]
            | false =>
                have hnil : es = [] := by
                  rw [← hadv, Iterator.remaining, ← hflag]
                  rfl
                refine ⟨?_, fun h => absurd (hflag.trans h) (by simp)⟩
                simp [hnil, hvalid, hskip, not_panics_pure]
          · rw [if_neg hskip, if_neg hskip]
            exact ⟨by simp [hskip, not_panics_pure], fun _ => Iff.rfl⟩

theorem panics_seekLoops (below : Entry → Bool) (it : Iterator) :
    Panics read (do
      let it ← Cached.skipWhile read below it
      let it ← Cached.skipInvisible read it
      pure (Except.ok it : Except SstErr Iterator)) ↔
    it.valid = true ∧ it.PanicAhead read ∧
      ((it.remaining read).dropWhile below).all (fun e => !e.ik.visible it.snapshot) = true := by
  have hskip : ComputesOn read (fun _ => True) (Cached.skipWhile read below it)
      (it.skipWhile read below) := computes_skipLoop below _ trivial
  have hinvisible : ComputesOn read (fun _ => True)
      (Cached.skipInvisible read (it.skipWhile read below))
      ((it.skipWhile read below).skipInvisible read) := computes_skipLoop _ _ trivial
  rw [panics_bind hskip, panics_bind hinvisible, or_iff_left (not_panics_pure _)]
  obtain ⟨hrem, hsnap⟩ := it.skipWhile_remaining read below
  obtain ⟨hfirst, hahead⟩ := panics_skipLoop read below (le_refl (it.remaining read).length)
  obtain ⟨hsecond, -⟩ := panics_skipLoop read
    (fun e => !e.ik.visible (it.skipWhile read below).snapshot)
    (le_refl ((it.skipWhile read below).remaining read).length)
  unfold Cached.skipWhile Cached.skipInvisible Cached.skipWhile
  rw [hfirst, hsecond, hsnap, hrem]
  have hval := (it.skipWhile read below).valid_eq_isSome
  rw [(it.skipWhile read below).current?_eq_head? read, hrem] at hval
  -- the first loop either skips everything, or stops on an entry in the same run of blocks
  by_cases hall : (it.remaining read).all below = true
  · have hnil : (it.remaining read).dropWhile below = [] :=
      List.dropWhile_eq_nil_iff.mpr (List.all_eq_true.mp hall)
    rw [hnil] at hval ⊢
    simp [hval, hall]
  · have hne : (it.remaining read).dropWhile below ≠ [] := by
      intro hnil
      exact hall (List.all_eq_true.mpr (List.dropWhile_eq_nil_iff.mp hnil))
    obtain ⟨e, es, hes⟩ := List.exists_cons_of_ne_nil hne
    have hon : (it.skipWhile read below).valid = true := by rw [hval, hes]; rfl
    have hvalid : it.valid = true := by
      by_contra hinvalid
      exact hall (by simp [Iterator.remaining, hinvalid])
    have hiff := hahead hon
    simp only [hall, hon, hvalid, true_and, false_and, and_false, false_or, Bool.false_eq_true]
    rw [and_comm, ← hiff]
    rfl

variable (read sst) in
/-- A seek panics when the run of blocks it can reach breaks off in a panic and it does
not end before. -/
theorem panics_newIterator (lowerBound : Bytes) (snapshot : Nat) :
    Panics read (Cached.newIterator read sst lowerBound snapshot) ↔
      PanicsIn read sst
        (sst.index.drop (startBlock sst.index (encodeSearchKeyAt lowerBound snapshot))) ∧
      ((reachable read sst lowerBound snapshot).dropWhile
        fun e => decide (e.ik < makeSearchKeyAt lowerBound snapshot)).all
          (fun e => !e.ik.visible snapshot) = true := by
  generalize hstart : startBlock sst.index (encodeSearchKeyAt lowerBound snapshot) = start
  unfold Cached.newIterator
  simp only [hstart]
  generalize hit : (Iterator.mk sst snapshot start [] 0 false Cached.start_inBounds) = it
  have hload : ComputesOn read (fun _ => True) (Cached.loadBlock it) (it.loadBlock read) :=
    computes_loadBlock trivial
  rw [panics_bind hload, panics_loadBlock]
  subst hit
  unfold Iterator.loadBlock reachable
  simp only [hstart]
  cases hidx : sst.index[start]? with
  | none =>
      rw [List.getElem?_eq_none_iff] at hidx
      simp [List.drop_eq_nil_of_le hidx, not_panicsIn_nil, panics_seekLoops]
  | some idx =>
      obtain ⟨hlt, hget⟩ := List.getElem?_eq_some_iff.mp hidx
      rw [List.drop_eq_getElem_cons hlt, hget]
      cases hread : read sst idx with
      | error e =>
          simp [hread, panicsIn_cons_error hread, Iterator.blocksFrom, not_panics_pure]
      | ok entries =>
          cases entries with
          | nil => simp [hread, not_panicsIn_cons_nil hread, panics_seekLoops]
          | cons e es =>
              simp [hread, panicsIn_cons_ok hread, panics_seekLoops, seekSkip_eq,
                Iterator.remaining, Iterator.blocksFrom, Iterator.PanicAhead]

end Seek

section Files

variable [Runtime]

/-- `Lookup` ends in a run-time panic, in the bloom filter or in a read. -/
def SSTable.LookupPanics (read : BlockReader) (sst : SSTable) (userKey : Bytes) (snapshot : Nat) :
    Prop :=
  sst.bloom.mightContain userKey = none ∨ Panics read (Cached.lookup read sst userKey snapshot)

/-- Neither opening the file nor a lookup in the table that comes of it panics. -/
def NeverPanics (dir : TableDir) (path file : Bytes) : Prop :=
  openTable path file ≠ .error .panic ∧
  ∀ sst, openTable path file = .ok sst → ∀ (userKey : Bytes) (snapshot : Nat), snapshot < 2 ^ 64 →
    ¬ sst.LookupPanics (readBlock dir) userKey snapshot

/-- The bytes that `readBloom` hands to `Deserialize`. -/
def readBloomBytes (file : Bytes) (bloomOffset : Int) : Except SstErr Bytes :=
  match seekStart file bloomOffset with
  | .error e => .error e
  | .ok r =>
      match readWord 4 r with
      | .error e => .error (.read e)
      | .ok (bloomLen, r) =>
          match readFull bloomLen r with
          | .error e => .error (.read e)
          | .ok (bloomBytes, _) => .ok bloomBytes

/-- The index and the bytes of the bloom filter, as `Open` reads them. -/
def readParts (file : Bytes) : Except SstErr (List IndexEntry × Bytes) :=
  match readFooterWithBloom file with
  | .error e => .error e
  | .ok footer =>
      match decodeIndex file footer.indexOffset footer.numEntries with
      | .error e => .error e
      | .ok index =>
          match readBloomBytes file footer.bloomOffset with
          | .error e => .error e
          | .ok bloomBytes => .ok (index, bloomBytes)

/-- A seek from the key comes to an end before the blocks it can reach break off. -/
def SeekLands (read : BlockReader) (sst : SSTable) (userKey : Bytes) (snapshot : Nat) : Prop :=
  ∃ e ∈ (reachable read sst userKey snapshot).dropWhile
      fun e => decide (e.ik < makeSearchKeyAt userKey snapshot), e.ik.visible snapshot = true

/-- A block of negative length stops every seek that would come to it, unless its offset
is negative too. -/
def LengthsGuarded (read : BlockReader) (sst : SSTable) : Prop :=
  ∀ (userKey : Bytes) (snapshot : Nat), snapshot < 2 ^ 64 →
    sst.bloom.mightContain userKey = some true →
    ∀ idx, brokenOff read sst
        (sst.index.drop (startBlock sst.index (encodeSearchKeyAt userKey snapshot))) = some idx →
      0 ≤ idx.offset → idx.length < 0 → SeekLands read sst userKey snapshot

/-- What a file has to keep to once its footer, its index and its bloom bytes can be
read. -/
def Probeable (dir : TableDir) (path file : Bytes) : Prop :=
  ∀ index bloomBytes, readParts file = .ok (index, bloomBytes) →
    8 ≤ bloomBytes.length ∧
    ∀ bloom, deserialize bloomBytes = some bloom → (bloom.size = 0 → bloom.numHash = 0) ∧
      LengthsGuarded (readBlock dir) { filePath := path, index, bloom }

section Parts

omit [Runtime]

theorem readBloom_eq (file : Bytes) (bloomOffset : Int) :
    readBloom file bloomOffset =
      match readBloomBytes file bloomOffset with
      | .error e => .error e
      | .ok bloomBytes =>
          match deserialize bloomBytes with
          | none => .error .panic
          | some bloom => .ok bloom := by
  unfold readBloom readBloomBytes
  cases seekStart file bloomOffset with
  | error e => rfl
  | ok r =>
      simp only
      cases readWord 4 r with
      | error e => rfl
      | ok word =>
          simp only
          cases readFull word.1 word.2 with
          | error e => rfl
          | ok data => rfl

theorem openTable_eq (path file : Bytes) :
    openTable path file =
      match readParts file with
      | .error e => .error e
      | .ok (index, bloomBytes) =>
          match deserialize bloomBytes with
          | none => .error .panic
          | some bloom => .ok { filePath := path, index, bloom } := by
  unfold openTable readParts
  cases readFooterWithBloom file with
  | error e => rfl
  | ok footer =>
      simp only
      cases decodeIndex file footer.indexOffset footer.numEntries with
      | error e => rfl
      | ok index =>
          simp only [readBloom_eq]
          cases readBloomBytes file footer.bloomOffset with
          | error e => rfl
          | ok bloomBytes =>
              simp only
              cases deserialize bloomBytes with
              | none => rfl
              | some bloom => rfl

theorem seekStart_error {file : Bytes} {offset : Int} {e : SstErr}
    (h : seekStart file offset = .error e) : e ≠ .panic := by
  unfold seekStart at h
  split at h
  · rw [← Except.error.inj h]
    simp
  · cases h

theorem readBloomBytes_error {file : Bytes} {bloomOffset : Int} {e : SstErr}
    (h : readBloomBytes file bloomOffset = .error e) : e ≠ .panic := by
  unfold readBloomBytes at h
  split at h
  · rename_i hseek
    exact Except.error.inj h ▸ seekStart_error hseek
  · split at h
    · rw [← Except.error.inj h]
      simp
    · split at h
      · rw [← Except.error.inj h]
        simp
      · cases h

theorem decodeIndex_error {file : Bytes} {indexOffset : Int} {numEntries : Nat} {e : SstErr}
    (h : decodeIndex file indexOffset numEntries = .error e) : e ≠ .panic := by
  unfold decodeIndex at h
  split at h
  · rename_i hseek
    exact Except.error.inj h ▸ seekStart_error hseek
  · split at h
    · rw [← Except.error.inj h]
      simp
    · cases h

theorem readFooterWithBloom_error {file : Bytes} {e : SstErr}
    (h : readFooterWithBloom file = .error e) : e ≠ .panic := by
  unfold readFooterWithBloom at h
  split at h
  · rw [← Except.error.inj h]
    simp
  · split at h
    · rw [← Except.error.inj h]
      simp
    · cases h

theorem readParts_error {file : Bytes} {e : SstErr} (h : readParts file = .error e) :
    e ≠ .panic := by
  unfold readParts at h
  split at h
  · rename_i hfooter
    exact Except.error.inj h ▸ readFooterWithBloom_error hfooter
  · split at h
    · rename_i hindex
      exact Except.error.inj h ▸ decodeIndex_error hindex
    · split at h
      · rename_i hbloom
        exact Except.error.inj h ▸ readBloomBytes_error hbloom
      · cases h

theorem deserialize_eq_none {data : Bytes} : deserialize data = none ↔ data.length < 8 := by
  unfold deserialize
  split
  · simp [*]
  · simp [*]

theorem deserialize_size_lt {data : Bytes} {bloom : BloomFilter}
    (h : deserialize data = some bloom) : bloom.size < 2 ^ 32 := by
  unfold deserialize at h
  split at h
  · simp at h
  · rw [← Option.some.inj h]
    calc leNat (data.take 4) < 256 ^ (data.take 4).length := leNat_lt _
      _ ≤ 256 ^ 4 := Nat.pow_le_pow_right (by decide) (List.length_take_le _ _)

end Parts

theorem decodeBlock_ne_panic (blockBytes : Bytes) : decodeBlock blockBytes ≠ .error .panic := by
  unfold decodeBlock
  split
  · simp
  · simp only
    split
    · simp
    · split
      · simp
      · split
        · simp
        · simp

theorem readBlockFrom_eq_panic {file : Bytes} {idx : IndexEntry} :
    readBlockFrom file idx = .error .panic ↔ 0 ≤ idx.offset ∧ idx.length < 0 := by
  unfold readBlockFrom seekStart
  by_cases hoffset : idx.offset < 0
  · simp [hoffset]
  · rw [if_neg hoffset]
    simp only
    by_cases hlength : idx.length < 0
    · simp [hlength, not_lt.mp hoffset]
    · rw [if_neg hlength]
      refine iff_of_false ?_ fun h => hlength h.2
      split
      · simp
      · exact decodeBlock_ne_panic _

theorem mightContain_eq_none {bf : BloomFilter} (hlt : bf.size < 2 ^ 32) (key : Bytes) :
    bf.mightContain key = none ↔ bf.size = 0 ∧ bf.numHash ≠ 0 := by
  by_cases hzero : bf.size = 0
  · unfold BloomFilter.mightContain
    cases hnum : bf.numHash with
    | zero => simp [BloomFilter.probeAll]
    | succ n =>
        have hhash : hashPosition key 0 bf.size = none := by
          rw [hzero]
          rfl
        rw [List.range_succ_eq_map, BloomFilter.probeAll, hhash]
        simp [hzero]
  · obtain ⟨b, hb⟩ := mightContain_isSome bf key (Nat.pos_of_ne_zero hzero) hlt
    simp [hb, hzero]

theorem panics_lookup (read : BlockReader) (sst : SSTable) (userKey : Bytes) (snapshot : Nat) :
    Panics read (Cached.lookup read sst userKey snapshot) ↔
      sst.bloom.mightContain userKey = some true ∧
        Panics read (Cached.newIterator read sst userKey snapshot) := by
  unfold Cached.lookup
  rcases sst.bloom.mightContain userKey with _ | _ | _
  · simp [not_panics_pure]
  · simp [not_panics_pure]
  · have hiter : ComputesOn read (fun _ => True) (Cached.newIterator read sst userKey snapshot)
        (newIterator read sst userKey snapshot) := computes_newIterator trivial userKey snapshot
    simp only [true_and]
    rw [panics_bind hiter]
    apply or_iff_left
    rcases newIterator read sst userKey snapshot with e | it
    · exact not_panics_pure _
    · simp only
      split
      · exact not_panics_pure _
      · split
        · exact not_panics_pure _
        · split
          · exact not_panics_pure _
          · exact not_panics_pure _

theorem lookupPanics_iff (dir : TableDir) (sst : SSTable) {file : Bytes}
    (hfile : dir.read sst.filePath = some file) (hlt : sst.bloom.size < 2 ^ 32) (userKey : Bytes)
    (snapshot : Nat) : sst.LookupPanics (readBlock dir) userKey snapshot ↔
      (sst.bloom.size = 0 ∧ sst.bloom.numHash ≠ 0) ∨
      (sst.bloom.mightContain userKey = some true ∧
        (∃ idx, brokenOff (readBlock dir) sst (sst.index.drop
            (startBlock sst.index (encodeSearchKeyAt userKey snapshot))) = some idx ∧
          0 ≤ idx.offset ∧ idx.length < 0) ∧
        ¬ SeekLands (readBlock dir) sst userKey snapshot) := by
  have hread : ∀ idx, readBlock dir sst idx = .error .panic ↔ 0 ≤ idx.offset ∧ idx.length < 0 := by
    intro idx
    rw [readBlock, hfile]
    exact readBlockFrom_eq_panic
  have hlands : ¬ SeekLands (readBlock dir) sst userKey snapshot ↔
      ((reachable (readBlock dir) sst userKey snapshot).dropWhile
        fun e => decide (e.ik < makeSearchKeyAt userKey snapshot)).all
          (fun e => !e.ik.visible snapshot) = true := by
    simp [SeekLands, List.all_eq_true]
  rw [SSTable.LookupPanics, mightContain_eq_none hlt, panics_lookup, panics_newIterator, hlands,
    PanicsIn]
  simp only [hread]

/-- A file can be opened and probed without a panic exactly when its bloom section holds
a header with a size, or no hash functions, and no seek runs into a negative length. -/
theorem neverPanics_iff (dir : TableDir) (path file : Bytes)
    (hfile : dir.read path = some file) :
    NeverPanics dir path file ↔ Probeable dir path file := by
  unfold NeverPanics Probeable
  rw [openTable_eq]
  cases hparts : readParts file with
  | error e =>
      simp [readParts_error hparts]
  | ok parts =>
      obtain ⟨index, bloomBytes⟩ := parts
      simp only
      cases hbloom : deserialize bloomBytes with
      | none =>
          have hlen := deserialize_eq_none.mp hbloom
          refine iff_of_false (fun h => h.1 rfl) fun h => ?_
          have := (h index bloomBytes rfl).1
          omega
      | some bloom =>
          have hlen : 8 ≤ bloomBytes.length := by
            by_contra hshort
            rw [deserialize_eq_none.mpr (not_le.mp hshort)] at hbloom
            cases hbloom
          have hpanics := lookupPanics_iff dir { filePath := path, index, bloom } hfile
            (deserialize_size_lt hbloom)
          constructor
          · rintro ⟨-, hnever⟩ index' bloomBytes' hok
            obtain ⟨rfl, rfl⟩ := Prod.mk.inj (Except.ok.inj hok)
            refine ⟨hlen, fun bloom' hbloom' => ?_⟩
            obtain rfl := Option.some.inj (hbloom.symm.trans hbloom')
            constructor
            · intro hzero
              -- a filter of size zero panics on any key
              by_contra hnum
              exact hnever _ rfl [] 0 (by decide) ((hpanics [] 0).mpr (Or.inl ⟨hzero, hnum⟩))
            · intro userKey snapshot hsnap hmight idx hidx hoffset hlength
              by_contra hlands
              exact hnever _ rfl userKey snapshot hsnap ((hpanics userKey snapshot).mpr
                (Or.inr ⟨hmight, ⟨idx, hidx, hoffset, hlength⟩, hlands⟩))
          · intro hsafe
            obtain ⟨hsize, hguarded⟩ := (hsafe index bloomBytes rfl).2 bloom hbloom
            refine ⟨by simp, ?_⟩
            rintro sst hsst userKey snapshot hsnap hpanic
            obtain rfl := Except.ok.inj hsst
            rcases (hpanics userKey snapshot).mp hpanic with ⟨hzero, hnum⟩ | ⟨hmight, hneg, hlands⟩
            · exact hnum (hsize hzero)
            · obtain ⟨idx, hidx, hoffset, hlength⟩ := hneg
              exact hlands (hguarded userKey snapshot hsnap hmight idx hidx hoffset hlength)

theorem probeable_of_openTable (dir : TableDir) {path file : Bytes} {sst : SSTable}
    (hopen : openTable path file = .ok sst) (hsize : sst.bloom.size ≠ 0)
    (hlength : ∀ idx ∈ sst.index, 0 ≤ idx.length) : Probeable dir path file := by
  intro index bloomBytes hparts
  simp only [openTable_eq, hparts] at hopen
  cases hbloom : deserialize bloomBytes with
  | none => simp [hbloom] at hopen
  | some bloom =>
      rw [hbloom] at hopen
      obtain rfl := Except.ok.inj hopen
      refine ⟨?_, fun bloom' hbloom' => ?_⟩
      · by_contra hshort
        rw [deserialize_eq_none.mpr (not_le.mp hshort)] at hbloom
        cases hbloom
      · obtain rfl := Option.some.inj hbloom'
        refine ⟨fun hzero => absurd hzero hsize, fun userKey snapshot _ _ idx hidx _ hneg => ?_⟩
        exact absurd (hlength idx (List.mem_of_mem_drop (mem_of_brokenOff hidx))) hneg.not_ge

theorem probeable_fileOf (dir : TableDir) (path : Bytes) {entries : List Entry}
    (h : ∀ e ∈ entries, WithinLimits e) (hcount : (cutBlocks entries).length < 2 ^ 32) :
    Probeable dir path (fileOf entries) := by
  refine probeable_of_openTable dir (openTable_fileOf path h hcount) ?_ ?_
  · exact (bloomOf_size entries ▸ Runtime.bloomSize_pos).ne'
  · have hfit : 0 + (dataOf (cutBlocks entries)).length < 2 ^ 63 := by
      have := offsetsFit_of_count h hcount
      unfold OffsetsFit at this
      omega
    exact fun idx hidx => (indexFrom_encodable (cutBlocks_blockOk h) hfit idx hidx).length_nonneg

end Files

theorem neverPanics_iff_flushed :
    ∃ (file : Bytes) (sst : SSTable), openTable [1] file = .ok sst ∧ sst.index.length = 1 ∧
      NeverPanics (FMap.empty.write [1] file) [1] file := by
  have hlimits : ∀ e ∈ [setVersion [97] 1 [1]], WithinLimits e := by
    simp only [List.mem_singleton, forall_eq]
    exact ⟨by decide, by decide⟩
  have hcut : (cutBlocks [setVersion [97] 1 [1]]).length = 1 := by decide
  refine ⟨_, _, openTable_fileOf [1] hlimits (by rw [hcut]; decide), ?_, ?_⟩
  · rw [tableOf, indexFrom_length, hcut]
  · exact (neverPanics_iff _ [1] _ (FMap.read_write_self _ _ _)).mpr
      (probeable_fileOf _ [1] hlimits (by rw [hcut]; decide))

/-- Twenty zero bytes are a footer whose bloom section is empty. -/
theorem openTable_zeros_panics :
    openTable [1] (List.replicate 20 0) = .error .panic ∧
      ¬ NeverPanics (FMap.empty.write [1] (List.replicate 20 0)) [1] (List.replicate 20 0) := by
  have hopen : openTable [1] (List.replicate 20 0) = .error .panic := by decide
  exact ⟨hopen, fun hnever => hnever.1 hopen⟩

end Hcdb.Sstable
