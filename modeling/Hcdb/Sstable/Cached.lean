import Hcdb.Cache
import Hcdb.Lib.Asking
import Hcdb.Lib.Decimal
import Hcdb.Sstable.Table

namespace Hcdb.Sstable

open Hcdb.Lib.ByteString
open Hcdb.Lib.Decimal
open Hcdb.Lib.Asking
open Hcdb.Base
open Hcdb.Bloomfilter
open Hcdb.Cache

/-- Blocks are cached as the entries they hold. -/
abbrev BlockCache := ShardedLRU (List Entry)

/-- `fmt.Sprintf("%s:%d", filePath, offset)`. -/
def cacheKey (filePath : Bytes) (offset : Int) : Bytes :=
  filePath ++ 58 :: formatInt offset

/-- The last colon ends the path, whatever the path is. -/
theorem cacheKey_inj {path path' : Bytes} {offset offset' : Int}
    (h : cacheKey path offset = cacheKey path' offset') : path = path' ∧ offset = offset' := by
  have hcolon : ∀ z, (58 : UInt8) ∉ formatInt z := by
    intro z hmem
    rcases mem_formatInt hmem with h | h
    · exact absurd h (by decide)
    · exact absurd h.2 (by decide)
  obtain ⟨hpath, hoffset⟩ := append_cons_inj_of_not_mem (hcolon _) (hcolon _) h
  exact ⟨hpath, formatInt_injective hoffset⟩

theorem indexFrom_offset_inj [Runtime] {start : Nat} {blocks : List (List Entry)}
    {idx idx' : IndexEntry} (hidx : idx ∈ indexFrom start blocks)
    (hidx' : idx' ∈ indexFrom start blocks) (h : idx.offset = idx'.offset) : idx = idx' := by
  have hle : ∀ (start : Nat) (blocks : List (List Entry)), ∀ idx ∈ indexFrom start blocks,
      (start : Int) ≤ idx.offset := by
    intro start blocks
    induction blocks generalizing start with
    | nil => simp [indexFrom]
    | cons block blocks ih =>
        refine List.forall_mem_cons.mpr ⟨le_rfl, fun idx hidx => ?_⟩
        have := ih _ idx hidx
        omega
  induction blocks generalizing start with
  | nil => simp [indexFrom] at hidx
  | cons block blocks ih =>
      have hlater : ∀ idx ∈ indexFrom (start + (encodeBlock block).length) blocks,
          (start : Int) < idx.offset := by
        intro idx hidx
        have := hle _ _ idx hidx
        rw [encodeBlock_length] at this
        omega
      rcases List.mem_cons.mp hidx with rfl | hidx
      · rcases List.mem_cons.mp hidx' with rfl | hidx'
        · rfl
        · exact absurd h (hlater idx' hidx').ne
      · rcases List.mem_cons.mp hidx' with rfl | hidx'
        · exact absurd h (hlater idx hidx).ne'
        · exact ih hidx hidx'

/-- `readBlock` of a table with a cache. -/
def readBlockCached [Runtime] (dir : TableDir) (cache : BlockCache) (sst : SSTable)
    (idx : IndexEntry) : Except SstErr (List Entry) × BlockCache :=
  let key := cacheKey sst.filePath idx.offset
  match cache.get key with
  | (some entries, cache) => (.ok entries, cache)
  | (none, cache) =>
      match readBlock dir sst idx with
      | .error e => (.error e, cache)
      | .ok entries => (.ok entries, cache.put key entries)

/-- A program that reads blocks. -/
abbrev Reading (α : Type) := Program (SSTable × IndexEntry) (Except SstErr (List Entry)) α

namespace Iterator

theorem stop_inBounds (it : Iterator) : false = true → it.pos < it.entries.length := by simp

def stop (it : Iterator) : Iterator := { it with valid := false, inBounds := it.stop_inBounds }

theorem loaded_inBounds (entries : List Entry) :
    decide (0 < entries.length) = true → 0 < entries.length := of_decide_eq_true

/-- The iterator is at the first entry of a block that was read. -/
def loaded (it : Iterator) (entries : List Entry) : Iterator :=
  { it with
    entries, pos := 0, valid := decide (0 < entries.length), inBounds := loaded_inBounds entries }

theorem step_inBounds {it : Iterator} (h : it.pos + 1 < it.entries.length) :
    it.valid = true → it.pos + 1 < it.entries.length := fun _ => h

def step (it : Iterator) (h : it.pos + 1 < it.entries.length) : Iterator :=
  { it with pos := it.pos + 1, inBounds := step_inBounds h }

theorem leave_inBounds (it : Iterator) : false = true → it.pos + 1 < it.entries.length := by simp

/-- The iterator is behind the last entry of its block. -/
def leave (it : Iterator) : Iterator :=
  { it with
    pos := it.pos + 1, blockIdx := it.blockIdx + 1, valid := false
    inBounds := it.leave_inBounds }

end Iterator

namespace Cached

def loadBlock (it : Iterator) : Reading (Except SstErr Iterator) :=
  match it.sst.index[it.blockIdx]? with
  | none => pure (.ok it.stop)
  | some idx => do
      match ← Program.asking (it.sst, idx) with
      | .error e => pure (.error e)
      | .ok entries => pure (.ok (it.loaded entries))

def advance (it : Iterator) : Reading (Iterator × Bool) :=
  if h : it.pos + 1 < it.entries.length then pure (it.step h, true)
  else do
    match ← loadBlock it.leave with
    | .error _ => pure (it.leave, false)
    | .ok next => pure (next, next.valid)

def skipLoop (skip : Entry → Bool) : Nat → Iterator → Reading Iterator
  | 0, it => pure it
  | fuel + 1, it =>
      match it.current? with
      | none => pure it
      | some e =>
          if skip e then do
            match ← advance it with
            | (it, true) => skipLoop skip fuel it
            | (it, false) => pure it
          else pure it

/-- The loop ends by itself; `disk` only tells how many turns are enough. -/
def skipWhile (disk : BlockReader) (skip : Entry → Bool) (it : Iterator) : Reading Iterator :=
  skipLoop skip (it.remaining disk).length it

def skipInvisible (disk : BlockReader) (it : Iterator) : Reading Iterator :=
  skipWhile disk (fun e => !e.ik.visible it.snapshot) it

def next (disk : BlockReader) (it : Iterator) : Reading Iterator := do
  match ← advance it with
  | (it, true) => skipInvisible disk it
  | (it, false) => pure it

theorem start_inBounds : false = true → 0 < ([] : List Entry).length := by simp

def newIterator (disk : BlockReader) (sst : SSTable) (lowerBound : Bytes) (snapshot : Nat) :
    Reading (Except SstErr Iterator) := do
  let encodedSeek := encodeSearchKeyAt lowerBound snapshot
  let seekKey := decodeInternalKey encodedSeek
  let it : Iterator :=
    { sst, snapshot, blockIdx := startBlock sst.index encodedSeek, entries := [], pos := 0,
      valid := false, inBounds := start_inBounds }
  match ← loadBlock it with
  | .error e => pure (.error e)
  | .ok it => do
      let it ← skipWhile disk (fun e => internalCompare bytesCompare e.ik seekKey == .lt) it
      let it ← skipInvisible disk it
      pure (.ok it)

/-- `Lookup`; the filter is asked before any block is read. -/
def lookup [Runtime] (disk : BlockReader) (sst : SSTable) (userKey : Bytes) (snapshot : Nat) :
    Reading (Except SstErr KeyLookup) :=
  match sst.bloom.mightContain userKey with
  | none => pure (.error .panic)
  | some false => pure (.ok .absent)
  | some true => do
      match ← newIterator disk sst userKey snapshot with
      | .error e => pure (.error e)
      | .ok it =>
          match it.current? with
          | none => pure (.ok .absent)
          | some e =>
              if e.userKey ≠ userKey then pure (.ok .absent)
              else if e.kind = internalKeyKindDelete then pure (.ok .deleted)
              else pure (.ok (.found e.value))

end Cached

/-- With `disk` behind all reads the program reads blocks of tables that are `ok`, and
returns the value. -/
def ComputesOn (disk : BlockReader) (ok : SSTable → Prop) {α : Type} (p : Reading α) (a : α) :
    Prop :=
  Computes (fun q => disk q.1 q.2) (fun q => ok q.1 ∧ q.2 ∈ q.1.index) p a

section Computes

variable {disk : BlockReader} {ok : SSTable → Prop}

theorem Iterator.advance_sst (disk : BlockReader) (it : Iterator) :
    (it.advance disk).1.sst = it.sst := by
  unfold Iterator.advance
  split
  · rfl
  · simp only
    split
    · rfl
    · rename_i next hload
      exact (Iterator.loadBlock_remaining disk hload).2.1

theorem Iterator.skipLoop_sst (disk : BlockReader) (skip : Entry → Bool) (fuel : Nat)
    (it : Iterator) : (Iterator.skipLoop disk skip fuel it).sst = it.sst := by
  induction fuel generalizing it with
  | zero => rfl
  | succ fuel ih =>
      have hsst := it.advance_sst disk
      unfold Iterator.skipLoop
      split
      · rfl
      · split
        · split
          · rename_i it' hadvance
            rw [hadvance] at hsst
            exact (ih it').trans hsst
          · rename_i it' hadvance
            rw [hadvance] at hsst
            exact hsst
        · rfl

theorem Iterator.next_sst (disk : BlockReader) (it : Iterator) : (it.next disk).sst = it.sst := by
  have hsst := it.advance_sst disk
  unfold Iterator.next
  split
  · rename_i it' hadvance
    rw [hadvance] at hsst
    exact (it'.skipLoop_sst disk _ _).trans hsst
  · rename_i it' hadvance
    rw [hadvance] at hsst
    exact hsst

theorem newIterator_sst {sst : SSTable} {lowerBound : Bytes} {snapshot : Nat} {it : Iterator}
    (h : newIterator disk sst lowerBound snapshot = .ok it) : it.sst = sst := by
  unfold newIterator at h
  simp only at h
  split at h
  · simp at h
  · rename_i loaded hload
    obtain rfl := Except.ok.inj h
    have hsst := (Iterator.loadBlock_remaining disk hload).2.1
    exact (Iterator.skipLoop_sst disk _ _ _).trans
      ((Iterator.skipLoop_sst disk _ _ loaded).trans hsst)

theorem computes_loadBlock {it : Iterator} (h : ok it.sst) :
    ComputesOn disk ok (Cached.loadBlock it) (it.loadBlock disk) := by
  unfold Cached.loadBlock Iterator.loadBlock
  cases hidx : it.sst.index[it.blockIdx]? with
  | none => exact Computes.pure _
  | some idx =>
      refine Computes.bind (Computes.asking ⟨h, List.mem_of_getElem? hidx⟩) ?_
      simp only
      cases disk it.sst idx with
      | error e => exact Computes.pure _
      | ok entries => exact Computes.pure _

theorem computes_advance {it : Iterator} (h : ok it.sst) :
    ComputesOn disk ok (Cached.advance it) (it.advance disk) := by
  unfold Cached.advance Iterator.advance
  split
  · exact Computes.pure _
  · have hleave : ok it.leave.sst := h
    refine Computes.bind (computes_loadBlock hleave) ?_
    change Computes _ _ (match it.leave.loadBlock disk with
      | .error _ => pure (it.leave, false)
      | .ok next => pure (next, next.valid)) (match it.leave.loadBlock disk with
      | .error _ => (it.leave, false)
      | .ok next => (next, next.valid))
    cases it.leave.loadBlock disk with
    | error e => exact Computes.pure _
    | ok next => exact Computes.pure _

theorem computes_skipLoop (skip : Entry → Bool) (fuel : Nat) {it : Iterator} (h : ok it.sst) :
    ComputesOn disk ok (Cached.skipLoop skip fuel it) (Iterator.skipLoop disk skip fuel it) := by
  induction fuel generalizing it with
  | zero => exact Computes.pure _
  | succ fuel ih =>
      unfold Cached.skipLoop Iterator.skipLoop
      cases it.current? with
      | none => exact Computes.pure _
      | some e =>
          simp only
          split
          · refine Computes.bind (computes_advance h) ?_
            have hsst := it.advance_sst disk
            rcases hadvance : it.advance disk with ⟨it', flag⟩
            rw [hadvance] at hsst
            cases flag with
            | true => exact ih (hsst ▸ h)
            | false => exact Computes.pure _
          · exact Computes.pure _

theorem computes_next {it : Iterator} (h : ok it.sst) :
    ComputesOn disk ok (Cached.next disk it) (it.next disk) := by
  unfold Cached.next Iterator.next
  refine Computes.bind (computes_advance h) ?_
  have hsst := it.advance_sst disk
  rcases hadvance : it.advance disk with ⟨it', flag⟩
  rw [hadvance] at hsst
  cases flag with
  | true => exact computes_skipLoop _ _ (hsst ▸ h)
  | false => exact Computes.pure _

theorem computes_newIterator {sst : SSTable} (h : ok sst) (lowerBound : Bytes) (snapshot : Nat) :
    ComputesOn disk ok (Cached.newIterator disk sst lowerBound snapshot)
      (newIterator disk sst lowerBound snapshot) := by
  have hseek : ∀ (skip : Entry → Bool) (it : Iterator), ok it.sst → ComputesOn disk ok
      (do
        let it ← Cached.skipWhile disk skip it
        let it ← Cached.skipInvisible disk it
        pure (Except.ok it : Except SstErr Iterator))
      (.ok ((it.skipWhile disk skip).skipInvisible disk)) := by
    intro skip it hit
    have hsst := it.skipLoop_sst disk skip (it.remaining disk).length
    refine Computes.bind (computes_skipLoop skip _ hit) ?_
    exact Computes.bind (computes_skipLoop _ _ (hsst ▸ hit)) (Computes.pure _)
  unfold Cached.newIterator newIterator
  refine Computes.bind (computes_loadBlock h) ?_
  simp only
  split
  · rename_i hload
    rw [hload]
    exact Computes.pure _
  · rename_i it hload
    rw [hload]
    have hsst := (Iterator.loadBlock_remaining disk hload).2.1
    exact hseek _ it (hsst.symm ▸ h)

theorem computes_lookup [Runtime] {sst : SSTable} (h : ok sst) (userKey : Bytes) (snapshot : Nat) :
    ComputesOn disk ok (Cached.lookup disk sst userKey snapshot)
      (sst.lookup disk userKey snapshot) := by
  unfold Cached.lookup SSTable.lookup
  rcases sst.bloom.mightContain userKey with _ | _ | _
  · exact Computes.pure _
  · exact Computes.pure _
  · refine Computes.bind (computes_newIterator h userKey snapshot) ?_
    simp only
    rcases newIterator disk sst userKey snapshot with e | it
    · exact Computes.pure _
    · simp only
      rcases it.current? with _ | e
      · exact Computes.pure _
      · simp only
        split
        · exact Computes.pure _
        · split
          · exact Computes.pure _
          · exact Computes.pure _

end Computes

end Hcdb.Sstable
