import Hcdb.Lib.Traversal
import Hcdb.Sstable.Reader

/-!
The forward iterator over one table.  It loads one block at a time; only the
load that `NewIterator` makes reports an error, a later one that fails just ends
the iteration.
-/

namespace Hcdb.Sstable

open Hcdb.Lib.ByteString
open Hcdb.Lib.SortedList
open Hcdb.Lib.Traversal
open Hcdb.Base

/-- How `readBlock` answers, for one state of the disk. -/
abbrev BlockReader := SSTable → IndexEntry → Except SstErr (List Entry)

/-- The place before the newest version that the snapshot can see. -/
def encodeSearchKeyAt (userKey : Bytes) (snapshot : Nat) : Bytes :=
  (makeSearchKeyAt userKey snapshot).encode

theorem decodeInternalKey_encodeSearchKeyAt (userKey : Bytes) (snapshot : Nat) :
    decodeInternalKey (encodeSearchKeyAt userKey snapshot) = makeSearchKeyAt userKey snapshot :=
  InternalKey.decode_encode _

/-- The block that is loaded, and the place in it. -/
structure Iterator where
  sst : SSTable
  snapshot : Nat
  blockIdx : Nat
  entries : List Entry
  pos : Nat
  valid : Bool
  inBounds : valid = true → pos < entries.length

namespace Iterator

variable (read : BlockReader)

/-- The entry `Key` and `Value` read; there is none when the iterator is not
valid. -/
def current? (it : Iterator) : Option Entry :=
  if it.valid then it.entries[it.pos]? else none

/-- Behind the last block the iterator is at its end. -/
def loadBlock (it : Iterator) : Except SstErr Iterator :=
  match it.sst.index[it.blockIdx]? with
  | none => .ok { it with valid := false, inBounds := by simp }
  | some idx =>
      match read it.sst idx with
      | .error e => .error e
      | .ok entries => .ok { it with
          entries
          pos := 0
          valid := decide (0 < entries.length)
          inBounds := of_decide_eq_true }

/-- The next entry, from the next block if this one is used up. -/
def advance (it : Iterator) : Iterator × Bool :=
  if h : it.pos + 1 < it.entries.length then
    ({ it with pos := it.pos + 1, inBounds := fun _ => h }, true)
  else
    let stopped : Iterator :=
      { it with
        pos := it.pos + 1, blockIdx := it.blockIdx + 1, valid := false, inBounds := by simp }
    match loadBlock read stopped with
    | .error _ => (stopped, false)
    | .ok next => (next, next.valid)

/-- The entries of the blocks listed in `index`, up to the first block that
cannot be read or holds nothing. -/
def blocksFrom (sst : SSTable) : List IndexEntry → List Entry
  | [] => []
  | idx :: index =>
      match read sst idx with
      | .error _ => []
      | .ok [] => []
      | .ok (e :: es) => e :: es ++ blocksFrom sst index

/-- What the iterator still stands before, whether visible or not. -/
def remaining (it : Iterator) : List Entry :=
  if it.valid then
    it.entries.drop it.pos ++ blocksFrom read it.sst (it.sst.index.drop (it.blockIdx + 1))
  else []

/-- `for it.valid && skip(current) { if !it.advance() { break } }`. -/
def skipLoop (skip : Entry → Bool) : Nat → Iterator → Iterator
  | 0, it => it
  | fuel + 1, it =>
      match it.current? with
      | none => it
      | some e =>
          if skip e then
            match advance read it with
            | (it, true) => skipLoop skip fuel it
            | (it, false) => it
          else it

/-- Every turn of the loop passes one entry. -/
def skipWhile (skip : Entry → Bool) (it : Iterator) : Iterator :=
  skipLoop read skip (it.remaining read).length it

def skipInvisible (it : Iterator) : Iterator :=
  it.skipWhile read fun e => !e.ik.visible it.snapshot

/-- The next entry that the snapshot can see. -/
def next (it : Iterator) : Iterator :=
  match it.advance read with
  | (it, true) => it.skipInvisible read
  | (it, false) => it

theorem current?_eq_head? (it : Iterator) : it.current? = (it.remaining read).head? := by
  unfold current? remaining
  split
  · rename_i hvalid
    have hlt := it.inBounds hvalid
    rw [List.head?_append, List.head?_drop, List.getElem?_eq_getElem hlt, Option.some_or]
  · rfl

theorem loadBlock_remaining {it next : Iterator} (h : it.loadBlock read = .ok next) :
    next.remaining read = blocksFrom read it.sst (it.sst.index.drop it.blockIdx) ∧
    next.sst = it.sst ∧ next.snapshot = it.snapshot := by
  unfold loadBlock at h
  split at h
  · rename_i hnone
    simp only [Except.ok.injEq] at h
    subst h
    have hdrop : it.sst.index.drop it.blockIdx = [] :=
      List.drop_eq_nil_of_le (List.getElem?_eq_none_iff.mp hnone)
    simp [remaining, hdrop, blocksFrom]
  · rename_i idx hidx
    split at h
    · simp at h
    · rename_i entries hread
      simp only [Except.ok.injEq] at h
      subst h
      obtain ⟨hlt, hget⟩ := List.getElem?_eq_some_iff.mp hidx
      have hdrop : it.sst.index.drop it.blockIdx =
          idx :: it.sst.index.drop (it.blockIdx + 1) := by
        rw [List.drop_eq_getElem_cons hlt, hget]
      refine ⟨?_, rfl, rfl⟩
      rw [hdrop, blocksFrom, hread]
      cases entries with
      | nil => rfl
      | cons e es => rfl

theorem loadBlock_error {it : Iterator} {e : SstErr} (h : it.loadBlock read = .error e) :
    blocksFrom read it.sst (it.sst.index.drop it.blockIdx) = [] := by
  unfold loadBlock at h
  split at h
  · simp at h
  · rename_i idx hidx
    split at h
    · rename_i hread
      obtain ⟨hlt, hget⟩ := List.getElem?_eq_some_iff.mp hidx
      rw [List.drop_eq_getElem_cons hlt, hget, blocksFrom, hread]
    · simp at h

theorem valid_eq_isSome (it : Iterator) : it.valid = it.current?.isSome := by
  unfold current?
  split
  · rename_i hvalid
    rw [List.getElem?_eq_getElem (it.inBounds hvalid), hvalid]
    rfl
  · rename_i hvalid
    simpa using hvalid

theorem advance_remaining {it : Iterator} (hvalid : it.valid = true) :
    (it.advance read).1.remaining read = (it.remaining read).tail ∧
    (it.advance read).2 = (it.advance read).1.valid ∧
    (it.advance read).1.snapshot = it.snapshot := by
  have hlt := it.inBounds hvalid
  have htail : (it.remaining read).tail = it.entries.drop (it.pos + 1) ++
      blocksFrom read it.sst (it.sst.index.drop (it.blockIdx + 1)) := by
    rw [remaining, if_pos hvalid, List.drop_eq_getElem_cons hlt]
    rfl
  rw [htail]
  unfold advance
  split
  · refine ⟨?_, hvalid.symm, rfl⟩
    rw [remaining, if_pos hvalid]
  · rename_i hend
    rw [List.drop_eq_nil_of_le (not_lt.mp hend), List.nil_append]
    simp only
    split
    · rename_i e herror
      refine ⟨?_, rfl, rfl⟩
      rw [loadBlock_error read herror]
      rfl
    · rename_i next hload
      obtain ⟨hrem, -, hsnap⟩ := loadBlock_remaining read hload
      exact ⟨hrem, rfl, hsnap⟩

theorem skipLoop_remaining (skip : Entry → Bool) {fuel : Nat} {it : Iterator}
    (hfuel : (it.remaining read).length ≤ fuel) :
    (skipLoop read skip fuel it).remaining read = (it.remaining read).dropWhile skip ∧
    (skipLoop read skip fuel it).snapshot = it.snapshot := by
  induction fuel generalizing it with
  | zero =>
      have hnil : it.remaining read = [] := List.length_eq_zero_iff.mp (by omega)
      simp [skipLoop, hnil]
  | succ fuel ih =>
      have hcur := it.current?_eq_head? read
      have hval := it.valid_eq_isSome
      unfold skipLoop
      cases hrem : it.remaining read with
      | nil =>
          rw [hrem] at hcur
          simp [hcur, hrem]
      | cons e es =>
          rw [hrem] at hcur
          simp only [hcur, List.head?_cons]
          have hvalid : it.valid = true := by rw [hval, hcur]; rfl
          obtain ⟨hadv, hflag, hsnap⟩ := advance_remaining read hvalid
          rw [hrem, List.tail_cons] at hadv
          by_cases hskip : skip e = true
          · rw [if_pos hskip, List.dropWhile_cons_of_pos hskip]
            rcases hpair : it.advance read with ⟨it', flag⟩
            rw [hpair] at hadv hflag hsnap
            simp only at hadv hflag hsnap
            cases flag with
            | true =>
                have hlen : (it'.remaining read).length ≤ fuel := by
                  rw [hrem, List.length_cons] at hfuel
                  rw [hadv]
                  omega
                obtain ⟨hdrop, hsnap'⟩ := ih hlen
                simp only
                rw [hdrop, hadv, hsnap', hsnap]
                exact ⟨rfl, rfl⟩
            | false =>
                -- the loop breaks when `advance` finds no entry
                have hnil : es = [] := by
                  rw [← hadv, remaining, ← hflag]
                  rfl
                simp only
                rw [hadv, hnil]
                exact ⟨rfl, hsnap⟩
          · rw [if_neg hskip, List.dropWhile_cons_of_neg hskip, hrem]
            exact ⟨rfl, rfl⟩

theorem skipWhile_remaining (skip : Entry → Bool) (it : Iterator) :
    (it.skipWhile read skip).remaining read = (it.remaining read).dropWhile skip ∧
    (it.skipWhile read skip).snapshot = it.snapshot :=
  skipLoop_remaining read skip le_rfl

theorem skipInvisible_remaining (it : Iterator) :
    (it.skipInvisible read).remaining read =
      (it.remaining read).dropWhile (fun e => !e.ik.visible it.snapshot) ∧
    (it.skipInvisible read).snapshot = it.snapshot :=
  skipWhile_remaining read _ it

theorem length_remaining_next {it : Iterator} {e : Entry} (h : it.current? = some e) :
    ((it.next read).remaining read).length < (it.remaining read).length := by
  have hvalid : it.valid = true := by rw [it.valid_eq_isSome, h]; rfl
  have hadv := (advance_remaining read hvalid).1
  have hlt : (it.remaining read).tail.length < (it.remaining read).length := by
    rw [it.current?_eq_head? read] at h
    cases hrem : it.remaining read with
    | nil => simp [hrem] at h
    | cons a es => simp
  unfold next
  split
  · rename_i it' hpair
    rw [hpair] at hadv
    rw [(it'.skipInvisible_remaining read).1]
    exact lt_of_le_of_lt (List.dropWhile_sublist _).length_le (hadv ▸ hlt)
  · rename_i it' hpair
    rw [hpair] at hadv
    exact hadv ▸ hlt

theorem filter_dropWhile_not (p : Entry → Bool) (l : List Entry) :
    (l.dropWhile fun e => !p e).filter p = l.filter p := by
  induction l with
  | nil => rfl
  | cons e l ih =>
      by_cases h : p e = true
      · simp [h]
      · simp [h, ih]

theorem skipInvisible_visible (it : Iterator) {e : Entry}
    (h : (it.skipInvisible read).current? = some e) :
    e.ik.visible (it.skipInvisible read).snapshot = true := by
  obtain ⟨hskip, hsnap⟩ := it.skipInvisible_remaining read
  rw [current?_eq_head? read, hskip] at h
  have hne := List.head?_dropWhile_not (fun e => !e.ik.visible it.snapshot) (it.remaining read)
  rw [h] at hne
  rw [hsnap]
  simpa using hne

theorem yields_filter_visible {it : Iterator}
    (hhead : ∀ e, it.current? = some e → e.ik.visible it.snapshot = true) :
    Yields current? (next read) it
      ((it.remaining read).filter fun e => e.ik.visible it.snapshot) := by
  generalize hn : (it.remaining read).length = n
  induction n using Nat.strong_induction_on generalizing it with
  | _ n ih =>
      have hcur := it.current?_eq_head? read
      cases hrem : it.remaining read with
      | nil =>
          rw [hrem] at hcur
          exact .nil hcur
      | cons e es =>
          rw [hrem, List.head?_cons] at hcur
          have hvalid : it.valid = true := by rw [it.valid_eq_isSome, hcur]; rfl
          obtain ⟨hadv, hflag, hsnap⟩ := advance_remaining read hvalid
          rw [hrem, List.tail_cons] at hadv
          have hlen : es.length < n := by rw [← hn, hrem, List.length_cons]; omega
          rw [List.filter_cons, if_pos (hhead e hcur)]
          refine .cons hcur ?_
          unfold next
          rcases hpair : it.advance read with ⟨it', flag⟩
          rw [hpair] at hadv hflag hsnap
          simp only at hadv hflag hsnap
          cases flag with
          | false =>
              have hnil : es = [] := by
                rw [← hadv, remaining, ← hflag]
                rfl
              simp only [hnil, List.filter_nil]
              apply Yields.nil
              rw [it'.current?_eq_head? read, hadv, hnil]
              rfl
          | true =>
              obtain ⟨hskip, hsnap'⟩ := it'.skipInvisible_remaining read
              rw [hadv] at hskip
              have hlen' : ((it'.skipInvisible read).remaining read).length < n := by
                rw [hskip]
                exact lt_of_le_of_lt (List.dropWhile_sublist _).length_le hlen
              have hyields := ih _ hlen' (fun a => it'.skipInvisible_visible read) rfl
              rw [hskip, hsnap', filter_dropWhile_not, hsnap] at hyields
              exact hyields

end Iterator

/-- The block a seek loads first: the one `searchIndex` names, or block 0 when the
key sorts before all of them. -/
def startBlock (index : List IndexEntry) (encodedSeek : Bytes) : Nat :=
  let blockIdx := searchIndex index encodedSeek
  if blockIdx < 0 then 0 else blockIdx.toNat

def newIterator (read : BlockReader) (sst : SSTable) (lowerBound : Bytes) (snapshot : Nat) :
    Except SstErr Iterator :=
  let encodedSeek := encodeSearchKeyAt lowerBound snapshot
  let seekKey := decodeInternalKey encodedSeek
  let it : Iterator :=
    { sst, snapshot, blockIdx := startBlock sst.index encodedSeek, entries := [], pos := 0,
      valid := false, inBounds := by simp }
  match it.loadBlock read with
  | .error e => .error e
  | .ok it =>
      .ok ((it.skipWhile read fun e =>
        internalCompare bytesCompare e.ik seekKey == .lt).skipInvisible read)

theorem searchIndexLoop_spec {index : List IndexEntry}
    (hs : SortedBy (fun idx => decodeInternalKey idx.firstKey) index) (target : InternalKey)
    (fuel lo hi : Nat)
    (hlo : lo ≤ hi) (hhi : hi ≤ index.length) (hfuel : hi - lo ≤ fuel)
    (hbelow : ∀ i (h : i < index.length), i < lo →
      decodeInternalKey index[i].firstKey ≤ target)
    (habove : ∀ i (h : i < index.length), hi ≤ i →
      target < decodeInternalKey index[i].firstKey) :
    ∃ n ≤ index.length,
      searchIndexLoop index target fuel lo (hi - 1) (lo - 1) = (n : Int) - 1 ∧
      (∀ i (h : i < index.length), i < n → decodeInternalKey index[i].firstKey ≤ target) ∧
      (∀ i (h : i < index.length), n ≤ i → target < decodeInternalKey index[i].firstKey) := by
  have hmono : ∀ i j (hi : i < index.length) (hj : j < index.length), i ≤ j →
      decodeInternalKey index[i].firstKey ≤ decodeInternalKey index[j].firstKey := by
    intro i j hi hj hij
    rcases hij.lt_or_eq with h | rfl
    · exact (List.pairwise_iff_getElem.mp hs i j hi hj h).le
    · exact le_rfl
  induction fuel generalizing lo hi with
  | zero =>
      obtain rfl : lo = hi := by omega
      exact ⟨lo, hhi, rfl, hbelow, habove⟩
  | succ fuel ih =>
      by_cases hlt : lo < hi
      · -- the probe falls on a block of the interval
        obtain ⟨mid, hmid⟩ : ∃ mid : Nat, mid = (lo + hi - 1) / 2 := ⟨_, rfl⟩
        have hge : lo ≤ mid := by omega
        have hmidhi : mid < hi := by omega
        have hlen : mid < index.length := by omega
        have hcast : ((lo : Int) + ((hi : Int) - 1)) / 2 = (mid : Int) := by omega
        have hle : (lo : Int) ≤ (hi : Int) - 1 := by omega
        have hget : index.getD mid default = index[mid] := by simp [hlen]
        rw [searchIndexLoop, if_pos hle]
        simp only [hcast, Int.toNat_natCast, hget]
        split
        · rename_i hcmp
          have hle' : decodeInternalKey index[mid].firstKey ≤ target := by
            rw [internalCompare_eq_cmp, ne_eq, cmp_eq_gt_iff, not_lt] at hcmp
            exact hcmp
          have hrec := ih (mid + 1) hi (by omega) hhi (by omega)
            (fun i h hi' => (hmono i mid h hlen (by omega)).trans hle') habove
          have hres : ((mid + 1 : Nat) : Int) - 1 = (mid : Int) := by omega
          rw [hres] at hrec
          exact hrec
        · rename_i hcmp
          have hgt : target < decodeInternalKey index[mid].firstKey := by
            rw [internalCompare_eq_cmp, ne_eq, not_not, cmp_eq_gt_iff] at hcmp
            exact hcmp
          exact ih lo mid hge (by omega) (by omega) hbelow
            (fun i h hi' => hgt.trans_le (hmono mid i hlen h hi'))
      · obtain rfl : lo = hi := by omega
        have hstop : ¬ (lo : Int) ≤ (lo : Int) - 1 := by omega
        rw [searchIndexLoop, if_neg hstop]
        exact ⟨lo, hhi, rfl, hbelow, habove⟩

/-- The seek starts at a block such that the blocks before it lie below its first
key, and its first key is at or below the key sought unless it is block 0. -/
theorem startBlock_spec {index : List IndexEntry}
    (hs : SortedBy (fun idx => decodeInternalKey idx.firstKey) index) (encodedSeek : Bytes) :
    (index = [] ∨ startBlock index encodedSeek < index.length) ∧
    (0 < startBlock index encodedSeek → ∃ h : startBlock index encodedSeek < index.length,
      decodeInternalKey index[startBlock index encodedSeek].firstKey ≤
        decodeInternalKey encodedSeek) ∧
    (∀ i (h : i < index.length), startBlock index encodedSeek < i →
      decodeInternalKey encodedSeek < decodeInternalKey index[i].firstKey) := by
  obtain ⟨n, hn, hsearch, hbelow, habove⟩ := searchIndexLoop_spec hs
    (decodeInternalKey encodedSeek) index.length 0 index.length (by omega) le_rfl (by omega)
    (by omega) (by omega)
  have hstart : startBlock index encodedSeek = n - 1 := by
    unfold startBlock searchIndex
    simp only [Nat.cast_zero, zero_sub] at hsearch
    simp only [hsearch]
    split <;> omega
  rw [hstart]
  refine ⟨?_, ?_, ?_⟩
  · rcases index with _ | ⟨idx, index⟩
    · exact Or.inl rfl
    · right
      rw [List.length_cons] at hn ⊢
      omega
  · intro hpos
    exact ⟨by omega, hbelow _ _ (by omega)⟩
  · intro i h hi
    exact habove i h (by omega)

section NewIterator

variable (read : BlockReader) (sst : SSTable) (lowerBound : Bytes) (snapshot : Nat)

/-- The entries a seek can reach: those from its first block up to the first
block that cannot be read. -/
def reachable : List Entry :=
  Iterator.blocksFrom read sst
    (sst.index.drop (startBlock sst.index (encodeSearchKeyAt lowerBound snapshot)))

theorem seekSkip_eq : (fun e : Entry => internalCompare bytesCompare e.ik
      (decodeInternalKey (encodeSearchKeyAt lowerBound snapshot)) == .lt) =
    fun e => decide (e.ik < makeSearchKeyAt lowerBound snapshot) := by
  funext e
  rw [decodeInternalKey_encodeSearchKeyAt, internalCompare_eq_cmp, Bool.eq_iff_iff, beq_iff_eq,
    decide_eq_true_eq]
  exact cmp_eq_lt_iff _ _

theorem newIterator_error {idx : IndexEntry} {e : SstErr}
    (hidx : sst.index[startBlock sst.index (encodeSearchKeyAt lowerBound snapshot)]? = some idx)
    (hread : read sst idx = .error e) : newIterator read sst lowerBound snapshot = .error e := by
  simp only [newIterator, Iterator.loadBlock, hidx, hread]

/-- Once its first block is loaded the iterator yields every reachable entry from
the search key on that is visible. -/
theorem newIterator_yields
    (hload : ∀ idx,
      sst.index[startBlock sst.index (encodeSearchKeyAt lowerBound snapshot)]? = some idx →
      ∃ es, read sst idx = .ok es) :
    ∃ it, newIterator read sst lowerBound snapshot = .ok it ∧
      Yields Iterator.current? (Iterator.next read) it
        (((reachable read sst lowerBound snapshot).dropWhile
          fun e => decide (e.ik < makeSearchKeyAt lowerBound snapshot)).filter
          fun e => e.ik.visible snapshot) := by
  unfold newIterator
  simp only
  split
  · rename_i e herror
    exfalso
    unfold Iterator.loadBlock at herror
    simp only at herror
    split at herror
    · simp at herror
    · rename_i idx hidx
      obtain ⟨es, hread⟩ := hload idx hidx
      rw [hread] at herror
      simp at herror
  · rename_i it hit
    refine ⟨_, rfl, ?_⟩
    obtain ⟨hrem, -, hsnap⟩ := Iterator.loadBlock_remaining read hit
    simp only at hrem hsnap
    rw [seekSkip_eq]
    generalize hsk : (it.skipWhile read fun e =>
      decide (e.ik < makeSearchKeyAt lowerBound snapshot)) = it'
    obtain ⟨hskip, hsnap'⟩ := it.skipWhile_remaining read fun e =>
      decide (e.ik < makeSearchKeyAt lowerBound snapshot)
    rw [hsk, hrem] at hskip
    rw [hsk, hsnap] at hsnap'
    obtain ⟨hvis, hsnap''⟩ := it'.skipInvisible_remaining read
    have hyields := Iterator.yields_filter_visible read fun e => it'.skipInvisible_visible read
    rw [hsnap'', hvis, hsnap', Iterator.filter_dropWhile_not, hskip] at hyields
    exact hyields

end NewIterator

end Hcdb.Sstable
