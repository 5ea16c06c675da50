import Hcdb.Base.Layers
import Hcdb.Sstable.Table

/-!
A memtable and the table that a flush makes of it answer every lookup alike.  The
table that `Open` reads back does so as long as the footer can count the blocks.
-/

namespace Hcdb.Sstable

open Hcdb.Lib.ByteString
open Hcdb.Lib.SortedList
open Hcdb.Lib.FiniteMap
open Hcdb.Base
open Hcdb.Memtable

/-- The lookup tells of a newest version of the key up to the snapshot, or that
there is none. -/
def AnswersNewest (es : List Entry) (userKey : Bytes) (snapshot : Nat) (result : KeyLookup) :
    Prop :=
  (∃ e ∈ es, e.userKey = userKey ∧ e.seqNum ≤ snapshot ∧
    (∀ e' ∈ es, e'.userKey = userKey → e'.seqNum ≤ snapshot → e'.seqNum ≤ e.seqNum) ∧
    result = if e.kind = internalKeyKindDelete then .deleted else .found e.value) ∨
  (∀ e ∈ es, e.userKey = userKey → snapshot < e.seqNum) ∧ result = .absent

theorem answersNewest_versionAt {es : List Entry} (hs : Sorted es) (userKey : Bytes)
    (snapshot : Nat) :
    AnswersNewest es userKey snapshot (KeyLookup.ofEntry? (versionAt es userKey snapshot)) := by
  cases hver : versionAt es userKey snapshot with
  | none =>
      refine Or.inr ⟨fun e he hkey => ?_, rfl⟩
      by_contra hseq
      have hmatch := Entry.matchesAt_iff.mpr ⟨hkey, not_lt.mp hseq⟩
      rw [versionAt_eq_none.mp hver e he] at hmatch
      exact Bool.false_ne_true hmatch
  | some e =>
      obtain ⟨he, hmatch, hmin⟩ := (newestFirst_of_sorted hs).versionAt_eq_some_iff.mp hver
      obtain ⟨hkey, hseq⟩ := Entry.matchesAt_iff.mp hmatch
      refine Or.inl ⟨e, he, hkey, hseq, fun e' he' hkey' hseq' => ?_, rfl⟩
      have hle := hmin e' he' (Entry.matchesAt_iff.mpr ⟨hkey', hseq'⟩)
      rcases hle.lt_or_eq with hlt | heq
      · exact InternalKey.seqNum_le_of_lt hlt (hkey.trans hkey'.symm)
      · exact (congrArg InternalKey.seqNum heq).ge

/-- The table that the memtable is flushed to. -/
def tableOfMemtable (name : Bytes) (mt : MemTable) (h : ∀ e ∈ mt.tree, e.WellFormed) : Table where
  name
  entries := mt.tree
  sorted := mt.sorted
  wellFormed := h

section Flush

variable [Runtime]

/-- Both the table that a flush returns and the one that is opened from the file look
up every key as the memtable does. -/
def FlushKeepsLookups (path : Bytes) (mt : MemTable) : Prop :=
  ∀ dir : TableDir, dir.read path = some (flush mt path).2 →
    ∃ reopened, openTable path (flush mt path).2 = .ok reopened ∧
      ∀ userKey, ∀ snapshot ≤ seqNumMax,
        (flush mt path).1.lookup (readBlock dir) userKey snapshot =
          .ok (mt.get userKey snapshot) ∧
        reopened.lookup (readBlock dir) userKey snapshot = .ok (mt.get userKey snapshot) ∧
        AnswersNewest mt.tree userKey snapshot (mt.get userKey snapshot)

theorem lookup_reachable {read : BlockReader} {sst : SSTable} {userKey : Bytes} {snapshot : Nat}
    {result : KeyLookup} (h : sst.lookup read userKey snapshot = .ok result)
    (hfound : result ≠ .absent) :
    ∃ e ∈ reachable read sst userKey snapshot, e.userKey = userKey ∧ e.seqNum ≤ snapshot := by
  unfold SSTable.lookup at h
  split at h
  · simp at h
  · exact absurd (Except.ok.inj h).symm hfound
  · split at h
    · simp at h
    · rename_i it hit
      obtain ⟨it', hit', hyields⟩ := newIterator_yields read sst userKey snapshot (by
        intro idx hidx
        cases hread : read sst idx with
        | ok es => exact ⟨es, rfl⟩
        | error e =>
            rw [newIterator_error read sst userKey snapshot hidx hread] at hit
            simp at hit)
      obtain rfl : it = it' := Except.ok.inj (hit.symm.trans hit')
      split at h
      · exact absurd (Except.ok.inj h).symm hfound
      · rename_i e hcur
        rw [hyields.current?_eq] at hcur
        obtain ⟨he, hvis⟩ := List.mem_filter.mp (List.mem_of_mem_head? hcur)
        by_cases hkey : e.userKey = userKey
        · refine ⟨e, (List.dropWhile_sublist _).subset he, hkey, ?_⟩
          simpa [InternalKey.visible, Entry.seqNum] using hvis
        · rw [if_pos hkey] at h
          exact absurd (Except.ok.inj h).symm hfound

theorem lookup_take_absent {t : Table} {dir : TableDir} (hdir : dir.read t.name = some t.content)
    {n : Nat} (hn : n + 1 < t.blocks.length) {e : Entry} (he : e ∈ t.blocks[n + 1])
    {result : KeyLookup}
    (h : SSTable.lookup (readBlock dir) { t.sst with index := t.sst.index.take n } e.userKey
      e.seqNum = .ok result) : result = .absent := by
  by_contra hfound
  obtain ⟨c, hc, hkey, hseq⟩ := lookup_reachable h hfound
  -- what the lookup has found stands in a block that was kept
  have hread : List.Forall₂ (fun idx block => readBlock dir
      { t.sst with index := t.sst.index.take n } idx = .ok block ∨
      ∃ err, readBlock dir { t.sst with index := t.sst.index.take n } idx = .error err)
      (t.sst.index.take n) (t.blocks.take n) :=
    (List.forall₂_take n (t.intact_readBlock hdir)).imp fun _ _ hok => Or.inl hok
  have hkept : c ∈ (t.blocks.take n).flatten := by
    have hdrop := (blocksFrom_initial (List.forall₂_drop _ hread)).subset hc
    obtain ⟨block, hblock, hcb⟩ := List.mem_flatten.mp hdrop
    exact List.mem_flatten_of_mem (List.mem_of_mem_drop hblock) hcb
  obtain ⟨block, hblock, hcb⟩ := List.mem_flatten.mp hkept
  obtain ⟨i, hi, rfl⟩ := List.mem_iff_getElem.mp hblock
  rw [List.length_take] at hi
  rw [List.getElem_take] at hcb
  -- an entry of the block between them separates the two versions
  obtain ⟨x, hx, -, -⟩ := firstKeyOf_mem
    (t.blocks_ne_nil (List.getElem_mem (by omega : n < _)))
  have hcx := t.blocks_lt (by omega : n < t.blocks.length) (by omega : i < n) hcb hx
  have hxe := t.blocks_lt hn (Nat.lt_succ_self n) hx he
  have hux : c.userKey = x.userKey := le_antisymm (InternalKey.userKey_le_of_lt hcx)
    (hkey ▸ InternalKey.userKey_le_of_lt hxe)
  have huxe : x.userKey = e.userKey := hux.symm.trans hkey
  have hsx : x.seqNum ≤ c.seqNum := InternalKey.seqNum_le_of_lt hcx hux
  have hse : e.seqNum ≤ x.seqNum := InternalKey.seqNum_le_of_lt hxe huxe
  have hkx : x.kind < c.kind :=
    InternalKey.kind_lt_of_lt hcx hux (by change c.seqNum = x.seqNum; omega)
  have hke : e.kind < x.kind :=
    InternalKey.kind_lt_of_lt hxe huxe (by change x.seqNum = e.seqNum; omega)
  have hcv : c.kind ≤ internalKeyKindMax := of_decide_eq_true (t.valid c (by
    rw [← t.blocks_flatten]
    exact List.mem_flatten_of_mem (List.getElem_mem _) hcb))
  have hmax : internalKeyKindMax.toNat = 1 := rfl
  rw [UInt8.lt_iff_toNat_lt] at hkx hke
  rw [UInt8.le_iff_toNat_le] at hcv
  omega

variable {path : Bytes} {mt : MemTable}

theorem get_eq_lookup (hwf : ∀ e ∈ mt.tree, e.WellFormed) {dir : TableDir}
    (hdir : dir.read path = some (fileOf mt.tree)) (userKey : Bytes) {snapshot : Nat}
    (hsnap : snapshot ≤ seqNumMax) :
    (tableOf path mt.tree).lookup (readBlock dir) userKey snapshot =
      .ok (mt.get userKey snapshot) := by
  have hintact := (tableOfMemtable path mt hwf).intact_readBlock hdir
  rw [get_eq_versionAt mt (fun e he => (hwf e he).valid) userKey hsnap]
  exact hintact.lookup_eq userKey hsnap

/-- With too many blocks for the footer some version is not found again. -/
theorem FlushKeepsLookups.blockCount_lt (h : FlushKeepsLookups path mt)
    (hwf : ∀ e ∈ mt.tree, e.WellFormed) (hfile : fileSize mt.tree < 2 ^ 63) :
    blockCount 0 (mt.tree.map entrySize) < 2 ^ 32 := by
  by_contra hbig
  have hlimits : ∀ e ∈ mt.tree, WithinLimits e := fun e he => withinLimits_of_wellFormed (hwf e he)
  have hfit := offsetsFit_of_fileSize hfile
  rw [← cutBlocks_length] at hbig
  have hdir : (FMap.empty.write path (flush mt path).2 : TableDir).read path =
      some (flush mt path).2 := FMap.read_write_self _ _ _
  obtain ⟨reopened, hopen, hlookup⟩ := h _ hdir
  rw [flush_eq] at hdir hopen hlookup
  rw [openTable_fileOf_take path hlimits hfit] at hopen
  have hmod := Nat.mod_lt (cutBlocks mt.tree).length (by norm_num : 0 < 2 ^ 32)
  have hn : (cutBlocks mt.tree).length % 2 ^ 32 + 1 <
      (tableOfMemtable path mt hwf).blocks.length := by
    change _ < (cutBlocks mt.tree).length
    omega
  obtain ⟨e, he, -, -⟩ := firstKeyOf_mem
    ((tableOfMemtable path mt hwf).blocks_ne_nil (List.getElem_mem hn))
  have hmem : e ∈ mt.tree := by
    have hflat := List.mem_flatten_of_mem (List.getElem_mem hn) he
    rw [Table.blocks_flatten] at hflat
    exact hflat
  obtain ⟨-, hreopened, hnewest⟩ := hlookup e.userKey e.seqNum e.seqNum_le_seqNumMax
  rw [← Except.ok.inj hopen] at hreopened
  have habsent := lookup_take_absent (t := tableOfMemtable path mt hwf) hdir hn he hreopened
  rw [habsent] at hnewest
  rcases hnewest with ⟨a, -, -, -, -, hresult⟩ | ⟨hnone, -⟩
  · split at hresult
    · simp at hresult
    · simp at hresult
  · exact lt_irrefl _ (hnone e hmem rfl)

/-- A flush keeps all lookups exactly when the memtable fills fewer than `2 ^ 32`
blocks.  File offsets are signed words of eight bytes, so no file is longer. -/
theorem flushKeepsLookups_iff (path : Bytes) {mt : MemTable} (hwf : ∀ e ∈ mt.tree, e.WellFormed)
    (hfile : fileSize mt.tree < 2 ^ 63) :
    FlushKeepsLookups path mt ↔ blockCount 0 (mt.tree.map entrySize) < 2 ^ 32 := by
  constructor
  · exact fun h => h.blockCount_lt hwf hfile
  · intro hcount dir hdir
    have hlimits : ∀ e ∈ mt.tree, WithinLimits e :=
      fun e he => withinLimits_of_wellFormed (hwf e he)
    rw [← cutBlocks_length] at hcount
    rw [flush_eq] at hdir ⊢
    refine ⟨tableOf path mt.tree, openTable_fileOf path hlimits hcount, ?_⟩
    intro userKey snapshot hsnap
    have hlookup := get_eq_lookup hwf hdir userKey hsnap
    refine ⟨hlookup, hlookup, ?_⟩
    rw [get_eq_versionAt mt (fun e he => (hwf e he).valid) userKey hsnap]
    exact answersNewest_versionAt mt.sorted userKey snapshot

end Flush

def twoVersions : MemTable :=
  (newMemTable.put (makeInternalKey [97] 1 internalKeyKindSet).encode [7]).delete
    (makeInternalKey [97] 2 internalKeyKindDelete).encode

theorem flushKeepsLookups_twoVersions :
    twoVersions.get [97] 1 = .found [7] ∧ twoVersions.get [97] 2 = .deleted ∧
      FlushKeepsLookups [1] twoVersions :=
  ⟨by decide, by decide,
    (flushKeepsLookups_iff [1] (by decide) (by decide)).mpr (by decide)⟩

/-- A memtable of `n` versions, each of which fills a block. -/
def fullBlockMemtable (n : Nat) (hn : n ≤ seqNumMax) : MemTable where
  tree := fullBlockRun n
  size := n * (internalTrailerLen + Config.defaultBlockSize)
  sorted := fullBlockRun_sorted hn

theorem fullBlockRun_wellFormed {n : Nat} {e : Entry} (he : e ∈ fullBlockRun n) :
    e.WellFormed := by
  obtain ⟨i, -, rfl⟩ := List.mem_map.mp he
  refine Entry.wellFormed_encode (Nat.zero_le _) ?_ (le_refl _)
  rw [List.length_replicate]
  decide

theorem fileSize_fullBlockRun_lt {n : Nat} (hn : n ≤ 2 ^ 32) :
    fileSize (fullBlockRun n) < 2 ^ 63 := by
  have hok := cutBlocks_blockOk fun e (he : e ∈ fullBlockRun n) => fullBlockRun_withinLimits he
  have hdata := dataOf_length_le hok
  have hindex := encodeIndex_length_le hok 0
  have hbytes := data_index_length (cutBlocks (fullBlockRun n)) 0
  have hbloom : Runtime.bloomSize < 2 ^ 32 := Runtime.bloomSize_lt
  rw [cutBlocks_length, blockCount_fullBlockRun] at hdata hindex
  unfold fileSize
  omega

theorem not_flushKeepsLookups_fullBlock {n : Nat} (hn : n ≤ seqNumMax) (hbig : n = 2 ^ 32) :
    (∀ e ∈ (fullBlockMemtable n hn).tree, e.WellFormed) ∧
      ¬ FlushKeepsLookups [1] (fullBlockMemtable n hn) := by
  have hwf : ∀ e ∈ (fullBlockMemtable n hn).tree, e.WellFormed :=
    fun e he => fullBlockRun_wellFormed he
  refine ⟨hwf, fun hkeeps => ?_⟩
  have hlt := hkeeps.blockCount_lt hwf (fileSize_fullBlockRun_lt hbig.le)
  have hcount : blockCount 0 ((fullBlockMemtable n hn).tree.map entrySize) = n :=
    blockCount_fullBlockRun n
  omega

/-- Of `2 ^ 32` blocks the reopened table finds none. -/
theorem flush_loses_fullBlockRun :
    (∀ e ∈ (fullBlockMemtable (2 ^ 32) (by unfold seqNumMax; omega)).tree, e.WellFormed) ∧
      ¬ FlushKeepsLookups [1] (fullBlockMemtable (2 ^ 32) (by unfold seqNumMax; omega)) :=
  not_flushKeepsLookups_fullBlock _ rfl

end Hcdb.Sstable
