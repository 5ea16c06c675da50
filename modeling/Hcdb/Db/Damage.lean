import Hcdb.Db.Read

/-!
Reads over tables some of whose blocks cannot be read.  A lookup reports the
failure only of the block it loads first; a block it would have crossed into just
ends its walk, and the same goes for a scan.
-/

namespace Hcdb.Db

open Hcdb.Lib.ByteString
open Hcdb.Lib.SortedList
open Hcdb.Lib.Traversal
open Hcdb.Base
open Hcdb.Memtable
open Hcdb.Sstable

section Lookup

variable {t : Table} {userKey : Bytes} {snapshot : Nat}

/-- The newest visible version of the user key stands in block `j`. -/
structure NewestIn (t : Table) (userKey : Bytes) (snapshot : Nat) (j : Nat) (e : Entry) :
    Prop where
  version : versionAt t.entries userKey snapshot = some e
  block : ∃ block, t.blocks[j]? = some block ∧ e ∈ block

theorem NewestIn.head?_dropWhile {j : Nat} {e : Entry} (h : NewestIn t userKey snapshot j e)
    (hsnap : snapshot ≤ seqNumMax) :
    (t.entries.dropWhile fun e => decide (e.ik < makeSearchKeyAt userKey snapshot)).head? =
      some e := by
  have hhead := head?_dropWhile_searchKey t.sorted t.valid userKey hsnap
  rw [h.version, Option.filter_eq_some_iff] at hhead
  exact hhead.1

theorem NewestIn.searchKey_le {j : Nat} {e : Entry} (h : NewestIn t userKey snapshot j e)
    (hsnap : snapshot ≤ seqNumMax) : makeSearchKeyAt userKey snapshot ≤ e.ik := by
  have hne := List.head?_dropWhile_not
    (fun e : Entry => decide (e.ik < makeSearchKeyAt userKey snapshot)) t.entries
  rw [h.head?_dropWhile hsnap] at hne
  simpa using hne

variable [Runtime] {read : BlockReader}

/-- Block `i` of the table cannot be read. -/
def Unreadable (read : BlockReader) (t : Table) (i : Nat) : Prop :=
  ∃ idx e, t.sst.index[i]? = some idx ∧ read t.sst idx = .error e

theorem not_starts_iff : ¬ Table.Starts read t userKey snapshot ↔
    Unreadable read t (t.start userKey snapshot) := by
  unfold Table.Starts Unreadable
  push Not
  constructor
  · rintro ⟨idx, hidx, hno⟩
    cases hread : read t.sst idx with
    | error e => exact ⟨idx, e, hidx, hread⟩
    | ok es => exact absurd hread (hno es)
  · rintro ⟨idx, e, hidx, hread⟩
    exact ⟨idx, hidx, fun es hes => by simp [hread] at hes⟩

/-- The seek starts at the block of the newest version, or at the one before when
the newest version is the first entry of its block. -/
theorem NewestIn.block_cases {j : Nat} {e : Entry} (h : NewestIn t userKey snapshot j e)
    (hsnap : snapshot ≤ seqNumMax) :
    j = t.start userKey snapshot ∨
      j = t.start userKey snapshot + 1 ∧ ∃ block, t.blocks[j]? = some block ∧
        block.head? = some e ∧ makeSearchKeyAt userKey snapshot < e.ik := by
  obtain ⟨block, hblock, he⟩ := h.block
  obtain ⟨hj, rfl⟩ := List.getElem?_eq_some_iff.mp hblock
  have hle := h.searchKey_le hsnap
  rcases Nat.lt_trichotomy j (t.start userKey snapshot) with hlt | heq | hgt
  · exact absurd (t.lt_of_lt_start hj hlt he) (not_lt.mpr hle)
  · exact Or.inl heq
  · right
    -- the block after the start lies beyond the search key, so the first entry there stops the seek
    have hnext : t.start userKey snapshot + 1 < t.blocks.length := by omega
    obtain ⟨a, ha, -, hhead⟩ := firstKeyOf_mem (t.blocks_ne_nil (List.getElem_mem hnext))
    have hseek : makeSearchKeyAt userKey snapshot < a.ik :=
      t.lt_of_start_lt hnext (Nat.lt_succ_self _) ha
    have hmem : a ∈ t.entries := by
      rw [← t.blocks_flatten]
      exact List.mem_flatten_of_mem (List.getElem_mem hnext) ha
    have hea : e.ik ≤ a.ik := by
      have hdrop : a ∈ t.entries.dropWhile fun e =>
          decide (e.ik < makeSearchKeyAt userKey snapshot) := by
        rw [t.sorted.dropWhile_lt]
        simp [hmem, hseek.le]
      exact (t.sorted.sublist (List.dropWhile_sublist _)).head?_le
        (h.head?_dropWhile hsnap) hdrop
    have hj' : j = t.start userKey snapshot + 1 := by
      by_contra hne
      exact absurd (t.blocks_lt hj (by omega : t.start userKey snapshot + 1 < j) ha he)
        (not_lt.mpr hea)
    subst hj'
    have hsorted := t.blocks_sorted (List.getElem_mem hnext)
    have hsame : a = e :=
      hsorted.eq_of_key_eq ha he (le_antisymm (hsorted.head?_le hhead he) hea)
    exact ⟨rfl, _, List.getElem?_eq_getElem hnext, hsame ▸ hhead, hsame ▸ hseek⟩

theorem lookup_error_of_not_starts {e : Entry} (he : e ∈ t.entries) (hu : e.userKey = userKey)
    (h : ¬ Table.Starts read t userKey snapshot) :
    ∃ err, t.sst.lookup read userKey snapshot = .error err := by
  obtain ⟨idx, err, hidx, hread⟩ := not_starts_iff.mp h
  have hbloom : t.sst.bloom.mightContain userKey = some true := hu ▸ mightContain_bloomOf he
  refine ⟨err, ?_⟩
  simp only [SSTable.lookup, hbloom, newIterator_error read t.sst userKey snapshot hidx hread]

theorem NewestIn.lookup_error_iff {j : Nat} {e : Entry} (h : NewestIn t userKey snapshot j e)
    (hd : Table.Damaged read t) (hsnap : snapshot ≤ seqNumMax) :
    (∃ err, t.sst.lookup read userKey snapshot = .error err) ↔
      Unreadable read t (t.start userKey snapshot) := by
  rw [← not_starts_iff]
  constructor
  · rintro ⟨err, herr⟩ hstarts
    rw [hd.lookup_eq hsnap hstarts] at herr
    simp at herr
  · exact lookup_error_of_not_starts (versionAt_mem h.version)
      (Entry.matchesAt_iff.mp (versionAt_matches h.version)).1

/-- The version is not the first entry of its block, or the block before cannot be
read either; a first entry at the search key itself is found without it. -/
def ReachedFirst (read : BlockReader) (t : Table) (userKey : Bytes) (snapshot : Nat) (j : Nat)
    (e : Entry) : Prop :=
  (t.blocks[j]?.bind List.head?) ≠ some e ∨ j = 0 ∨ e.ik = makeSearchKeyAt userKey snapshot ∨
    Unreadable read t (j - 1)

theorem NewestIn.unreadable_start_iff {j : Nat} {e : Entry} (h : NewestIn t userKey snapshot j e)
    (hsnap : snapshot ≤ seqNumMax) (hj : Unreadable read t j) :
    Unreadable read t (t.start userKey snapshot) ↔ ReachedFirst read t userKey snapshot j e := by
  rcases h.block_cases hsnap with heq | ⟨heq, block, hblock, hhead, hlt⟩
  · refine iff_of_true (heq ▸ hj) ?_
    by_cases hfirst : (t.blocks[j]?.bind List.head?) = some e
    · rcases Nat.eq_zero_or_pos j with hzero | hpos
      · exact Or.inr (Or.inl hzero)
      · -- the first key of a start block other than block 0 is at or below the search key
        obtain ⟨block, hblock, hhead⟩ := Option.bind_eq_some_iff.mp hfirst
        obtain ⟨hlt, rfl⟩ := List.getElem?_eq_some_iff.mp hblock
        subst heq
        obtain ⟨_, hle⟩ := t.head?_start_le hpos
        exact Or.inr (Or.inr (Or.inl (le_antisymm (hle e hhead) (h.searchKey_le hsnap))))
    · exact Or.inl hfirst
  · subst heq
    constructor
    · exact fun hun => Or.inr (Or.inr (Or.inr hun))
    · rintro (hne | hzero | hkey | hun)
      · exact absurd (by rw [hblock]; exact hhead) hne
      · omega
      · exact absurd hkey hlt.ne'
      · exact hun

end Lookup

section Scan

variable [Runtime] {read : BlockReader} {memtable : MemTable} {ts : List Table}
  {lowerBound : Bytes} {upperBound : Option Bytes} {snapshot : Nat}

/-- The memtable, and of every table what a scan from `lowerBound` can reach: the
blocks from the first one loaded up to the first that cannot be read. -/
def survivors (read : BlockReader) (memtable : MemTable) (ts : List Table) (lowerBound : Bytes)
    (snapshot : Nat) : List (List Entry) :=
  memtable.tree :: ts.map fun t => reachable read t.sst lowerBound snapshot

/-- What survives of every user key inside the bounds answers nothing or what all
of it answers. -/
def SurvivorsAgree (read : BlockReader) (memtable : MemTable) (ts : List Table)
    (lowerBound : Bytes) (upperBound : Option Bytes) (snapshot : Nat) : Prop :=
  ∀ u, inRange lowerBound upperBound u = true →
    answer (newestAt (survivors read memtable ts lowerBound snapshot) u snapshot) = none ∨
    answer (newestAt (survivors read memtable ts lowerBound snapshot) u snapshot) =
      answer (newestAt (memtable.tree :: ts.map Table.entries) u snapshot)

theorem scanFrom_error_of_not_starts (memtable : MemTable) (upperBound : Option Bytes)
    (hd : ∀ t ∈ ts, Table.Damaged read t)
    (hsnap : snapshot ≤ seqNumMax)
    (h : ∃ t ∈ ts, Unreadable read t (t.start lowerBound snapshot)) :
    ∃ e, scanFrom read memtable (ts.map Table.sst) lowerBound upperBound snapshot = .error e := by
  have hopen : ∃ e, openSources read (ts.map Table.sst) lowerBound snapshot = .error e := by
    induction ts with
    | nil => simp at h
    | cons t ts ih =>
        by_cases hstarts : Table.Starts read t lowerBound snapshot
        · obtain ⟨it, hit, -⟩ := (hd t (by simp)).newIterator_yields hsnap hstarts
          obtain ⟨t', ht', hun⟩ := h
          have hne : t' ≠ t := by
            rintro rfl
            exact not_starts_iff.mpr hun hstarts
          obtain ⟨e, he⟩ := ih (fun a ha => hd a (by simp [ha]))
            ⟨t', (List.mem_cons.mp ht').resolve_left hne, hun⟩
          exact ⟨e, by simp [openSources, hit, he]⟩
        · obtain ⟨idx, e, hidx, hread⟩ := not_starts_iff.mp hstarts
          have herr := newIterator_error read t.sst lowerBound snapshot hidx hread
          exact ⟨e, by simp [openSources, herr]⟩
  obtain ⟨e, he⟩ := hopen
  exact ⟨e, by simp only [scanFrom, he]⟩

/-- No scan that opens yields a value other than that of the newest visible
version exactly when the scan does not open or the survivors agree. -/
theorem scan_newest_iff (hd : ∀ t ∈ ts, Table.Damaged read t)
    (hmem : ∀ e ∈ memtable.tree, e.ik.valid = true) (hsnap : snapshot ≤ seqNumMax) :
    (∀ m, scanFrom read memtable (ts.map Table.sst) lowerBound upperBound snapshot = .ok m →
      ∀ u v, (u, v) ∈ m.drain →
        answer (newestAt (memtable.tree :: ts.map Table.entries) u snapshot) = some v) ↔
    (∃ t ∈ ts, Unreadable read t (t.start lowerBound snapshot)) ∨
      SurvivorsAgree read memtable ts lowerBound upperBound snapshot := by
  by_cases hun : ∃ t ∈ ts, Unreadable read t (t.start lowerBound snapshot)
  · refine iff_of_true ?_ (Or.inl hun)
    obtain ⟨e, he⟩ := scanFrom_error_of_not_starts memtable upperBound hd hsnap hun
    intro m hm
    rw [he] at hm
    simp at hm
  · have hopens : List.Forall₂ (OpensOn read lowerBound snapshot) (ts.map Table.sst)
        (ts.map fun t => reachable read t.sst lowerBound snapshot) := by
      rw [List.forall₂_map_left_iff, List.forall₂_map_right_iff]
      refine List.forall₂_same.mpr fun t ht => ?_
      have hstarts : Table.Starts read t lowerBound snapshot := by
        by_contra hno
        exact hun ⟨t, ht, not_starts_iff.mp hno⟩
      exact ⟨t.sorted.sublist ((hd t ht).reachable_sublist _ _),
        (hd t ht).newIterator_yields hsnap hstarts⟩
    obtain ⟨m, hm, -, hdrain⟩ := scanFrom_spec hmem upperBound hsnap hopens
    rw [or_iff_right hun]
    constructor
    · intro h u hu
      cases ha : answer (newestAt (survivors read memtable ts lowerBound snapshot) u snapshot) with
      | none => exact Or.inl rfl
      | some v => exact Or.inr (h m hm u v ((hdrain u v).mpr ⟨hu, ha⟩)).symm
    · intro h m' hm' u v huv
      obtain rfl : m = m' := by
        rw [hm, Except.ok.injEq] at hm'
        exact hm'
      obtain ⟨hu, hv⟩ := (hdrain u v).mp huv
      rcases h u hu with hnone | hsame
      · rw [survivors, hv] at hnone
        simp at hnone
      · rw [← hsame]
        exact hv

end Scan

/-- An unreadable block that holds the newest visible version of a key fails the
lookup, and no scan yields an older value, exactly when every such version stands
where the lookup loads it first and what survives the scan agrees with the whole. -/
theorem damage_reported_iff [Runtime] {read : BlockReader} {memtable : MemTable} {ts : List Table}
    {lowerBound : Bytes} {upperBound : Option Bytes} {snapshot : Nat}
    (hd : ∀ t ∈ ts, Table.Damaged read t) (hmem : ∀ e ∈ memtable.tree, e.ik.valid = true)
    (hsnap : snapshot ≤ seqNumMax) :
    ((∀ t ∈ ts, ∀ u j e, NewestIn t u snapshot j e → Unreadable read t j →
        ∃ err, t.sst.lookup read u snapshot = .error err) ∧
      ∀ m, scanFrom read memtable (ts.map Table.sst) lowerBound upperBound snapshot = .ok m →
        ∀ u v, (u, v) ∈ m.drain →
          answer (newestAt (memtable.tree :: ts.map Table.entries) u snapshot) = some v) ↔
    ((∀ t ∈ ts, ∀ u j e, NewestIn t u snapshot j e → Unreadable read t j →
        ReachedFirst read t u snapshot j e) ∧
      ((∃ t ∈ ts, Unreadable read t (t.start lowerBound snapshot)) ∨
        SurvivorsAgree read memtable ts lowerBound upperBound snapshot)) := by
  refine and_congr ?_ (scan_newest_iff hd hmem hsnap)
  constructor
  · intro h t ht u j e hnew hj
    rw [← hnew.unreadable_start_iff hsnap hj, ← hnew.lookup_error_iff (hd t ht) hsnap]
    exact h t ht u j e hnew hj
  · intro h t ht u j e hnew hj
    rw [hnew.lookup_error_iff (hd t ht) hsnap, hnew.unreadable_start_iff hsnap hj]
    exact h t ht u j e hnew hj

def bigEntry : Entry where
  key := (makeInternalKey [97] 1 internalKeyKindSet).encode
  value := List.replicate Config.defaultBlockSize 0

def smallEntry : Entry where
  key := (makeInternalKey [98] 2 internalKeyKindSet).encode
  value := [7]

/-- A table whose two entries are in two blocks. -/
def twoBlocks : Table where
  name := [49]
  entries := [bigEntry, smallEntry]
  sorted := by decide
  wellFormed := by
    intro e he
    simp only [List.mem_cons, List.not_mem_nil, or_false] at he
    rcases he with rfl | rfl
    · refine ⟨by decide, by decide, ?_, by decide⟩
      rw [bigEntry, List.length_replicate]
      decide
    · exact ⟨by decide, by decide, by decide, by decide⟩

theorem twoBlocks_blocks : twoBlocks.blocks = [[bigEntry], [smallEntry]] := by
  have hbig : entrySize bigEntry = 8 + 9 + 4096 := by
    rw [entrySize, bigEntry, List.length_replicate]
    decide
  have hsmall : entrySize smallEntry = 18 := by decide
  simp [Table.blocks, twoBlocks, cutBlocks, cutFrom, hbig, hsmall, Config.defaultBlockSize]

/-- Reads `twoBlocks`, but for the block that starts with this key. -/
def failingBlock (key : Bytes) : BlockReader := fun _ idx =>
  if idx.firstKey = key then .error .blockCRCMismatch
  else if idx.firstKey = bigEntry.key then .ok [bigEntry]
  else .ok [smallEntry]

theorem twoBlocks_index : ∃ o₁ l₁ o₂ l₂, twoBlocks.sst.index =
    [{ firstKey := bigEntry.key, offset := o₁, length := l₁ },
      { firstKey := smallEntry.key, offset := o₂, length := l₂ }] := by
  rw [twoBlocks.index_eq, twoBlocks_blocks]
  exact ⟨_, _, _, _, rfl⟩

theorem damaged_twoBlocks (key : Bytes) : Table.Damaged (failingBlock key) twoBlocks := by
  obtain ⟨o₁, l₁, o₂, l₂, hindex⟩ := twoBlocks_index
  have hne : smallEntry.key ≠ bigEntry.key := by decide
  unfold Table.Damaged
  rw [hindex, twoBlocks_blocks]
  refine List.Forall₂.cons ?_ (List.Forall₂.cons ?_ List.Forall₂.nil)
  · by_cases h : bigEntry.key = key
    · exact Or.inr ⟨.blockCRCMismatch, by simp [failingBlock, h]⟩
    · exact Or.inl (by simp [failingBlock, h])
  · by_cases h : smallEntry.key = key
    · exact Or.inr ⟨.blockCRCMismatch, by simp [failingBlock, h]⟩
    · exact Or.inl (by simp [failingBlock, h, hne])

theorem twoBlocks_start {userKey : Bytes}
    (h : makeSearchKeyAt userKey seqNumMax < smallEntry.ik) :
    twoBlocks.start userKey seqNumMax = 0 := by
  by_contra hpos
  obtain ⟨hlt, hle⟩ := twoBlocks.head?_start_le (Nat.pos_of_ne_zero hpos)
  have hone : twoBlocks.start userKey seqNumMax = 1 := by
    rw [twoBlocks_blocks] at hlt
    simp only [List.length_cons, List.length_nil] at hlt
    omega
  have hhead : (twoBlocks.blocks[twoBlocks.start userKey seqNumMax]).head? = some smallEntry := by
    simp [hone, twoBlocks_blocks]
  exact absurd h (not_lt.mpr (hle smallEntry hhead))

/-- A lookup of the key in the second block, when only that block is unreadable,
reports the key absent and no error. -/
theorem lookup_unreadable_absent :
    Table.Damaged (failingBlock smallEntry.key) twoBlocks ∧
    NewestIn twoBlocks [98] seqNumMax 1 smallEntry ∧
    Unreadable (failingBlock smallEntry.key) twoBlocks 1 ∧
    twoBlocks.sst.lookup (failingBlock smallEntry.key) [98] seqNumMax = .ok .absent := by
  obtain ⟨o₁, l₁, o₂, l₂, hindex⟩ := twoBlocks_index
  have hne : bigEntry.key ≠ smallEntry.key := by decide
  have hd := damaged_twoBlocks smallEntry.key
  refine ⟨hd, ⟨by decide, [smallEntry], by simp [twoBlocks_blocks], by simp⟩,
    ⟨_, .blockCRCMismatch, by rw [hindex]; rfl, by simp [failingBlock]⟩, ?_⟩
  have hstarts : Table.Starts (failingBlock smallEntry.key) twoBlocks [98] seqNumMax := by
    intro idx hidx
    rw [twoBlocks_start (by decide), hindex] at hidx
    simp only [List.getElem?_cons_zero, Option.some.injEq] at hidx
    exact ⟨[bigEntry], by simp [← hidx, failingBlock, hne]⟩
  have hreach : reachable (failingBlock smallEntry.key) twoBlocks.sst [98] seqNumMax =
      [bigEntry] := by
    have hstart : startBlock twoBlocks.sst.index (encodeSearchKeyAt [98] seqNumMax) = 0 :=
      twoBlocks_start (by decide)
    rw [reachable, hstart, hindex]
    simp [Iterator.blocksFrom, failingBlock, hne]
  rw [hd.lookup_eq le_rfl hstarts, hreach]
  rfl

theorem damage_reported_twoBlocks :
    (∀ t ∈ [twoBlocks], ∀ u j e, NewestIn t u seqNumMax j e →
      Unreadable (failingBlock bigEntry.key) t j →
        ∃ err, t.sst.lookup (failingBlock bigEntry.key) u seqNumMax = .error err) ∧
    ∀ m, scanFrom (failingBlock bigEntry.key) newMemTable ([twoBlocks].map Table.sst) [] none
        seqNumMax = .ok m → ∀ u v, (u, v) ∈ m.drain →
      answer (newestAt (newMemTable.tree :: [twoBlocks].map Table.entries) u seqNumMax) =
        some v := by
  obtain ⟨o₁, l₁, o₂, l₂, hindex⟩ := twoBlocks_index
  have hne : smallEntry.key ≠ bigEntry.key := by decide
  refine (damage_reported_iff (by simpa using damaged_twoBlocks bigEntry.key)
    (by simp [newMemTable]) le_rfl).mpr ⟨?_, Or.inl ⟨twoBlocks, by simp, ?_⟩⟩
  · intro t ht u j e _ hj
    obtain rfl : t = twoBlocks := by simpa using ht
    -- only block 0 is unreadable
    obtain ⟨idx, err, hidx, hread⟩ := hj
    rw [hindex] at hidx
    rcases j with _ | _ | j
    · exact Or.inr (Or.inl rfl)
    · simp only [List.getElem?_cons_succ, List.getElem?_cons_zero, Option.some.injEq] at hidx
      simp [← hidx, failingBlock, hne] at hread
    · simp at hidx
  · rw [twoBlocks_start (by decide)]
    exact ⟨_, .blockCRCMismatch, by rw [hindex]; rfl, by simp [failingBlock]⟩

end Hcdb.Db
