import Hcdb.Sstable.Iterator

namespace Hcdb.Sstable

open Hcdb.Lib.ByteString
open Hcdb.Lib.SortedList
open Hcdb.Lib.Traversal
open Hcdb.Base

theorem cutFrom_ne_nil {collected : List Entry} {size : Nat} {entries block : List Entry}
    (h : block ∈ cutFrom collected size entries) : block ≠ [] := by
  induction entries generalizing collected size with
  | nil =>
      unfold cutFrom at h
      split at h
      · simp at h
      · rename_i hne
        rw [List.mem_singleton.mp h]
        exact hne
  | cons e entries ih =>
      unfold cutFrom at h
      split at h
      · rcases List.mem_cons.mp h with rfl | h
        · simp
        · exact ih h
      · exact ih h

theorem cutBlocks_ne_nil {entries block : List Entry} (h : block ∈ cutBlocks entries) :
    block ≠ [] :=
  cutFrom_ne_nil h

theorem firstKeyOf_mem {block : List Entry} (h : block ≠ []) :
    ∃ e ∈ block, e.key = firstKeyOf block ∧ block.head? = some e := by
  cases block with
  | nil => exact absurd rfl h
  | cons e es => exact ⟨e, by simp, rfl, rfl⟩

section Sorted

variable {entries : List Entry}

theorem cutBlocks_split (entries : List Entry) (n : Nat) :
    entries = ((cutBlocks entries).take n).flatten ++ ((cutBlocks entries).drop n).flatten := by
  rw [← List.flatten_append, List.take_append_drop, cutBlocks_flatten]

theorem cutBlocks_sorted (hs : Sorted entries) {block : List Entry}
    (h : block ∈ cutBlocks entries) : Sorted block := by
  rw [← cutBlocks_flatten entries] at hs
  exact (List.pairwise_flatten.mp hs).1 block h

theorem cutBlocks_lt (hs : Sorted entries) {i j : Nat} (hj : j < (cutBlocks entries).length)
    (hij : i < j) {a b : Entry} (ha : a ∈ (cutBlocks entries)[i])
    (hb : b ∈ (cutBlocks entries)[j]) : a.ik < b.ik := by
  rw [← cutBlocks_flatten entries] at hs
  have hpair := (List.pairwise_flatten.mp hs).2
  exact List.pairwise_iff_getElem.mp hpair i j (by omega) hj hij a ha b hb

end Sorted

section Index

variable [Runtime]

theorem forall₂_firstKey (offset : Nat) (blocks : List (List Entry)) :
    List.Forall₂ (fun idx block => idx.firstKey = firstKeyOf block)
      (indexFrom offset blocks) blocks := by
  induction blocks generalizing offset with
  | nil => exact List.Forall₂.nil
  | cons block blocks ih => exact List.Forall₂.cons rfl (ih _)

theorem indexFrom_firstKey {blocks : List (List Entry)} {i : Nat}
    (h : i < (indexFrom 0 blocks).length) (h' : i < blocks.length) :
    (indexFrom 0 blocks)[i].firstKey = firstKeyOf blocks[i] :=
  (List.forall₂_iff_get.mp (forall₂_firstKey 0 blocks)).2 i h h'

variable {entries : List Entry}

theorem indexFrom_sortedBy (hs : Sorted entries) :
    SortedBy (fun idx => decodeInternalKey idx.firstKey) (indexFrom 0 (cutBlocks entries)) := by
  unfold SortedBy
  rw [List.pairwise_iff_getElem]
  intro i j hi hj hij
  have hlen := indexFrom_length 0 (cutBlocks entries)
  have hi' : i < (cutBlocks entries).length := by omega
  have hj' : j < (cutBlocks entries).length := by omega
  simp only
  rw [indexFrom_firstKey hi hi', indexFrom_firstKey hj hj']
  obtain ⟨a, ha, hka, -⟩ := firstKeyOf_mem (cutBlocks_ne_nil (List.getElem_mem hi'))
  obtain ⟨b, hb, hkb, -⟩ := firstKeyOf_mem (cutBlocks_ne_nil (List.getElem_mem hj'))
  rw [← hka, ← hkb]
  exact cutBlocks_lt hs hj' hij ha hb

/-- The block of the run that a seek to `userKey` at `snapshot` loads first. -/
def startOf (entries : List Entry) (userKey : Bytes) (snapshot : Nat) : Nat :=
  startBlock (indexFrom 0 (cutBlocks entries)) (encodeSearchKeyAt userKey snapshot)

theorem lt_of_startOf_lt (hs : Sorted entries) {userKey : Bytes} {snapshot i : Nat}
    (hi : i < (cutBlocks entries).length) (h : startOf entries userKey snapshot < i) {e : Entry}
    (he : e ∈ (cutBlocks entries)[i]) : makeSearchKeyAt userKey snapshot < e.ik := by
  have hlen := indexFrom_length 0 (cutBlocks entries)
  have habove := (startBlock_spec (indexFrom_sortedBy hs)
    (encodeSearchKeyAt userKey snapshot)).2.2 i (by omega) h
  rw [decodeInternalKey_encodeSearchKeyAt, indexFrom_firstKey _ hi] at habove
  obtain ⟨a, -, hka, hhead⟩ := firstKeyOf_mem (cutBlocks_ne_nil (List.getElem_mem hi))
  rw [← hka] at habove
  exact habove.trans_le ((cutBlocks_sorted hs (List.getElem_mem hi)).head?_le hhead he)

theorem head?_startOf_le (hs : Sorted entries) {userKey : Bytes} {snapshot : Nat}
    (hpos : 0 < startOf entries userKey snapshot) :
    ∃ h : startOf entries userKey snapshot < (cutBlocks entries).length, ∀ a,
      (cutBlocks entries)[startOf entries userKey snapshot].head? = some a →
        a.ik ≤ makeSearchKeyAt userKey snapshot := by
  obtain ⟨hlt, hle⟩ := (startBlock_spec (indexFrom_sortedBy hs)
    (encodeSearchKeyAt userKey snapshot)).2.1 hpos
  have hlt' : startOf entries userKey snapshot < (cutBlocks entries).length :=
    indexFrom_length 0 (cutBlocks entries) ▸ hlt
  rw [indexFrom_firstKey hlt hlt', decodeInternalKey_encodeSearchKeyAt] at hle
  refine ⟨hlt', fun a ha => ?_⟩
  obtain ⟨b, -, hkb, hhead⟩ := firstKeyOf_mem (cutBlocks_ne_nil (List.getElem_mem hlt'))
  change decodeInternalKey (firstKeyOf (cutBlocks entries)[startOf entries userKey snapshot]) ≤ _
    at hle
  rw [hhead, Option.some.injEq] at ha
  rw [← hkb, ha] at hle
  exact hle

theorem lt_of_lt_startOf (hs : Sorted entries) {userKey : Bytes} {snapshot i : Nat}
    (hi : i < (cutBlocks entries).length) (h : i < startOf entries userKey snapshot) {e : Entry}
    (he : e ∈ (cutBlocks entries)[i]) : e.ik < makeSearchKeyAt userKey snapshot := by
  obtain ⟨hlt, hle⟩ := head?_startOf_le hs (Nat.lt_of_le_of_lt (Nat.zero_le _) h)
  obtain ⟨a, ha, -, hhead⟩ := firstKeyOf_mem (cutBlocks_ne_nil (List.getElem_mem hlt))
  exact (cutBlocks_lt hs hlt h he ha).trans_le (hle a hhead)

/-- The blocks a seek passes over hold nothing it could stop at. -/
theorem dropWhile_drop_startOf (hs : Sorted entries) (userKey : Bytes) (snapshot : Nat) :
    entries.dropWhile (fun e => decide (e.ik < makeSearchKeyAt userKey snapshot)) =
      (((cutBlocks entries).drop (startOf entries userKey snapshot)).flatten).dropWhile
        fun e => decide (e.ik < makeSearchKeyAt userKey snapshot) := by
  conv_lhs => rw [cutBlocks_split entries (startOf entries userKey snapshot)]
  rw [List.dropWhile_append_of_pos]
  intro e he
  obtain ⟨block, hblock, he⟩ := List.mem_flatten.mp he
  obtain ⟨i, hi, rfl⟩ := List.mem_iff_getElem.mp hblock
  rw [List.length_take] at hi
  rw [List.getElem_take] at he
  exact decide_eq_true (lt_of_lt_startOf hs (by omega) (by omega) he)

end Index

/-- What reading the blocks one by one gives when some fail: the entries of the
blocks before the first that does. -/
theorem blocksFrom_initial {read : BlockReader} {sst : SSTable} {index : List IndexEntry}
    {blocks : List (List Entry)}
    (h : List.Forall₂ (fun idx block => read sst idx = .ok block ∨ ∃ e, read sst idx = .error e)
      index blocks) : Iterator.blocksFrom read sst index <+: blocks.flatten := by
  induction h with
  | nil => exact List.prefix_rfl
  | @cons idx block index blocks hread _ ih =>
      unfold Iterator.blocksFrom
      rcases hread with hok | ⟨e, herror⟩
      · rw [hok, List.flatten_cons]
        cases block with
        | nil => exact List.nil_prefix
        | cons e es => exact List.prefix_append_right_inj _ |>.mpr ih
      · rw [herror]
        exact List.nil_prefix

theorem blocksFrom_eq_flatten {read : BlockReader} {sst : SSTable} {index : List IndexEntry}
    {blocks : List (List Entry)} (hne : ∀ block ∈ blocks, block ≠ [])
    (h : List.Forall₂ (fun idx block => read sst idx = .ok block) index blocks) :
    Iterator.blocksFrom read sst index = blocks.flatten := by
  induction h with
  | nil => rfl
  | @cons idx block index blocks hread _ ih =>
      unfold Iterator.blocksFrom
      rw [hread, List.flatten_cons, ih fun b hb => hne b (by simp [hb])]
      cases block with
      | nil => exact absurd rfl (hne [] (by simp))
      | cons e es => rfl

theorem newIterator_yields_run [Runtime] {read : BlockReader} {sst : SSTable}
    {entries : List Entry} (hindex : sst.index = indexFrom 0 (cutBlocks entries))
    (hread : List.Forall₂ (fun idx block => read sst idx = .ok block) sst.index
      (cutBlocks entries)) (hs : Sorted entries) (hv : ∀ e ∈ entries, e.ik.valid = true)
    (lowerBound : Bytes) {snapshot : Nat} (hsnap : snapshot ≤ seqNumMax) :
    ∃ it, newIterator read sst lowerBound snapshot = .ok it ∧
      Yields Iterator.current? (Iterator.next read) it
        (entries.filter fun e => decide (lowerBound ≤ e.userKey) && e.ik.visible snapshot) := by
  obtain ⟨hlen, hget⟩ := List.forall₂_iff_get.mp hread
  obtain ⟨it, hit, hyields⟩ := newIterator_yields read sst lowerBound snapshot (by
    intro idx hidx
    obtain ⟨hlt, rfl⟩ := List.getElem?_eq_some_iff.mp hidx
    exact ⟨_, hget _ hlt (hlen ▸ hlt)⟩)
  have hreach : reachable read sst lowerBound snapshot =
      ((cutBlocks entries).drop (startOf entries lowerBound snapshot)).flatten := by
    unfold reachable startOf
    rw [← hindex]
    exact blocksFrom_eq_flatten (fun _ hb => cutBlocks_ne_nil (List.mem_of_mem_drop hb))
      (List.forall₂_drop _ hread)
  rw [hreach, ← dropWhile_drop_startOf hs, filter_visible_searchKey hs hv lowerBound hsnap]
    at hyields
  exact ⟨it, hit, hyields⟩

end Hcdb.Sstable
