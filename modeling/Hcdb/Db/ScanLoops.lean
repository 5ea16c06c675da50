import Hcdb.Lib.Loop
import Hcdb.Db.CompactedScan

/-!
The loops of a scan come to an end.  The turns of each loop of the source are given
here without a bound; what the bounded ones of the model return is what these
return, and so a caller that calls `Next` until it returns false sees every pair.
-/

namespace Hcdb.Db

open Hcdb.Lib.ByteString
open Hcdb.Lib.SortedList
open Hcdb.Lib.Traversal
open Hcdb.Lib.PriorityQueue
open Hcdb.Lib.FiniteMap
open Hcdb.Lib.Loop
open Hcdb.Base
open Hcdb.Memtable
open Hcdb.Sstable
open Hcdb.Compaction

section Loops

variable {σ : Type} [Cursor σ Entry]

/-- A turn of the loop of `skipPast`. -/
def userKeyTurn (userKey : Bytes) (src : σ) : σ ⊕ σ :=
  match Cursor.current? src with
  | none => .inl src
  | some e => if e.userKey = userKey then .inr (Cursor.next src) else .inl src

theorem skipUserKey_returns (userKey : Bytes) (src : σ) :
    Returns (userKeyTurn userKey) src (skipUserKey userKey (Cursor.left src) src) := by
  refine returns_of_fuel (skipUserKey userKey) (fun _ => True) Cursor.left ?_ ?_ ?_ trivial le_rfl
  · intro fuel src
    rw [userKeyTurn, skipUserKey]
    cases Cursor.current? src with
    | none => rfl
    | some e =>
        simp only
        split <;> rfl
  · intro src src' _ hturn
    unfold userKeyTurn at hturn
    split at hturn
    · simp at hturn
    · rename_i e hcur
      split at hturn
      · obtain rfl := Sum.inr.inj hturn
        exact ⟨trivial, Cursor.left_next hcur⟩
      · simp at hturn
  · intro src _ hzero
    unfold userKeyTurn
    cases hcur : Cursor.current? src with
    | none => rfl
    | some e =>
        have hlt := Cursor.left_next hcur
        omega

/-- A turn of the loop of `Next` that skips older versions in the other sources. -/
def olderTurn (userKey : Bytes) (h : List (MergeItem σ)) :
    List (MergeItem σ) ⊕ List (MergeItem σ) :=
  match popMin MergeItem.less h with
  | none => .inl h
  | some (top, rest) =>
      if (decodeInternalKey top.key).userKey = userKey then .inr (skipPast userKey top rest)
      else .inl h

theorem skipOlder_returns (userKey : Bytes) (h : List (MergeItem σ)) :
    Returns (olderTurn userKey) h (skipOlder userKey h.length h) := by
  refine returns_of_fuel (skipOlder userKey) (fun _ => True) (standing userKey) ?_ ?_ ?_ trivial
    List.countP_le_length
  · intro fuel h
    rw [olderTurn, skipOlder]
    cases popMin MergeItem.less h with
    | none => rfl
    | some popped =>
        simp only
        split <;> rfl
  · intro h h' _ hturn
    unfold olderTurn at hturn
    split at hturn
    · simp at hturn
    · rename_i top rest hpop
      split at hturn
      · rename_i hu
        obtain rfl := Sum.inr.inj hturn
        rw [standing_skipPast, standing_popMin hpop hu]
        exact ⟨trivial, Nat.lt_succ_self _⟩
      · simp at hturn
  · intro h _ hzero
    unfold olderTurn
    split
    · rfl
    · rename_i top rest hpop
      split
      · rename_i hu
        rw [standing_popMin hpop hu] at hzero
        omega
      · rfl

/-- A turn of the loop of `Next`. -/
def MergeIterator.nextTurn (m : MergeIterator σ) :
    MergeIterator σ × Bool ⊕ MergeIterator σ :=
  match popMin MergeItem.less m.h with
  | none => .inl ({ m with valid := false }, false)
  | some (top, rest) =>
      let ik := decodeInternalKey top.key
      let val := (Cursor.current? top.src).elim [] Entry.value
      let h := skipPast ik.userKey top rest
      let h := skipOlder ik.userKey h.length h
      if pastUpper m.upperBound ik.userKey then .inl ({ m with h, valid := false }, false)
      else if ik.kind = internalKeyKindDelete then .inr { m with h }
      else .inl ({ m with h, key := ik.userKey, val, valid := true }, true)

theorem next_returns {m : MergeIterator σ} (hok : HeapOk m.h) :
    Returns MergeIterator.nextTurn m m.next := by
  refine returns_of_fuel MergeIterator.nextLoop (fun m => HeapOk m.h) (fun m => (poolOf m.h).size)
    ?_ ?_ ?_ hok (left_ge_size m)
  · intro fuel m
    rw [MergeIterator.nextTurn, MergeIterator.nextLoop]
    cases popMin MergeItem.less m.h with
    | none => rfl
    | some popped =>
        simp only
        split
        · rfl
        · split <;> rfl
  · intro m m' hok hturn
    unfold MergeIterator.nextTurn at hturn
    split at hturn
    · simp at hturn
    · rename_i top rest hpop
      obtain ⟨e, hcur, hkey⟩ := hok.current? ((popMin_perm hpop).mem_iff.mpr List.mem_cons_self)
      have huser : (decodeInternalKey top.key).userKey = e.userKey := by
        rw [hkey]
        rfl
      simp only [huser] at hturn
      split at hturn
      · simp at hturn
      · split at hturn
        · obtain rfl := Sum.inr.inj hturn
          obtain ⟨hok', -, -, -, hsize⟩ := hok.step hpop hcur rfl
          exact ⟨hok', hsize⟩
        · simp at hturn
  · intro m hok hzero
    rw [MergeIterator.nextTurn, popMin_eq_none.mpr (hok.eq_nil hzero)]
    rfl

/-- The iterator yields the pairs of the list, one with each call of `Next` that
returns true, and then a call returns false. -/
inductive Drains : MergeIterator σ → List (Bytes × Bytes) → Prop
  | done {m m' : MergeIterator σ} :
      Returns MergeIterator.nextTurn m (m', false) → Drains m []
  | more {m m' : MergeIterator σ} {pairs : List (Bytes × Bytes)} :
      Returns MergeIterator.nextTurn m (m', true) → Drains m' pairs →
        Drains m ((m'.key, m'.val) :: pairs)

theorem drainLoop_drains {fuel : Nat} {m : MergeIterator σ} (hok : HeapOk m.h)
    (hfuel : (poolOf m.h).size ≤ fuel) : Drains m (m.drainLoop fuel) := by
  induction fuel generalizing m with
  | zero =>
      have hnext : m.next = ({ m with valid := false }, false) := by
        have hleft : m.left = 0 := by
          rw [MergeIterator.left, hok.eq_nil (Nat.le_zero.mp hfuel)]
          rfl
        rw [MergeIterator.next, hleft]
        rfl
      exact .done (hnext ▸ next_returns hok)
  | succ fuel ih =>
      have hret := next_returns hok
      have hspec : NextSpec m m.next.1 m.next.2 := nextLoop_spec hok (left_ge_size m)
      rw [MergeIterator.drainLoop]
      rcases hnext : m.next with ⟨m', more⟩
      rw [hnext] at hret hspec
      cases more with
      | false => exact .done hret
      | true =>
          exact .more hret (ih hspec.heapOk
            (Nat.le_of_lt_succ ((hspec.size_lt rfl).trans_le hfuel)))

end Loops

/-- The version of the user key with the highest sequence number up to the snapshot.
A `Set` counts as higher than a `Delete` with the same number. -/
structure NewestVisible (es : List Entry) (userKey : Bytes) (snapshot : Nat) (e : Entry) :
    Prop where
  mem : e ∈ es
  ofKey : e.userKey = userKey
  visible : e.seqNum ≤ snapshot
  highest : ∀ b ∈ es, b.userKey = userKey → b.seqNum ≤ snapshot →
    b.seqNum < e.seqNum ∨ b.seqNum = e.seqNum ∧ b.kind ≤ e.kind

theorem newestVisible_of_ik_le {es : List Entry} {userKey : Bytes} {snapshot : Nat} {e : Entry}
    (he : e ∈ es) (hmatch : e.matchesAt userKey snapshot = true)
    (hmin : ∀ b ∈ es, b.matchesAt userKey snapshot = true → e.ik ≤ b.ik) :
    NewestVisible es userKey snapshot e := by
  obtain ⟨hkey, hseq⟩ := Entry.matchesAt_iff.mp hmatch
  refine ⟨he, hkey, hseq, fun b hb hkeyB hseqB => ?_⟩
  rcases (hmin b hb (Entry.matchesAt_iff.mpr ⟨hkeyB, hseqB⟩)).lt_or_eq with hlt | heq
  · rcases (InternalKey.lt_iff_seqNum _ _).mp hlt with hlt | ⟨-, hlt | ⟨hsame, hlt⟩⟩
    · exact absurd (hkey.trans hkeyB.symm) hlt.ne
    · exact Or.inl hlt
    · exact Or.inr ⟨hsame, hlt.le⟩
  · exact Or.inr ⟨congrArg InternalKey.seqNum heq.symm, (congrArg InternalKey.kind heq.symm).le⟩

theorem NewestVisible.ik_eq {es : List Entry} {userKey : Bytes} {snapshot : Nat} {e b : Entry}
    (he : NewestVisible es userKey snapshot e) (hb : NewestVisible es userKey snapshot b) :
    e.ik = b.ik := by
  have hkey : e.userKey = b.userKey := he.ofKey.trans hb.ofKey.symm
  have hle := he.highest b hb.mem hb.ofKey hb.visible
  have hge := hb.highest e he.mem he.ofKey he.visible
  apply le_antisymm
  · refine not_lt.mp fun hlt => ?_
    rcases (InternalKey.lt_iff_seqNum _ _).mp hlt with hlt | ⟨-, hlt | ⟨hsame, hlt⟩⟩
    · exact hlt.ne hkey.symm
    · rcases hle with hle | ⟨hle, -⟩
      · exact absurd hlt hle.not_gt
      · exact hlt.ne hle.symm
    · rcases hle with hle | ⟨-, hle⟩
      · exact hle.ne hsame.symm
      · exact absurd hlt hle.not_gt
  · refine not_lt.mp fun hlt => ?_
    rcases (InternalKey.lt_iff_seqNum _ _).mp hlt with hlt | ⟨-, hlt | ⟨hsame, hlt⟩⟩
    · exact hlt.ne hkey
    · rcases hge with hge | ⟨hge, -⟩
      · exact absurd hlt hge.not_gt
      · exact hlt.ne hge.symm
    · rcases hge with hge | ⟨-, hge⟩
      · exact hge.ne hsame.symm
      · exact absurd hlt hge.not_gt

theorem inRange_iff {lowerBound userKey : Bytes} {upperBound : Option Bytes} :
    inRange lowerBound upperBound userKey = true ↔
      lowerBound ≤ userKey ∧ ∀ hi ∈ upperBound, userKey ≤ hi := by
  cases upperBound with
  | none => simp [inRange, belowUpper]
  | some hi => simp [inRange, belowUpper]

theorem answer_newestAt_iff {layers : List (List Entry)} (hs : ∀ layer ∈ layers, Sorted layer)
    (hvalid : ∀ e ∈ layers.flatten, e.ik.valid = true)
    (hcopies : ∀ a ∈ layers.flatten, ∀ b ∈ layers.flatten, a.ik = b.ik → a.value = b.value)
    {userKey value : Bytes} {snapshot : Nat} :
    answer (newestAt layers userKey snapshot) = some value ↔
      ∃ e, NewestVisible layers.flatten userKey snapshot e ∧ e.kind = internalKeyKindSet ∧
        e.value = value := by
  rw [answer_eq_some]
  constructor
  · rintro ⟨e, hnewest, hkind, hvalue⟩
    obtain ⟨he, hmatch, hmin⟩ := newestAt_spec hs hnewest
    refine ⟨e, newestVisible_of_ik_le he hmatch hmin, ?_, hvalue⟩
    exact (InternalKey.kind_eq_of_valid (hvalid e he)).resolve_right hkind
  · rintro ⟨e, he, hkind, hvalue⟩
    cases hnewest : newestAt layers userKey snapshot with
    | none =>
        have hno := newestAt_eq_none.mp hnewest e he.mem
        rw [Entry.matchesAt_iff.mpr ⟨he.ofKey, he.visible⟩] at hno
        exact absurd hno (by decide)
    | some b =>
        obtain ⟨hb, hmatch, hmin⟩ := newestAt_spec hs hnewest
        have hik := (newestVisible_of_ik_le hb hmatch hmin).ik_eq he
        refine ⟨b, rfl, ?_, (hcopies b hb e he.mem hik).trans hvalue⟩
        rw [Entry.kind, hik, ← Entry.kind, hkind]
        decide

section Scan

variable [Runtime] {memtable : MemTable} {ts : List Table} {dir : TableDir} {snapshot : Nat}

/-- A caller of `ScanAt` who calls `Next` until it returns false gets the live keys
between the bounds, each once and in ascending order, however the tables are
ordered and the versions spread over them. -/
theorem scan_yields_newest (hmem : ∀ e ∈ memtable.tree, e.ik.valid = true)
    (hheld : ∀ t ∈ ts, dir.read t.name = some t.content)
    (hcopies : ∀ a ∈ (memtable.tree :: ts.map Table.entries).flatten,
      ∀ b ∈ (memtable.tree :: ts.map Table.entries).flatten, a.ik = b.ik → a.value = b.value)
    (lowerBound : Bytes) (upperBound : Option Bytes) (hsnap : snapshot ≤ seqNumMax) :
    ∃ m pairs, scanFrom (readBlock dir) memtable (ts.map Table.sst) lowerBound upperBound snapshot =
        .ok m ∧ Drains m pairs ∧ SortedBy Prod.fst pairs ∧
      ∀ userKey value, (userKey, value) ∈ pairs ↔
        lowerBound ≤ userKey ∧ (∀ hi ∈ upperBound, userKey ≤ hi) ∧
        ∃ e, NewestVisible (memtable.tree :: ts.map Table.entries).flatten userKey snapshot e ∧
          e.kind = internalKeyKindSet ∧ e.value = value := by
  have hserves := forall₂_serves fun t ht => Table.intact_readBlock (hheld t ht)
  have hopens := hserves.imp fun _ _ hserve => hserve.opens lowerBound snapshot hsnap
  have hsorted : ∀ layer ∈ memtable.tree :: ts.map Table.entries, Sorted layer :=
    sorted_of_opensOn hopens
  have hvalid : ∀ e ∈ (memtable.tree :: ts.map Table.entries).flatten, e.ik.valid = true := by
    intro e he
    rcases List.mem_append.mp he with he | he
    · exact hmem e he
    · obtain ⟨layer, hlayer, he⟩ := List.mem_flatten.mp he
      obtain ⟨t, -, rfl⟩ := List.mem_map.mp hlayer
      exact t.valid e he
  obtain ⟨m, hm, hascending, hpairs⟩ := scanFrom_spec hmem upperBound hsnap hopens
  refine ⟨m, m.drain, hm, ?_, hascending, fun userKey value => ?_⟩
  · exact drainLoop_drains (scanFrom_heapOk hmem hsnap hopens hm) (left_ge_size m)
  · rw [hpairs, inRange_iff, answer_newestAt_iff hsorted hvalid hcopies, and_assoc]

end Scan

/-- The tables oldest first: a scan still finds the newest versions. -/
theorem scan_yields_newest_oldestFirst :
    ∃ m pairs, scanFrom (readBlock (writeTables FMap.empty fourTables)) newMemTable
        (fourTables.reverse.map Table.sst) [] none 3 = .ok m ∧ Drains m pairs ∧
      SortedBy Prod.fst pairs ∧
      ∀ userKey value, (userKey, value) ∈ pairs ↔
        [] ≤ userKey ∧ (∀ hi ∈ (none : Option Bytes), userKey ≤ hi) ∧
        ∃ e, NewestVisible (newMemTable.tree :: fourTables.reverse.map Table.entries).flatten
            userKey 3 e ∧ e.kind = internalKeyKindSet ∧ e.value = value := by
  refine scan_yields_newest (by simp [newMemTable]) (fun t ht => ?_) ?_ [] none (by decide)
  · exact ready_fourTables.held t (List.mem_reverse.mp ht)
  · decide

end Hcdb.Db
