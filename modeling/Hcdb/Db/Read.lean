import Hcdb.Db.MergeScan
import Hcdb.Sstable.Table

namespace Hcdb.Db

open Hcdb.Lib.ByteString
open Hcdb.Lib.SortedList
open Hcdb.Lib.Traversal
open Hcdb.Base
open Hcdb.Memtable
open Hcdb.Sstable

/-- What implements `source`: an iterator over the memtable, or one over a table
together with the disk it reads from. -/
inductive Source where
  | memtable (it : Memtable.Iterator)
  | sstable (read : BlockReader) (it : Sstable.Iterator)

namespace Source

def current? : Source → Option Entry
  | .memtable it => if it.valid then it.entries[it.pos]? else none
  | .sstable _ it => it.current?

def next : Source → Source
  | .memtable it => .memtable it.next
  | .sstable read it => .sstable read (it.next read)

def left : Source → Nat
  | .memtable it => it.entries.length - it.pos
  | .sstable read it => (it.remaining read).length

theorem left_next {src : Source} {e : Entry} (h : src.current? = some e) :
    src.next.left < src.left := by
  cases src with
  | memtable it =>
      simp only [current?, Memtable.Iterator.valid, decide_eq_true_eq] at h
      split at h
      · simp only [next, left, Memtable.Iterator.next]
        omega
      · simp at h
  | sstable read it => exact Sstable.Iterator.length_remaining_next read h

instance : Cursor Source Entry where
  current? := current?
  next := next
  left := left
  left_next := left_next

end Source

section Reads

variable [Runtime] (read : BlockReader)

/-- The tables from the newest to the oldest, up to the first that knows the key. -/
def searchSSTables : List SSTable → Bytes → Nat → Option Bytes
  | [], _, _ => none
  | sst :: ssts, key, snapshot =>
      match sst.lookup read key snapshot with
      | .error _ => none
      | .ok .deleted => none
      | .ok (.found val) => some val
      | .ok .absent => searchSSTables ssts key snapshot

/-- `GetAt`, on the parts of the database it reads. -/
def getFrom (memtable : MemTable) (sstables : List SSTable) (key : Bytes) (snapshot : Nat) :
    Option Bytes :=
  match memtable.get key snapshot with
  | .found val => some val
  | .deleted => none
  | .absent => searchSSTables read sstables key snapshot

/-- The loop of `ScanAt` over the tables. -/
def openSources : List SSTable → Bytes → Nat → Except SstErr (List Source)
  | [], _, _ => .ok []
  | sst :: ssts, lowerBound, snapshot =>
      match Sstable.newIterator read sst lowerBound snapshot with
      | .error e => .error e
      | .ok it =>
          match openSources ssts lowerBound snapshot with
          | .error e => .error e
          | .ok srcs => .ok (.sstable read it :: srcs)

/-- `ScanAt`, on the parts of the database it reads.  The memtable has priority
0, table `i` has priority `i + 1`. -/
def scanFrom (memtable : MemTable) (sstables : List SSTable) (lowerBound : Bytes)
    (upperBound : Option Bytes) (snapshot : Nat) : Except SstErr (MergeIterator Source) :=
  let memIt := Memtable.newIterator memtable lowerBound upperBound snapshot
  match openSources read sstables lowerBound snapshot with
  | .error e => .error e
  | .ok srcs => .ok
      { h := pushSources 0 (.memtable memIt :: srcs) []
        upperBound, key := [], val := [], valid := false }

end Reads

theorem Source.toList_memtable (it : Memtable.Iterator) :
    Cursor.toList (Source.memtable it) = it.entries.drop it.pos := by
  generalize hn : it.entries.length - it.pos = n
  induction n generalizing it with
  | zero =>
      have hle : it.entries.length ≤ it.pos := by omega
      rw [Cursor.toList_of_none, List.drop_eq_nil_of_le hle]
      change (if it.valid then it.entries[it.pos]? else none) = none
      simp [Memtable.Iterator.valid, not_lt.mpr hle]
  | succ n ih =>
      have hlt : it.pos < it.entries.length := by omega
      have hcur : Cursor.current? (Source.memtable it) = some it.entries[it.pos] := by
        change (if it.valid then it.entries[it.pos]? else none) = _
        simp [Memtable.Iterator.valid, hlt]
      have hrec := ih it.next (by simp only [Memtable.Iterator.next]; omega)
      rw [Cursor.toList_of_some hcur, List.drop_eq_getElem_cons hlt]
      exact congrArg _ hrec

theorem Source.toList_sstable {read : BlockReader} {it : Sstable.Iterator} {es : List Entry}
    (h : Yields Sstable.Iterator.current? (Sstable.Iterator.next read) it es) :
    Cursor.toList (Source.sstable read it) = es := by
  induction h with
  | nil hnone => exact Cursor.toList_of_none (s := Source.sstable read _) hnone
  | cons hsome _ ih =>
      rw [Cursor.toList_of_some (s := Source.sstable read _) hsome]
      exact congrArg _ ih

theorem covers_filter {σ : Type} [Cursor σ Entry] {lowerBound : Bytes}
    {upperBound : Option Bytes} {snapshot : Nat} {layer : List Entry} {src : σ}
    (h : Cursor.toList src =
      layer.filter fun e => decide (lowerBound ≤ e.userKey) && e.ik.visible snapshot) :
    Covers lowerBound upperBound snapshot layer src := by
  have hmem : ∀ e, e ∈ Cursor.toList src ↔
      e ∈ layer ∧ lowerBound ≤ e.userKey ∧ e.seqNum ≤ snapshot := by
    intro e
    rw [h]
    simp [InternalKey.visible, Entry.seqNum]
  refine ⟨h ▸ List.filter_sublist, fun e he => ((hmem e).mp he).2, ?_⟩
  intro e he hrange hseq
  rw [inRange, Bool.and_eq_true, decide_eq_true_eq] at hrange
  exact (hmem e).mpr ⟨he, hrange.1, hseq⟩

theorem covers_memtable {memtable : MemTable} (hmem : ∀ e ∈ memtable.tree, e.ik.valid = true)
    (lowerBound : Bytes) (upperBound : Option Bytes) {snapshot : Nat}
    (hsnap : snapshot ≤ seqNumMax) :
    Covers lowerBound upperBound snapshot memtable.tree
      (Source.memtable (newIterator memtable lowerBound upperBound snapshot)) := by
  have hlist : Cursor.toList (Source.memtable (newIterator memtable lowerBound upperBound
      snapshot)) = memtable.tree.filter fun e =>
        inRange lowerBound upperBound e.userKey && e.ik.visible snapshot := by
    rw [Source.toList_memtable, ← newIterator_entries memtable hmem lowerBound upperBound hsnap]
    rfl
  have hin : ∀ e, e ∈ Cursor.toList (Source.memtable (newIterator memtable lowerBound upperBound
      snapshot)) ↔ e ∈ memtable.tree ∧ inRange lowerBound upperBound e.userKey = true ∧
        e.seqNum ≤ snapshot := by
    intro e
    rw [hlist]
    simp [InternalKey.visible, Entry.seqNum]
  refine ⟨hlist ▸ List.filter_sublist, ?_, fun e he hrange hseq => (hin e).mpr ⟨he, hrange, hseq⟩⟩
  intro e he
  obtain ⟨-, hrange, hseq⟩ := (hin e).mp he
  rw [inRange, Bool.and_eq_true, decide_eq_true_eq] at hrange
  exact ⟨hrange.1, hseq⟩

section ScanSpecs

variable {read : BlockReader} {memtable : MemTable} {ssts : List SSTable}
  {layers : List (List Entry)} {snapshot : Nat}

/-- The iterator over the table opens and goes through this layer. -/
def OpensOn (read : BlockReader) (lowerBound : Bytes) (snapshot : Nat) (sst : SSTable)
    (layer : List Entry) : Prop :=
  Sorted layer ∧ ∃ it, Sstable.newIterator read sst lowerBound snapshot = .ok it ∧
    Yields Sstable.Iterator.current? (Sstable.Iterator.next read) it
      (layer.filter fun e => decide (lowerBound ≤ e.userKey) && e.ik.visible snapshot)

theorem openSources_covers {lowerBound : Bytes} (upperBound : Option Bytes)
    (h : List.Forall₂ (OpensOn read lowerBound snapshot) ssts layers) :
    ∃ srcs, openSources read ssts lowerBound snapshot = .ok srcs ∧
      List.Forall₂ (Covers lowerBound upperBound snapshot) layers srcs := by
  induction h with
  | nil => exact ⟨[], rfl, List.Forall₂.nil⟩
  | cons hopens _ ih =>
      obtain ⟨srcs, hsrcs, hcov⟩ := ih
      obtain ⟨-, it, hit, hyields⟩ := hopens
      refine ⟨.sstable read it :: srcs, ?_, ?_⟩
      · simp [openSources, hit, hsrcs]
      · exact List.Forall₂.cons (covers_filter (Source.toList_sstable hyields)) hcov

theorem sorted_of_opensOn {lowerBound : Bytes}
    (h : List.Forall₂ (OpensOn read lowerBound snapshot) ssts layers) :
    ∀ layer ∈ memtable.tree :: layers, Sorted layer := by
  refine List.forall_mem_cons.mpr ⟨memtable.sorted, ?_⟩
  induction h with
  | nil => simp
  | cons hopens _ ih => exact List.forall_mem_cons.mpr ⟨hopens.1, ih⟩

/-- A scan whose iterators open yields the live user keys of the memtable and the
layers it can read. -/
theorem scanFrom_spec (hmem : ∀ e ∈ memtable.tree, e.ik.valid = true) {lowerBound : Bytes}
    (upperBound : Option Bytes) (hsnap : snapshot ≤ seqNumMax)
    (h : List.Forall₂ (OpensOn read lowerBound snapshot) ssts layers) :
    ∃ m, scanFrom read memtable ssts lowerBound upperBound snapshot = .ok m ∧
      SortedBy Prod.fst m.drain ∧
      ∀ u v, (u, v) ∈ m.drain ↔ inRange lowerBound upperBound u = true ∧
        answer (newestAt (memtable.tree :: layers) u snapshot) = some v := by
  obtain ⟨srcs, hsrcs, hcov⟩ := openSources_covers upperBound h
  refine ⟨_, by simp only [scanFrom, hsrcs]; rfl, ?_⟩
  exact drain_pushSources (List.Forall₂.cons (covers_memtable hmem _ _ hsnap) hcov)
    (sorted_of_opensOn h) _ rfl rfl

theorem scanFrom_heapOk (hmem : ∀ e ∈ memtable.tree, e.ik.valid = true) {lowerBound : Bytes}
    {upperBound : Option Bytes} (hsnap : snapshot ≤ seqNumMax)
    (h : List.Forall₂ (OpensOn read lowerBound snapshot) ssts layers) {m : MergeIterator Source}
    (hm : scanFrom read memtable ssts lowerBound upperBound snapshot = .ok m) : HeapOk m.h := by
  obtain ⟨srcs, hsrcs, hcov⟩ := openSources_covers upperBound h
  simp only [scanFrom, hsrcs, Except.ok.injEq] at hm
  subst hm
  exact heapOk_of_covers (List.Forall₂.cons (covers_memtable hmem _ _ hsnap) hcov)
    (sorted_of_opensOn h)

end ScanSpecs

section ReadSpecs

variable [Runtime] {read : BlockReader}

/-- All reads find in the table this run of entries. -/
structure Serves (read : BlockReader) (sst : SSTable) (layer : List Entry) : Prop where
  lookup : ∀ key, ∀ snapshot ≤ seqNumMax,
    sst.lookup read key snapshot = .ok (KeyLookup.ofEntry? (versionAt layer key snapshot))
  opens : ∀ lowerBound, ∀ snapshot ≤ seqNumMax, OpensOn read lowerBound snapshot sst layer

theorem serves_of_intact {t : Table} (h : Table.Intact read t) : Serves read t.sst t.entries where
  lookup key _ hsnap := h.lookup_eq key hsnap
  opens lowerBound _ hsnap := ⟨t.sorted, h.newIterator_yields lowerBound hsnap⟩

theorem forall₂_serves {ts : List Table} (h : ∀ t ∈ ts, Table.Intact read t) :
    List.Forall₂ (Serves read) (ts.map Table.sst) (ts.map Table.entries) := by
  rw [List.forall₂_map_left_iff, List.forall₂_map_right_iff]
  exact List.forall₂_same.mpr fun t ht => serves_of_intact (h t ht)

variable {memtable : MemTable} {ssts : List SSTable} {layers : List (List Entry)} {snapshot : Nat}

theorem searchSSTables_eq (h : List.Forall₂ (Serves read) ssts layers) (key : Bytes)
    (hsnap : snapshot ≤ seqNumMax) :
    searchSSTables read ssts key snapshot = answer (versionAt layers.flatten key snapshot) := by
  induction h with
  | nil => rfl
  | @cons sst layer ssts layers hserves _ ih =>
      rw [searchSSTables, hserves.lookup key snapshot hsnap, List.flatten_cons, versionAt_append]
      cases versionAt layer key snapshot with
      | none => exact ih
      | some e =>
          by_cases hk : e.kind = internalKeyKindDelete
          · simp [KeyLookup.ofEntry?, answer, hk]
          · simp [KeyLookup.ofEntry?, answer, hk]

theorem getFrom_eq (hmem : ∀ e ∈ memtable.tree, e.ik.valid = true)
    (h : List.Forall₂ (Serves read) ssts layers) (key : Bytes) (hsnap : snapshot ≤ seqNumMax) :
    getFrom read memtable ssts key snapshot =
      answer (versionAt (memtable.tree ++ layers.flatten) key snapshot) := by
  rw [getFrom, get_eq_versionAt memtable hmem key hsnap, searchSSTables_eq h key hsnap,
    versionAt_append]
  cases versionAt memtable.tree key snapshot with
  | none => rfl
  | some e =>
      by_cases hk : e.kind = internalKeyKindDelete
      · simp [KeyLookup.ofEntry?, answer, hk]
      · simp [KeyLookup.ofEntry?, answer, hk]

theorem scanFrom_serves (hmem : ∀ e ∈ memtable.tree, e.ik.valid = true)
    (h : List.Forall₂ (Serves read) ssts layers) (lowerBound : Bytes) (upperBound : Option Bytes)
    (hsnap : snapshot ≤ seqNumMax) :
    ∃ m, scanFrom read memtable ssts lowerBound upperBound snapshot = .ok m ∧
      SortedBy Prod.fst m.drain ∧
      ∀ u v, (u, v) ∈ m.drain ↔ inRange lowerBound upperBound u = true ∧
        answer (newestAt (memtable.tree :: layers) u snapshot) = some v :=
  scanFrom_spec hmem upperBound hsnap
    (h.imp fun _ _ hserves => hserves.opens lowerBound snapshot hsnap)

end ReadSpecs

end Hcdb.Db
