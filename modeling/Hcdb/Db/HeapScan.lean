import Hcdb.Lib.BinaryHeap
import Hcdb.Db.Heap
import Hcdb.Db.Read

/-!
The merge scan on the slice that the program keeps its heap in.  Items are sifted through
`Less` and `Swap`; what `Next` shows is what the merge over a list of items shows.
-/

namespace Hcdb.Db

open Hcdb.Lib.ByteString
open Hcdb.Lib.Traversal
open Hcdb.Lib.PriorityQueue
open Hcdb.Lib.BinaryHeap
open Hcdb.Base
open Hcdb.Memtable
open Hcdb.Sstable

/-- `mergeHeap`, the slice that `container/heap` works on. -/
abbrev MergeHeap (σ : Type) := Array (MergeItem σ)

/-- `MergeIterator` with its heap as a slice. -/
structure HeapIterator (σ : Type) where
  h : MergeHeap σ
  upperBound : Option Bytes
  key : Bytes
  val : Bytes
  valid : Bool

section Merge

variable {σ : Type} [Cursor σ Entry]

namespace MergeHeap

/-- A source is pushed with its first key, unless it has none. -/
def pushSource (priority : Nat) (src : σ) (h : MergeHeap σ) : MergeHeap σ :=
  match Cursor.current? src with
  | none => h
  | some e => push MergeItem.less h { key := e.key, priority, src }

def pushSources : Nat → List σ → MergeHeap σ → MergeHeap σ
  | _, [], h => h
  | priority, src :: srcs, h => pushSources (priority + 1) srcs (pushSource priority src h)

def skipPast (userKey : Bytes) (item : MergeItem σ) (h : MergeHeap σ) : MergeHeap σ :=
  let src := Cursor.next item.src
  pushSource item.priority (skipUserKey userKey (Cursor.left src) src) h

def skipOlder (userKey : Bytes) : Nat → MergeHeap σ → MergeHeap σ
  | 0, h => h
  | fuel + 1, h =>
      match h[0]? with
      | none => h
      | some top =>
          if (decodeInternalKey top.key).userKey = userKey then
            match pop MergeItem.less h with
            | none => h
            | some (top, h) => skipOlder userKey fuel (skipPast userKey top h)
          else h

end MergeHeap

namespace HeapIterator

def left (m : HeapIterator σ) : Nat :=
  (m.h.toList.map fun item => Cursor.left item.src).sum

def nextLoop : Nat → HeapIterator σ → HeapIterator σ × Bool
  | 0, m => ({ m with valid := false }, false)
  | fuel + 1, m =>
      match pop MergeItem.less m.h with
      | none => ({ m with valid := false }, false)
      | some (top, h) =>
          let ik := decodeInternalKey top.key
          let val := (Cursor.current? top.src).elim [] Entry.value
          let h := MergeHeap.skipPast ik.userKey top h
          let h := MergeHeap.skipOlder ik.userKey h.size h
          if pastUpper m.upperBound ik.userKey then ({ m with h, valid := false }, false)
          else if ik.kind = internalKeyKindDelete then nextLoop fuel { m with h }
          else ({ m with h, key := ik.userKey, val, valid := true }, true)

def next (m : HeapIterator σ) : HeapIterator σ × Bool := nextLoop m.left m

def drainLoop : Nat → HeapIterator σ → List (Bytes × Bytes)
  | 0, _ => []
  | fuel + 1, m =>
      match m.next with
      | (m, true) => (m.key, m.val) :: drainLoop fuel m
      | (_, false) => []

def drain (m : HeapIterator σ) : List (Bytes × Bytes) := drainLoop m.left m

/-- `Valid`, `Key` and `Value` after so many calls of `Next`. -/
def shown (m : HeapIterator σ) (n : Nat) : Bool × Bytes × Bytes :=
  let m := (fun m => (next m).1)^[n] m
  (m.valid, m.key, m.val)

end HeapIterator

/-- What `Valid`, `Key` and `Value` say after `n` calls of `Next`. -/
def MergeIterator.shown (m : MergeIterator σ) (n : Nat) : Bool × Bytes × Bytes :=
  let m := (fun m => (next m).1)^[n] m
  (m.valid, m.key, m.val)

end Merge

/-- `ScanAt` with the heap in a slice. -/
def heapScanFrom (read : BlockReader) (memtable : MemTable) (sstables : List SSTable)
    (lowerBound : Bytes) (upperBound : Option Bytes) (snapshot : Nat) :
    Except SstErr (HeapIterator Source) :=
  let memIt := Memtable.newIterator memtable lowerBound upperBound snapshot
  match openSources read sstables lowerBound snapshot with
  | .error e => .error e
  | .ok srcs => .ok
      { h := MergeHeap.pushSources 0 (.memtable memIt :: srcs) #[]
        upperBound, key := [], val := [], valid := false }

section Heaps

variable {σ : Type} {h : MergeHeap σ} {q : List (MergeItem σ)}

/-- Items leave the heap by internal key, and among equal keys by priority. -/
def MergeItem.place (item : MergeItem σ) : InternalKey ×ₗ Nat :=
  toLex (decodeInternalKey item.key, item.priority)

/-- The slice is a heap of the items of the list, no two of which have one priority. -/
structure StandsFor (h : MergeHeap σ) (q : List (MergeItem σ)) : Prop
    extends Holds MergeItem.place h q where
  nodup : (q.map MergeItem.priority).Nodup

theorem StandsFor.eq_of_place (hs : StandsFor h q) :
    ∀ x ∈ q, ∀ y ∈ q, x.place = y.place → x = y := by
  intro x hx y hy hplace
  have hpair := toLex.injective hplace
  exact List.inj_on_of_nodup_map hs.nodup hx hy (Prod.mk.inj hpair).2

theorem StandsFor.size_eq (hs : StandsFor h q) : h.size = q.length := by
  rw [← Array.length_toList, hs.perm.length_eq]

/-- The same item leaves both, and its priority is free again. -/
theorem StandsFor.pop (hs : StandsFor h q) {top : MergeItem σ} {rest : List (MergeItem σ)}
    (hpop : popMin MergeItem.less q = some (top, rest)) :
    h[0]? = some top ∧ ∃ h', Lib.BinaryHeap.pop MergeItem.less h = some (top, h') ∧
      StandsFor h' rest ∧ top.priority ∉ rest.map MergeItem.priority := by
  obtain ⟨hroot, h', heq, hholds⟩ := hs.toHolds.pop MergeItem.less_eq hs.eq_of_place hpop
  have hnodup := ((popMin_perm hpop).map MergeItem.priority).nodup_iff.mp hs.nodup
  rw [List.map_cons, List.nodup_cons] at hnodup
  exact ⟨hroot, h', heq, ⟨hholds, hnodup.2⟩, hnodup.1⟩

variable [Cursor σ Entry]

theorem StandsFor.pushSource (hs : StandsFor h q) {priority : Nat}
    (hnew : priority ∉ q.map MergeItem.priority) (src : σ) :
    StandsFor (MergeHeap.pushSource priority src h) (pushSource priority src q) := by
  unfold MergeHeap.pushSource Db.pushSource
  cases Cursor.current? src with
  | none => exact hs
  | some e =>
      exact ⟨hs.toHolds.push MergeItem.less_eq _, List.nodup_cons.mpr ⟨hnew, hs.nodup⟩⟩

theorem priority_pushSource_subset (priority : Nat) (src : σ) (q : List (MergeItem σ)) :
    (pushSource priority src q).map MergeItem.priority ⊆
      priority :: q.map MergeItem.priority := by
  unfold pushSource
  cases Cursor.current? src with
  | none => exact List.subset_cons_self _ _
  | some e => exact List.Subset.refl _

theorem StandsFor.pushSources (hs : StandsFor h q) {n : Nat} {srcs : List σ}
    (hlt : ∀ p ∈ q.map MergeItem.priority, p < n) :
    StandsFor (MergeHeap.pushSources n srcs h) (pushSources n srcs q) := by
  induction srcs generalizing n h q with
  | nil => exact hs
  | cons src srcs ih =>
      refine ih (hs.pushSource (fun hmem => Nat.lt_irrefl n (hlt n hmem)) src) ?_
      intro p hp
      rcases List.mem_cons.mp (priority_pushSource_subset n src q hp) with rfl | hp
      · exact Nat.lt_succ_self _
      · exact (hlt p hp).trans (Nat.lt_succ_self n)

theorem StandsFor.skipPast (hs : StandsFor h q) {item : MergeItem σ}
    (hfree : item.priority ∉ q.map MergeItem.priority) (userKey : Bytes) :
    StandsFor (MergeHeap.skipPast userKey item h) (skipPast userKey item q) :=
  hs.pushSource hfree _

theorem StandsFor.skipOlder (hs : StandsFor h q) (userKey : Bytes) (fuel : Nat) :
    StandsFor (MergeHeap.skipOlder userKey fuel h) (skipOlder userKey fuel q) := by
  induction fuel generalizing h q with
  | zero => exact hs
  | succ fuel ih =>
      unfold MergeHeap.skipOlder Db.skipOlder
      cases hpop : popMin MergeItem.less q with
      | none =>
          have hnil := hs.toHolds
          rw [popMin_eq_none.mp hpop] at hnil
          rw [(hnil.pop_nil MergeItem.less).1]
          exact hs
      | some p =>
          obtain ⟨hroot, h', heq, hrest, hfree⟩ := hs.pop hpop
          simp only [hroot, heq]
          split
          · exact ih (hrest.skipPast hfree userKey)
          · exact hs

end Heaps

section Iterators

variable {σ : Type} [Cursor σ Entry] {m : HeapIterator σ} {m' : MergeIterator σ}

/-- Both iterators stand at the same pair, over the same items. -/
structure ShowsAs (m : HeapIterator σ) (m' : MergeIterator σ) : Prop where
  heap : StandsFor m.h m'.h
  upperBound : m.upperBound = m'.upperBound
  key : m.key = m'.key
  val : m.val = m'.val
  valid : m.valid = m'.valid

theorem ShowsAs.left_eq (hs : ShowsAs m m') : m.left = m'.left :=
  (hs.heap.perm.map _).sum_eq

theorem ShowsAs.nextLoop (hs : ShowsAs m m') (fuel : Nat) :
    ShowsAs (m.nextLoop fuel).1 (m'.nextLoop fuel).1 ∧
      (m.nextLoop fuel).2 = (m'.nextLoop fuel).2 := by
  induction fuel generalizing m m' with
  | zero => exact ⟨⟨hs.heap, hs.upperBound, hs.key, hs.val, rfl⟩, rfl⟩
  | succ fuel ih =>
      unfold HeapIterator.nextLoop MergeIterator.nextLoop
      cases hpop : popMin MergeItem.less m'.h with
      | none =>
          have hnil := hs.heap.toHolds
          rw [popMin_eq_none.mp hpop] at hnil
          rw [(hnil.pop_nil MergeItem.less).2]
          exact ⟨⟨hs.heap, hs.upperBound, hs.key, hs.val, rfl⟩, rfl⟩
      | some p =>
          obtain ⟨top, rest⟩ := p
          obtain ⟨-, h', heq, hrest, hfree⟩ := hs.heap.pop hpop
          have hpast := hrest.skipPast hfree (decodeInternalKey top.key).userKey
          have hheap := hpast.skipOlder (decodeInternalKey top.key).userKey
            (skipPast (decodeInternalKey top.key).userKey top rest).length
          simp only [heq, hs.upperBound, hpast.size_eq]
          split
          · exact ⟨⟨hheap, rfl, hs.key, hs.val, rfl⟩, rfl⟩
          · split
            · exact ih ⟨hheap, rfl, hs.key, hs.val, hs.valid⟩
            · exact ⟨⟨hheap, rfl, rfl, rfl, rfl⟩, rfl⟩

theorem ShowsAs.next (hs : ShowsAs m m') :
    ShowsAs m.next.1 m'.next.1 ∧ m.next.2 = m'.next.2 := by
  rw [HeapIterator.next, MergeIterator.next, hs.left_eq]
  exact hs.nextLoop _

theorem ShowsAs.drainLoop (hs : ShowsAs m m') (fuel : Nat) :
    m.drainLoop fuel = m'.drainLoop fuel := by
  induction fuel generalizing m m' with
  | zero => rfl
  | succ fuel ih =>
      obtain ⟨hnext, hmore⟩ := hs.next
      unfold HeapIterator.drainLoop MergeIterator.drainLoop
      rcases heq : m.next with ⟨n, more⟩
      rcases heq' : m'.next with ⟨n', more'⟩
      rw [heq, heq'] at hnext hmore
      obtain rfl : more = more' := hmore
      cases more with
      | false => rfl
      | true => exact List.cons_eq_cons.mpr ⟨Prod.ext hnext.key hnext.val, ih hnext⟩

theorem ShowsAs.drain (hs : ShowsAs m m') : m.drain = m'.drain := by
  rw [HeapIterator.drain, MergeIterator.drain, hs.left_eq]
  exact hs.drainLoop _

theorem ShowsAs.shown (hs : ShowsAs m m') (n : Nat) : m.shown n = m'.shown n := by
  induction n generalizing m m' with
  | zero => exact Prod.ext hs.valid (Prod.ext hs.key hs.val)
  | succ n ih => exact ih hs.next.1

end Iterators

/-- On every memtable and all tables, damaged ones included, a scan shows the same whether
its heap is a slice or a list, after each call of `Next` and as a whole. -/
theorem heap_scan_shows (read : BlockReader) (memtable : MemTable) (sstables : List SSTable)
    (lowerBound : Bytes) (upperBound : Option Bytes) (snapshot : Nat) :
    (heapScanFrom read memtable sstables lowerBound upperBound snapshot).map
        (fun m => (m.drain, m.shown)) =
      (scanFrom read memtable sstables lowerBound upperBound snapshot).map
        fun m => (m.drain, m.shown) := by
  unfold heapScanFrom scanFrom
  cases openSources read sstables lowerBound snapshot with
  | error e => rfl
  | ok srcs =>
      have hempty : StandsFor (#[] : MergeHeap Source) [] := ⟨holds_empty, List.nodup_nil⟩
      have hshows : ShowsAs
          { h := MergeHeap.pushSources 0 (.memtable
              (Memtable.newIterator memtable lowerBound upperBound snapshot) :: srcs) #[]
            upperBound, key := [], val := [], valid := false }
          { h := pushSources 0 (.memtable
              (Memtable.newIterator memtable lowerBound upperBound snapshot) :: srcs) []
            upperBound, key := [], val := [], valid := false } :=
        ⟨hempty.pushSources (by simp), rfl, rfl, rfl, rfl⟩
      exact congrArg Except.ok (Prod.ext hshows.drain (funext hshows.shown))

end Hcdb.Db
