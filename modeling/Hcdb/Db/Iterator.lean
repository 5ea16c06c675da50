import Hcdb.Lib.PriorityQueue
import Hcdb.Lib.Traversal
import Hcdb.Base.Layers
import Hcdb.Memtable
import Mathlib.Data.List.Perm.Lattice

namespace Hcdb.Db

open Hcdb.Lib.ByteString
open Hcdb.Lib.SortedList
open Hcdb.Lib.Traversal
open Hcdb.Lib.PriorityQueue
open Hcdb.Base
open Hcdb.Memtable

/-- `mergeItem`, over any kind of `source`. -/
structure MergeItem (σ : Type) where
  key : Bytes
  priority : Nat
  src : σ

section Merge

variable {σ : Type} [Cursor σ Entry]

/-- `mergeHeap.Less`: by internal key, and by priority where the keys are equal. -/
def MergeItem.less (a b : MergeItem σ) : Bool :=
  match internalCompare bytesCompare (decodeInternalKey a.key) (decodeInternalKey b.key) with
  | .lt => true
  | .gt => false
  | .eq => decide (a.priority < b.priority)

/-- A source is pushed with its first key, unless it has none. -/
def pushSource (priority : Nat) (src : σ) (h : List (MergeItem σ)) : List (MergeItem σ) :=
  match Cursor.current? src with
  | none => h
  | some e => { key := e.key, priority, src } :: h

/-- The sources get their priorities in the order in which they come. -/
def pushSources : Nat → List σ → List (MergeItem σ) → List (MergeItem σ)
  | _, [], h => h
  | priority, src :: srcs, h => pushSources (priority + 1) srcs (pushSource priority src h)

/-- Move the source on to the next user key. -/
def skipUserKey (userKey : Bytes) : Nat → σ → σ
  | 0, src => src
  | fuel + 1, src =>
      match Cursor.current? src with
      | none => src
      | some e => if e.userKey = userKey then skipUserKey userKey fuel (Cursor.next src) else src

/-- Advance the item's source beyond every entry of `userKey` and put it back. -/
def skipPast (userKey : Bytes) (item : MergeItem σ) (h : List (MergeItem σ)) :
    List (MergeItem σ) :=
  let src := Cursor.next item.src
  pushSource item.priority (skipUserKey userKey (Cursor.left src) src) h

/-- `for h.Len() > 0 && h[0] is of userKey { skipPast(userKey, heap.Pop(h), h) }`.
Every turn leaves one item of that user key less on the heap. -/
def skipOlder (userKey : Bytes) : Nat → List (MergeItem σ) → List (MergeItem σ)
  | 0, h => h
  | fuel + 1, h =>
      match popMin MergeItem.less h with
      | none => h
      | some (top, rest) =>
          if (decodeInternalKey top.key).userKey = userKey then
            skipOlder userKey fuel (skipPast userKey top rest)
          else h

end Merge

/-- The items still to be merged, and the pair that the iterator stands at. -/
structure MergeIterator (σ : Type) where
  h : List (MergeItem σ)
  upperBound : Option Bytes
  key : Bytes
  val : Bytes
  valid : Bool

namespace MergeIterator

variable {σ : Type} [Cursor σ Entry]

/-- The entries that the sources have still to give. -/
def left (m : MergeIterator σ) : Nat :=
  (m.h.map fun item => Cursor.left item.src).sum

/-- `Next`: one user key a turn, up to the first that was not deleted. -/
def nextLoop : Nat → MergeIterator σ → MergeIterator σ × Bool
  | 0, m => ({ m with valid := false }, false)
  | fuel + 1, m =>
      match popMin MergeItem.less m.h with
      | none => ({ m with valid := false }, false)
      | some (top, rest) =>
          let ik := decodeInternalKey top.key
          -- the value is read before the source moves on
          let val := (Cursor.current? top.src).elim [] Entry.value
          let h := skipPast ik.userKey top rest
          let h := skipOlder ik.userKey h.length h
          if pastUpper m.upperBound ik.userKey then ({ m with h, valid := false }, false)
          else if ik.kind = internalKeyKindDelete then nextLoop fuel { m with h }
          else ({ m with h, key := ik.userKey, val, valid := true }, true)

/-- `Next`.  Every turn of its loop takes an entry out of a source. -/
def next (m : MergeIterator σ) : MergeIterator σ × Bool :=
  nextLoop m.left m

/-- `for it.Next() { use(it.Key(), it.Value()) }`, at most `fuel` times. -/
def drainLoop : Nat → MergeIterator σ → List (Bytes × Bytes)
  | 0, _ => []
  | fuel + 1, m =>
      match m.next with
      | (m, true) => (m.key, m.val) :: drainLoop fuel m
      | (_, false) => []

def drain (m : MergeIterator σ) : List (Bytes × Bytes) :=
  drainLoop m.left m

end MergeIterator

end Hcdb.Db
