import Hcdb.Lib.Retain
import Hcdb.Base.Layers
import Hcdb.Sstable.OpenAll

namespace Hcdb.Compaction

open Hcdb.Lib.ByteString
open Hcdb.Lib.SortedList
open Hcdb.Base
open Hcdb.Sstable

/-- The quotient of the two sizes, rounded down, is at most the ratio; an empty file is
similar to none. -/
def isSimilarSize (a b : Nat) : Bool :=
  if a = 0 ∨ b = 0 then false
  else if a < b then decide (b / a ≤ Config.defaultSimilarSizeRatio)
  else decide (a / b ≤ Config.defaultSimilarSizeRatio)

/-- The two nested loops over the tables with their sizes.  The list holds the
tables not `used` yet, in order; at most `fuel` groups are formed. -/
def groupLoop {α : Type} : Nat → List (α × Nat) → List (List α)
  | 0, _ => []
  | _ + 1, [] => []
  | fuel + 1, (t, size) :: rest =>
      (t :: (rest.filter fun p => isSimilarSize size p.2).map Prod.fst) ::
        groupLoop fuel (rest.filter fun p => !isSimilarSize size p.2)

/-- Greedy grouping by size: every table not yet used starts a group and takes
along every later unused one of a similar size. -/
def groupBySize {α : Type} (size : α → Nat) (tables : List α) : List (List α) :=
  groupLoop tables.length (tables.map fun t => (t, size t))

/-- `os.Stat` gives the size of a file; a failed call counts as size 0. -/
def statSize (stat : Bytes → Option Nat) (path : Bytes) : Nat :=
  (stat path).getD 0

def groupBySimilarSize (stat : Bytes → Option Nat) (tables : List SSTable) :
    List (List SSTable) :=
  groupBySize (fun sst => statSize stat sst.filePath) tables

def sortEntries (entries : List Entry) : List Entry :=
  sortBy Entry.ik entries

/-- One turn of the loop of `mergeIterators`, on the user keys in
`keptAtOrBelowFloor` and the result so far. -/
def mergeEntry (floor : Nat) (acc : List Bytes × List Entry) (entry : Entry) :
    List Bytes × List Entry :=
  let (kept, result) := acc
  if entry.userKey ∈ kept then (kept, result)
  else (if entry.seqNum ≤ floor then entry.userKey :: kept else kept, result ++ [entry])

/-- Merge the runs in their order; of each user key nothing is kept behind its first version
at or below the floor. -/
def mergeIterators (iterators : List (List Entry)) (floor : Nat) : List Entry :=
  let acc := iterators.foldl (fun acc entries => entries.foldl (mergeEntry floor) acc) ([], [])
  sortEntries acc.2

/-- The I/O of a compaction that can fail: reading or writing merge group `g`,
syncing the directory once its file is renamed, and the `i`-th `os.Remove`. -/
inductive IoCall where
  | read (g : Nat)
  | write (g : Nat)
  | dirSync (g : Nat)
  | remove (i : Nat)
  deriving DecidableEq, Repr

inductive CompactErr where
  | io (call : IoCall)
  | sst (e : SstErr)
  | removeFailed (path : Bytes)
  deriving DecidableEq, Repr

/-- What a compaction learns from outside: the clock when group `g` is written,
the sizes of the files, and which calls fail. -/
structure Env where
  now : Nat → Nat
  stat : Bytes → Option Nat
  fails : IoCall → Bool

section Compact

variable [Runtime]

/-- The loop of `mergeGroup` that reads its tables. -/
def readAll (dir : TableDir) : List SSTable → Except SstErr (List (List Entry))
  | [] => .ok []
  | sst :: ssts =>
      match newBlockIterator dir sst with
      | .error e => .error e
      | .ok entries =>
          match readAll dir ssts with
          | .error e => .error e
          | .ok iterators => .ok (entries :: iterators)

/-- `mergeGroup` on group number `g`.  A write that fails takes its temporary file
away again; when only the sync of the directory fails the file is there. -/
def mergeGroup (env : Env) (floor : Nat) (g : Nat) (dir : TableDir) (tables : List SSTable) :
    TableDir × Except CompactErr SSTable :=
  if env.fails (.read g) then (dir, .error (.io (.read g)))
  else
    match readAll dir tables with
    | .error e => (dir, .error (.sst e))
    | .ok iterators =>
        let merged := mergeIterators iterators floor
        let filePath := sstName (env.now g)
        if env.fails (.write g) then (dir, .error (.io (.write g)))
        else
          let out := writeSSTableFromBlockEntries filePath merged
          let dir := dir.write filePath out.2
          if env.fails (.dirSync g) then (dir, .error (.io (.dirSync g)))
          else (dir, .ok out.1)

/-- The loop over the groups, from group `g` on: the result list and the paths of
the tables that were `compacted`. -/
def mergeLoop (env : Env) (floor : Nat) : Nat → TableDir → List (List SSTable) →
    TableDir × Except CompactErr (List SSTable × List Bytes)
  | _, dir, [] => (dir, .ok ([], []))
  | g, dir, group :: groups =>
      if group.length < 2 then
        match mergeLoop env floor (g + 1) dir groups with
        | (dir, .error e) => (dir, .error e)
        | (dir, .ok (result, compacted)) => (dir, .ok (group ++ result, compacted))
      else
        match mergeGroup env floor g dir group with
        | (dir, .error e) => (dir, .error e)
        | (dir, .ok merged) =>
            match mergeLoop env floor (g + 1) dir groups with
            | (dir, .error e) => (dir, .error e)
            | (dir, .ok (result, compacted)) =>
                (dir, .ok (merged :: result, group.map SSTable.filePath ++ compacted))

end Compact

/-- The loop that deletes the compacted files, at the `i`-th deletion. -/
def removeLoop (env : Env) (compacted : List Bytes) : Nat → TableDir → List SSTable →
    TableDir × Except CompactErr Unit
  | _, dir, [] => (dir, .ok ())
  | i, dir, sst :: ssts =>
      if sst.filePath ∈ compacted then
        if env.fails (.remove i) ∨ dir.read sst.filePath = none then
          (dir, .error (.removeFailed sst.filePath))
        else removeLoop env compacted (i + 1) (dir.remove sst.filePath) ssts
      else removeLoop env compacted i dir ssts

/-- Merge the groups, install the results and delete the inputs; nothing happens below the
threshold. -/
def compact [Runtime] (env : Env) (dir : TableDir) (tables : List SSTable) (floor : Nat) :
    TableDir × Except CompactErr (List SSTable) :=
  if tables.length < Config.defaultCompactionThreshold then (dir, .ok tables)
  else
    match mergeLoop env floor 0 dir (groupBySimilarSize env.stat tables) with
    | (dir, .error e) => (dir, .error e)
    | (dir, .ok (result, compacted)) =>
        match removeLoop env compacted 0 dir tables with
        | (dir, .error e) => (dir, .error e)
        | (dir, .ok ()) => (dir, .ok result)

end Hcdb.Compaction
