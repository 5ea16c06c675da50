import Hcdb.Base.Entry

namespace Hcdb.Memtable

open Hcdb.Lib.ByteString
open Hcdb.Lib.SortedList
open Hcdb.Base

def itemLess (a b : Entry) : Bool :=
  internalCompare bytesCompare a.ik b.ik == .lt

theorem itemLess_eq_decide (a b : Entry) : itemLess a b = decide (a.ik < b.ik) := by
  rw [itemLess, internalCompare_eq_cmp, Bool.eq_iff_iff, beq_iff_eq, decide_eq_true_eq]
  exact cmp_eq_lt_iff a.ik b.ik

/-- The B-tree is the strictly sorted list of its items; `size` counts every
insertion, replacements included. -/
structure MemTable where
  tree : List Entry
  size : Nat
  sorted : Sorted tree

def newMemTable : MemTable where
  tree := []
  size := 0
  sorted := sortedBy_nil

namespace MemTable

/-- `ReplaceOrInsert`; the size grows even where a key is replaced. -/
def insert (mt : MemTable) (internalKey value : Bytes) : MemTable where
  tree := insertBy Entry.ik { key := internalKey, value } mt.tree
  size := mt.size + (internalKey.length + value.length)
  sorted := mt.sorted.insertBy _

def put (mt : MemTable) (internalKey value : Bytes) : MemTable :=
  mt.insert internalKey value

/-- A tombstone carries no value; the kind in the key's trailer marks it. -/
def delete (mt : MemTable) (internalKey : Bytes) : MemTable :=
  mt.insert internalKey []

/-- The entries that `Ascend` hands to its callback, in this order. -/
def ascend (mt : MemTable) : List Entry := mt.tree

/-- The items from the pivot on. -/
def ascendGreaterOrEqual (mt : MemTable) (pivot : Entry) : List Entry :=
  mt.tree.dropWhile fun item => itemLess item pivot

end MemTable

/-- The place before the newest version that the snapshot can see. -/
def encodeSearchKey (userKey : Bytes) (snapshot : Nat) : Bytes :=
  (makeSearchKeyAt userKey snapshot).encode

/-- The first item at or after the search key, if it has the user key. -/
def MemTable.get (mt : MemTable) (userKey : Bytes) (snapshot : Nat) : KeyLookup :=
  -- the walk stops at its first item, whatever user key that item has
  match (mt.ascendGreaterOrEqual
      { key := encodeSearchKey userKey snapshot, value := [] }).head? with
  | none => .absent
  | some item =>
      if item.userKey ≠ userKey then .absent
      else if item.kind = internalKeyKindDelete then .deleted
      else .found item.value

theorem ascendGreaterOrEqual_searchKey (mt : MemTable) (userKey : Bytes) (snapshot : Nat) :
    mt.ascendGreaterOrEqual { key := encodeSearchKey userKey snapshot, value := [] } =
      mt.tree.dropWhile fun e => decide (e.ik < makeSearchKeyAt userKey snapshot) := by
  have hpivot : Entry.ik { key := encodeSearchKey userKey snapshot, value := [] } =
      makeSearchKeyAt userKey snapshot := InternalKey.decode_encode _
  simp only [MemTable.ascendGreaterOrEqual, itemLess_eq_decide, hpivot]

theorem get_eq_versionAt (mt : MemTable) (hv : ∀ e ∈ mt.tree, e.ik.valid = true)
    (userKey : Bytes) {snapshot : Nat} (hsnap : snapshot ≤ seqNumMax) :
    mt.get userKey snapshot = KeyLookup.ofEntry? (versionAt mt.tree userKey snapshot) := by
  rw [← head?_dropWhile_searchKey mt.sorted hv userKey hsnap, MemTable.get,
    ascendGreaterOrEqual_searchKey]
  cases (mt.tree.dropWhile fun e => decide (e.ik < makeSearchKeyAt userKey snapshot)).head? with
  | none => rfl
  | some item =>
      by_cases hu : item.userKey = userKey
      · simp [hu, KeyLookup.ofEntry?, Option.filter]
      · simp [hu, KeyLookup.ofEntry?, Option.filter]

theorem mem_insert_tree (mt : MemTable) (internalKey value : Bytes) {e : Entry} :
    e ∈ (mt.insert internalKey value).tree ↔
      e = { key := internalKey, value } ∨
        e ∈ mt.tree ∧ e.ik ≠ Entry.ik { key := internalKey, value } :=
  mem_insertBy_of_sortedBy mt.sorted

/-- An absent upper bound bounds nothing. -/
def belowUpper (upperBound : Option Bytes) (userKey : Bytes) : Bool :=
  match upperBound with
  | none => true
  | some hi => decide (userKey ≤ hi)

/-- The user key is in the range of a scan. -/
def inRange (lowerBound : Bytes) (upperBound : Option Bytes) (userKey : Bytes) : Bool :=
  decide (lowerBound ≤ userKey) && belowUpper upperBound userKey

/-- The user key is beyond the range. -/
def pastUpper (upperBound : Option Bytes) (userKey : Bytes) : Bool :=
  match upperBound with
  | none => false
  | some hi => bytesCompare userKey hi == .gt

theorem pastUpper_eq_not (upperBound : Option Bytes) (userKey : Bytes) :
    pastUpper upperBound userKey = !belowUpper upperBound userKey := by
  cases upperBound with
  | none => rfl
  | some hi =>
      have hgt : bytesCompare userKey hi = .gt ↔ hi < userKey := cmp_eq_gt_iff userKey hi
      rw [pastUpper, Bool.eq_iff_iff, beq_iff_eq, hgt]
      simp [belowUpper]

theorem belowUpper_of_le {upperBound : Option Bytes} {u v : Bytes} (hle : u ≤ v)
    (h : belowUpper upperBound v = true) : belowUpper upperBound u = true := by
  cases upperBound with
  | none => rfl
  | some hi => exact decide_eq_true (hle.trans (of_decide_eq_true h))

/-- A scan of the memtable holds its own copy of the entries. -/
structure Iterator where
  entries : List Entry
  pos : Nat
  deriving Repr

namespace Iterator

/-- The callback `NewIterator` hands to the tree walk. -/
def collect (upperBound : Option Bytes) (snapshot : Nat) : List Entry → List Entry
  | [] => []
  | item :: items =>
      if pastUpper upperBound item.userKey then []
      else if !item.ik.visible snapshot then collect upperBound snapshot items
      else item :: collect upperBound snapshot items

def valid (it : Iterator) : Bool := decide (it.pos < it.entries.length)

def next (it : Iterator) : Iterator := { it with pos := it.pos + 1 }

/-- The entry `Key` and `Value` read; there is none when the iterator is not
valid. -/
def current? (it : Iterator) : Option Entry :=
  if it.valid then it.entries[it.pos]? else none

end Iterator

/-- The entries of the range that the snapshot can see. -/
def newIterator (mt : MemTable) (lowerBound : Bytes) (upperBound : Option Bytes)
    (snapshot : Nat) : Iterator where
  entries := Iterator.collect upperBound snapshot
    (mt.ascendGreaterOrEqual { key := encodeSearchKey lowerBound snapshot, value := [] })
  pos := 0

theorem collect_eq_filter {upperBound : Option Bytes} {snapshot : Nat} {es : List Entry}
    (hs : Sorted es) : Iterator.collect upperBound snapshot es =
      es.filter fun e => !pastUpper upperBound e.userKey && e.ik.visible snapshot := by
  induction es with
  | nil => rfl
  | cons e es ih =>
      obtain ⟨hhead, htail⟩ := sortedBy_cons.mp hs
      unfold Iterator.collect
      split
      · rename_i hpast
        -- user keys only grow from here, so nothing later is in range either
        have hnil : es.filter (fun e => !pastUpper upperBound e.userKey && e.ik.visible snapshot) =
            [] := by
          rw [List.filter_eq_nil_iff]
          intro b hb
          have hle : e.userKey ≤ b.userKey := InternalKey.userKey_le_of_lt (hhead b hb)
          cases upperBound with
          | none => simp [pastUpper] at hpast
          | some hi =>
              have hgt : hi < e.userKey := (cmp_eq_gt_iff _ _).mp (beq_iff_eq.mp hpast)
              have hgt' : pastUpper (some hi) b.userKey = true :=
                beq_iff_eq.mpr ((cmp_eq_gt_iff _ _).mpr (hgt.trans_le hle))
              simp [hgt']
        simp [hpast, hnil]
      · rename_i hpast
        split
        · rename_i hinv
          rw [ih htail, List.filter_cons_of_neg]
          simp only [Bool.not_eq_true'] at hinv
          simp [hinv]
        · rename_i hvis
          rw [ih htail, List.filter_cons_of_pos]
          simp only [Bool.not_eq_true', Bool.not_eq_false] at hvis
          simp [hpast, hvis]

theorem newIterator_entries (mt : MemTable) (hv : ∀ e ∈ mt.tree, e.ik.valid = true)
    (lowerBound : Bytes) (upperBound : Option Bytes) {snapshot : Nat}
    (hsnap : snapshot ≤ seqNumMax) :
    (newIterator mt lowerBound upperBound snapshot).entries =
      mt.tree.filter fun e =>
        inRange lowerBound upperBound e.userKey && e.ik.visible snapshot := by
  have hsorted := mt.sorted.sublist (List.dropWhile_sublist
    (fun e => decide (e.ik < makeSearchKeyAt lowerBound snapshot)))
  rw [newIterator, ascendGreaterOrEqual_searchKey, collect_eq_filter hsorted,
    ← List.filter_filter, filter_visible_searchKey mt.sorted hv lowerBound hsnap,
    List.filter_filter]
  apply List.filter_congr
  intro e _
  rw [pastUpper_eq_not, Bool.not_not, inRange, ← Bool.and_assoc,
    Bool.and_comm (belowUpper upperBound e.userKey)]

end Hcdb.Memtable
