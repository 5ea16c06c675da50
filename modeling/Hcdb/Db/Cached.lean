import Hcdb.Db.Operations
import Hcdb.Sstable.Cached

namespace Hcdb.Db

open Hcdb.Lib.ByteString
open Hcdb.Lib.Traversal
open Hcdb.Lib.PriorityQueue
open Hcdb.Lib.Asking
open Hcdb.Base
open Hcdb.Memtable
open Hcdb.Sstable

namespace Cached

section Reads

variable [Runtime] (disk : BlockReader)

/-- The tables from the newest to the oldest, up to the first that knows the key. -/
def searchSSTables : List SSTable → Bytes → Nat → Reading (Option Bytes)
  | [], _, _ => pure none
  | sst :: ssts, key, snapshot => do
      match ← Sstable.Cached.lookup disk sst key snapshot with
      | .error _ => pure none
      | .ok .deleted => pure none
      | .ok (.found val) => pure (some val)
      | .ok .absent => searchSSTables ssts key snapshot

/-- A point read: the memtable first, and then the tables. -/
def getFrom (memtable : MemTable) (sstables : List SSTable) (key : Bytes) (snapshot : Nat) :
    Reading (Option Bytes) :=
  match memtable.get key snapshot with
  | .found val => pure (some val)
  | .deleted => pure none
  | .absent => searchSSTables disk sstables key snapshot

end Reads

section Scans

variable (disk : BlockReader)

/-- One iterator for each table, each with its first block loaded. -/
def openSources : List SSTable → Bytes → Nat → Reading (Except SstErr (List Source))
  | [], _, _ => pure (.ok [])
  | sst :: ssts, lowerBound, snapshot => do
      match ← Sstable.Cached.newIterator disk sst lowerBound snapshot with
      | .error e => pure (.error e)
      | .ok it => do
          match ← openSources ssts lowerBound snapshot with
          | .error e => pure (.error e)
          | .ok srcs => pure (.ok (.sstable disk it :: srcs))

/-- `ScanAt` up to the iterator that it returns. -/
def scanFrom (memtable : MemTable) (sstables : List SSTable) (lowerBound : Bytes)
    (upperBound : Option Bytes) (snapshot : Nat) :
    Reading (Except SstErr (MergeIterator Source)) := do
  let memIt := Memtable.newIterator memtable lowerBound upperBound snapshot
  match ← openSources disk sstables lowerBound snapshot with
  | .error e => pure (.error e)
  | .ok srcs => pure (.ok
      { h := pushSources 0 (.memtable memIt :: srcs) []
        upperBound, key := [], val := [], valid := false })

end Scans

/-- The disk that is kept with the source only bounds the loops. -/
def sourceNext : Source → Reading Source
  | .memtable it => pure (.memtable it.next)
  | .sstable disk it => do
      let it ← Sstable.Cached.next disk it
      pure (.sstable disk it)

def skipUserKey (userKey : Bytes) : Nat → Source → Reading Source
  | 0, src => pure src
  | fuel + 1, src =>
      match Cursor.current? src with
      | none => pure src
      | some e =>
          if e.userKey = userKey then do
            let src ← sourceNext src
            skipUserKey userKey fuel src
          else pure src

def skipPast (userKey : Bytes) (item : MergeItem Source) (h : List (MergeItem Source)) :
    Reading (List (MergeItem Source)) := do
  let src ← sourceNext item.src
  let src ← skipUserKey userKey (Cursor.left src) src
  pure (pushSource item.priority src h)

def skipOlder (userKey : Bytes) : Nat → List (MergeItem Source) →
    Reading (List (MergeItem Source))
  | 0, h => pure h
  | fuel + 1, h =>
      match popMin MergeItem.less h with
      | none => pure h
      | some (top, rest) =>
          if (decodeInternalKey top.key).userKey = userKey then do
            let h ← skipPast userKey top rest
            skipOlder userKey fuel h
          else pure h

/-- `MergeIterator.Next`, at most `fuel` turns. -/
def nextLoop : Nat → MergeIterator Source → Reading (MergeIterator Source × Bool)
  | 0, m => pure ({ m with valid := false }, false)
  | fuel + 1, m =>
      match popMin MergeItem.less m.h with
      | none => pure ({ m with valid := false }, false)
      | some (top, rest) => do
          let ik := decodeInternalKey top.key
          let val := (Cursor.current? top.src).elim [] Entry.value
          let h ← skipPast ik.userKey top rest
          let h ← skipOlder ik.userKey h.length h
          if pastUpper m.upperBound ik.userKey then pure ({ m with h, valid := false }, false)
          else if ik.kind = internalKeyKindDelete then nextLoop fuel { m with h }
          else pure ({ m with h, key := ik.userKey, val, valid := true }, true)

def next (m : MergeIterator Source) : Reading (MergeIterator Source × Bool) :=
  nextLoop m.left m

def drainLoop : Nat → MergeIterator Source → Reading (List (Bytes × Bytes))
  | 0, _ => pure []
  | fuel + 1, m => do
      match ← next m with
      | (m, true) => do
          let pairs ← drainLoop fuel m
          pure ((m.key, m.val) :: pairs)
      | (_, false) => pure []

def scanAll (disk : BlockReader) (memtable : MemTable) (sstables : List SSTable)
    (lowerBound : Bytes) (upperBound : Option Bytes) (snapshot : Nat) :
    Reading (Except SstErr (List (Bytes × Bytes))) := do
  match ← scanFrom disk memtable sstables lowerBound upperBound snapshot with
  | .error e => pure (.error e)
  | .ok m => do
      let pairs ← drainLoop m.left m
      pure (.ok pairs)

end Cached

section Computes

variable {disk : BlockReader} {ok : SSTable → Prop}

theorem computes_searchSSTables [Runtime] {ssts : List SSTable} (h : ∀ sst ∈ ssts, ok sst)
    (key : Bytes) (snapshot : Nat) :
    ComputesOn disk ok (Cached.searchSSTables disk ssts key snapshot)
      (searchSSTables disk ssts key snapshot) := by
  induction ssts with
  | nil => exact Computes.pure _
  | cons sst ssts ih =>
      obtain ⟨hsst, hrest⟩ := List.forall_mem_cons.mp h
      unfold Cached.searchSSTables searchSSTables
      refine Computes.bind (computes_lookup hsst key snapshot) ?_
      rcases sst.lookup disk key snapshot with e | _ | val | _
      · exact Computes.pure _
      · exact ih hrest
      · exact Computes.pure _
      · exact Computes.pure _

theorem computes_getFrom [Runtime] (memtable : MemTable) {ssts : List SSTable}
    (h : ∀ sst ∈ ssts, ok sst) (key : Bytes) (snapshot : Nat) :
    ComputesOn disk ok (Cached.getFrom disk memtable ssts key snapshot)
      (getFrom disk memtable ssts key snapshot) := by
  unfold Cached.getFrom getFrom
  cases memtable.get key snapshot with
  | found val => exact Computes.pure _
  | deleted => exact Computes.pure _
  | absent => exact computes_searchSSTables h key snapshot

/-- The source reads its blocks from `disk`, and its table is `ok`. -/
def Source.Reads (disk : BlockReader) (ok : SSTable → Prop) : Source → Prop
  | .memtable _ => True
  | .sstable read it => read = disk ∧ ok it.sst

def ReadsAll (disk : BlockReader) (ok : SSTable → Prop) (h : List (MergeItem Source)) : Prop :=
  ∀ item ∈ h, item.src.Reads disk ok

theorem Source.Reads.next {src : Source} (h : src.Reads disk ok) : src.next.Reads disk ok := by
  cases src with
  | memtable it => trivial
  | sstable read it => exact ⟨h.1, (it.next_sst read).symm ▸ h.2⟩

theorem reads_skipUserKey (userKey : Bytes) (fuel : Nat) {src : Source} (h : src.Reads disk ok) :
    (skipUserKey userKey fuel src).Reads disk ok := by
  induction fuel generalizing src with
  | zero => exact h
  | succ fuel ih =>
      unfold skipUserKey
      split
      · exact h
      · split
        · exact ih h.next
        · exact h

theorem reads_pushSource (priority : Nat) {src : Source} (hsrc : src.Reads disk ok)
    {h : List (MergeItem Source)} (hreads : ReadsAll disk ok h) :
    ReadsAll disk ok (pushSource priority src h) := by
  unfold pushSource
  split
  · exact hreads
  · exact List.forall_mem_cons.mpr ⟨hsrc, hreads⟩

theorem reads_popMin {h rest : List (MergeItem Source)} {top : MergeItem Source}
    (hreads : ReadsAll disk ok h)
    (hpop : popMin MergeItem.less h = some (top, rest)) :
    top.src.Reads disk ok ∧ ReadsAll disk ok rest := by
  have hperm := popMin_perm hpop
  exact List.forall_mem_cons.mp fun item hitem => hreads item (hperm.mem_iff.mpr hitem)

theorem reads_skipPast (userKey : Bytes) {item : MergeItem Source}
    (hitem : item.src.Reads disk ok) {h : List (MergeItem Source)}
    (hreads : ReadsAll disk ok h) :
    ReadsAll disk ok (skipPast userKey item h) :=
  reads_pushSource _ (reads_skipUserKey userKey _ hitem.next) hreads

theorem reads_skipOlder (userKey : Bytes) (fuel : Nat) {h : List (MergeItem Source)}
    (hreads : ReadsAll disk ok h) :
    ReadsAll disk ok (skipOlder userKey fuel h) := by
  induction fuel generalizing h with
  | zero => exact hreads
  | succ fuel ih =>
      unfold skipOlder
      cases hpop : popMin MergeItem.less h with
      | none => exact hreads
      | some pair =>
          obtain ⟨htop, hrest⟩ := reads_popMin hreads hpop
          simp only
          split
          · exact ih (reads_skipPast userKey htop hrest)
          · exact hreads

theorem reads_nextLoop (fuel : Nat) {m : MergeIterator Source}
    (hreads : ReadsAll disk ok m.h) :
    ReadsAll disk ok ((MergeIterator.nextLoop fuel m).1.h) := by
  induction fuel generalizing m with
  | zero => exact hreads
  | succ fuel ih =>
      unfold MergeIterator.nextLoop
      cases hpop : popMin MergeItem.less m.h with
      | none => exact hreads
      | some pair =>
          obtain ⟨htop, hrest⟩ := reads_popMin hreads hpop
          have hpast := reads_skipPast (decodeInternalKey pair.1.key).userKey htop hrest
          have holder := reads_skipOlder (decodeInternalKey pair.1.key).userKey
            (skipPast (decodeInternalKey pair.1.key).userKey pair.1 pair.2).length hpast
          simp only
          split
          · exact holder
          · split
            · exact ih holder
            · exact holder

theorem reads_openSources {ssts : List SSTable} (h : ∀ sst ∈ ssts, ok sst) {lowerBound : Bytes}
    {snapshot : Nat} {srcs : List Source}
    (hopen : openSources disk ssts lowerBound snapshot = .ok srcs) :
    ∀ src ∈ srcs, src.Reads disk ok := by
  induction ssts generalizing srcs with
  | nil =>
      obtain rfl := Except.ok.inj hopen
      simp
  | cons sst ssts ih =>
      obtain ⟨hsst, hrest⟩ := List.forall_mem_cons.mp h
      unfold openSources at hopen
      cases hit : newIterator disk sst lowerBound snapshot with
      | error e => simp [hit] at hopen
      | ok it =>
          cases hsrcs : openSources disk ssts lowerBound snapshot with
          | error e => simp [hit, hsrcs] at hopen
          | ok rest =>
              simp only [hit, hsrcs, Except.ok.injEq] at hopen
              subst hopen
              have hfirst : (Source.sstable disk it).Reads disk ok :=
                ⟨rfl, (newIterator_sst hit).symm ▸ hsst⟩
              exact List.forall_mem_cons.mpr ⟨hfirst, ih hrest hsrcs⟩

theorem reads_pushSources {srcs : List Source} (hsrcs : ∀ src ∈ srcs, src.Reads disk ok)
    (priority : Nat) {h : List (MergeItem Source)} (hreads : ReadsAll disk ok h) :
    ReadsAll disk ok (pushSources priority srcs h) := by
  induction srcs generalizing priority h with
  | nil => exact hreads
  | cons src srcs ih =>
      obtain ⟨hsrc, hrest⟩ := List.forall_mem_cons.mp hsrcs
      exact ih hrest _ (reads_pushSource priority hsrc hreads)

theorem reads_scanFrom {memtable : MemTable} {ssts : List SSTable} (h : ∀ sst ∈ ssts, ok sst)
    {lowerBound : Bytes} {upperBound : Option Bytes} {snapshot : Nat} {m : MergeIterator Source}
    (hscan : scanFrom disk memtable ssts lowerBound upperBound snapshot = .ok m) :
    ReadsAll disk ok m.h := by
  unfold scanFrom at hscan
  cases hopen : openSources disk ssts lowerBound snapshot with
  | error e => simp [hopen] at hscan
  | ok srcs =>
      simp only [hopen, Except.ok.injEq] at hscan
      subst hscan
      refine reads_pushSources ?_ 0 (List.forall_mem_nil _)
      exact List.forall_mem_cons.mpr ⟨trivial, reads_openSources h hopen⟩

theorem computes_openSources {ssts : List SSTable} (h : ∀ sst ∈ ssts, ok sst) (lowerBound : Bytes)
    (snapshot : Nat) :
    ComputesOn disk ok (Cached.openSources disk ssts lowerBound snapshot)
      (openSources disk ssts lowerBound snapshot) := by
  induction ssts with
  | nil => exact Computes.pure _
  | cons sst ssts ih =>
      obtain ⟨hsst, hrest⟩ := List.forall_mem_cons.mp h
      unfold Cached.openSources openSources
      refine Computes.bind (computes_newIterator hsst lowerBound snapshot) ?_
      rcases newIterator disk sst lowerBound snapshot with e | it
      · exact Computes.pure _
      · refine Computes.bind (ih hrest) ?_
        rcases openSources disk ssts lowerBound snapshot with e | srcs
        · exact Computes.pure _
        · exact Computes.pure _

theorem computes_scanFrom (memtable : MemTable) {ssts : List SSTable} (h : ∀ sst ∈ ssts, ok sst)
    (lowerBound : Bytes) (upperBound : Option Bytes) (snapshot : Nat) :
    ComputesOn disk ok (Cached.scanFrom disk memtable ssts lowerBound upperBound snapshot)
      (scanFrom disk memtable ssts lowerBound upperBound snapshot) := by
  unfold Cached.scanFrom scanFrom
  refine Computes.bind (computes_openSources h lowerBound snapshot) ?_
  rcases openSources disk ssts lowerBound snapshot with e | srcs
  · exact Computes.pure _
  · exact Computes.pure _

theorem computes_sourceNext {src : Source} (h : src.Reads disk ok) :
    ComputesOn disk ok (Cached.sourceNext src) src.next := by
  cases src with
  | memtable it => exact Computes.pure _
  | sstable read it =>
      obtain ⟨rfl, hok⟩ := h
      exact Computes.bind (computes_next hok) (Computes.pure _)

theorem computes_skipUserKey (userKey : Bytes) (fuel : Nat) {src : Source}
    (h : src.Reads disk ok) :
    ComputesOn disk ok (Cached.skipUserKey userKey fuel src) (skipUserKey userKey fuel src) := by
  induction fuel generalizing src with
  | zero => exact Computes.pure _
  | succ fuel ih =>
      unfold Cached.skipUserKey skipUserKey
      cases Cursor.current? src with
      | none => exact Computes.pure _
      | some e =>
          simp only
          split
          · exact Computes.bind (computes_sourceNext h) (ih h.next)
          · exact Computes.pure _

theorem computes_skipPast (userKey : Bytes) {item : MergeItem Source}
    (hitem : item.src.Reads disk ok) (h : List (MergeItem Source)) :
    ComputesOn disk ok (Cached.skipPast userKey item h) (skipPast userKey item h) :=
  Computes.bind (computes_sourceNext hitem)
    (Computes.bind (computes_skipUserKey userKey _ hitem.next) (Computes.pure _))

theorem computes_skipOlder (userKey : Bytes) (fuel : Nat) {h : List (MergeItem Source)}
    (hreads : ReadsAll disk ok h) :
    ComputesOn disk ok (Cached.skipOlder userKey fuel h) (skipOlder userKey fuel h) := by
  induction fuel generalizing h with
  | zero => exact Computes.pure _
  | succ fuel ih =>
      unfold Cached.skipOlder skipOlder
      cases hpop : popMin MergeItem.less h with
      | none => exact Computes.pure _
      | some pair =>
          obtain ⟨htop, hrest⟩ := reads_popMin hreads hpop
          simp only
          split
          · exact Computes.bind (computes_skipPast userKey htop _)
              (ih (reads_skipPast userKey htop hrest))
          · exact Computes.pure _

theorem computes_nextLoop (fuel : Nat) {m : MergeIterator Source}
    (hreads : ReadsAll disk ok m.h) :
    ComputesOn disk ok (Cached.nextLoop fuel m) (MergeIterator.nextLoop fuel m) := by
  induction fuel generalizing m with
  | zero => exact Computes.pure _
  | succ fuel ih =>
      unfold Cached.nextLoop MergeIterator.nextLoop
      cases hpop : popMin MergeItem.less m.h with
      | none => exact Computes.pure _
      | some pair =>
          obtain ⟨htop, hrest⟩ := reads_popMin hreads hpop
          have hpast := reads_skipPast (decodeInternalKey pair.1.key).userKey htop hrest
          refine Computes.bind (computes_skipPast _ htop _)
            (Computes.bind (computes_skipOlder _ _ hpast) ?_)
          simp only
          split
          · exact Computes.pure _
          · split
            · exact ih (reads_skipOlder _ _ hpast)
            · exact Computes.pure _

theorem computes_drainLoop (fuel : Nat) {m : MergeIterator Source}
    (hreads : ReadsAll disk ok m.h) :
    ComputesOn disk ok (Cached.drainLoop fuel m) (MergeIterator.drainLoop fuel m) := by
  induction fuel generalizing m with
  | zero => exact Computes.pure _
  | succ fuel ih =>
      unfold Cached.drainLoop MergeIterator.drainLoop
      refine Computes.bind (computes_nextLoop _ hreads) ?_
      have hnext : ReadsAll disk ok m.next.1.h := reads_nextLoop m.left hreads
      rw [← MergeIterator.next]
      rcases hm : m.next with ⟨m', flag⟩
      rw [hm] at hnext
      cases flag with
      | true => exact Computes.bind (ih hnext) (Computes.pure _)
      | false => exact Computes.pure _

theorem computes_scanAll (memtable : MemTable) {ssts : List SSTable} (h : ∀ sst ∈ ssts, ok sst)
    (lowerBound : Bytes) (upperBound : Option Bytes) (snapshot : Nat) :
    ComputesOn disk ok (Cached.scanAll disk memtable ssts lowerBound upperBound snapshot)
      ((scanFrom disk memtable ssts lowerBound upperBound snapshot).map MergeIterator.drain) := by
  unfold Cached.scanAll
  refine Computes.bind (computes_scanFrom memtable h lowerBound upperBound snapshot) ?_
  cases hscan : scanFrom disk memtable ssts lowerBound upperBound snapshot with
  | error e => exact Computes.pure _
  | ok m => exact Computes.bind (computes_drainLoop _ (reads_scanFrom h hscan)) (Computes.pure _)

end Computes

end Hcdb.Db
