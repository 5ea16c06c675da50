import Hcdb.Db.BlockCache
import Hcdb.Db.Levels
import Hcdb.Lib.Simulation

/-!
A scan that goes on while others write.  The lock is held only until the iterator is
open; the blocks are loaded later, one by one, from a directory in which tables have
come and gone.  No load can tell the difference, unless it finds the file deleted.
-/

namespace Hcdb.Db

open Hcdb.Lib.ByteString
open Hcdb.Lib.FiniteMap
open Hcdb.Lib.PriorityQueue
open Hcdb.Lib.Traversal
open Hcdb.Lib.Asking
open Hcdb.Lib.Simulation
open Hcdb.Lib.Transition
open Hcdb.Base
open Hcdb.Sstable
open Hcdb.Cache
open Hcdb.Compaction (Made Shelved)

/-- A process in which somebody has opened an iterator, and what there is still to do to
get all pairs out of it. -/
structure OpenScan where
  proc : Process
  prog : Reading (List (Bytes × Bytes))

section Scans

variable [Runtime]

/-- The others take a step, or the scan loads its next block.  What it gets is seen. -/
inductive OpenScanStep (clock : Nat → Nat) :
    OpenScan → Option (Except SstErr (List Entry)) → OpenScan → Prop
  | other {s : OpenScan} {event : ProcessEvent} {proc : Process} :
      (∀ log, event ≠ .restart log) → ProcessStep clock s.proc event proc →
      OpenScanStep clock s none { s with proc }
  | load {s : OpenScan} {q : SSTable × IndexEntry}
      {k : Except SstErr (List Entry) → Reading (List (Bytes × Bytes))} : s.prog = .ask q k →
      OpenScanStep clock s (some (s.proc.respond s.proc.cache q).1)
        { proc := { s.proc with cache := (s.proc.respond s.proc.cache q).2 }
          prog := k (s.proc.respond s.proc.cache q).1 }

/-- A scan that was opened on the process, and has read the first blocks. -/
def OpenScan.start (p : Process) (lowerBound : Bytes) (upperBound : Option Bytes)
    (snapshot : Nat) (m : MergeIterator Source) : OpenScan where
  proc := { p with cache := (p.scanAt lowerBound upperBound snapshot).2 }
  prog := Cached.drainLoop m.left m

variable {clock : Nat → Nat} {n n' : Nat} {contents contents' : Nat → List Entry} {db : DB}
  {p p' : Process} {α : Type}

/-- The disk gives the blocks of the table as they were written. -/
def Archived (clock : Nat → Nat) (n : Nat) (contents : Nat → List Entry) (disk : BlockReader)
    (sst : SSTable) : Prop :=
  ∃ i < n, sst.filePath = sstName (clock i) ∧
    sst.index <+: indexFrom 0 (cutBlocks (contents i)) ∧
    ∀ idx ∈ sst.index, disk sst idx = readBlockFrom (fileOf (contents i)) idx

theorem Archived.made {disk : BlockReader} {sst : SSTable}
    (h : Archived clock n contents disk sst) : Made clock n contents sst := by
  obtain ⟨i, hi, hpath, hindex, -⟩ := h
  exact ⟨i, hi, hpath, hindex⟩

theorem Archived.mono {disk : BlockReader} {sst : SSTable}
    (h : Archived clock n contents disk sst) (hn : n ≤ n')
    (hsame : Set.EqOn contents' contents (Set.Iio n)) : Archived clock n' contents' disk sst := by
  obtain ⟨i, hi, hpath, hindex, hblocks⟩ := h
  have hi' : contents' i = contents i := hsame hi
  exact ⟨i, hi.trans_le hn, hpath, hi'.symm ▸ hindex, hi'.symm ▸ hblocks⟩

theorem Keeps.readBlock_eq (h : Keeps clock limited contents db) (hclock : StrictMono clock)
    {sst : SSTable} {i : Nat} (hpath : sst.filePath = sstName (clock i))
    (hthere : db.dir.read sst.filePath ≠ none) (idx : IndexEntry) :
    readBlock db.dir sst idx = readBlockFrom (fileOf (contents i)) idx := by
  obtain ⟨file, hfile⟩ := Option.ne_none_iff_exists'.mp hthere
  have hcontent : file = fileOf (contents i) := h.files.file_eq hclock (hpath ▸ hfile)
  rw [readBlock, hfile, hcontent]

theorem Keeps.archived (h : Keeps clock limited contents db) (hclock : StrictMono clock)
    (hshelved : Shelved db.dir db.sstables) {sst : SSTable} (hsst : sst ∈ db.sstables) :
    Archived clock db.ticks contents (readBlock db.dir) sst := by
  obtain ⟨i, hi, hpath, hindex⟩ := h.tables sst hsst
  exact ⟨i, hi, hpath, hindex,
    fun idx _ => h.readBlock_eq hclock hpath (hshelved.present sst hsst) idx⟩

theorem Keeps.loaded (h : Keeps clock limited contents db) (hclock : StrictMono clock)
    {disk : BlockReader} {sst : SSTable} (hsst : Archived clock db.ticks contents disk sst)
    {idx : IndexEntry} (hidx : idx ∈ sst.index) {cache : BlockCache}
    (hcache : cache.Holds (BlockAt clock db.ticks contents)) {entries : List Entry}
    (hload : (Sstable.readBlockCached db.dir cache sst idx).1 = .ok entries) :
    disk sst idx = .ok entries := by
  obtain ⟨-, hfile⟩ := h.readBlockCached hclock hsst.made hidx hcache
  obtain ⟨i, hi, hpath, hindex, hblocks⟩ := hsst
  rw [hblocks idx hidx]
  by_cases hthere : db.dir.read sst.filePath = none
  · -- only the cache can have given the block
    have hmissing : readBlock db.dir sst idx = .error .notExist := by rw [readBlock, hthere]
    obtain ⟨hhit, -⟩ := hcache.get (cacheKey sst.filePath idx.offset)
    rw [Sstable.readBlockCached] at hload
    rcases hget : cache.get (cacheKey sst.filePath idx.offset) with ⟨_ | found, cache'⟩
    · simp [hget, hmissing] at hload
    · rw [hget] at hhit hload
      obtain rfl : found = entries := by simpa using hload
      obtain ⟨j, -, idx', hlisted, hkey, hblock⟩ := hhit found rfl
      obtain ⟨hname, hoffset⟩ := cacheKey_inj hkey
      obtain rfl : i = j := hclock.injective (sstName_injective (hpath.symm.trans hname))
      obtain rfl := indexFrom_offset_inj (hindex.subset hidx) hlisted hoffset
      exact hblock
  · rw [← h.readBlock_eq hclock hpath hthere, ← hfile hthere]
    exact hload

/-- From blocks as they were written the program computes `a`. -/
def Settles (clock : Nat → Nat) (n : Nat) (contents : Nat → List Entry) (prog : Reading α)
    (a : α) : Prop :=
  ∃ disk, ComputesOn disk (Archived clock n contents disk) prog a

theorem Settles.mono {prog : Reading α} {a : α} (h : Settles clock n contents prog a)
    (hn : n ≤ n') (hsame : Set.EqOn contents' contents (Set.Iio n)) :
    Settles clock n' contents' prog a := by
  obtain ⟨disk, hprog⟩ := h
  exact ⟨disk, hprog.mono fun q hq => ⟨hq.1.mono hn hsame, hq.2⟩⟩

theorem Settles.done {a b : α} (h : Settles clock n contents (.done b) a) : b = a := by
  obtain ⟨disk, hprog⟩ := h
  cases hprog
  rfl

theorem Process.Sound.load (h : p.Sound clock contents) (hclock : StrictMono clock)
    {q : SSTable × IndexEntry} {k : Except SstErr (List Entry) → Reading α} {a : α}
    (hprog : Settles clock p.db.ticks contents (.ask q k) a) :
    Process.Sound clock contents { p with cache := (p.respond p.cache q).2 } ∧
      ((∀ e, (p.respond p.cache q).1 ≠ .error e) →
        Settles clock p.db.ticks contents (k (p.respond p.cache q).1) a) := by
  obtain ⟨disk, hprog⟩ := hprog
  cases hprog with
  | ask hq hrest =>
      obtain ⟨hsst, hidx⟩ := hq
      refine ⟨{ h with cache := (h.keeps.readBlockCached hclock hsst.made hidx h.cache).1 }, ?_⟩
      intro hok
      cases hload : (p.respond p.cache q).1 with
      | error e => exact absurd hload (hok e)
      | ok entries =>
          rw [h.keeps.loaded hclock hsst hidx h.cache hload] at hrest
          exact ⟨disk, hrest⟩

/-- The others write and delete tables, but none that was made before comes back with
another content. -/
theorem Process.Sound.other (h : p.Sound clock contents) (hclock : StrictMono clock)
    {event : ProcessEvent} (hevent : ∀ log, event ≠ .restart log)
    (hstep : ProcessStep clock p event p') {prog : Reading α} {a : α}
    (hprog : Settles clock p.db.ticks contents prog a) :
    ∃ contents', p'.Sound clock contents' ∧ Settles clock p'.db.ticks contents' prog a := by
  obtain ⟨contents', hsound, hticks, hsame⟩ := h.grow hclock hevent hstep
  exact ⟨contents', hsound, hprog.mono hticks hsame⟩

theorem Process.Sound.afterRun (h : p.Sound clock contents) (hclock : StrictMono clock)
    {prog : Reading α} {a : α} (hprog : ComputesOn (readBlock p.db.dir) p.Readable prog a) :
    Process.Sound clock contents { p with cache := (prog.run p.respond p.cache).2 } := by
  refine { h with cache := (hprog.run ?_ h.cache).2 }
  rintro cache ⟨sst, idx⟩ hcache ⟨⟨hsst, hthere⟩, hidx⟩
  obtain ⟨hholds, heq⟩ := h.keeps.readBlockCached hclock (h.opened sst hsst) hidx hcache
  exact ⟨heq hthere, hholds⟩

theorem Process.Sound.opens (h : p.Sound clock contents) (hclock : StrictMono clock)
    (hshelved : Shelved p.db.dir p.db.sstables) {lowerBound : Bytes} {upperBound : Option Bytes}
    {snapshot : Nat} {m : MergeIterator Source}
    (hopen : (p.scanAt lowerBound upperBound snapshot).1 = .ok m) :
    Process.Sound clock contents
        { p with cache := (p.scanAt lowerBound upperBound snapshot).2 } ∧
      p.db.scanAt lowerBound upperBound snapshot = .ok m ∧
      Settles clock p.db.ticks contents (Cached.drainLoop m.left m) m.drain := by
  have harchived : ∀ sst ∈ p.db.sstables,
      Archived clock p.db.ticks contents (readBlock p.db.dir) sst :=
    fun sst hsst => h.keeps.archived hclock hshelved hsst
  have hscan := ((h.readsUncached hclock hshelved).2 lowerBound upperBound snapshot).1
  rw [hopen] at hscan
  have hreadable : ∀ sst ∈ p.db.sstables, p.Readable sst :=
    fun sst hsst => ⟨h.listed hsst, hshelved.present sst hsst⟩
  refine ⟨?_, hscan.symm, readBlock p.db.dir, ?_⟩
  · exact h.afterRun hclock (computes_scanFrom _ hreadable lowerBound upperBound snapshot)
  · exact computes_drainLoop _ (reads_scanFrom harchived hscan.symm)

/-- The process is in order, and the scan gets the pairs if it gets its blocks. -/
def OpenScan.Heads (clock : Nat → Nat) (s : OpenScan) (pairs : List (Bytes × Bytes)) : Prop :=
  ∃ contents, s.proc.Sound clock contents ∧ Settles clock s.proc.db.ticks contents s.prog pairs

theorem OpenScan.Heads.step {s s' : OpenScan} {pairs : List (Bytes × Bytes)}
    {label : Option (Except SstErr (List Entry))} (h : s.Heads clock pairs)
    (hclock : StrictMono clock) (hstep : OpenScanStep clock s label s')
    (hload : ∀ e, label ≠ some (.error e)) : s'.Heads clock pairs := by
  obtain ⟨contents, hsound, hprog⟩ := h
  cases hstep with
  | other hevent hproc => exact hsound.other hclock hevent hproc hprog
  | load hask =>
      rw [hask] at hprog
      obtain ⟨hsound', hrest⟩ := hsound.load hclock hprog
      exact ⟨contents, hsound', hrest fun e he => hload e (congrArg some he)⟩

theorem OpenScan.Heads.run {s s' : OpenScan} {pairs : List (Bytes × Bytes)}
    {loads : List (Except SstErr (List Entry))} (h : s.Heads clock pairs)
    (hclock : StrictMono clock) (hrun : Traces (OpenScanStep clock) s loads s')
    (hloads : ∀ e, .error e ∉ loads) : s'.Heads clock pairs := by
  induction hrun with
  | start => exact h
  | silent _ hstep ih => exact (ih hloads).step hclock hstep (by simp)
  | visible _ hstep ih =>
      have hbefore := ih fun e he => hloads e (List.mem_append_left _ he)
      refine hbefore.step hclock hstep fun e he => hloads e ?_
      rw [Option.some.inj he]
      exact List.mem_append_right _ (List.mem_singleton_self _)

end Scans

section Page

variable {value : Bytes}

end Page

end Hcdb.Db
