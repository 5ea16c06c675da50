import Hcdb.Cache.Ideal
import Hcdb.Db.Cached
import Hcdb.Db.Contents

/-!
The block cache cannot be seen.  Whatever it holds under a key is what the block of that
path and offset was decoded to, and neither comes back with another content.
-/

namespace Hcdb.Db

open Hcdb.Lib.ByteString
open Hcdb.Lib.FiniteMap
open Hcdb.Lib.Asking
open Hcdb.Lib.Transition
open Hcdb.Base
open Hcdb.Sstable
open Hcdb.Cache
open Hcdb.Compaction (Holding Made Shelved)

/-- A running process.  It may read from every table that it has `opened` or made, since
iterators hold tables that have left the list. -/
structure Process where
  db : DB
  cache : BlockCache
  opened : List SSTable

def Process.start (db : DB) (cache : BlockCache) : Process where
  db
  cache
  opened := db.sstables

/-- No file is longer than an `int64` can say. -/
def FilesFit (dir : TableDir) : Prop :=
  ∀ name content, dir.read name = some content → content.length < 2 ^ 63

inductive ProcessEvent where
  | call (op : Op) (env : Env)
  | getSnapshot
  | releaseSnapshot (snap : Nat)
  | readBlock (sst : SSTable) (idx : IndexEntry)
  | restart (log : Bytes)

section Steps

variable [Runtime]

/-- A write or a flush; the tables that it makes are opened. -/
def Process.call (p : Process) (env : Env) (op : Op) : Process :=
  { p with
    db := (op.exec env p.db).1
    opened := (op.exec env p.db).1.sstables ++ p.opened }

/-- Point reads, scans and iterators of all threads are made of reads of one block.  A
process that follows another one finds the directory that this one has left, at
whatever call it has stopped, and begins with an empty cache. -/
inductive ProcessStep (clock : Nat → Nat) : Process → ProcessEvent → Process → Prop
  | call {p : Process} {op : Op} {env : Env} : env.clock = clock →
      ProcessStep clock p (.call op env) (p.call env op)
  | getSnapshot {p : Process} :
      ProcessStep clock p .getSnapshot { p with db := p.db.getSnapshot.2 }
  | releaseSnapshot {p : Process} {snap : Nat} :
      ProcessStep clock p (.releaseSnapshot snap) { p with db := p.db.releaseSnapshot snap }
  | readBlock {p : Process} {sst : SSTable} {idx : IndexEntry} : sst ∈ p.opened →
      idx ∈ sst.index →
      ProcessStep clock p (.readBlock sst idx) { p with
        cache := (readBlockCached p.db.dir p.cache sst idx).2 }
  | restart {p : Process} {log : Bytes} {db : DB} {numShards : Nat} {capacityPerShard : Int}
      (hdivisor : numShards % 2 ^ 32 ≠ 0) :
      openDB log p.db.dir p.db.ticks = .ok db → FilesFit p.db.dir →
      ProcessStep clock p (.restart log)
        (Process.start db (newShardedLRU numShards capacityPerShard hdivisor))

namespace Process

/-- How the process answers a program that asks for a block. -/
def respond (p : Process) (cache : BlockCache) (q : SSTable × IndexEntry) :
    Except SstErr (List Entry) × BlockCache :=
  readBlockCached p.db.dir cache q.1 q.2

def getAt (p : Process) (key : Bytes) (snapshot : Nat) : Option Bytes × BlockCache :=
  (Cached.getFrom (readBlock p.db.dir) p.db.memtable p.db.sstables key snapshot).run p.respond
    p.cache

def scanAt (p : Process) (lowerBound : Bytes) (upperBound : Option Bytes) (snapshot : Nat) :
    Except SstErr (MergeIterator Source) × BlockCache :=
  (Cached.scanFrom (readBlock p.db.dir) p.db.memtable p.db.sstables lowerBound upperBound
    snapshot).run p.respond p.cache

def next (p : Process) (m : MergeIterator Source) : (MergeIterator Source × Bool) × BlockCache :=
  (Cached.next m).run p.respond p.cache

/-- A scan from its opening to the last pair, through the cache. -/
def scanAll (p : Process) (lowerBound : Bytes) (upperBound : Option Bytes) (snapshot : Nat) :
    Except SstErr (List (Bytes × Bytes)) × BlockCache :=
  (Cached.scanAll (readBlock p.db.dir) p.db.memtable p.db.sstables lowerBound upperBound
    snapshot).run p.respond p.cache

/-- The table was opened, and its file is still there. -/
def Readable (p : Process) (sst : SSTable) : Prop :=
  sst ∈ p.opened ∧ p.db.dir.read sst.filePath ≠ none

/-- Every block of a table whose file is there is read as it is in the file. -/
def BlocksUncached (p : Process) : Prop :=
  ∀ sst ∈ p.opened, ∀ idx ∈ sst.index, ∀ file, p.db.dir.read sst.filePath = some file →
    (readBlockCached p.db.dir p.cache sst idx).1 = readBlockFrom file idx

/-- An iterator over tables whose files are there goes on as without the cache. -/
def IteratorsUncached (p : Process) : Prop :=
  ∀ m : MergeIterator Source, ReadsAll (readBlock p.db.dir) p.Readable m.h → (p.next m).1 = m.next

/-- Reads and scans return what they return without the cache. -/
def ReadsUncached (p : Process) : Prop :=
  (∀ key snapshot, (p.getAt key snapshot).1 = p.db.getAt key snapshot) ∧
    ∀ lowerBound upperBound snapshot,
      (p.scanAt lowerBound upperBound snapshot).1 =
        p.db.scanAt lowerBound upperBound snapshot ∧
      (p.scanAll lowerBound upperBound snapshot).1 =
        (p.db.scanAt lowerBound upperBound snapshot).map MergeIterator.drain

end Process

/-- No `os.Remove` of a compaction fails. -/
def ProcessEvent.RemovesSucceed : ProcessEvent → Prop
  | .call _ env => ∀ k, env.fails (.compaction (.remove k)) = false
  | _ => True

variable {clock : Nat → Nat} {n n' : Nat} {contents contents' : Nat → List Entry} {db : DB}
  {p p' : Process}

/-- The entries are those of the block with this cache key, as it was written. -/
def BlockAt (clock : Nat → Nat) (n : Nat) (contents : Nat → List Entry) (key : Bytes)
    (entries : List Entry) : Prop :=
  ∃ i < n, ∃ idx ∈ indexFrom 0 (cutBlocks (contents i)),
    key = cacheKey (sstName (clock i)) idx.offset ∧
      readBlockFrom (fileOf (contents i)) idx = .ok entries

theorem BlockAt.mono {key : Bytes} {entries : List Entry} (h : BlockAt clock n contents key entries)
    (hn : n ≤ n') (hsame : Set.EqOn contents' contents (Set.Iio n)) :
    BlockAt clock n' contents' key entries := by
  obtain ⟨i, hi, idx, hidx, hkey, hread⟩ := h
  refine ⟨i, hi.trans_le hn, idx, ?_, hkey, ?_⟩
  · rwa [hsame hi]
  · rwa [hsame hi]

/-- A read puts nothing wrong into the cache, and finds nothing wrong in it. -/
theorem Keeps.readBlockCached (h : Keeps clock limited contents db) (hclock : StrictMono clock)
    {sst : SSTable} (hsst : Made clock db.ticks contents sst) {idx : IndexEntry}
    (hidx : idx ∈ sst.index) {cache : BlockCache}
    (hcache : cache.Holds (BlockAt clock db.ticks contents)) :
    (readBlockCached db.dir cache sst idx).2.Holds (BlockAt clock db.ticks contents) ∧
      (db.dir.read sst.filePath ≠ none →
        (Sstable.readBlockCached db.dir cache sst idx).1 = readBlock db.dir sst idx) := by
  obtain ⟨i, hi, hpath, hindex⟩ := hsst
  have hlisted := hindex.subset hidx
  have hfile : ∀ file, db.dir.read sst.filePath = some file → file = fileOf (contents i) :=
    fun file hread => h.files.file_eq hclock (hpath ▸ hread)
  obtain ⟨hhit, hleft⟩ := hcache.get (cacheKey sst.filePath idx.offset)
  unfold Sstable.readBlockCached
  simp only
  rcases hget : cache.get (cacheKey sst.filePath idx.offset) with ⟨_ | entries, cache'⟩
  · rw [hget] at hleft
    simp only
    cases hread : readBlock db.dir sst idx with
    | error e => exact ⟨hleft, fun _ => rfl⟩
    | ok entries =>
        refine ⟨hleft.put ⟨i, hi, idx, hlisted, by rw [hpath], ?_⟩, fun _ => rfl⟩
        unfold readBlock at hread
        split at hread
        · simp at hread
        · rename_i file hcontent
          rwa [hfile file hcontent] at hread
  · rw [hget] at hhit hleft
    refine ⟨hleft, fun hthere => ?_⟩
    obtain ⟨j, -, idx', hlisted', hkey, hblock⟩ := hhit entries rfl
    -- the key leads back to the path and the offset, and these to the block
    obtain ⟨hname, hoffset⟩ := cacheKey_inj hkey
    obtain rfl : i = j := hclock.injective (sstName_injective (hpath.symm.trans hname))
    obtain rfl := indexFrom_offset_inj hlisted hlisted' hoffset
    obtain ⟨file, hcontent⟩ := Option.ne_none_iff_exists'.mp hthere
    rw [readBlock, hcontent, hfile file hcontent]
    exact hblock.symm

/-- All tables of the process were made, and the cache holds blocks of such tables. -/
structure Process.Sound (clock : Nat → Nat) (contents : Nat → List Entry) (p : Process) :
    Prop where
  keeps : Keeps clock limited contents p.db
  opened : ∀ sst ∈ p.opened, Made clock p.db.ticks contents sst
  listed : p.db.sstables ⊆ p.opened
  cache : p.cache.Holds (BlockAt clock p.db.ticks contents)

theorem sound_process_start (h : Keeps clock limited contents db) {numShards : Nat}
    {capacityPerShard : Int} (hdivisor : numShards % 2 ^ 32 ≠ 0) :
    (Process.start db (newShardedLRU numShards capacityPerShard hdivisor)).Sound clock
      contents where
  keeps := h
  opened := h.tables
  listed := List.Subset.refl _
  cache := holds_newShardedLRU hdivisor _

theorem keeps_emptyDB (clock : Nat → Nat) : Keeps clock limited (fun _ => []) emptyDB where
  memtable := by simp [emptyDB, Memtable.newMemTable]
  files := ⟨by simp, by simp [emptyDB]⟩
  tables := by simp [emptyDB]

theorem Process.Sound.call (h : p.Sound clock contents) (hclock : StrictMono clock) {env : Env}
    (henv : env.clock = clock) (op : Op) :
    ∃ contents', (p.call env op).Sound clock contents' ∧ p.db.ticks ≤ (p.call env op).db.ticks ∧
      Set.EqOn contents' contents (Set.Iio p.db.ticks) := by
  obtain ⟨contents', hgrown⟩ := h.keeps.exec hclock henv op
  refine ⟨contents', ⟨hgrown.keeps, ?_, List.subset_append_left _ _, ?_⟩, hgrown.ticks, hgrown.same⟩
  · intro sst hsst
    rcases List.mem_append.mp hsst with hsst | hsst
    · exact hgrown.keeps.tables sst hsst
    · exact (h.opened sst hsst).mono hgrown.ticks hgrown.same
  · exact fun c hc e he => (h.cache c hc e he).mono hgrown.ticks hgrown.same

/-- Within a process no table that was made before comes back with another content. -/
theorem Process.Sound.grow (h : p.Sound clock contents) (hclock : StrictMono clock)
    {event : ProcessEvent} (hevent : ∀ log, event ≠ .restart log)
    (hstep : ProcessStep clock p event p') :
    ∃ contents', p'.Sound clock contents' ∧ p.db.ticks ≤ p'.db.ticks ∧
      Set.EqOn contents' contents (Set.Iio p.db.ticks) := by
  have hkeeps : ∀ watermark, Keeps clock limited contents { p.db with watermark } :=
    fun _ => ⟨h.keeps.memtable, h.keeps.files, h.keeps.tables⟩
  have hsame := Set.eqOn_refl contents (Set.Iio p.db.ticks)
  cases hstep with
  | call henv => exact h.call hclock henv _
  | getSnapshot => exact ⟨contents, ⟨hkeeps _, h.opened, h.listed, h.cache⟩, le_rfl, hsame⟩
  | releaseSnapshot => exact ⟨contents, ⟨hkeeps _, h.opened, h.listed, h.cache⟩, le_rfl, hsame⟩
  | readBlock hsst hidx =>
      have hread := h.keeps.readBlockCached hclock (h.opened _ hsst) hidx h.cache
      exact ⟨contents, { h with cache := hread.1 }, le_rfl, hsame⟩
  | @restart log => exact absurd rfl (hevent log)

theorem Process.Sound.step (h : p.Sound clock contents) (hclock : StrictMono clock)
    {event : ProcessEvent} (hstep : ProcessStep clock p event p') :
    ∃ contents', p'.Sound clock contents' := by
  by_cases hevent : ∃ log, event = .restart log
  · obtain ⟨log, rfl⟩ := hevent
    cases hstep with
    | restart hdivisor hopen hfit =>
        exact ⟨contents, sound_process_start (keeps_openDB h.keeps.files hfit hopen) hdivisor⟩
  · obtain ⟨contents', hsound, -⟩ := h.grow hclock (not_exists.mp hevent) hstep
    exact ⟨contents', hsound⟩

theorem Process.Sound.run_eq (h : p.Sound clock contents) (hclock : StrictMono clock) {α : Type}
    {prog : Reading α} {a : α} (hprog : ComputesOn (readBlock p.db.dir) p.Readable prog a) :
    (prog.run p.respond p.cache).1 = a := by
  refine (hprog.run ?_ h.cache).1
  rintro cache ⟨sst, idx⟩ hcache ⟨⟨hsst, hthere⟩, hidx⟩
  obtain ⟨hholds, heq⟩ := h.keeps.readBlockCached hclock (h.opened sst hsst) hidx hcache
  exact ⟨heq hthere, hholds⟩

theorem Process.Sound.blocksUncached (h : p.Sound clock contents) (hclock : StrictMono clock) :
    p.BlocksUncached := by
  intro sst hsst idx hidx file hfile
  obtain ⟨-, heq⟩ := h.keeps.readBlockCached hclock (h.opened sst hsst) hidx h.cache
  rw [heq (by simp [hfile]), readBlock, hfile]

theorem Process.Sound.readsUncached (h : p.Sound clock contents) (hclock : StrictMono clock)
    (hshelved : Shelved p.db.dir p.db.sstables) : p.ReadsUncached := by
  have hreadable : ∀ sst ∈ p.db.sstables, p.Readable sst :=
    fun sst hsst => ⟨h.listed hsst, hshelved.present sst hsst⟩
  refine ⟨fun key snapshot => ?_, fun lowerBound upperBound snapshot => ⟨?_, ?_⟩⟩
  · exact h.run_eq hclock (computes_getFrom _ hreadable key snapshot)
  · exact h.run_eq hclock (computes_scanFrom _ hreadable lowerBound upperBound snapshot)
  · exact h.run_eq hclock (computes_scanAll _ hreadable lowerBound upperBound snapshot)

theorem shelved_process_step (h : p.Sound clock contents) (hclock : StrictMono clock)
    (hshelved : Shelved p.db.dir p.db.sstables) {event : ProcessEvent}
    (hevent : event.RemovesSucceed) (hstep : ProcessStep clock p event p') :
    Shelved p'.db.dir p'.db.sstables := by
  cases hstep with
  | call henv => exact h.keeps.shelved_exec hclock henv hevent _ hshelved
  | getSnapshot => exact hshelved
  | releaseSnapshot => exact hshelved
  | readBlock _ _ => exact hshelved
  | restart _ hopen _ => exact shelved_openDB hopen

section Runs

variable {numShards : Nat} {capacityPerShard : Int} {hdivisor : numShards % 2 ^ 32 ≠ 0}
  {may : Process → ProcessEvent → Prop}

theorem sound_of_reaches (hclock : StrictMono clock) (h : Reaches (ProcessStep clock) may
      (Process.start emptyDB (newShardedLRU numShards capacityPerShard hdivisor)) p) :
    ∃ contents, p.Sound clock contents := by
  refine h.invariant (fun p => ∃ contents, p.Sound clock contents)
    ⟨_, sound_process_start (keeps_emptyDB clock) hdivisor⟩ ?_
  rintro p _ _ ⟨contents, hp⟩ - hstep
  exact hp.step hclock hstep

theorem shelved_of_reaches (hclock : StrictMono clock)
    (h : Reaches (ProcessStep clock) (fun _ event => event.RemovesSucceed)
      (Process.start emptyDB (newShardedLRU numShards capacityPerShard hdivisor)) p) :
    Shelved p.db.dir p.db.sstables := by
  have hshelf : Shelved emptyDB.dir emptyDB.sstables := ⟨List.nodup_nil, by simp [emptyDB]⟩
  refine (h.invariant
    (fun p => (∃ contents, p.Sound clock contents) ∧ Shelved p.db.dir p.db.sstables)
    ⟨⟨_, sound_process_start (keeps_emptyDB clock) hdivisor⟩, hshelf⟩ ?_).2
  rintro p _ _ ⟨⟨contents, hp⟩, hshelved⟩ hevent hstep
  exact ⟨hp.step hclock hstep, shelved_process_step hp hclock hshelved hevent hstep⟩

end Runs

/-- In every run, over any number of processes and with any cache, blocks of tables whose
files are there are read as without the cache.  Point reads and scans are so if the
listed tables have their files, which they have unless an `os.Remove` has failed. -/
theorem blockCache_transparent (hclock : StrictMono clock) {numShards : Nat}
    {capacityPerShard : Int} (hdivisor : numShards % 2 ^ 32 ≠ 0) (s : Process) :
    (Reaches (ProcessStep clock) (fun _ _ => True)
        (Process.start emptyDB (newShardedLRU numShards capacityPerShard hdivisor)) s →
      s.BlocksUncached ∧ s.IteratorsUncached ∧
        (Shelved s.db.dir s.db.sstables → s.ReadsUncached)) ∧
    (Reaches (ProcessStep clock) (fun _ event => event.RemovesSucceed)
        (Process.start emptyDB (newShardedLRU numShards capacityPerShard hdivisor)) s →
      s.ReadsUncached) := by
  constructor
  · intro hrun
    obtain ⟨contents, hsound⟩ := sound_of_reaches hclock hrun
    refine ⟨hsound.blocksUncached hclock, fun m hm => ?_, hsound.readsUncached hclock⟩
    exact hsound.run_eq hclock (computes_nextLoop _ hm)
  · intro hrun
    obtain ⟨contents, hsound⟩ := sound_of_reaches hclock hrun
    exact hsound.readsUncached hclock (shelved_of_reaches hclock hrun)

end Steps

theorem defaultCacheShardCount_divisor : Config.defaultCacheShardCount % 2 ^ 32 ≠ 0 := by decide

/-- The cache of blocks in the sizes of the configuration. -/
def newBlockCache : BlockCache :=
  newShardedLRU Config.defaultCacheShardCount
    (Config.defaultBlockCacheEntries / Config.defaultCacheShardCount : Nat)
    defaultCacheShardCount_divisor

theorem get_of_readBlockCached {dir : TableDir} {sst : SSTable} {idx : IndexEntry}
    {entries : List Entry} (h : readBlock dir sst idx = .ok entries) :
    ((readBlockCached dir newBlockCache sst idx).2.get
      (cacheKey sst.filePath idx.offset)).1 = some entries := by
  have hstart : newBlockCache.Ideal _ _ [] fun _ => none := ideal_newShardedLRU _ _
  have hcap : 0 < Config.defaultBlockCacheEntries / Config.defaultCacheShardCount := by decide
  unfold readBlockCached
  simp only
  rcases hget : newBlockCache.get (cacheKey sst.filePath idx.offset) with ⟨_ | found, cache⟩
  · have hcache := hstart.access hcap (.get (cacheKey sst.filePath idx.offset))
    simp only [ShardedLRU.access, hget] at hcache
    simp only [h]
    exact hcache.get_put hcap _ _
  · obtain ⟨hnone, -⟩ := (hstart.get_eq_some_iff hcap _ found).mp (congrArg Prod.fst hget)
    cases hnone

theorem exec_flush_few (clock : Nat → Nat) (stat : Stat) {db : DB}
    (h : db.sstables.length + 1 < Config.defaultCompactionThreshold) :
    (Op.flush.exec (healthy clock stat) db).1 =
      { flushedDB clock db with ticks := db.ticks + 1 + (db.sstables.length + 1) } := by
  have hfew : (flushedDB clock db).sstables.length < Config.defaultCompactionThreshold := h
  rw [Op.exec, DB.forceFlush, flushMemtableLocked_healthy, DB.compactTables, Compaction.compact,
    if_pos hfew]
  rfl

theorem exists_flushed_block (clock : Nat → Nat) (stat : Stat) {db : DB}
    (hfew : db.sstables.length + 1 < Config.defaultCompactionThreshold)
    (hne : db.memtable.tree ≠ []) (hlimits : ∀ e ∈ db.memtable.tree, WithinLimits e) :
    ∃ sst ∈ (Op.flush.exec (healthy clock stat) db).1.sstables, ∃ idx ∈ sst.index, ∃ entries,
      readBlock (Op.flush.exec (healthy clock stat) db).1.dir sst idx = .ok entries := by
  have hlen := indexFrom_length 0 (cutBlocks db.memtable.tree)
  obtain ⟨idx, hidx⟩ : ∃ idx, idx ∈ indexFrom 0 (cutBlocks db.memtable.tree) := by
    refine List.exists_mem_of_ne_nil _ fun hnil => ?_
    rw [hnil, List.length_nil, eq_comm, List.length_eq_zero_iff] at hlen
    exact hne (by rw [← cutBlocks_flatten db.memtable.tree, hlen, List.flatten_nil])
  obtain ⟨block, hblock⟩ := exists_readBlockFrom_fileOf hlimits hidx
  rw [exec_flush_few clock stat hfew]
  refine ⟨_, List.mem_cons_self, idx, hidx, block, ?_⟩
  simp only [readBlock, flushedDB, tableOf, FMap.read_write_self, hblock]

/-- The block that was read before is found in the cache. -/
theorem blockCache_transparent_onePut :
    ∃ (s : Process) (sst : SSTable) (idx : IndexEntry) (entries : List Entry),
      sst ∈ s.db.sstables ∧ idx ∈ sst.index ∧
      (s.cache.get (cacheKey sst.filePath idx.offset)).1 = some entries ∧
      s.BlocksUncached ∧ s.IteratorsUncached ∧ s.ReadsUncached := by
  have hcall : ∀ p op, ProcessStep stampedClock p (.call op (healthy stampedClock fileSizes))
      (p.call (healthy stampedClock fileSizes) op) := fun _ _ => .call rfl
  obtain ⟨written, hput, hcache, hfew, hne, hlimits⟩ : ∃ p : Process,
      ProcessStep stampedClock (Process.start emptyDB newBlockCache)
        (.call (.put [107] [1]) (healthy stampedClock fileSizes)) p ∧ p.cache = newBlockCache ∧
      p.db.sstables.length + 1 < Config.defaultCompactionThreshold ∧
      p.db.memtable.tree ≠ [] ∧ ∀ e ∈ p.db.memtable.tree, WithinLimits e := by
    obtain ⟨_, hgrown⟩ := (keeps_emptyDB stampedClock).exec stampedClock_strictMono
      (rfl : (healthy stampedClock fileSizes).clock = _) (.put [107] [1])
    exact ⟨_, hcall _ _, rfl, by decide, List.cons_ne_nil _ _, hgrown.keeps.memtable⟩
  obtain ⟨sst, hsst, idx, hidx, entries, hread⟩ :=
    exists_flushed_block stampedClock fileSizes hfew hne hlimits
  have hrun : ∀ may : Process → ProcessEvent → Prop,
      (∀ p op, may p (.call op (healthy stampedClock fileSizes))) →
      (∀ p, may p (.readBlock sst idx)) →
      Reaches (ProcessStep stampedClock) may (Process.start emptyDB newBlockCache) _ :=
    fun may hmay hblock => ((Reaches.start.step (hmay _ _) hput).step (hmay _ _)
      (hcall _ .flush)).step (hblock _) (.readBlock (List.mem_append_left _ hsst) hidx)
  obtain ⟨hall, hhealthy⟩ := blockCache_transparent stampedClock_strictMono
    defaultCacheShardCount_divisor _
  obtain ⟨hblocks, hiterators, -⟩ := hall (hrun _ (fun _ _ => trivial) fun _ => trivial)
  have hreads := hhealthy (hrun _ (fun _ _ _ => rfl) fun _ => trivial)
  refine ⟨_, sst, idx, entries, hsst, hidx, ?_, hblocks, hiterators, hreads⟩
  change ((readBlockCached _ written.cache sst idx).2.get _).1 = some entries
  rw [hcache]
  exact get_of_readBlockCached hread

end Hcdb.Db
