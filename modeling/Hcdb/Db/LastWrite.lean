import Hcdb.Db.Levels

/-!
Last write wins.  Over a run from the empty database every read returns the last
write of its key, as long as every compaction of the run keeps recency.
-/

namespace Hcdb.Db

open Hcdb.Lib.ByteString
open Hcdb.Lib.SortedList
open Hcdb.Base
open Hcdb.Memtable
open Hcdb.Sstable
open Hcdb.Compaction

section LastWrite

variable [Runtime]

/-- Every read returns the last write, and the table list is newest first. -/
structure LastWriteWins (ops : List Op) (db : DB) : Prop where
  get_eq : ∀ key, db.get key = lastWrite ops key
  newestFirst : NewestFirst db.layers.flatten

/-- The invariant of a run without snapshots. -/
structure Tracks (clock : Nat → Nat) (ops : List Op) (db : DB) (ts : List Table) : Prop where
  ordered : Ordered clock db ts
  seqNum : db.seqNum ≤ ops.length
  watermark : db.watermark = newWatermark
  latest : ∀ key, answer (versionAt (stored db ts) key seqNumMax) = lastWrite ops key

variable {clock : Nat → Nat} {ops : List Op} {db : DB} {ts : List Table}

theorem tracks_emptyDB (clock : Nat → Nat) : Tracks clock [] emptyDB [] where
  ordered := ordered_emptyDB clock
  seqNum := le_rfl
  watermark := rfl
  latest _ := rfl

theorem Tracks.lastWriteWins (h : Tracks clock ops db ts) : LastWriteWins ops db where
  get_eq key := by
    rw [DB.get, h.ordered.getAt_eq key le_rfl, h.latest]
  newestFirst := by
    rw [h.ordered.layers_eq]
    exact h.ordered.layers_newestFirst

theorem Tracks.written (h : Tracks clock ops db ts) (hseq : db.seqNum < seqNumMax)
    {kind : InternalKeyKind} {userKey value : Bytes} (hkind : kind ≤ internalKeyKindMax)
    (hkey : userKey.length ≤ Config.maxKeyLength) (hvalue : value.length ≤ Config.maxValueLength)
    {op : Op} (hop : ∀ key last, op.outcome key last =
      if userKey = key then answer (some (db.nextEntry kind userKey value)) else last) :
    Tracks clock (ops ++ [op]) (db.written kind userKey value) ts where
  ordered := h.ordered.written hseq hkind hkey hvalue
  seqNum := by
    have hle := h.seqNum
    simp only [DB.written, List.length_append, List.length_singleton]
    omega
  watermark := h.watermark
  latest key := by
    have hvisible : db.seqNum + 1 ≤ seqNumMax := hseq
    rw [h.ordered.versionAt_written hseq hkind hkey hvalue, lastWrite_append, hop, ← h.latest key]
    by_cases hk : userKey = key
    · rw [if_pos ⟨hk, hvisible⟩, if_pos hk]
    · rw [if_neg fun hc => hk hc.1, if_neg hk]

theorem Tracks.write (h : Tracks clock ops db ts) (hseq : db.seqNum < seqNumMax) {op : Op}
    (hop : op.Accepted) : Tracks clock (ops ++ [op]) (op.write db) ts := by
  cases op with
  | put key value =>
      apply h.written hseq (by decide : internalKeyKindSet ≤ internalKeyKindMax) hop.1 hop.2
      intro k last
      rw [DB.answer_nextEntry_set]
      rfl
  | delete key =>
      apply h.written hseq (by decide) hop (by simp [Config.maxValueLength])
      intro k last
      rw [DB.answer_nextEntry_delete]
      rfl
  | flush =>
      refine ⟨h.ordered, ?_, h.watermark, ?_⟩
      · have hle := h.seqNum
        rw [List.length_append, List.length_singleton]
        exact hle.trans (Nat.le_succ _)
      · intro key
        rw [lastWrite_append]
        exact h.latest key

theorem Tracks.flushedDB (h : Tracks clock ops db ts) (hclock : StrictMono clock) :
    Tracks clock ops (flushedDB clock db) (flushedTable clock h.ordered.toRepresents :: ts) where
  ordered := h.ordered.flushedDB hclock
  seqNum := h.seqNum
  watermark := h.watermark
  latest := h.latest

theorem Tracks.compactedDB (h : Tracks clock ops db ts) (hclock : StrictMono clock) {stat : Stat}
    (hmem : db.memtable.tree = []) (hkept : RecencyKept stat db) :
    Tracks clock ops (compactedDB clock stat db ts) (compactedTables clock stat db ts) where
  ordered := h.ordered.compactedDB hclock hmem hkept
  seqNum := h.seqNum
  watermark := h.watermark
  latest key := by
    rw [h.ordered.versionAt_compactedDB hclock hmem hkept key, h.latest]
    exact db.watermark.floor_le_seqNumMax

/-- If the call flushes, its compaction leaves the table list newest first. -/
def CallKeepsRecency (clock : Nat → Nat) (db : DB) (call : Call) : Prop :=
  ∀ flushed, db.compacting clock call.op = some flushed → RecencyKept call.stat flushed

/-- One call: the invariant goes on exactly when the table list stays newest first. -/
theorem Tracks.step (h : Tracks clock ops db ts) (hclock : StrictMono clock)
    (hseq : db.seqNum < seqNumMax) {call : Call} (hop : call.op.Accepted) :
    (CallKeepsRecency clock db call →
      ∃ ts', Tracks clock (ops ++ [call.op]) (db.step clock call).1 ts') ∧
    (NewestFirst (db.step clock call).1.layers.flatten → CallKeepsRecency clock db call) := by
  have hwrite := h.write hseq hop
  rw [DB.step_eq hop]
  unfold CallKeepsRecency
  cases hcompact : db.compacting clock call.op with
  | none => exact ⟨fun _ => ⟨ts, hwrite⟩, fun _ flushed hsome => by simp at hsome⟩
  | some flushed =>
      obtain rfl := DB.compacting_eq_some hcompact
      have htracks := hwrite.flushedDB hclock
      have hcompacted := htracks.ordered.compactTables_eq hclock htracks.ordered.layers_newestFirst
        call.stat
      simp only [hcompacted]
      constructor
      · intro hkeeps
        exact ⟨_, htracks.compactedDB hclock rfl (hkeeps _ rfl)⟩
      · rintro hnf flushed hsome
        obtain rfl := Option.some.inj hsome
        rw [htracks.ordered.recencyKept_iff hclock]
        rwa [(htracks.ordered.toRepresents.compactedDB hclock htracks.ordered.layers_newestFirst
          call.stat).layers_eq] at hnf

theorem run_take_succ (clock : Nat → Nat) (db : DB) (calls : List Call) {n : Nat}
    (hn : n < calls.length) :
    run clock db (calls.take (n + 1)) = ((run clock db (calls.take n)).step clock calls[n]).1 := by
  rw [List.take_succ_eq_append_getElem hn, run_append]

/-- A run from the empty database, call by call: the invariant holds as long as all
compactions so far have kept recency. -/
theorem tracks_run (hclock : StrictMono clock) {calls : List Call}
    (hop : ∀ call ∈ calls, call.op.Accepted) (hfew : calls.length < seqNumMax) {n : Nat}
    (hn : n ≤ calls.length)
    (hkeeps : ∀ m (hm : m < calls.length), m < n →
      CallKeepsRecency clock (run clock emptyDB (calls.take m)) calls[m]) :
    ∃ ts, Tracks clock ((calls.take n).map Call.op) (run clock emptyDB (calls.take n)) ts := by
  induction n with
  | zero => exact ⟨[], tracks_emptyDB clock⟩
  | succ n ih =>
      obtain ⟨ts, htracks⟩ := ih (by omega) fun m hm hmn => hkeeps m hm (by omega)
      have hseq := htracks.seqNum
      rw [List.length_map, List.length_take] at hseq
      have hmap : (calls.take (n + 1)).map Call.op =
          (calls.take n).map Call.op ++ [calls[n].op] := by
        rw [List.take_succ_eq_append_getElem hn, List.map_append]
        rfl
      rw [run_take_succ clock emptyDB calls hn, hmap]
      exact (htracks.step hclock (by omega) (hop _ (List.getElem_mem hn))).1
        (hkeeps n hn (Nat.lt_succ_self n))

/-- Last write wins all along a run exactly when every compaction of it keeps
recency. -/
theorem lastWriteWins_iff_keepsRecency (hclock : StrictMono clock) (calls : List Call)
    (hop : ∀ call ∈ calls, call.op.Accepted) (hfew : calls.length < seqNumMax) :
    (∀ n ≤ calls.length,
      LastWriteWins ((calls.take n).map Call.op) (run clock emptyDB (calls.take n))) ↔
    ∀ n (hn : n < calls.length),
      CallKeepsRecency clock (run clock emptyDB (calls.take n)) calls[n] := by
  constructor
  · intro hwins n
    -- the states before this call are good, so the invariant holds when it starts
    induction n using Nat.strong_induction_on with
    | _ n ih =>
        intro hn
        obtain ⟨ts, htracks⟩ := tracks_run hclock hop hfew hn.le fun m hm hmn => ih m hmn hm
        have hseq := htracks.seqNum
        rw [List.length_map, List.length_take] at hseq
        apply (htracks.step hclock (by omega) (hop _ (List.getElem_mem hn))).2
        rw [← run_take_succ clock emptyDB calls hn]
        exact (hwins (n + 1) hn).newestFirst
  · intro hkeeps n hn
    obtain ⟨ts, htracks⟩ := tracks_run hclock hop hfew hn fun m hm _ => hkeeps m hm
    exact htracks.lastWriteWins

end LastWrite

section Levels

variable [Runtime] {clock : Nat → Nat} {db : DB} {l : Levels}

/-- A run of accepted calls on the levels whose compactions keep the tables newest first. -/
inductive Levels.Tidy : Levels → List Op → Prop
  | nil (l : Levels) : Tidy l []
  | cons {l : Levels} {op : Op} {ops : List Op} (hop : op.Accepted)
      (hkept : l.flushes op = true → NewestFirst (l.write op).versions ∧
        (∀ e ∈ (l.write op).versions, e.seqNum ≤ (l.write op).seqNum) ∧
        NewestFirst (l.write op).flushed.tables.flatten)
      (hrest : Tidy (l.step op) ops) : Tidy l (op :: ops)

theorem Levels.Tidy.runs {ops : List Op} (h : l.Tidy ops) :
    Levels.Runs l ops (ops.foldl Levels.step l) := by
  induction h with
  | nil l => exact .nil l
  | cons hop hkept _ ih => exact .cons hop (fun hfull => (hkept hfull).1) rfl ih

theorem Shows.keepsRecency {ops : List Op} (h : Shows clock db l) (hclock : StrictMono clock)
    (htidy : l.Tidy ops) : ∀ n (hn : n < (onDisk ops).length),
      CallKeepsRecency clock (Db.run clock db ((onDisk ops).take n)) (onDisk ops)[n] := by
  induction htidy generalizing db with
  | nil l => exact fun n hn => absurd hn (Nat.not_lt_zero n)
  | @cons l op ops hop hkept _ ih =>
      intro n hn
      cases n with
      | zero =>
          intro flushed hcompacting
          change db.compacting clock op = some flushed at hcompacting
          rw [DB.compacting, h.flushes_eq hop] at hcompacting
          split at hcompacting
          · next hfull =>
              obtain rfl := Option.some.inj hcompacting
              obtain ⟨hnf, hbounded, hafter⟩ := hkept hfull
              exact (h.write hop).recencyKept hclock hnf hbounded hafter
          · simp at hcompacting
      | succ n =>
          exact ih (h.step hclock hop fun hfull => (hkept hfull).1) n (Nat.lt_of_succ_lt_succ hn)

end Levels

/-- An overwritten key and two others, in four tables that are merged. -/
def mergedOps : List Op :=
  [.put [107] [1], .flush, .put [107] [2], .flush, .put [97] [1], .flush, .put [98] [1], .flush]

/-- Three tables, two with versions of one key, and a fourth table to come. -/
def unmerged : Levels :=
  unpinned [setVersion [98] 4 [1]] 10
    [[setVersion [97] 3 [1]], [setVersion [107] 2 [2]], [setVersion [107] 1 [1]]] 4

theorem flushed_unmerged : unmerged.flushed.tables =
    [[setVersion [97] 3 [1], setVersion [98] 4 [1], setVersion [107] 2 [2]]] := by
  have hsize : ∀ e ∈ unmerged.versions, fileSize [e] = 119897 := by
    simp only [unmerged, Levels.versions, unpinned, List.flatten, List.append, List.cons_append,
      List.nil_append, List.forall_mem_cons, List.not_mem_nil, false_imp_iff, implies_true]
    exact ⟨rfl, rfl, rfl, rfl, trivial⟩
  have hsame : isSimilarSize 119897 119897 = true := by decide
  have hgroups : groupBySize fileSize (unmerged.mem :: unmerged.tables) =
      [unmerged.mem :: unmerged.tables] := by
    simp only [unmerged, Levels.versions, unpinned, List.flatten, List.append, List.cons_append,
      List.nil_append, List.forall_mem_cons] at hsize
    simp [groupBySize, groupLoop, unmerged, unpinned, hsize, hsame]
  rw [Levels.flushed, Levels.compacted, if_neg (by decide), hgroups]
  rfl

theorem tidy_mergedOps : Levels.empty.Tidy mergedOps := by
  have hput : ∀ k v, Op.Accepted (.put [k] [v]) :=
    fun k v => ⟨by simp [Config.maxKeyLength], by simp [Config.maxValueLength]⟩
  have hlast : NewestFirst unmerged.flushed.tables.flatten := by
    rw [flushed_unmerged]
    decide
  refine .cons (hput 107 1) (by decide) (.cons trivial (by decide) ?_)
  refine .cons (hput 107 2) (by decide) (.cons trivial (by decide) ?_)
  refine .cons (hput 97 1) (by decide) (.cons trivial (by decide) ?_)
  exact .cons (hput 98 1) (by decide)
    (.cons trivial (fun _ => ⟨by decide, by decide, hlast⟩) (.nil _))

theorem lastWriteWins_merged :
    (∀ n ≤ 8, LastWriteWins (((onDisk mergedOps).take n).map Call.op)
      (run stampedClock emptyDB ((onDisk mergedOps).take n))) ∧
    (run stampedClock emptyDB (onDisk mergedOps)).layers.length = 1 := by
  have hruns : Levels.Runs Levels.empty mergedOps unmerged.flushed := tidy_mergedOps.runs
  refine ⟨?_, ?_⟩
  · exact (lastWriteWins_iff_keepsRecency stampedClock_strictMono (onDisk mergedOps)
      hruns.accepted (by decide)).mpr
        ((shows_emptyDB stampedClock).keepsRecency stampedClock_strictMono tidy_mergedOps)
  · rw [((shows_emptyDB stampedClock).run stampedClock_strictMono hruns).layers_eq,
      flushed_unmerged]
    rfl

/-- A large table is left out when the small ones on both sides of it are merged. -/
def staleOps (big : Bytes) : List Op :=
  [.put [107] [1], .flush, .put [107] [2], .put [120] big, .flush, .put [97] [1], .flush,
    .put [98] [1], .flush]

section Stale

variable {big : Bytes}

def bigTable (big : Bytes) : List Entry := [setVersion [107] 2 [2], setVersion [120] 3 big]

theorem fileSize_bigTable (hbig : big.length = 400000) : fileSize (bigTable big) = 519914 := by
  have hroom : ¬ Config.defaultBlockSize ≤ 0 + entrySize (setVersion [107] 2 [2]) := by decide
  have hfull : Config.defaultBlockSize ≤
      0 + entrySize (setVersion [107] 2 [2]) + entrySize (setVersion [120] 3 big) := by
    change 4096 ≤ 0 + 18 + (9 + big.length + 8)
    omega
  have hcut : cutBlocks (bigTable big) = [bigTable big] := by
    rw [cutBlocks, bigTable, cutFrom, if_neg hroom, cutFrom, if_pos hfull]
    rfl
  rw [fileSize, hcut]
  change 24 + (18 + (9 + big.length + 8 + 0)) + 9 + 0 + (958506 + 7) / 8 + 32 = _
  omega

theorem groupBySize_stale (hbig : big.length = 400000) :
    groupBySize fileSize [[setVersion [98] 5 [1]], [setVersion [97] 4 [1]], bigTable big,
        [setVersion [107] 1 [1]]] =
      [[[setVersion [98] 5 [1]], [setVersion [97] 4 [1]], [setVersion [107] 1 [1]]],
        [bigTable big]] := by
  have hsmall₁ : fileSize [setVersion [107] 1 [1]] = 119897 := rfl
  have hsmall₄ : fileSize [setVersion [97] 4 [1]] = 119897 := rfl
  have hsmall₅ : fileSize [setVersion [98] 5 [1]] = 119897 := rfl
  have hsame : isSimilarSize 119897 119897 = true := by decide
  have hdiffer : isSimilarSize 119897 519914 = false := by decide
  simp [groupBySize, groupLoop, fileSize_bigTable hbig, hsmall₁, hsmall₄, hsmall₅, hsame, hdiffer]

theorem flushes_putBig (hbig : big.length = 400000) :
    (unpinned [setVersion [107] 2 [2]] 10 [[setVersion [107] 1 [1]]] 2).flushes (.put [120] big) =
      false := by
  have hroom : ¬ Config.defaultMemtableFlushSize ≤ 10 + (9 + big.length) := by
    rw [hbig]
    decide
  exact decide_eq_false hroom

theorem step_putBig (hbig : big.length = 400000) :
    (unpinned [setVersion [107] 2 [2]] 10 [[setVersion [107] 1 [1]]] 2).step (.put [120] big) =
      unpinned (bigTable big) (10 + (9 + big.length)) [[setVersion [107] 1 [1]]] 3 := by
  rw [Levels.step, flushes_putBig hbig]
  rfl

theorem step_merge (hbig : big.length = 400000) :
    (unpinned [setVersion [98] 5 [1]] 10 [[setVersion [97] 4 [1]], bigTable big,
        [setVersion [107] 1 [1]]] 5).step .flush =
      unpinned [] 0 [[setVersion [97] 4 [1], setVersion [98] 5 [1], setVersion [107] 1 [1]],
        bigTable big] 5 := by
  change unpinned [] 0 ((groupBySize fileSize [[setVersion [98] 5 [1]], [setVersion [97] 4 [1]],
    bigTable big, [setVersion [107] 1 [1]]]).map (outEntries seqNumMax)) 5 = _
  rw [groupBySize_stale hbig]
  rfl

theorem runs_staleOps (hbig : big.length = 400000) :
    Levels.Runs Levels.empty (staleOps big)
      (unpinned [] 0 [[setVersion [97] 4 [1], setVersion [98] 5 [1], setVersion [107] 1 [1]],
        bigTable big] 5) := by
  have hlen : big.length ≤ Config.maxValueLength := by
    rw [hbig]
    decide
  refine .write ⟨by decide, by decide⟩ rfl rfl ?_
  refine .flush (of_decide_eq_true rfl) rfl ?_
  refine .write ⟨by decide, by decide⟩ rfl rfl ?_
  refine .write ⟨by decide, hlen⟩ (flushes_putBig hbig) (step_putBig hbig) ?_
  refine .flush (of_decide_eq_true rfl) rfl ?_
  refine .write ⟨by decide, by decide⟩ rfl rfl ?_
  refine .flush (of_decide_eq_true rfl) rfl ?_
  refine .write ⟨by decide, by decide⟩ rfl rfl ?_
  exact .flush (of_decide_eq_true rfl) (step_merge hbig) (.nil _)

theorem get_staleOps {clock : Nat → Nat} (hclock : StrictMono clock)
    (hbig : big.length = 400000) :
    (run clock emptyDB (onDisk (staleOps big))).get [107] = some [1] := by
  rw [DB.get, ((shows_emptyDB clock).run hclock (runs_staleOps hbig)).getAt_eq [107] le_rfl]
  rfl

end Stale

/-- On a disk that meets no fault a flush brings back an overwritten value. -/
theorem lastWrite_lost :
    (∀ call ∈ onDisk (staleOps (List.replicate 400000 0)), call.op.Accepted) ∧
    lastWrite ((onDisk (staleOps (List.replicate 400000 0))).map Call.op) [107] = some [2] ∧
    (run stampedClock emptyDB (onDisk (staleOps (List.replicate 400000 0)))).get [107] =
      some [1] := by
  exact ⟨(runs_staleOps List.length_replicate).accepted, rfl,
    get_staleOps stampedClock_strictMono List.length_replicate⟩

end Hcdb.Db
