import Hcdb.Db.Levels

/-!
Snapshots under interleaving.  `GetSnapshot` takes no lock: it loads the counter and
pins the number in a second step, and writers and compactions can run in between.
-/

namespace Hcdb.Db

open Hcdb.Lib.ByteString
open Hcdb.Lib.FiniteMap
open Hcdb.Base
open Hcdb.Memtable
open Hcdb.Sstable
open Hcdb.Compaction

/-- The database, the snapshots that were loaded and are not pinned yet, and those
that are pinned and not released. -/
structure System where
  db : DB
  loaded : List Nat
  pinned : List Nat

def System.start (db : DB) : System where
  db
  loaded := []
  pinned := []

/-- The atomic steps: the write of a `Put` or `Delete`, a flush with its compaction,
the two halves of `GetSnapshot`, and `ReleaseSnapshot`. -/
inductive Act where
  | write (op : Op)
  | flush (stat : Stat)
  | load
  | begin (snap : Nat)
  | release (snap : Nat)

/-- The version is the newest one of its key that a reader at `snap` may see. -/
def NewestUpTo (es : List Entry) (key : Bytes) (snap : Nat) (e : Entry) : Prop :=
  e ∈ es ∧ e.matchesAt key snap = true ∧ ∀ b ∈ es, b.matchesAt key snap = true → e.ik ≤ b.ik

section Steps

variable [Runtime]

/-- A snapshot is taken in two steps, and anything may happen between them. -/
def System.step (clock : Nat → Nat) (s : System) : Act → System
  | .write op => { s with db := op.write s.db }
  | .flush stat => { s with db := (s.db.flushMemtableLocked (healthy clock stat)).1 }
  | .load => { s with loaded := s.db.seqNum :: s.loaded }
  | .begin snap =>
      if snap ∈ s.loaded then
        { db := { s.db with watermark := s.db.watermark.begin snap }
          loaded := s.loaded.erase snap
          pinned := snap :: s.pinned }
      else s
  | .release snap =>
      if snap ∈ s.pinned then
        { s with db := s.db.releaseSnapshot snap, pinned := s.pinned.erase snap }
      else s

def System.run (clock : Nat → Nat) (s : System) (acts : List Act) : System :=
  acts.foldl (System.step clock) s

theorem System.run_load_begin (clock : Nat → Nat) (db : DB) :
    ((System.start db).run clock [.load, .begin db.seqNum]).db = db.getSnapshot.2 ∧
      ((System.start db).run clock [.load, .begin db.seqNum]).pinned = [db.getSnapshot.1] := by
  simp [System.run, System.step, System.start, DB.getSnapshot]

/-- A compaction that runs in this step keeps, for every snapshot that is in use, the
newest version of every key up to it. -/
def KeepsSnapshots (clock : Nat → Nat) (s : System) : Act → Prop
  | .flush stat => ∀ snap ∈ s.loaded ++ s.pinned, ∀ key e,
      NewestUpTo (flushedDB clock s.db).layers.flatten key snap e →
        e ∈ (s.step clock (.flush stat)).db.layers.flatten
  | _ => True

/-- If the step merges tables, then no snapshot was loaded below the floor and is not pinned
yet, and the tables stay newest first. -/
def SafeStep (clock : Nat → Nat) (s : System) : Act → Prop
  | .flush stat => RecencyKept stat (flushedDB clock s.db) ∧
      (¬ (flushedDB clock s.db).NoMerge stat → ∀ snap ∈ s.loaded, s.db.watermark.floor ≤ snap)
  | _ => True

def Act.Accepted : Act → Prop
  | .write op => op.Accepted
  | _ => True

variable {clock : Nat → Nat} {s : System} {ts : List Table}

/-- Every pinned snapshot is counted in the watermark. -/
structure Counted (clock : Nat → Nat) (s : System) (ts : List Table) : Prop
    extends Ordered clock s.db ts where
  counted : ∀ snap, s.pinned.count snap ≤ s.db.watermark.count snap

theorem Counted.floor_le (h : Counted clock s ts) {snap : Nat} (hsnap : snap ∈ s.pinned) :
    s.db.watermark.floor ≤ snap := by
  have hpos : 0 < s.pinned.count snap := List.count_pos_iff.mpr hsnap
  exact Watermark.floor_le_of_count_pos (hpos.trans_le (h.counted snap))

theorem Ordered.newest_compactedTables {db : DB} (h : Ordered clock db ts)
    (hclock : StrictMono clock) (stat : Stat) {key : Bytes} {snap : Nat} {e : Entry}
    (hfloor : db.watermark.floor ≤ snap)
    (hnewest : NewestUpTo (layersOf ts).flatten key snap e) :
    e ∈ (layersOf (compactedTables clock stat db ts)).flatten := by
  by_cases hsmall : ts.length < Config.defaultCompactionThreshold
  · rw [compactedTables, resultOf, if_pos hsmall]
    exact hnewest.1
  · rw [compactedTables, (h.ready hclock stat).layersOf_resultOf _ hsmall]
    exact (groupsOf_divides _ ts).newest_survives h.layers_newestFirst hfloor
      (h.layers_newestFirst.versionAt_eq_some_iff.mpr hnewest)

theorem Ordered.flushMemtableLocked_eq {db : DB} (h : Ordered clock db ts)
    (hclock : StrictMono clock) (stat : Stat) :
    (db.flushMemtableLocked (healthy clock stat)).1 =
      Db.compactedDB clock stat (Db.flushedDB clock db)
        (flushedTable clock h.toRepresents :: ts) := by
  have hflushed := h.flushedDB hclock
  rw [flushMemtableLocked_healthy,
    hflushed.toRepresents.compactTables_eq hclock hflushed.layers_newestFirst]

theorem Counted.keepsSnapshots (h : Counted clock s ts) (hclock : StrictMono clock) {act : Act}
    (hsafe : SafeStep clock s act) : KeepsSnapshots clock s act := by
  cases act with
  | flush stat =>
      intro snap hsnap key e hnewest
      have hflushed := h.toOrdered.flushedDB hclock
      have hafter := hflushed.toRepresents.compactedDB hclock hflushed.layers_newestFirst stat
      rw [hflushed.layers_eq] at hnewest
      rw [System.step, h.toOrdered.flushMemtableLocked_eq hclock, hafter.layers_eq]
      by_cases hno : (flushedDB clock s.db).NoMerge stat
      · have hno' : NoMerge ((healthy clock stat).compaction (flushedDB clock s.db)).stat
            (flushedTable clock h.toRepresents :: ts) :=
          (hflushed.toRepresents.noMerge_iff stat).mp hno
        rw [compactedTables, (hno'.result_eq _ (flushedDB clock s.db).dir).1]
        exact hnewest.1
      · have hfloor : s.db.watermark.floor ≤ snap := by
          rcases List.mem_append.mp hsnap with hloaded | hpinned
          · exact hsafe.2 hno snap hloaded
          · exact h.floor_le hpinned
        exact hflushed.newest_compactedTables hclock stat hfloor hnewest
  | write op => trivial
  | load => trivial
  | begin snap => trivial
  | release snap => trivial

theorem Ordered.withWatermark {db : DB} (h : Ordered clock db ts) (w : Watermark) :
    Ordered clock { db with watermark := w } ts where
  toRepresents := ⟨h.sstables, h.held, h.nodup, h.stamped, h.wellFormed⟩
  newestFirst := h.newestFirst
  bounded := h.bounded

theorem Counted.step (h : Counted clock s ts) (hclock : StrictMono clock) {act : Act}
    (hact : act.Accepted) (hseq : s.db.seqNum < seqNumMax) (hsafe : SafeStep clock s act) :
    ∃ ts', Counted clock (s.step clock act) ts' := by
  cases act with
  | write op =>
      have hwatermark : (op.write s.db).watermark = s.db.watermark := by cases op <;> rfl
      refine ⟨ts, h.toOrdered.write hseq hact, ?_⟩
      rw [System.step, hwatermark]
      exact h.counted
  | flush stat =>
      have hflushed := h.toOrdered.flushedDB hclock
      -- neither the flush nor the compaction touches the watermark
      have hordered := hflushed.compactedDB hclock rfl hsafe.1
      rw [← h.toOrdered.flushMemtableLocked_eq hclock] at hordered
      refine ⟨_, hordered, ?_⟩
      rw [System.step, h.toOrdered.flushMemtableLocked_eq hclock]
      exact h.counted
  | load => exact ⟨ts, h.toOrdered, h.counted⟩
  | begin snap =>
      rw [System.step]
      split
      · refine ⟨ts, h.toOrdered.withWatermark _, fun s' => ?_⟩
        have hcount := h.counted s'
        rw [List.count_cons, Watermark.count_begin]
        by_cases heq : s' = snap
        · simp [heq] at hcount ⊢
          exact hcount
        · simp [heq, Ne.symm heq]
          exact hcount
      · exact ⟨ts, h⟩
  | release snap =>
      rw [System.step]
      split
      · refine ⟨ts, h.toOrdered.withWatermark _, fun s' => ?_⟩
        have hcount := h.counted s'
        change _ ≤ (s.db.watermark.done snap).count s'
        rw [Watermark.count_done, List.count_erase]
        by_cases heq : s' = snap
        · simp [heq] at hcount ⊢
          omega
        · simp [heq, Ne.symm heq]
          exact hcount
      · exact ⟨ts, h⟩

theorem System.run_take_succ (clock : Nat → Nat) (s : System) {acts : List Act} {n : Nat}
    (hn : n < acts.length) :
    s.run clock (acts.take (n + 1)) = (s.run clock (acts.take n)).step clock acts[n] := by
  rw [List.take_succ_eq_append_getElem hn, System.run, List.foldl_append]
  rfl

theorem System.seqNum_step_le (clock : Nat → Nat) (h : Counted clock s ts)
    (hclock : StrictMono clock) (act : Act) : (s.step clock act).db.seqNum ≤ s.db.seqNum + 1 := by
  cases act with
  | write op => cases op <;> simp [System.step, Op.write, DB.written]
  | flush stat =>
      rw [System.step, h.toOrdered.flushMemtableLocked_eq hclock]
      exact Nat.le_succ _
  | load => exact Nat.le_succ _
  | begin snap =>
      rw [System.step]
      split <;> exact Nat.le_succ _
  | release snap =>
      rw [System.step]
      split <;> exact Nat.le_succ _

theorem Counted.run (h : Counted clock s ts) (hclock : StrictMono clock) {acts : List Act}
    (hacts : ∀ act ∈ acts, act.Accepted) (hfew : s.db.seqNum + acts.length ≤ seqNumMax)
    (hsafe : ∀ n (hn : n < acts.length), SafeStep clock (s.run clock (acts.take n)) acts[n])
    {n : Nat} (hn : n ≤ acts.length) :
    (s.run clock (acts.take n)).db.seqNum ≤ s.db.seqNum + n ∧
      ∃ ts', Counted clock (s.run clock (acts.take n)) ts' := by
  induction n with
  | zero => exact ⟨le_rfl, ts, h⟩
  | succ n ih =>
      obtain ⟨hseq, ts', hcounted⟩ := ih (by omega)
      rw [System.run_take_succ clock s hn]
      have hstep := System.seqNum_step_le clock hcounted hclock acts[n]
      exact ⟨by omega, hcounted.step hclock (hacts _ (List.getElem_mem hn)) (by omega) (hsafe n hn)⟩

/-- From a database whose tables are newest first: as long as no merge finds a
snapshot that was loaded below the floor and is not pinned yet, and merges keep
the tables newest first, no compaction drops what a snapshot in use can see. -/
theorem snapshots_protected {db : DB} (hdb : Ordered clock db ts) (hclock : StrictMono clock)
    {acts : List Act} (hacts : ∀ act ∈ acts, act.Accepted)
    (hfew : db.seqNum + acts.length ≤ seqNumMax)
    (hsafe : ∀ n (hn : n < acts.length),
      SafeStep clock ((System.start db).run clock (acts.take n)) acts[n]) :
    ∀ n (hn : n < acts.length),
      KeepsSnapshots clock ((System.start db).run clock (acts.take n)) acts[n] := by
  intro n hn
  have hstart : Counted clock (System.start db) ts := ⟨hdb, fun snap => by simp [System.start]⟩
  obtain ⟨-, ts', hcounted⟩ := hstart.run hclock hacts hfew hsafe hn.le
  exact hcounted.keepsSnapshots hclock (hsafe n hn)

end Steps

/-- The snapshot is pinned before the key is overwritten, and the fourth flush comes to a
compaction. -/
def pinnedActs : List Act :=
  [.write (.put [107] [1]), .load, .begin 1, .write (.put [107] [2]), .flush fileSizes,
    .write (.put [97] [1]), .flush fileSizes, .write (.put [98] [1]), .flush fileSizes,
    .write (.put [99] [1]), .flush fileSizes]

def pinned (n : Nat) : System := (System.start emptyDB).run stampedClock (pinnedActs.take n)

/-- Two versions of one key in the oldest of three tables. -/
def raceLevels (floor : Nat) : Levels where
  mem := [setVersion [99] 5 [1]]
  size := 10
  tables := [[setVersion [98] 4 [1]], [setVersion [97] 3 [1]],
    [setVersion [107] 2 [2], setVersion [107] 1 [1]]]
  seqNum := 5
  floor

theorem Shows.putByte {db : DB} {l : Levels} (h : Shows stampedClock db l) (k v : UInt8) :
    Shows stampedClock ((Op.put [k] [v]).write db) (l.write (.put [k] [v])) :=
  h.write ⟨by simp [Config.maxKeyLength], by simp [Config.maxValueLength]⟩

theorem Shows.stepFlush {s : System} {l : Levels} (h : Shows stampedClock s.db l)
    (hnf : NewestFirst l.versions) :
    Shows stampedClock (s.step stampedClock (.flush fileSizes)).db l.flushed :=
  h.flushMemtableLocked stampedClock_strictMono hnf

theorem Shows.safeFlush {s : System} {l : Levels} (h : Shows stampedClock s.db l)
    (hloaded : s.loaded = []) (hnf : NewestFirst l.versions)
    (hbounded : ∀ e ∈ l.versions, e.seqNum ≤ l.seqNum)
    (hafter : NewestFirst l.flushed.tables.flatten) :
    SafeStep stampedClock s (.flush fileSizes) :=
  ⟨h.recencyKept stampedClock_strictMono hnf hbounded hafter, fun _ => by simp [hloaded]⟩

theorem flushed_raceLevels (floor : Nat) : (raceLevels floor).flushed.tables =
    [outEntries floor ((raceLevels floor).mem :: (raceLevels floor).tables)] := by
  have hgroups : groupBySize fileSize ((raceLevels floor).mem :: (raceLevels floor).tables) =
      [(raceLevels floor).mem :: (raceLevels floor).tables] := by
    have h₂ : fileSize [setVersion [107] 2 [2], setVersion [107] 1 [1]] = 119915 := rfl
    have h₃ : fileSize [setVersion [97] 3 [1]] = 119897 := rfl
    have h₄ : fileSize [setVersion [98] 4 [1]] = 119897 := rfl
    have h₅ : fileSize [setVersion [99] 5 [1]] = 119897 := rfl
    have hsame : isSimilarSize 119897 119897 = true := by decide
    have hclose : isSimilarSize 119897 119915 = true := by decide
    simp [groupBySize, groupLoop, raceLevels, h₂, h₃, h₄, h₅, hsame, hclose]
  have hbig : ¬ ((raceLevels floor).mem :: (raceLevels floor).tables).length <
      Config.defaultCompactionThreshold := (by decide : ¬ 4 < Config.defaultCompactionThreshold)
  rw [Levels.flushed, Levels.compacted, if_neg hbig, hgroups]
  rfl

/-- The overwritten version is there after the compaction. -/
theorem snapshots_protected_pinnedActs :
    (pinned 10).pinned = [1] ∧ KeepsSnapshots stampedClock (pinned 10) (.flush fileSizes) ∧
      (pinned 11).db.layers.length = 1 ∧ (pinned 11).db.getAt [107] 1 = some [1] := by
  have h₁ : Shows stampedClock (pinned 3).db
      { Levels.empty.write (.put [107] [1]) with floor := 1 } :=
    ((shows_emptyDB stampedClock).putByte 107 1).withWatermark (newWatermark.begin 1)
  have h₂ : Shows stampedClock (pinned 4).db _ := h₁.putByte 107 2
  have h₃ : Shows stampedClock (pinned 6).db _ :=
    (h₂.flushMemtableLocked stampedClock_strictMono (by decide)).putByte 97 1
  have h₄ : Shows stampedClock (pinned 8).db _ :=
    (h₃.flushMemtableLocked stampedClock_strictMono (by decide)).putByte 98 1
  have h₅ : Shows stampedClock (pinned 10).db (raceLevels 1) :=
    (h₄.flushMemtableLocked stampedClock_strictMono (by decide)).putByte 99 1
  have hend : pinned 11 = (pinned 10).step stampedClock (.flush fileSizes) := rfl
  have h₆ := h₅.stepFlush (by decide)
  rw [← hend] at h₆
  have hacts : ∀ act ∈ pinnedActs, act.Accepted := by
    simp only [pinnedActs, List.forall_mem_cons, List.not_mem_nil, false_imp_iff, implies_true,
      and_true, Act.Accepted, true_and]
    exact ⟨⟨by decide, by decide⟩, ⟨by decide, by decide⟩, ⟨by decide, by decide⟩,
      ⟨by decide, by decide⟩, ⟨by decide, by decide⟩⟩
  refine ⟨rfl, snapshots_protected (ordered_emptyDB stampedClock) stampedClock_strictMono hacts
    (by decide) (fun n hn => ?_) 10 (by decide), ?_, ?_⟩
  · have hlast : NewestFirst (raceLevels 1).flushed.tables.flatten := by
      rw [flushed_raceLevels]
      decide
    rw [show pinnedActs.length = 11 from rfl] at hn
    interval_cases n
    · trivial
    · trivial
    · trivial
    · trivial
    · exact h₂.safeFlush rfl (by decide) (by decide) (by decide)
    · trivial
    · exact h₃.safeFlush rfl (by decide) (by decide) (by decide)
    · trivial
    · exact h₄.safeFlush rfl (by decide) (by decide) (by decide)
    · trivial
    · exact h₅.safeFlush rfl (by decide) (by decide) hlast
  · rw [h₆.layers_eq, flushed_raceLevels]
    rfl
  · rw [h₆.getAt_eq [107] (by decide), Levels.versions, flushed_raceLevels]
    decide

/-- A merge gets between the two steps of a snapshot. -/
def raceActs : List Act :=
  [.write (.put [107] [1]), .load, .write (.put [107] [2]), .flush fileSizes,
    .write (.put [97] [1]), .flush fileSizes, .write (.put [98] [1]), .flush fileSizes,
    .write (.put [99] [1])]

def raced : System := (System.start emptyDB).run stampedClock raceActs

theorem shows_raced : Shows stampedClock raced.db (raceLevels seqNumMax) := by
  have h₂ := ((shows_emptyDB stampedClock).putByte 107 1).putByte 107 2
  have h₃ := (h₂.flushMemtableLocked stampedClock_strictMono (by decide)).putByte 97 1
  have h₄ := (h₃.flushMemtableLocked stampedClock_strictMono (by decide)).putByte 98 1
  exact (h₄.flushMemtableLocked stampedClock_strictMono (by decide)).putByte 99 1

theorem run_flush_begin {s : System} (hloaded : s.loaded = [1]) (hpinned : s.pinned = []) :
    (s.run stampedClock [.flush fileSizes, .begin 1]).pinned = [1] ∧
      (s.run stampedClock [.flush fileSizes, .begin 1]).db.getAt [107] 1 =
        (s.step stampedClock (.flush fileSizes)).db.getAt [107] 1 := by
  have hrun : s.run stampedClock [.flush fileSizes, .begin 1] =
      (s.step stampedClock (.flush fileSizes)).step stampedClock (.begin 1) := rfl
  have hloaded' : (s.step stampedClock (.flush fileSizes)).loaded = [1] := hloaded
  have hpinned' : (s.step stampedClock (.flush fileSizes)).pinned = [] := hpinned
  rw [hrun]
  generalize s.step stampedClock (.flush fileSizes) = flushed at hloaded' hpinned' ⊢
  rw [System.step, if_pos (by simp [hloaded']), hpinned']
  exact ⟨rfl, rfl⟩

/-- The overwritten version is the newest one that the loaded snapshot may see; the
fourth flush drops it, and once `GetSnapshot` has returned it cannot be read. -/
theorem loaded_snapshot_lost :
    raced.loaded = [1] ∧ raced.db.getAt [107] 1 = some [1] ∧
      ¬ KeepsSnapshots stampedClock raced (.flush fileSizes) ∧
      (raced.run stampedClock [.flush fileSizes, .begin 1]).pinned = [1] ∧
      (raced.run stampedClock [.flush fileSizes, .begin 1]).db.getAt [107] 1 = none := by
  have hloaded : raced.loaded = [1] := rfl
  have hpinned : raced.pinned = [] := rfl
  have hflushed := shows_raced.stepFlush (by decide)
  obtain ⟨hpin, hread⟩ := run_flush_begin hloaded hpinned
  refine ⟨hloaded, ?_, ?_, hpin, ?_⟩
  · rw [shows_raced.getAt_eq [107] (by decide)]
    decide
  · intro hkeeps
    have hlost := hkeeps 1 (by decide : 1 ∈ [1] ++ []) [107] (setVersion [107] 1 [1]) ?_
    · rw [hflushed.layers_eq, flushed_raceLevels] at hlost
      exact absurd hlost (by decide)
    · rw [shows_raced.layers_flushedDB stampedClock_strictMono]
      unfold NewestUpTo
      decide
  · rw [hread, hflushed.getAt_eq [107] (by decide), Levels.versions, flushed_raceLevels]
    decide

end Hcdb.Db
