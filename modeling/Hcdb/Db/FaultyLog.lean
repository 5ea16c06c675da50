import Hcdb.Db.Durability
import Hcdb.Db.FaultyRun

/-!
Opening a database whose log has failed.  The records in the log are those of the calls
since the last flush up to some moment, and a record may be there although its call was
told that it failed.
-/

namespace Hcdb.Db

open Hcdb.Lib.ByteString
open Hcdb.Lib.Fallible
open Hcdb.Lib.Simulation
open Hcdb.Lib.SortedList
open Hcdb.Base
open Hcdb.Memtable
open Hcdb.Sstable
open Hcdb.Compaction
open Hcdb.Wal
open Hcdb.Faultinjection

variable {σ ε : Type*}

/-- The call was refused for the length of its key or value. -/
def refused : LoggedReply ε → Bool
  | .error (.db .keyTooLong) => true
  | .error (.db .valueTooLong) => true
  | _ => false

/-- The write, unless it was refused. -/
def triedOp? : LoggedCall × LoggedReply ε → Option Op
  | (.op .flush, _) => none
  | (.op op, reply) => if refused reply then none else some op
  | (.close, _) => none

/-- The writes of a run that were not refused. -/
def triedOps (trace : List (LoggedCall × LoggedReply ε)) : List Op := trace.filterMap triedOp?

/-- `Close` or `ForceFlush` has returned without an error. -/
def Secures : LoggedCall × LoggedReply ε → Prop
  | (.op .flush, .ok ()) => True
  | (.close, .ok ()) => True
  | _ => False

theorem not_secures_error (call : LoggedCall) (e : LoggedErr ε) :
    ¬ Secures (call, (.error e : LoggedReply ε)) := by
  cases call with
  | op op =>
      cases op with
      | put key value => exact id
      | delete key => exact id
      | flush => exact id
  | close => exact id

/-- These are the writes of which the calls have left records: all that are stored, and
some of the others that were tried. -/
inductive LeavesRecords : List (LoggedCall × LoggedReply ε) → List Op → Prop
  | nil : LeavesRecords [] []
  | recorded {calls : List (LoggedCall × LoggedReply ε)} {ops : List Op}
      {c : LoggedCall × LoggedReply ε} {op : Op} : LeavesRecords calls ops →
      triedOp? c = some op → LeavesRecords (calls ++ [c]) (ops ++ [op])
  | skipped {calls : List (LoggedCall × LoggedReply ε)} {ops : List Op}
      {c : LoggedCall × LoggedReply ε} : LeavesRecords calls ops → storedOp? c = none →
      LeavesRecords (calls ++ [c]) ops

theorem refused_of_stores {reply : LoggedReply ε} (h : stores reply = true) :
    refused reply = false := by
  unfold stores at h
  split at h <;> simp_all [refused]

theorem triedOp?_op {op : Op} (h : op ≠ .flush) (reply : LoggedReply ε) :
    triedOp? (.op op, reply) = if refused reply then none else some op := by
  cases op with
  | put key value => rfl
  | delete key => rfl
  | flush => exact absurd rfl h

theorem triedOp?_of_storedOp? {c : LoggedCall × LoggedReply ε} {op : Op}
    (h : storedOp? c = some op) : triedOp? c = some op := by
  obtain ⟨call, reply⟩ := c
  cases call with
  | op op' =>
      have hwrite : op' ≠ .flush := by
        rintro rfl
        simp [storedOp?] at h
      rw [storedOp?_op hwrite] at h
      rw [triedOp?_op hwrite]
      split at h
      · rename_i hstores
        rwa [refused_of_stores hstores]
      · simp at h
  | close => simp [storedOp?] at h

theorem ne_flush_of_triedOp? {c : LoggedCall × LoggedReply ε} {op : Op}
    (h : triedOp? c = some op) : op ≠ .flush := by
  obtain ⟨call, reply⟩ := c
  cases call with
  | op op' =>
      have hwrite : op' ≠ .flush := by
        rintro rfl
        simp [triedOp?] at h
      rw [triedOp?_op hwrite] at h
      split at h
      · simp at h
      · exact Option.some.inj h ▸ hwrite
  | close => simp [triedOp?] at h

theorem not_secures_of_triedOp? {c : LoggedCall × LoggedReply ε} {op : Op}
    (h : triedOp? c = some op) : ¬ Secures c := by
  obtain ⟨call, reply⟩ := c
  cases call with
  | op op' =>
      cases op' with
      | put key value => exact id
      | delete key => exact id
      | flush => simp [triedOp?] at h
  | close => simp [triedOp?] at h

namespace LeavesRecords

variable {calls calls' : List (LoggedCall × LoggedReply ε)} {ops ops' : List Op}

theorem append (h : LeavesRecords calls ops) (h' : LeavesRecords calls' ops') :
    LeavesRecords (calls ++ calls') (ops ++ ops') := by
  induction h' with
  | nil => simpa using h
  | recorded _ htried ih =>
      rw [← List.append_assoc, ← List.append_assoc]
      exact .recorded ih htried
  | skipped _ hnone ih =>
      rw [← List.append_assoc]
      exact .skipped ih hnone

theorem of_stored (calls : List (LoggedCall × LoggedReply ε)) :
    LeavesRecords calls (storedOps calls) := by
  induction calls using List.reverseRecOn with
  | nil => exact .nil
  | append_singleton calls c ih =>
      rw [storedOps_append]
      cases hstored : storedOp? c with
      | none =>
          have hnil : storedOps [c] = [] := List.filterMap_cons_none hstored
          rw [hnil, List.append_nil]
          exact .skipped ih hstored
      | some op =>
          have hone : storedOps [c] = [op] := List.filterMap_cons_some hstored
          rw [hone]
          exact .recorded ih (triedOp?_of_storedOp? hstored)

theorem take (h : LeavesRecords calls ops) {k : Nat} (hk : k ≤ ops.length) :
    ∃ kept lost, calls = kept ++ lost ∧ LeavesRecords kept (ops.take k) := by
  induction h with
  | nil => exact ⟨[], [], rfl, by simpa using .nil⟩
  | @recorded calls ops c op h htried ih =>
      rw [List.length_append, List.length_singleton] at hk
      rcases Nat.lt_or_ge ops.length k with hlt | hle
      · refine ⟨calls ++ [c], [], (List.append_nil _).symm, ?_⟩
        rw [List.take_of_length_le (by rw [List.length_append]; exact hlt)]
        exact .recorded h htried
      · obtain ⟨kept, lost, rfl, hkept⟩ := ih hle
        refine ⟨kept, lost ++ [c], List.append_assoc _ _ _, ?_⟩
        rwa [List.take_append_of_le_length hle]
  | @skipped calls ops c h hnone ih =>
      obtain ⟨kept, lost, rfl, hkept⟩ := ih hk
      exact ⟨kept, lost ++ [c], List.append_assoc _ _ _, hkept⟩

theorem sublists (h : LeavesRecords calls ops) :
    (storedOps calls).Sublist ops ∧ ops.Sublist (triedOps calls) := by
  induction h with
  | nil => exact ⟨List.Sublist.refl _, List.Sublist.refl _⟩
  | @recorded calls ops c op h htried ih =>
      have htried' : triedOps (calls ++ [c]) = triedOps calls ++ [op] := by
        rw [triedOps, List.filterMap_append, List.filterMap_cons_some htried]
        rfl
      refine ⟨?_, htried' ▸ ih.2.append (List.Sublist.refl _)⟩
      rw [storedOps_append]
      refine ih.1.append ?_
      cases hstored : storedOp? c with
      | none =>
          have hnil : storedOps [c] = [] := List.filterMap_cons_none hstored
          rw [hnil]
          exact List.nil_sublist _
      | some op' =>
          have hone : storedOps [c] = [op'] := List.filterMap_cons_some hstored
          rw [hone, Option.some.inj ((triedOp?_of_storedOp? hstored).symm.trans htried)]
  | @skipped calls ops c h hnone ih =>
      have hnil : storedOps [c] = [] := List.filterMap_cons_none hnone
      rw [storedOps_append, hnil, List.append_nil, triedOps, List.filterMap_append]
      exact ⟨ih.1, ih.2.trans (List.sublist_append_left _ _)⟩

theorem ne_flush (h : LeavesRecords calls ops) : ∀ op ∈ ops, op ≠ .flush := by
  induction h with
  | nil => simp
  | recorded _ htried ih =>
      intro op hop
      rcases List.mem_append.mp hop with hop | hop
      · exact ih op hop
      · exact List.mem_singleton.mp hop ▸ ne_flush_of_triedOp? htried
  | skipped _ _ ih => exact ih

end LeavesRecords

section Tables

variable [Runtime] {clock : Nat → Nat} {db : DB} {ts us : List Table} {n : Nat}
  {base live : Contents}

theorem Maps.writeAll {contents : Contents} (h : Maps clock db ts contents) {ops : List Op}
    (hop : ∀ op ∈ ops, op.Accepted) (hfew : db.seqNum + ops.length ≤ seqNumMax) :
    Maps clock (writeAll db ops) ts fun key => ops.foldl (Op.outcome key) (contents key) := by
  induction ops generalizing db contents with
  | nil => exact h
  | cons op ops ih =>
      rw [List.length_cons] at hfew
      have hseq : (op.write db).seqNum ≤ db.seqNum + 1 := by
        cases op with
        | put key value => exact le_rfl
        | delete key => exact le_rfl
        | flush => exact Nat.le_succ _
      have hfew' : (op.write db).seqNum + ops.length ≤ seqNumMax := by omega
      exact ih (h.write (hop op (by simp)) (by omega)) (fun op' ho => hop op' (by simp [ho])) hfew'

/-- The reads show `live`, and the tables, which hold the versions up to number `n`, would
show `base` alone. -/
structure Based (clock : Nat → Nat) (db : DB) (ts : List Table) (n : Nat)
    (base live : Contents) : Prop extends Maps clock db ts live where
  relists : ∃ us, Relists db.dir ts us
  flushed : ∀ e ∈ (layersOf ts).flatten, e.seqNum ≤ n
  alone : ∀ key, answer (versionAt (layersOf ts).flatten key seqNumMax) = base key

theorem based_emptyDB (clock : Nat → Nat) :
    Based clock emptyDB [] 0 (lastWrite []) (lastWrite []) where
  toMaps := maps_emptyDB clock
  relists := ⟨[], relists_emptyDB⟩
  flushed := by simp
  alone _ := rfl

namespace Based

theorem skip (h : Based clock db ts n base live) :
    Based clock { db with seqNum := db.seqNum + 1 } ts n base live :=
  { h.toMaps.skip with relists := h.relists, flushed := h.flushed, alone := h.alone }

theorem tick (h : Based clock db ts n base live) :
    Based clock { db with ticks := db.ticks + 1 } ts n base live :=
  { h.toMaps.tick with relists := h.relists, flushed := h.flushed, alone := h.alone }

theorem withWatermark (h : Based clock db ts n base live) (w : Watermark) :
    Based clock { db with watermark := w } ts n base live :=
  { h.toMaps.withWatermark w with relists := h.relists, flushed := h.flushed, alone := h.alone }

theorem write (h : Based clock db ts n base live) {op : Op} (hop : op.Accepted)
    (hseq : (op.write db).seqNum ≤ seqNumMax) :
    Based clock { op.write db with wal := db.wal } ts n base (op.applyTo live) :=
  { (h.toMaps.write hop hseq).withWal db.wal with
    relists := by
      have hdir := Op.write_dir db op
      exact hdir.symm ▸ h.relists
    flushed := h.flushed
    alone := h.alone }

theorem flush (h : Based clock db ts n base live) (hclock : StrictMono clock) {stat : Stat}
    (htidy : TidyFlush clock db stat) :
    ∃ db' ts', (db.swapped clock).compactTables (healthy clock stat) = (db', .ok ()) ∧
      Based clock db' ts' db.seqNum live live ∧ db'.seqNum = db.seqNum := by
  have hswapped := h.toMaps.swapped hclock
  have hempty : (db.swapped clock).memtable.tree = [] := rfl
  have hkept := htidy.recency
  obtain ⟨us, hrelists⟩ := h.relists
  obtain ⟨us', hrelists'⟩ := h.toOrdered.relists_flush hclock hrelists htidy
  rw [flushedDB_eq_swapped] at hkept hrelists'
  have hnewest : ∀ key, answer (versionAt (layersOf (compactedTables clock stat (db.swapped clock)
      (flushedTable clock h.toRepresents :: ts))).flatten key seqNumMax) = live key := by
    intro key
    rw [← hswapped.newest key]
    exact congrArg answer (hswapped.toOrdered.versionAt_compactedDB hclock hempty hkept key
      (db.swapped clock).watermark.floor_le_seqNumMax)
  refine ⟨compactedDB clock stat (db.swapped clock) (flushedTable clock h.toRepresents :: ts),
    compactedTables clock stat (db.swapped clock) (flushedTable clock h.toRepresents :: ts),
    ?_, ?_, rfl⟩
  · rw [hswapped.toRepresents.compactTables_eq hclock hswapped.toOrdered.layers_newestFirst stat]
  · exact {
      toOrdered := hswapped.toOrdered.compactedDB hclock hempty hkept
      newest := hnewest
      relists := ⟨us', hrelists'⟩
      flushed := fun e he =>
        hswapped.bounded e (hswapped.toOrdered.mem_compactedTables hclock he)
      alone := hnewest }

theorem reopened (h : Based clock db ts n base live) (hr : Relists db.dir ts us) {ops : List Op}
    (hop : ∀ op ∈ ops, op.Accepted) (hfew : n + ops.length ≤ seqNumMax) {ticks : Nat}
    (hticks : db.ticks ≤ ticks) :
    Maps clock (Db.reopened us (history n ops) db.dir ticks) us
      fun key => ops.foldl (Op.outcome key) (base key) := by
  -- the tables alone, and then the writes one after the other
  have hrelisted := h.toRepresents.relist hr.perm
  have hstart : Maps clock { Db.reopened us [] db.dir ticks with seqNum := n } us base :=
    { sstables := rfl
      held := hrelisted.held
      nodup := hrelisted.nodup
      stamped := fun name hname =>
        (h.stamped name hname).imp fun _ hi => ⟨hi.1.trans_le hticks, hi.2⟩
      wellFormed := by simp [Db.reopened, memtableOf, newMemTable]
      newestFirst := hr.newestFirst
      bounded := fun e he => h.flushed e ((hr.mem_layers e).mp he)
      newest := fun key => by
        rw [← h.alone key, ← hr.versionAt_eq h.toOrdered.layers_newestFirst]
        rfl }
  have hall := hstart.writeAll hop hfew
  rw [writeAll_eq] at hall
  refine { hall with sstables := rfl, bounded := fun e he => ?_ }
  rcases List.mem_append.mp he with he | he
  · exact ((le_maxSeqNumOf 0 _).2 e (mem_of_mem_memtableOf he)).trans (le_max_left _ _)
  · exact ((le_maxSeqNumOf 0 _).2 e he).trans (le_max_right _ _)

end Based

end Tables

section Journal

variable [Runtime] {clock : Nat → Nat} {file : LogFile σ ε} {ldb : LoggedDB σ ε} {ts : List Table}
  {n : Nat} {before synced unsynced : List (LoggedCall × LoggedReply ε)} {safe more : List Op}

theorem wholeWithin_history_append {m : Nat} (hm : (encodeRecords (history n safe)).length ≤ m) :
    ∃ k ≤ more.length, wholeWithin m (history n (safe ++ more)) =
      history n (safe ++ more.take k) := by
  obtain ⟨r, rfl⟩ := Nat.exists_eq_add_of_le hm
  have hsurvive := survivingOps_initial r more
  refine ⟨(survivingOps r more).length, hsurvive.length_le, ?_⟩
  rw [history_append, wholeWithin_append, wholeWithin_history, ← history_append,
    ← List.prefix_iff_eq_take.mp hsurvive]

/-- The calls `before` the last flush are in tables.  Those since have left the records of
`safe`, which are durable, and of `more`. -/
structure Records (clock : Nat → Nat) (file : LogFile σ ε) (ldb : LoggedDB σ ε) (ts : List Table)
    (n : Nat) (before synced unsynced : List (LoggedCall × LoggedReply ε))
    (safe more : List Op) : Prop where
  based : Based clock ldb.db ts n (lastWrite (storedOps before))
    (lastWrite (storedOps (before ++ synced ++ unsynced)))
  few : ldb.db.seqNum ≤ seqNumMax
  accepted : ∀ op ∈ safe ++ more, op.Accepted
  safeRecords : LeavesRecords synced safe
  moreRecords : LeavesRecords unsynced more
  numbered : n + (safe ++ more).length ≤ ldb.db.seqNum
  next : ldb.log.writer.err = none → n + (safe ++ more).length = ldb.db.seqNum
  carries : ldb.log.writer.Carries file.toSink (encodeRecords (history n (safe ++ more)))
  durable : (encodeRecords (history n safe)).length ≤ file.durable ldb.log.writer.sink

/-- The counter of the log knows of all that is stored and not durable. -/
structure Journal (clock : Nat → Nat) (file : LogFile σ ε) (ldb : LoggedDB σ ε) (ts : List Table)
    (n : Nat) (before synced unsynced : List (LoggedCall × LoggedReply ε))
    (safe more : List Op) : Prop
    extends Records clock file ldb ts n before synced unsynced safe more where
  counted : (storedOps unsynced).length ≤ ldb.log.putCounter
  window : (storedOps unsynced).length < Config.defaultSyncThreshold
  unsecured : ∀ c ∈ unsynced, ¬ Secures c

/-- Some split of the trace is a `Journal`. -/
def Journaled (clock : Nat → Nat) (file : LogFile σ ε) (ldb : LoggedDB σ ε)
    (trace : List (LoggedCall × LoggedReply ε)) : Prop :=
  ∃ ts n before synced unsynced safe more, trace = before ++ synced ++ unsynced ∧
    Journal clock file ldb ts n before synced unsynced safe more

/-- What `Open` makes of what a crash leaves of the log. -/
theorem Records.recovers (h : Records clock file ldb ts n before synced unsynced safe more)
    {log : Bytes} (hlog : log <+: file.bytes ldb.log.writer.sink)
    (hdurable : file.durable ldb.log.writer.sink ≤ log.length) :
    ∃ db' kept lost ops, unsynced = kept ++ lost ∧
      openDB log ldb.db.dir ldb.db.ticks = .ok db' ∧ LeavesRecords kept ops ∧
      ∀ key, db'.get key = lastWrite (storedOps before ++ (safe ++ ops)) key := by
  obtain ⟨k, hk, hwhole⟩ := wholeWithin_history_append (h.durable.trans hdurable)
  obtain ⟨kept, lost, hsplit, hkept⟩ := h.moreRecords.take hk
  have hfew : n + (safe ++ more).length ≤ seqNumMax := h.numbered.trans h.few
  have hrec := history_recorded h.accepted hfew
  have htake : log = (encodeRecords (history n (safe ++ more))).take log.length :=
    List.prefix_iff_eq_take.mp (hlog.trans h.carries.arrived)
  obtain ⟨us, hrelists⟩ := h.based.relists
  have hopen : openDB log ldb.db.dir ldb.db.ticks =
      .ok (reopened us (history n (safe ++ more.take k)) ldb.db.dir ldb.db.ticks) := by
    rw [← hwhole]
    nth_rewrite 1 [htake]
    exact openDB_eq hrelists.listed (fun e he => loggable_of_wellFormed (hrec e he).wellFormed)
      (fun e he => (hrec e he).tombstone) _ _
  have hsub : ∀ op ∈ safe ++ more.take k, op ∈ safe ++ more := fun op hop =>
    List.mem_append.mpr ((List.mem_append.mp hop).imp_right List.mem_of_mem_take)
  have hlength : n + (safe ++ more.take k).length ≤ seqNumMax := by
    rw [List.length_append] at hfew ⊢
    exact (Nat.add_le_add_left (Nat.add_le_add_left (List.length_take_le' _ _) _) _).trans hfew
  have hmaps := h.based.reopened hrelists (fun op hop => h.accepted op (hsub op hop)) hlength
    (le_refl ldb.db.ticks)
  refine ⟨_, kept, lost, _, hsplit, hopen, hkept, fun key => (hmaps.get_eq key).trans ?_⟩
  rw [lastWrite, lastWrite, ← List.foldl_append]

variable {c : LoggedCall × LoggedReply ε}

theorem Records.skip (h : Records clock file ldb ts n before synced unsynced safe more)
    (hstored : storedOp? c = none) {ldb' : LoggedDB σ ε}
    (hbased : Based clock ldb'.db ts n (lastWrite (storedOps before))
      (lastWrite (storedOps (before ++ synced ++ unsynced))))
    (hfew : ldb'.db.seqNum ≤ seqNumMax) (hseq : ldb.db.seqNum ≤ ldb'.db.seqNum)
    (hnext : ldb'.log.writer.err = none →
      ldb.log.writer.err = none ∧ ldb'.db.seqNum = ldb.db.seqNum)
    (hcarries : ldb'.log.writer.Carries file.toSink (encodeRecords (history n (safe ++ more))))
    (hdurable : file.durable ldb.log.writer.sink ≤ file.durable ldb'.log.writer.sink) :
    Records clock file ldb' ts n before synced (unsynced ++ [c]) safe more where
  based := by
    rw [← List.append_assoc, storedOps_concat_none hstored]
    exact hbased
  few := hfew
  accepted := h.accepted
  safeRecords := h.safeRecords
  moreRecords := .skipped h.moreRecords hstored
  numbered := h.numbered.trans hseq
  next hok := (h.next (hnext hok).1).trans (hnext hok).2.symm
  carries := hcarries
  durable := h.durable.trans hdurable

theorem Records.record (h : Records clock file ldb ts n before synced unsynced safe more)
    (hok : ldb.log.writer.err = none) {op : Op} (hop : op.Accepted) (htried : triedOp? c = some op)
    {e : Entry} (he : op.entry? (ldb.db.seqNum + 1) = some e) {log : FallibleWAL σ ε}
    {err : Option ε}
    (hlog : FallibleWAL.Appended file (encodeRecords (history n (safe ++ more)) ++ encodeRecord e)
      ldb.log log err) {db : DB}
    (hbased : Based clock db ts n (lastWrite (storedOps before))
      (lastWrite (storedOps (before ++ synced ++ unsynced ++ [c]))))
    (hfew : db.seqNum ≤ seqNumMax) (hseq : db.seqNum = ldb.db.seqNum + 1) :
    Records clock file ⟨log, db⟩ ts n before synced (unsynced ++ [c]) safe (more ++ [op]) ∧
      (encodeRecords (history n (safe ++ (more ++ [op])))) =
        encodeRecords (history n (safe ++ more)) ++ encodeRecord e := by
  have hne : ∀ op ∈ safe ++ more, op ≠ .flush := fun op ho =>
    (List.mem_append.mp ho).elim (h.safeRecords.ne_flush op) (h.moreRecords.ne_flush op)
  have hstream : encodeRecords (history n (safe ++ (more ++ [op]))) =
      encodeRecords (history n (safe ++ more)) ++ encodeRecord e := by
    rw [← List.append_assoc, history_concat hne (by rw [h.next hok]; exact he), encodeRecords,
      encodeRecords, List.flatMap_append, List.flatMap_singleton]
  have hlength : n + (safe ++ (more ++ [op])).length = db.seqNum := by
    rw [← List.append_assoc, List.length_append, List.length_singleton, ← Nat.add_assoc,
      h.next hok, hseq]
  refine ⟨?_, hstream⟩
  exact {
    based := by rwa [← List.append_assoc]
    few := hfew
    accepted := fun op' ho => by
      rw [← List.append_assoc] at ho
      rcases List.mem_append.mp ho with ho | ho
      · exact h.accepted op' ho
      · exact List.mem_singleton.mp ho ▸ hop
    safeRecords := h.safeRecords
    moreRecords := .recorded h.moreRecords htried
    numbered := hlength.le
    next := fun _ => hlength
    carries := hstream ▸ hlog.carries
    durable := h.durable.trans hlog.durable }

theorem Records.settle (h : Records clock file ldb ts n before synced unsynced safe more)
    (hall : (encodeRecords (history n (safe ++ more))).length ≤
      file.durable ldb.log.writer.sink) :
    Journal clock file ldb ts n before (synced ++ unsynced) [] (safe ++ more) [] where
  based := by
    rw [List.append_nil, ← List.append_assoc]
    exact h.based
  few := h.few
  accepted := by
    rw [List.append_nil]
    exact h.accepted
  safeRecords := h.safeRecords.append h.moreRecords
  moreRecords := .nil
  numbered := by
    rw [List.append_nil]
    exact h.numbered
  next hok := by
    rw [List.append_nil]
    exact h.next hok
  carries := by
    rw [List.append_nil]
    exact h.carries
  durable := hall
  counted := Nat.zero_le _
  window := (by decide : 0 < Config.defaultSyncThreshold)
  unsecured := by simp

theorem journaled_flushed {db : DB} {trace : List (LoggedCall × LoggedReply ε)}
    (hbased : Based clock db ts n (lastWrite (storedOps trace)) (lastWrite (storedOps trace)))
    (hseq : db.seqNum = n) (hfew : n ≤ seqNumMax) {log log' : FallibleWAL σ ε}
    (hreset : log.reset file = (log', none)) : Journaled clock file ⟨log', db⟩ trace := by
  refine ⟨ts, n, trace, [], [], [], [], by rw [List.append_nil, List.append_nil], ?_⟩
  exact {
    based := by
      rw [List.append_nil, List.append_nil]
      exact hbased
    few := hseq.le.trans hfew
    accepted := by simp
    safeRecords := .nil
    moreRecords := .nil
    numbered := hseq.ge
    next := fun _ => hseq.symm
    carries := (FallibleWAL.reset_done hreset).1
    durable := Nat.zero_le _
    counted := Nat.zero_le _
    window := (by decide : 0 < Config.defaultSyncThreshold)
    unsecured := by simp }

theorem Records.journaled (h : Records clock file ldb ts n before synced unsynced safe more)
    (hall : (encodeRecords (history n (safe ++ more))).length ≤
      file.durable ldb.log.writer.sink) :
    Journaled clock file ldb (before ++ synced ++ unsynced) :=
  ⟨ts, n, before, synced ++ unsynced, [], safe ++ more, [], by
    rw [List.append_nil, List.append_assoc], h.settle hall⟩

theorem Journal.skip (h : Journal clock file ldb ts n before synced unsynced safe more)
    {ldb' : LoggedDB σ ε} {more' : List Op}
    (hrecords : Records clock file ldb' ts n before synced (unsynced ++ [c]) safe more')
    (hstored : storedOp? c = none) (hopen : ¬ Secures c)
    (hcount : ldb.log.putCounter ≤ ldb'.log.putCounter) :
    Journaled clock file ldb' (before ++ synced ++ unsynced ++ [c]) := by
  refine ⟨ts, n, before, synced, unsynced ++ [c], safe, more', List.append_assoc _ _ _, ?_⟩
  exact { hrecords with
    counted := by
      rw [storedOps_concat_none hstored]
      exact h.counted.trans hcount
    window := by
      rw [storedOps_concat_none hstored]
      exact h.window
    unsecured := fun c' hc => by
      rcases List.mem_append.mp hc with hc | hc
      · exact h.unsecured c' hc
      · exact List.mem_singleton.mp hc ▸ hopen }

theorem Journal.skipDb (h : Journal clock file ldb ts n before synced unsynced safe more)
    (hstored : storedOp? c = none) (hopen : ¬ Secures c) {db : DB}
    (hbased : Based clock db ts n (lastWrite (storedOps before))
      (lastWrite (storedOps (before ++ synced ++ unsynced))))
    (hseq : db.seqNum = ldb.db.seqNum) :
    Journaled clock file ⟨ldb.log, db⟩ (before ++ synced ++ unsynced ++ [c]) :=
  h.skip (h.toRecords.skip hstored hbased (hseq.le.trans h.few) hseq.ge (fun hok => ⟨hok, hseq⟩)
    h.carries le_rfl) hstored hopen le_rfl

/-- A tidy flush, or one that fails at once. -/
def CalmEnv (clock : Nat → Nat) (db : DB) (env : Env) : Prop :=
  env.fails .flushWrite = true ∨ ∃ stat, env = healthy clock stat ∧ TidyFlush clock db stat

variable {base live : Contents} {env : Env}

theorem Based.flushLogged (h : Based clock ldb.db ts n base live) (hclock : StrictMono clock)
    (hcalm : CalmEnv clock ldb.db env)
    (hreset : ∀ e, (ldb.flushMemtableLocked file env).2 ≠ .error (.reset e)) :
    ldb.flushMemtableLocked file env =
        ({ ldb with db := { ldb.db with ticks := ldb.db.ticks + 1 } },
          .error (.db (.io .flushWrite))) ∨
      ∃ log db ts', ldb.log.reset file = (log, none) ∧
        ldb.flushMemtableLocked file env = (⟨log, db⟩, .ok ()) ∧
        Based clock db ts' ldb.db.seqNum live live ∧ db.seqNum = ldb.db.seqNum := by
  rcases hcalm with hfails | ⟨stat, rfl, htidy⟩
  · left
    simp only [LoggedDB.flushMemtableLocked, DB.flushTable, hfails, if_true]
  · right
    obtain ⟨db, ts', hcompact, hbased, hseq⟩ := h.flush hclock htidy
    have hinstalls : (healthy clock stat).installs := ⟨rfl, rfl⟩
    rw [LoggedDB.flushMemtableLocked, DB.flushTable_installs hinstalls] at hreset ⊢
    rcases hlog : ldb.log.reset file with ⟨log, _ | e⟩
    · refine ⟨log, db, ts', rfl, ?_, hbased, hseq⟩
      dsimp only
      rw [show (healthy clock stat).clock = clock from rfl, hcompact]
    · rw [hlog] at hreset
      exact absurd rfl (hreset e)

/-- What is assumed of a call and its surroundings: numbers are left, and a flush that it
comes to is calm. -/
structure CalmCall (clock : Nat → Nat) (file : LogFile σ ε) (ldb : LoggedDB σ ε) (op : Op)
    (env : Env) : Prop where
  room : ldb.db.seqNum < seqNumMax
  flush : op.flushes ldb.db = true → CalmEnv clock (op.write ldb.db) env
  reset : ∀ e, (ldb.call file env op).2 ≠ .error (.reset e)

theorem Journal.forceFlush (h : Journal clock file ldb ts n before synced unsynced safe more)
    (hclock : StrictMono clock) (hcalm : CalmCall clock file ldb .flush env) :
    Journaled clock file (ldb.call file env .flush).1
      (before ++ synced ++ unsynced ++ [(.op .flush, (ldb.call file env .flush).2)]) := by
  have hcall : ldb.call file env .flush = ldb.flushMemtableLocked file env := rfl
  rcases h.based.flushLogged hclock (hcalm.flush rfl) hcalm.reset with
    hfails | ⟨log, db, ts', hreset, hdone, hbased, hseq⟩
  · rw [hcall, hfails]
    exact h.skipDb rfl id h.based.tick rfl
  · rw [hcall, hdone]
    refine journaled_flushed (show Based clock db ts' _ _ _ from ?_) hseq h.few hreset
    rw [storedOps_concat_none rfl]
    exact hbased

theorem Journal.close (h : Journal clock file ldb ts n before synced unsynced safe more) :
    Journaled clock file (ldb.close file).1
      (before ++ synced ++ unsynced ++ [(.close, (ldb.close file).2)]) := by
  have hsync := FallibleWAL.synced_sync h.carries
  rw [LoggedDB.close]
  rcases hresult : ldb.log.sync file with ⟨log, _ | e⟩
  · rw [hresult] at hsync
    have hrecords : Records clock file ⟨log, ldb.db⟩ ts n before synced
        (unsynced ++ [(.close, .ok ())]) safe more :=
      h.toRecords.skip rfl h.based h.few le_rfl (fun hok => ⟨hsync.sticky hok, rfl⟩)
        hsync.carries hsync.durable
    have hall := hrecords.journaled (hsync.secured rfl).2.ge
    rwa [← List.append_assoc] at hall
  · rw [hresult] at hsync
    exact h.skip (h.toRecords.skip rfl h.based h.few le_rfl (fun hok => ⟨hsync.sticky hok, rfl⟩)
      hsync.carries hsync.durable) rfl id hsync.putCounter.ge

/-- A write that is stored is counted, or is durable at once. -/
theorem Journal.store (h : Journal clock file ldb ts n before synced unsynced safe more)
    (hok : ldb.log.writer.err = none) {op : Op} (hop : op.Accepted)
    (hstored : storedOp? c = some op)
    {e : Entry} (he : op.entry? (ldb.db.seqNum + 1) = some e) {log : FallibleWAL σ ε}
    (hlog : FallibleWAL.Appended file (encodeRecords (history n (safe ++ more)) ++ encodeRecord e)
      ldb.log log none) {db : DB}
    (hbased : Based clock db ts n (lastWrite (storedOps before))
      (lastWrite (storedOps (before ++ synced ++ unsynced ++ [c]))))
    (hfew : db.seqNum ≤ seqNumMax) (hseq : db.seqNum = ldb.db.seqNum + 1) :
    Journaled clock file ⟨log, db⟩ (before ++ synced ++ unsynced ++ [c]) := by
  have htried := triedOp?_of_storedOp? hstored
  obtain ⟨hrecords, hstream⟩ := h.toRecords.record hok hop htried he hlog hbased hfew hseq
  rcases (hlog.done rfl).2 with ⟨hcounter, hlt⟩ | hall
  · have hone : (storedOps (unsynced ++ [c])).length = (storedOps unsynced).length + 1 := by
      rw [storedOps_append, List.length_append, storedOps, storedOps,
        List.filterMap_cons_some hstored]
      rfl
    have hcounted := h.counted
    refine ⟨ts, n, before, synced, _, safe, _, List.append_assoc _ _ _, { hrecords with
      counted := ?_
      window := ?_
      unsecured := fun c' hc => ?_ }⟩
    · dsimp only
      omega
    · omega
    · rcases List.mem_append.mp hc with hc | hc
      · exact h.unsecured c' hc
      · exact List.mem_singleton.mp hc ▸ not_secures_of_triedOp? htried
  · have hjournaled := hrecords.journaled (hstream ▸ hall.ge)
    rwa [← List.append_assoc] at hjournaled

theorem Journal.refuse (h : Journal clock file ldb ts n before synced unsynced safe more)
    (hroom : ldb.db.seqNum < seqNumMax) {op : Op} (hop : op.Accepted) (hwrite : op ≠ .flush)
    {e : Entry} (he : op.entry? (ldb.db.seqNum + 1) = some e) {log : FallibleWAL σ ε} {err : ε}
    (hlog : ldb.log.write file e = (log, some err)) :
    Journaled clock file ⟨log, { ldb.db with seqNum := ldb.db.seqNum + 1 }⟩
      (before ++ synced ++ unsynced ++ [(.op op, .error (.log err))]) := by
  have hstored : storedOp? (.op op, (.error (.log err) : LoggedReply ε)) = none :=
    storedOp?_op hwrite _
  have htried : triedOp? (.op op, (.error (.log err) : LoggedReply ε)) = some op :=
    triedOp?_op hwrite _
  by_cases hok : ldb.log.writer.err = none
  · have happended := FallibleWAL.appended_write h.carries e
    rw [hlog] at happended
    have hbased := h.based.skip
    rw [← storedOps_concat_none hstored (before ++ synced ++ unsynced)] at hbased
    obtain ⟨hrecords, -⟩ := h.toRecords.record hok hop htried he happended hbased hroom rfl
    exact h.skip hrecords hstored (not_secures_of_triedOp? htried) (happended.failed (by simp))
  · obtain ⟨err', hstuck⟩ : ∃ err, ldb.log.write file e = (ldb.log, some err) :=
      FallibleWAL.write_of_err hok e
    obtain ⟨rfl, -⟩ := Prod.mk.inj (hstuck.symm.trans hlog)
    exact h.skip (h.toRecords.skip hstored h.based.skip hroom (Nat.le_succ _)
      (fun hnone => absurd hnone hok) h.carries le_rfl) hstored
      (not_secures_of_triedOp? htried) le_rfl

theorem CalmEnv.withWal {db : DB} (h : CalmEnv clock db env) (wal : WAL) :
    CalmEnv clock { db with wal } env :=
  h.imp_right fun ⟨stat, heq, htidy⟩ => ⟨stat, heq, htidy.withWal wal⟩

/-- A write whose record is in the log, and the flush that it may come to. -/
theorem Journal.storeFlush (h : Journal clock file ldb ts n before synced unsynced safe more)
    (hclock : StrictMono clock) {op : Op} (hop : op.Accepted) (hwrite : op ≠ .flush)
    (hroom : ldb.db.seqNum < seqNumMax)
    (hcalm : op.flushes ldb.db = true → CalmEnv clock (op.write ldb.db) env) {e : Entry}
    (he : op.entry? (ldb.db.seqNum + 1) = some e) {log : FallibleWAL σ ε}
    (hlog : ldb.log.write file e = (log, none)) {result : LoggedDB σ ε × LoggedReply ε}
    (hresult : LoggedDB.flushIfFullLocked file env
      ⟨log, { op.write ldb.db with wal := ldb.db.wal }⟩ = result)
    (hreset : ∀ e, result.2 ≠ .error (.reset e)) :
    Journaled clock file result.1 (before ++ synced ++ unsynced ++ [(.op op, result.2)]) := by
  have happended := FallibleWAL.appended_write h.carries e
  rw [hlog] at happended
  have hok : ldb.log.writer.err = none := by
    by_contra hne
    obtain ⟨err, hstuck⟩ : ∃ err, ldb.log.write file e = (ldb.log, some err) :=
      FallibleWAL.write_of_err hne e
    simp [hstuck] at hlog
  have hseq : (op.write ldb.db).seqNum = ldb.db.seqNum + 1 := by rw [Op.write_eq, he]
  have hbased := h.based.write hop (hseq.trans_le hroom)
  have hlive : ∀ reply : LoggedReply ε, stores reply = true →
      op.applyTo (lastWrite (storedOps (before ++ synced ++ unsynced))) =
        lastWrite (storedOps (before ++ synced ++ unsynced ++ [(.op op, reply)])) :=
    fun reply hstores => by rw [lastWrite_storedOps, if_pos hstores]
  have hstored : ∀ reply : LoggedReply ε, stores reply = true →
      storedOp? (.op op, reply) = some op := fun reply hstores => by
    rw [storedOp?_op hwrite, if_pos hstores]
  rw [LoggedDB.flushIfFullLocked] at hresult
  split at hresult
  · subst hresult
    rw [hlive (.ok ()) rfl] at hbased
    exact h.store hok hop (hstored _ rfl) he happended hbased (hseq.trans_le hroom) hseq
  · rename_i hfull
    have hflushes : op.flushes ldb.db = true := by
      cases op with
      | put key value => exact decide_eq_true (not_lt.mp hfull)
      | delete key => exact decide_eq_true (not_lt.mp hfull)
      | flush => rfl
    subst hresult
    have hbased' : Based clock
        (LoggedDB.mk log { op.write ldb.db with wal := ldb.db.wal } : LoggedDB σ ε).db ts n _ _ :=
      hbased
    rcases hbased'.flushLogged hclock ((hcalm hflushes).withWal ldb.db.wal) hreset with
      hfails | ⟨log', db, ts', hdone, hflushed, hnew, hseq'⟩
    · rw [hfails]
      have htick := hbased.tick
      rw [hlive (.error (.db (.io .flushWrite))) rfl] at htick
      exact h.store hok hop (hstored _ rfl) he happended htick (hseq.trans_le hroom) hseq
    · rw [hflushed]
      rw [hlive (.ok ()) rfl] at hnew
      exact journaled_flushed hnew hseq' (hseq.trans_le hroom) hdone

theorem Journal.write (h : Journal clock file ldb ts n before synced unsynced safe more)
    (hclock : StrictMono clock) {op : Op} (hop : op.Accepted) (hwrite : op ≠ .flush)
    (hcalm : CalmCall clock file ldb op env) :
    Journaled clock file (ldb.call file env op).1
      (before ++ synced ++ unsynced ++ [(.op op, (ldb.call file env op).2)]) := by
  obtain ⟨e, he⟩ : ∃ e, op.entry? (ldb.db.seqNum + 1) = some e :=
    Option.ne_none_iff_exists'.mp fun hnone => hwrite (entry?_eq_none hnone)
  have hcall := LoggedDB.call_eq file env hop he
  rcases hlog : ldb.log.write file e with ⟨log, _ | err⟩
  · rw [hlog] at hcall
    exact h.storeFlush hclock hop hwrite hcalm.room hcalm.flush he hlog hcall.symm hcalm.reset
  · rw [hlog] at hcall
    rw [hcall]
    exact h.refuse hcalm.room hop hwrite he hlog

theorem Journaled.call {trace : List (LoggedCall × LoggedReply ε)}
    (h : Journaled clock file ldb trace) (hclock : StrictMono clock) {op : Op}
    (hcalm : CalmCall clock file ldb op env) :
    Journaled clock file (ldb.call file env op).1
      (trace ++ [(.op op, (ldb.call file env op).2)]) := by
  obtain ⟨ts, n, before, synced, unsynced, safe, more, rfl, h⟩ := h
  by_cases hflush : op = .flush
  · subst hflush
    exact h.forceFlush hclock hcalm
  by_cases hop : op.Accepted
  · exact h.write hclock hop hflush hcalm
  · obtain ⟨e, hcall, hstores⟩ := LoggedDB.call_refused file env ldb hop
    have hnone : storedOp? (.op op, (.error e : LoggedReply ε)) = none := by
      rw [storedOp?_op hflush, hstores]
      rfl
    rw [hcall]
    exact h.skipDb hnone (not_secures_error _ _) h.based rfl

/-- The steps that are assumed, with their calls and replies. -/
inductive CalmStep (clock : Nat → Nat) (file : LogFile σ ε) :
    LoggedDB σ ε → Option (LoggedCall × LoggedReply ε) → LoggedDB σ ε → Prop
  | op {ldb : LoggedDB σ ε} {op : Op} {env : Env} : CalmCall clock file ldb op env →
      CalmStep clock file ldb (some (.op op, (ldb.call file env op).2)) (ldb.call file env op).1
  | close {ldb : LoggedDB σ ε} :
      CalmStep clock file ldb (some (.close, (ldb.close file).2)) (ldb.close file).1
  | getSnapshot {ldb : LoggedDB σ ε} :
      CalmStep clock file ldb none { ldb with db := ldb.db.getSnapshot.2 }
  | releaseSnapshot {ldb : LoggedDB σ ε} {snap : Nat} :
      CalmStep clock file ldb none { ldb with db := ldb.db.releaseSnapshot snap }

theorem Journaled.withWatermark {trace : List (LoggedCall × LoggedReply ε)}
    (h : Journaled clock file ldb trace) (w : Watermark) :
    Journaled clock file { ldb with db := { ldb.db with watermark := w } } trace := by
  obtain ⟨ts, n, before, synced, unsynced, safe, more, rfl, h⟩ := h
  exact ⟨ts, n, before, synced, unsynced, safe, more, rfl,
    { h with based := h.based.withWatermark w }⟩

theorem journaled_start (clock : Nat → Nat) {sink : σ} (hempty : file.bytes sink = []) :
    Journaled clock file ⟨newFallibleWAL sink, emptyDB⟩ [] := by
  refine ⟨[], 0, [], [], [], [], [], rfl, ?_⟩
  exact {
    based := based_emptyDB clock
    few := Nat.zero_le _
    accepted := by simp
    safeRecords := .nil
    moreRecords := .nil
    numbered := le_rfl
    next := fun _ => rfl
    carries := ⟨hempty ▸ List.prefix_refl _, fun _ => hempty.symm ▸ rfl,
      fun herr => absurd rfl herr⟩
    durable := Nat.zero_le _
    counted := Nat.zero_le _
    window := (by decide : 0 < Config.defaultSyncThreshold)
    unsecured := by simp }

theorem journaled_of_traces (hclock : StrictMono clock) {sink : σ} (hempty : file.bytes sink = [])
    {trace : List (LoggedCall × LoggedReply ε)}
    (h : Traces (CalmStep clock file) ⟨newFallibleWAL sink, emptyDB⟩ trace ldb) :
    Journaled clock file ldb trace := by
  induction h with
  | start => exact journaled_start clock hempty
  | silent _ hstep ih =>
      cases hstep with
      | getSnapshot => exact ih.withWatermark _
      | releaseSnapshot => exact ih.withWatermark _
  | visible _ hstep ih =>
      cases hstep with
      | op hcalm => exact ih.call hclock hcalm
      | close =>
          obtain ⟨ts, n, before, synced, unsynced, safe, more, rfl, hjournal⟩ := ih
          exact hjournal.close

/-- Whatever fails in the log, a crash takes the database back to some moment of the run:
the writes that were stored before it are there, perhaps with some that were reported as
failed, and of those after it fewer than a full count were stored and no `Close` or
`ForceFlush` succeeded. -/
theorem faulty_log_recovery (hclock : StrictMono clock) {sink : σ}
    (hempty : file.bytes sink = []) {trace : List (LoggedCall × LoggedReply ε)}
    (h : Traces (CalmStep clock file) ⟨newFallibleWAL sink, emptyDB⟩ trace ldb) {log : Bytes}
    (hlog : log <+: file.bytes ldb.log.writer.sink)
    (hdurable : file.durable ldb.log.writer.sink ≤ log.length) :
    ∃ db' kept lost ops, trace = kept ++ lost ∧
      openDB log ldb.db.dir ldb.db.ticks = .ok db' ∧ (∀ key, db'.get key = lastWrite ops key) ∧
      (storedOps kept).Sublist ops ∧ ops.Sublist (triedOps kept) ∧
      (storedOps lost).length < Config.defaultSyncThreshold ∧ ∀ c ∈ lost, ¬ Secures c := by
  obtain ⟨ts, n, before, synced, unsynced, safe, more, rfl, hjournal⟩ :=
    journaled_of_traces hclock hempty h
  obtain ⟨db', kept, lost, ops, rfl, hopen, hkept, hget⟩ := hjournal.recovers hlog hdurable
  have hrecords := (LeavesRecords.of_stored before).append (hjournal.safeRecords.append hkept)
  obtain ⟨hstored, htried⟩ := hrecords.sublists
  refine ⟨db', before ++ (synced ++ kept), lost, _, ?_, hopen, hget, hstored, htried, ?_, ?_⟩
  · simp only [List.append_assoc]
  · have hwindow := hjournal.window
    rw [storedOps_append, List.length_append] at hwindow
    omega
  · exact fun c hc => hjournal.unsecured c (List.mem_append_right _ hc)

end Journal

/-- A disk with room for one record and a part of the next. -/
def smallDisk : LoggedDB (FaultyWriter Bytes) (FaultErr Empty) where
  log := newFallibleWAL (newFaultyWriter [] 30)
  db := emptyDB

theorem calm_put {ldb : LoggedDB (FaultyWriter Bytes) (FaultErr Empty)} {key value : Bytes}
    (hroom : ldb.db.seqNum < seqNumMax) (hstays : (Op.put key value).flushes ldb.db = false)
    (hreply : (ldb.call tornFile (healthy stampedClock fileSizes) (.put key value)).2 = .ok ()) :
    CalmStep stampedClock tornFile ldb (some (.op (.put key value), .ok ()))
      (ldb.call tornFile (healthy stampedClock fileSizes) (.put key value)).1 := by
  have hcalm : CalmCall stampedClock tornFile ldb (.put key value)
      (healthy stampedClock fileSizes) :=
    ⟨hroom, fun hfull => absurd (hstays.symm.trans hfull) (by simp), fun e => by simp [hreply]⟩
  rw [← hreply]
  exact .op hcalm

/-- The first `Close` finds room for its record, the second does not. -/
def smallDiskTrace : List (LoggedCall × LoggedReply (FaultErr Empty)) :=
  [(.op (.put [97] [1]), .ok ()), (.close, .ok ()), (.op (.put [98] [2]), .ok ()),
    (.close, .error (.log .closedPipe))]

theorem calm_smallDisk : ∃ ldb, Traces (CalmStep stampedClock tornFile) smallDisk smallDiskTrace
    ldb := by
  have hput := @calm_put smallDisk [97] [1] (by decide) (by decide) rfl
  have hclose := (Traces.start.visible hput).visible .close
  have hagain := hclose.visible (@calm_put _ [98] [2] (by decide) (by decide) rfl)
  exact ⟨_, hagain.visible .close⟩

/-- What `Close` has reported as done is there, and what comes after it is torn. -/
theorem faulty_log_recovery_smallDisk :
    ∃ ldb, Traces (CalmStep stampedClock tornFile) smallDisk smallDiskTrace ldb ∧
      ∃ db', openDB ldb.log.writer.sink.w ldb.db.dir ldb.db.ticks = .ok db' ∧
        db'.get [97] = some [1] := by
  obtain ⟨ldb, hrun⟩ := calm_smallDisk
  obtain ⟨db', kept, lost, ops, htrace, hopen, hget, hstored, htried, -, hlost⟩ :=
    faulty_log_recovery stampedClock_strictMono rfl hrun (List.prefix_refl _) le_rfl
  refine ⟨ldb, hrun, db', hopen, ?_⟩
  have hclosed : (.close, .ok ()) ∈ kept := by
    have hmem : (.close, .ok ()) ∈ kept ++ lost := htrace ▸ by simp [smallDiskTrace]
    exact (List.mem_append.mp hmem).resolve_right fun h => hlost _ h trivial
  have hfirst : .put [97] [1] ∈ ops := by
    cases kept with
    | nil => simp at hclosed
    | cons c rest =>
        obtain ⟨rfl, -⟩ := List.cons.inj htrace
        exact hstored.subset List.mem_cons_self
  have hall : ops.Sublist (triedOps smallDiskTrace) := by
    rw [htrace]
    exact htried.trans ((List.sublist_append_left _ _).filterMap _)
  have hlast : ∀ ops ∈ (triedOps smallDiskTrace).sublists, .put [97] [1] ∈ ops →
      lastWrite ops [97] = some [1] := by decide
  rw [hget]
  exact hlast ops (List.mem_sublists.mpr hall) hfirst

end Hcdb.Db
