import Hcdb.Db.State

namespace Hcdb.Db

open Hcdb.Lib.ByteString
open Hcdb.Lib.SortedList
open Hcdb.Base
open Hcdb.Memtable
open Hcdb.Sstable
open Hcdb.Compaction
open Hcdb.Wal

/-- The sizes that `os.Stat` tells for the files of a directory. -/
abbrev Stat := TableDir → Bytes → Option Nat

/-- The calls that change what is stored. -/
inductive Op where
  | put (key value : Bytes)
  | delete (key : Bytes)
  | flush
  deriving DecidableEq, Repr

/-- The lengths are inside the limits, so the call is not refused. -/
def Op.Accepted : Op → Prop
  | .put key value => key.length ≤ Config.maxKeyLength ∧ value.length ≤ Config.maxValueLength
  | .delete key => key.length ≤ Config.maxKeyLength
  | .flush => True

instance (op : Op) : Decidable op.Accepted :=
  match op with
  | .put _ _ => inferInstanceAs (Decidable (_ ∧ _))
  | .delete _ => inferInstanceAs (Decidable (_ ≤ _))
  | .flush => inferInstanceAs (Decidable True)

/-- The length checks at the top of `Put` and `Delete`. -/
def Op.check : Op → Except DbErr Unit
  | .put key value =>
      if Config.maxKeyLength < key.length then .error .keyTooLong
      else if Config.maxValueLength < value.length then .error .valueTooLong
      else .ok ()
  | .delete key => if Config.maxKeyLength < key.length then .error .keyTooLong else .ok ()
  | .flush => .ok ()

theorem Op.check_eq_error {op : Op} {e : DbErr} (h : op.check = .error e) :
    (∃ key value, op = .put key value ∧ Config.maxKeyLength < key.length ∧ e = .keyTooLong) ∨
    (∃ key value, op = .put key value ∧ ¬ Config.maxKeyLength < key.length ∧
      Config.maxValueLength < value.length ∧ e = .valueTooLong) ∨
    ∃ key, op = .delete key ∧ Config.maxKeyLength < key.length ∧ e = .keyTooLong := by
  cases op with
  | put key value =>
      rw [check] at h
      split at h
      · rename_i hkey
        exact .inl ⟨key, value, rfl, hkey, (Except.error.inj h).symm⟩
      · rename_i hkey
        split at h
        · rename_i hvalue
          exact .inr (.inl ⟨key, value, rfl, hkey, hvalue, (Except.error.inj h).symm⟩)
        · cases h
  | delete key =>
      rw [check] at h
      split at h
      · rename_i hkey
        exact .inr (.inr ⟨key, rfl, hkey, (Except.error.inj h).symm⟩)
      · cases h
  | flush => cases h

theorem Op.check_eq_ok {op : Op} : op.check = .ok () ↔ op.Accepted := by
  cases op with
  | put key value =>
      rw [check, Accepted, ← not_lt, ← not_lt]
      split
      · simp [*]
      · split <;> simp [*]
  | delete key =>
      rw [check, Accepted, ← not_lt]
      split <;> simp [*]
  | flush => exact ⟨fun _ => trivial, fun _ => rfl⟩

theorem Op.exists_check_error {op : Op} (h : ¬ op.Accepted) : ∃ e, op.check = .error e := by
  cases hcheck : op.check with
  | error e => exact ⟨e, rfl⟩
  | ok u => exact absurd (check_eq_ok.mp hcheck) h

/-- What the key is after the call, if it was `last` before. -/
def Op.outcome (key : Bytes) (last : Option Bytes) : Op → Option Bytes
  | .put k value => if k = key then some value else last
  | .delete k => if k = key then none else last
  | .flush => last

/-- The value of the last `Put` of the key, or nothing when the key was never
written or deleted last. -/
def lastWrite (ops : List Op) (key : Bytes) : Option Bytes :=
  ops.foldl (Op.outcome key) none

theorem lastWrite_append (ops : List Op) (op : Op) (key : Bytes) :
    lastWrite (ops ++ [op]) key = op.outcome key (lastWrite ops key) := by
  rw [lastWrite, List.foldl_append]
  rfl

/-- A call, with the file sizes that its compaction finds if it comes to one. -/
structure Call where
  op : Op
  stat : Stat

/-- The version that the next write makes. -/
def DB.nextEntry (db : DB) (kind : InternalKeyKind) (userKey value : Bytes) : Entry :=
  { key := (makeInternalKey userKey (db.seqNum + 1) kind).encode, value }

section Steps

variable [Runtime]

/-- A call in which nothing fails. -/
def DB.step (clock : Nat → Nat) (db : DB) (call : Call) : DB × Except DbErr Unit :=
  match call.op with
  | .put key value => db.put (healthy clock call.stat) key value
  | .delete key => db.delete (healthy clock call.stat) key
  | .flush => db.forceFlush (healthy clock call.stat)

def run (clock : Nat → Nat) (db : DB) (calls : List Call) : DB :=
  calls.foldl (fun db call => (db.step clock call).1) db

theorem run_append (clock : Nat → Nat) (db : DB) (calls : List Call) (call : Call) :
    run clock db (calls ++ [call]) = ((run clock db calls).step clock call).1 := by
  rw [run, List.foldl_append]
  rfl

/-- The database after the write of a version, before it looks whether to flush. -/
def DB.written (db : DB) (kind : InternalKeyKind) (userKey value : Bytes) : DB :=
  let e := db.nextEntry kind userKey value
  { db with
    seqNum := db.seqNum + 1
    wal := db.wal.write e
    memtable := db.memtable.insert e.key e.value }

/-- What the call stores, before it may flush. -/
def Op.write (db : DB) : Op → DB
  | .put key value => db.written internalKeyKindSet key value
  | .delete key => db.written internalKeyKindDelete key []
  | .flush => db

def Op.flushes (db : DB) : Op → Bool
  | .flush => true
  | op => decide (Config.defaultMemtableFlushSize ≤ (op.write db).memtable.size)

/-- The database in the moment in which the call starts `Compact`, if it does. -/
def DB.compacting (clock : Nat → Nat) (db : DB) (op : Op) : Option DB :=
  if op.flushes db then some (flushedDB clock (op.write db)) else none

theorem DB.compacting_eq_some {clock : Nat → Nat} {db flushed : DB} {op : Op}
    (h : db.compacting clock op = some flushed) : flushed = flushedDB clock (op.write db) := by
  unfold compacting at h
  split at h
  · exact (Option.some.inj h).symm
  · simp at h

theorem DB.put_eq {key value : Bytes} (hkey : key.length ≤ Config.maxKeyLength)
    (hvalue : value.length ≤ Config.maxValueLength) (env : Env) (db : DB) :
    db.put env key value = (db.written internalKeyKindSet key value).flushIfFullLocked env := by
  rw [put, if_neg (not_lt.mpr hkey), if_neg (not_lt.mpr hvalue)]
  rfl

theorem DB.delete_eq {key : Bytes} (hkey : key.length ≤ Config.maxKeyLength) (env : Env) (db : DB) :
    db.delete env key = (db.written internalKeyKindDelete key []).flushIfFullLocked env := by
  rw [delete, if_neg (not_lt.mpr hkey)]
  rfl

theorem DB.flushIfFullLocked_eq (env : Env) (db : DB) :
    db.flushIfFullLocked env =
      if decide (Config.defaultMemtableFlushSize ≤ db.memtable.size) then
        db.flushMemtableLocked env else (db, .ok ()) := by
  unfold DB.flushIfFullLocked
  by_cases hsize : db.memtable.size < Config.defaultMemtableFlushSize
  · rw [if_pos hsize, decide_eq_false (not_le.mpr hsize)]
    rfl
  · rw [if_neg hsize, decide_eq_true (not_lt.mp hsize)]
    rfl

theorem DB.flushIfFullLocked_healthy (clock : Nat → Nat) (stat : Stat) (db : DB) :
    db.flushIfFullLocked (healthy clock stat) =
      if decide (Config.defaultMemtableFlushSize ≤ db.memtable.size) then
        (flushedDB clock db).compactTables (healthy clock stat) else (db, .ok ()) := by
  rw [DB.flushIfFullLocked_eq, flushMemtableLocked_healthy]

/-- An accepted call writes, and then compacts if it came to a flush. -/
theorem DB.step_eq {call : Call} (h : call.op.Accepted) (clock : Nat → Nat) (db : DB) :
    db.step clock call =
      match db.compacting clock call.op with
      | none => (call.op.write db, .ok ())
      | some flushed => flushed.compactTables (healthy clock call.stat) := by
  obtain ⟨op, stat⟩ := call
  have hsplit : ∀ db' : DB, db'.flushIfFullLocked (healthy clock stat) =
      match (if decide (Config.defaultMemtableFlushSize ≤ db'.memtable.size) then
        some (flushedDB clock db') else none) with
      | none => (db', .ok ())
      | some flushed => flushed.compactTables (healthy clock stat) := by
    intro db'
    rw [flushIfFullLocked_healthy]
    split <;> rfl
  cases op with
  | put key value => exact (put_eq h.1 h.2 (healthy clock stat) db).trans (hsplit _)
  | delete key => exact (delete_eq h (healthy clock stat) db).trans (hsplit _)
  | flush => exact flushMemtableLocked_healthy clock stat db

end Steps

section NextEntry

variable {db : DB} {kind : InternalKeyKind} {userKey value : Bytes}

theorem DB.nextEntry_ik : (db.nextEntry kind userKey value).ik =
    makeInternalKey userKey (db.seqNum + 1) kind :=
  Entry.ik_encode _ _

theorem DB.nextEntry_userKey : (db.nextEntry kind userKey value).userKey = userKey := by
  rw [Entry.userKey, nextEntry_ik]
  rfl

theorem DB.nextEntry_seqNum (h : db.seqNum < seqNumMax) (kind : InternalKeyKind)
    (userKey value : Bytes) : (db.nextEntry kind userKey value).seqNum = db.seqNum + 1 := by
  rw [Entry.seqNum, nextEntry_ik]
  exact trailerSeqNum_makeTrailer h kind

theorem DB.nextEntry_kind : (db.nextEntry kind userKey value).kind = kind := by
  rw [Entry.kind, nextEntry_ik]
  exact trailerKind_makeTrailer _ kind

theorem DB.answer_nextEntry_set :
    answer (some (db.nextEntry internalKeyKindSet userKey value)) = some value := by
  have hkind : (db.nextEntry internalKeyKindSet userKey value).kind ≠ internalKeyKindDelete := by
    rw [nextEntry_kind]
    decide
  exact if_neg hkind

theorem DB.answer_nextEntry_delete :
    answer (some (db.nextEntry internalKeyKindDelete userKey value)) = none :=
  if_pos nextEntry_kind

end NextEntry

section Ordered

variable [Runtime]

/-- The stored versions of every user key come newest first, and none is numbered
above the counter. -/
structure Ordered (clock : Nat → Nat) (db : DB) (ts : List Table) : Prop
    extends Represents clock db ts where
  newestFirst : NewestFirst (stored db ts)
  bounded : ∀ e ∈ stored db ts, e.seqNum ≤ db.seqNum

theorem ordered_emptyDB (clock : Nat → Nat) : Ordered clock emptyDB [] where
  toRepresents := represents_emptyDB
  newestFirst := List.Pairwise.nil
  bounded := by simp [stored, emptyDB, newMemTable]

variable {clock : Nat → Nat} {db : DB} {ts : List Table} {kind : InternalKeyKind}
  {userKey value : Bytes}

theorem Ordered.mem_stored_written (h : Ordered clock db ts) (hseq : db.seqNum < seqNumMax)
    (kind : InternalKeyKind) (userKey value : Bytes) (x : Entry) :
    x ∈ stored (db.written kind userKey value) ts ↔
      x = db.nextEntry kind userKey value ∨ x ∈ stored db ts := by
  have htree : x ∈ (db.written kind userKey value).memtable.tree ↔
      x = db.nextEntry kind userKey value ∨
        x ∈ db.memtable.tree ∧ x.ik ≠ (db.nextEntry kind userKey value).ik :=
    mem_insert_tree db.memtable _ _
  rw [stored, stored, List.mem_append, List.mem_append, htree]
  constructor
  · rintro ((hx | hx) | hx)
    · exact Or.inl hx
    · exact Or.inr (Or.inl hx.1)
    · exact Or.inr (Or.inr hx)
  · rintro (hx | hx | hx)
    · exact Or.inl (Or.inl hx)
    · refine Or.inl (Or.inr ⟨hx, fun heq => ?_⟩)
      have hle := h.bounded x (List.mem_append_left _ hx)
      have hnum := DB.nextEntry_seqNum hseq kind userKey value
      rw [Entry.seqNum, ← heq] at hnum
      rw [Entry.seqNum] at hle
      omega
    · exact Or.inr hx

theorem Ordered.written (h : Ordered clock db ts) (hseq : db.seqNum < seqNumMax)
    (hkind : kind ≤ internalKeyKindMax) (hkey : userKey.length ≤ Config.maxKeyLength)
    (hvalue : value.length ≤ Config.maxValueLength) :
    Ordered clock (db.written kind userKey value) ts := by
  have hmem := h.mem_stored_written hseq kind userKey value
  have hnum := DB.nextEntry_seqNum hseq kind userKey value
  have hwf : ∀ e ∈ (db.written kind userKey value).memtable.tree, e.WellFormed := by
    intro e he
    rcases (mem_insert_tree db.memtable _ _).mp he with rfl | ⟨he, -⟩
    · exact Entry.wellFormed_encode hkey hvalue hkind
    · exact h.wellFormed e he
  have hnf : NewestFirst (stored (db.written kind userKey value) ts) := by
    obtain ⟨-, hlayers, hcross⟩ := List.pairwise_append.mp h.newestFirst
    refine List.pairwise_append.mpr
      ⟨newestFirst_of_sorted (db.written kind userKey value).memtable.sorted, hlayers, ?_⟩
    intro a ha b hb huser
    rcases (mem_insert_tree db.memtable _ _).mp ha with rfl | ⟨ha, -⟩
    · have hle := h.bounded b (List.mem_append_right _ hb)
      refine (InternalKey.lt_iff_seqNum _ _).mpr (Or.inr ⟨huser, Or.inl ?_⟩)
      change b.seqNum < (db.nextEntry kind userKey value).seqNum
      omega
    · exact hcross a ha b hb huser
  refine ⟨⟨h.sstables, h.held, h.nodup, h.stamped, hwf⟩, hnf, ?_⟩
  intro e he
  change e.seqNum ≤ db.seqNum + 1
  rcases (hmem e).mp he with rfl | he
  · omega
  · exact (h.bounded e he).trans (Nat.le_succ _)

theorem Ordered.write (h : Ordered clock db ts) (hseq : db.seqNum < seqNumMax) {op : Op}
    (hop : op.Accepted) : Ordered clock (op.write db) ts := by
  cases op with
  | put key value =>
      exact h.written hseq (by decide : internalKeyKindSet ≤ internalKeyKindMax) hop.1 hop.2
  | delete key => exact h.written hseq (by decide) hop (by simp [Config.maxValueLength])
  | flush => exact h

/-- A write shows from its own sequence number on, and changes nothing else. -/
theorem Ordered.versionAt_written (h : Ordered clock db ts) (hseq : db.seqNum < seqNumMax)
    (hkind : kind ≤ internalKeyKindMax) (hkey : userKey.length ≤ Config.maxKeyLength)
    (hvalue : value.length ≤ Config.maxValueLength) (key : Bytes) (snapshot : Nat) :
    versionAt (stored (db.written kind userKey value) ts) key snapshot =
      if userKey = key ∧ db.seqNum + 1 ≤ snapshot then some (db.nextEntry kind userKey value)
      else versionAt (stored db ts) key snapshot := by
  have hnum := DB.nextEntry_seqNum hseq kind userKey value
  rw [h.newestFirst.versionAt_insert (h.written hseq hkind hkey hvalue).newestFirst
    (h.mem_stored_written hseq kind userKey value)]
  · congr 1
    rw [Entry.matchesAt_iff, DB.nextEntry_userKey, hnum]
  · intro b hb
    have := h.bounded b hb
    omega

theorem Ordered.flushedDB (h : Ordered clock db ts) (hclock : StrictMono clock) :
    Ordered clock (flushedDB clock db) (flushedTable clock h.toRepresents :: ts) where
  toRepresents := h.toRepresents.flushedDB hclock
  newestFirst := h.newestFirst
  bounded := h.bounded

/-- The compaction that starts from this database leaves the table list newest
first: user key by user key, what survives of a group is newer than what survives
of a later one.  Below the threshold there is nothing to keep. -/
def RecencyKept (stat : Stat) (db : DB) : Prop :=
  Config.defaultCompactionThreshold ≤ db.sstables.length →
    KeepsRecency db.watermark.floor
      ((groupBySimilarSize (stat db.dir) db.sstables).map (List.map (entriesIn db.dir)))

/-- The compaction that starts from this database leaves all tables as they are. -/
def DB.NoMerge (stat : Stat) (db : DB) : Prop :=
  db.sstables.length < Config.defaultCompactionThreshold ∨
    ∀ g ∈ groupBySimilarSize (stat db.dir) db.sstables, g.length < 2

instance (stat : Stat) (db : DB) : Decidable (db.NoMerge stat) :=
  inferInstanceAs (Decidable (_ ∨ _))

variable {stat : Stat}

theorem Represents.noMerge_iff (h : Represents clock db ts) (stat : Stat) :
    db.NoMerge stat ↔ NoMerge (stat db.dir) ts := by
  unfold DB.NoMerge Compaction.NoMerge
  rw [h.sstables, groupBySimilarSize_eq, List.length_map]
  simp only [List.forall_mem_map, List.length_map]

theorem Represents.groups_eq (h : Represents clock db ts) (stat : Stat) :
    (groupBySimilarSize (stat db.dir) db.sstables).map (List.map (entriesIn db.dir)) =
      (groupsOf (stat db.dir) ts).map layersOf := by
  rw [h.sstables, groupBySimilarSize_eq, List.map_map]
  apply List.map_congr_left
  intro g hg
  rw [Function.comp_apply, List.map_map]
  apply List.map_congr_left
  intro t ht
  exact h.entriesIn_eq (mem_groupsOf_flatten.mp (List.mem_flatten.mpr ⟨g, hg, ht⟩))

theorem Ordered.layers_newestFirst (h : Ordered clock db ts) :
    NewestFirst (layersOf ts).flatten :=
  (List.pairwise_append.mp h.newestFirst).2.1

theorem Ordered.ready (h : Ordered clock db ts) (hclock : StrictMono clock) (stat : Stat) :
    Ready ((healthy clock stat).compaction db) ts db.dir :=
  h.toRepresents.ready hclock h.layers_newestFirst stat

theorem Ordered.recencyKept_iff (h : Ordered clock db ts) (hclock : StrictMono clock)
    (stat : Stat) : RecencyKept stat db ↔
      NewestFirst (layersOf (compactedTables clock stat db ts)).flatten := by
  have hlen : db.sstables.length = ts.length := by rw [h.sstables, List.length_map]
  rw [RecencyKept, h.groups_eq stat, hlen]
  by_cases hsmall : ts.length < Config.defaultCompactionThreshold
  · have hsame : compactedTables clock stat db ts = ts := by
      rw [compactedTables, resultOf, if_pos hsmall]
    rw [hsame]
    exact ⟨fun _ => h.layers_newestFirst, fun _ hbig => absurd hsmall (not_lt.mpr hbig)⟩
  · rw [compactedTables, (h.ready hclock stat).layersOf_resultOf _ hsmall,
      (groupsOf_divides _ ts).newestFirst_out_iff h.layers_newestFirst]
    exact ⟨fun hk => hk (not_lt.mp hsmall), fun hk _ => hk⟩

theorem Ordered.mem_compactedTables (h : Ordered clock db ts) (hclock : StrictMono clock)
    {e : Entry} (he : e ∈ (layersOf (compactedTables clock stat db ts)).flatten) :
    e ∈ (layersOf ts).flatten := by
  by_cases hsmall : ts.length < Config.defaultCompactionThreshold
  · rwa [compactedTables, resultOf, if_pos hsmall] at he
  · rw [compactedTables, (h.ready hclock stat).layersOf_resultOf _ hsmall] at he
    exact (groupsOf_divides _ ts).mem_out h.layers_newestFirst he

theorem Ordered.compactedDB (h : Ordered clock db ts) (hclock : StrictMono clock)
    (hmem : db.memtable.tree = []) (hkept : RecencyKept stat db) :
    Ordered clock (compactedDB clock stat db ts) (compactedTables clock stat db ts) where
  toRepresents := h.toRepresents.compactedDB hclock h.layers_newestFirst stat
  newestFirst := by
    change NewestFirst (db.memtable.tree ++ _)
    rw [hmem]
    exact (h.recencyKept_iff hclock stat).mp hkept
  bounded := by
    intro e he
    change e ∈ db.memtable.tree ++ _ at he
    rw [hmem] at he
    exact h.bounded e (List.mem_append_right _ (h.mem_compactedTables hclock he))

/-- A compaction that keeps recency shows every snapshot from its floor on what was
there before. -/
theorem Ordered.versionAt_compactedDB (h : Ordered clock db ts) (hclock : StrictMono clock)
    (hmem : db.memtable.tree = []) (hkept : RecencyKept stat db) (key : Bytes) {snapshot : Nat}
    (hfloor : db.watermark.floor ≤ snapshot) :
    versionAt (stored (Db.compactedDB clock stat db ts) (compactedTables clock stat db ts)) key
        snapshot = versionAt (stored db ts) key snapshot := by
  have hafter := (h.recencyKept_iff hclock stat).mp hkept
  change versionAt (db.memtable.tree ++ _) key snapshot =
    versionAt (db.memtable.tree ++ _) key snapshot
  rw [hmem, List.nil_append, List.nil_append, ← hafter.newestAt_eq (sorted_of_mem_layersOf _),
    ← h.layers_newestFirst.newestAt_eq (sorted_of_mem_layersOf _)]
  exact (h.ready hclock stat).newestAt_result key hfloor

end Ordered

end Hcdb.Db
