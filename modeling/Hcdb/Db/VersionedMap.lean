import Hcdb.Db.ConcurrentMap

/-!
Goroutines that read at snapshots see a map of which all states are numbered.  A write
makes a new state, a snapshot is the number of a state, and reads at a number show its
state.  A flush may forget states that were superseded and are not pinned, so that they
show some keys as an earlier state did or not at all; nothing else changes a state.
-/

namespace Hcdb.Db

open Hcdb.Lib.ByteString
open Hcdb.Lib.Simulation
open Hcdb.Lib.Objects
open Hcdb.Base
open Hcdb.Sstable
open Hcdb.Compaction

/-- The number of the last write, the state as of every number, and the numbers that
readers have pinned. -/
structure Versions where
  number : Nat
  view : Nat → Contents
  pins : Multiset Nat

namespace Versions

/-- A write makes a new state and keeps the old ones. -/
def write (v : Versions) : Op → Versions
  | .flush => v
  | op => { v with
      number := v.number + 1
      view := fun n => if n ≤ v.number then v.view n else op.applyTo (v.view n) }

/-- The states that reads can rely on. -/
def Kept (v : Versions) (n : Nat) : Prop := n ∈ v.pins ∨ v.number ≤ n

/-- What a flush may do to the states: the others fall back, key by key, to what an earlier
one has shown, or to nothing. -/
structure Forgets (v v' : Versions) : Prop where
  number : v'.number = v.number
  pins : v'.pins = v.pins
  kept : ∀ n, v.Kept n → v'.view n = v.view n
  forgotten : ∀ n key, v'.view n key = none ∨ ∃ m ≤ n, v'.view n key = v.view m key

end Versions

/-- The replies, with scans as the pairs they yield. -/
inductive VersionedReply where
  | done (res : Except DbErr Unit)
  | value (val : Option Bytes)
  | pairs (ps : Option (List (Bytes × Bytes)))
  | snapshot (snap : Nat)
  | released

/-- An iterator is seen as the pairs it yields from the files of the moment in which it
was opened. -/
def Reply.versioned : Reply → VersionedReply
  | .done res => .done res
  | .value val => .value val
  | .iterator it => .pairs (it.toOption.map MergeIterator.drain)
  | .snapshot snap => .snapshot snap
  | .released => .released

/-- As `Status`: a write may owe a flush, and `GetSnapshot` has two halves. -/
inductive VersionedStatus where
  | idle
  | called (req : Request)
  | due
  | loaded (snap : Nat)
  | finished (reply : VersionedReply)

/-- No write has a number beyond `SeqNumMax`, and nothing is said of reads there.  Whether a
write has to flush depends on sizes that the states do not show; `ForceFlush` always has. -/
inductive VersionedStatus.Step : Versions → VersionedStatus → Versions → VersionedStatus → Prop
  | refuse {v op e} : op.check = .error e →
      Step v (.called (.write op)) v (.finished (.done (.error e)))
  | write {v op} : op.check = .ok () → op ≠ .flush →
      Step v (.called (.write op)) (v.write op) (.finished (.done (.ok ())))
  | fill {v op} : op.check = .ok () → Step v (.called (.write op)) (v.write op) .due
  | flush {v v'} : v.Forgets v' → Step v .due v' (.finished (.done (.ok ())))
  | getAt {v key snapshot val} : (snapshot ≤ seqNumMax → val = v.view snapshot key) →
      Step v (.called (.getAt key snapshot)) v (.finished (.value val))
  | scanAt {v lowerBound upperBound snapshot ps} :
      (snapshot ≤ seqNumMax → ∃ pairs, ps = some pairs ∧
        (v.view snapshot).IsScan lowerBound upperBound pairs) →
      Step v (.called (.scanAt lowerBound upperBound snapshot)) v (.finished (.pairs ps))
  | load {v} : Step v (.called .getSnapshot) v (.loaded v.number)
  | begin {v snap} :
      Step v (.loaded snap) { v with pins := snap ::ₘ v.pins } (.finished (.snapshot snap))
  | release {v snap} : Step v (.called (.releaseSnapshot snap))
      { v with pins := v.pins.erase snap } (.finished .released)
  | close {v} : Step v (.called .close) v (.finished (.done (.ok ())))

/-- The map with numbered states as an object. -/
def versionedMap : Object Versions VersionedStatus Request VersionedReply where
  idle := .idle
  called := .called
  finished := .finished
  effect := VersionedStatus.Step
  internal _ _ := False

section Views

variable [Runtime]

/-- No two versions of a key have one number. -/
def OneNumberEach (es : List Entry) : Prop :=
  ∀ a ∈ es, ∀ b ∈ es, a.userKey = b.userKey → a.seqNum = b.seqNum → a = b

/-- The states that the database keeps. -/
structure KeepsVersions (clock : Nat → Nat) (db : DB) (ts : List Table) (v : Versions) : Prop
    extends Ordered clock db ts where
  unique : OneNumberEach (stored db ts)
  number : v.number = db.seqNum
  view : ∀ n ≤ seqNumMax, ∀ key, answer (versionAt (stored db ts) key n) = v.view n key
  pins : db.watermark.Pins v.pins

variable {clock : Nat → Nat} {db : DB} {ts : List Table} {v : Versions}

theorem Ordered.versionAt_kept (h : Ordered clock db ts) (hclock : StrictMono clock)
    (hmem : db.memtable.tree = []) {stat : Stat} (hkept : RecencyKept stat db) (key : Bytes)
    {n : Nat} (hn : db.watermark.floor ≤ n ∨ db.seqNum ≤ n) (hmax : n ≤ seqNumMax) :
    versionAt (stored (Db.compactedDB clock stat db ts) (compactedTables clock stat db ts)) key n =
      versionAt (stored db ts) key n := by
  rcases hn with hfloor | hnewest
  · exact h.versionAt_compactedDB hclock hmem hkept key hfloor
  · rw [versionAt_of_bounded (h.compactedDB hclock hmem hkept).bounded key hnewest
      (hnewest.trans hmax), versionAt_of_bounded h.bounded key hnewest (hnewest.trans hmax)]
    exact h.versionAt_compactedDB hclock hmem hkept key db.watermark.floor_le_seqNumMax

/-- Every stored version is the one that its own number shows. -/
theorem Ordered.versionAt_seqNum (h : Ordered clock db ts) (hunique : OneNumberEach (stored db ts))
    {e : Entry} (he : e ∈ stored db ts) :
    versionAt (stored db ts) e.userKey e.seqNum = some e := by
  refine h.newestFirst.versionAt_eq_some_iff.mpr
    ⟨he, Entry.matchesAt_iff.mpr ⟨rfl, le_rfl⟩, fun b hb hmatch => not_lt.mp fun hlt => ?_⟩
  obtain ⟨huser, hle⟩ := Entry.matchesAt_iff.mp hmatch
  have hge : e.seqNum ≤ b.seqNum := InternalKey.seqNum_le_of_lt hlt huser
  obtain rfl := hunique b hb e he huser (le_antisymm hle hge)
  exact lt_irrefl _ hlt

namespace KeepsVersions

theorem getAt_eq (h : KeepsVersions clock db ts v) (key : Bytes) {n : Nat} (hn : n ≤ seqNumMax) :
    db.getAt key n = v.view n key :=
  (h.toRepresents.getAt_eq key hn).trans (h.view n hn key)

theorem scanAt_eq (h : KeepsVersions clock db ts v) (lowerBound : Bytes)
    (upperBound : Option Bytes) {n : Nat} (hn : n ≤ seqNumMax) :
    ∃ m, db.scanAt lowerBound upperBound n = .ok m ∧
      (v.view n).IsScan lowerBound upperBound m.drain := by
  have hscan := h.toOrdered.scanAt_isScan lowerBound upperBound hn
  rwa [funext (h.view n hn)] at hscan

theorem written (h : KeepsVersions clock db ts v) (hseq : db.seqNum < seqNumMax)
    {kind : InternalKeyKind} {userKey value : Bytes} (hkind : kind ≤ internalKeyKindMax)
    (hkey : userKey.length ≤ Config.maxKeyLength) (hvalue : value.length ≤ Config.maxValueLength) :
    KeepsVersions clock (db.written kind userKey value) ts
      { v with
        number := v.number + 1
        view := fun n => if n ≤ v.number then v.view n else fun key =>
          if userKey = key then answer (some (db.nextEntry kind userKey value))
          else v.view n key } where
  toOrdered := h.toOrdered.written hseq hkind hkey hvalue
  unique := by
    have hnext : (db.nextEntry kind userKey value).seqNum = db.seqNum + 1 :=
      DB.nextEntry_seqNum hseq kind userKey value
    have hmem := h.toOrdered.mem_stored_written hseq kind userKey value
    intro a ha b hb huser hsame
    rcases (hmem a).mp ha with rfl | ha
    · rcases (hmem b).mp hb with rfl | hb
      · rfl
      · have := h.bounded b hb
        omega
    · rcases (hmem b).mp hb with rfl | hb
      · have := h.bounded a ha
        omega
      · exact h.unique a ha b hb huser hsame
  number := congrArg (· + 1) h.number
  pins := h.pins
  view n hn key := by
    dsimp only
    rw [h.toOrdered.versionAt_written hseq hkind hkey hvalue, h.number]
    by_cases hold : n ≤ db.seqNum
    · rw [if_neg fun hc => absurd hc.2 (by omega), if_pos hold, h.view n hn key]
    · rw [if_neg hold]
      by_cases hk : userKey = key
      · rw [if_pos ⟨hk, by omega⟩, if_pos hk]
      · rw [if_neg fun hc => hk hc.1, if_neg hk, h.view n hn key]

theorem write (h : KeepsVersions clock db ts v) {op : Op} (hop : op.Accepted)
    (hseq : (op.write db).seqNum ≤ seqNumMax) :
    KeepsVersions clock (op.write db) ts (v.write op) := by
  cases op with
  | put key value =>
      have hset := h.written hseq (by decide : internalKeyKindSet ≤ internalKeyKindMax) hop.1 hop.2
      rwa [DB.answer_nextEntry_set] at hset
  | delete key =>
      have hempty : ([] : Bytes).length ≤ Config.maxValueLength := Nat.zero_le _
      have hdelete := h.written hseq (by decide : internalKeyKindDelete ≤ internalKeyKindMax) hop
        hempty
      rwa [DB.answer_nextEntry_delete] at hdelete
  | flush => exact h

/-- The states after a flush. -/
def afterFlush (h : KeepsVersions clock db ts v) (stat : Stat) : Versions :=
  { v with
    view := fun n => if n ≤ seqNumMax then fun key => answer (versionAt (stored
      (compactedDB clock stat (flushedDB clock db) (flushedTable clock h.toRepresents :: ts))
      (compactedTables clock stat (flushedDB clock db) (flushedTable clock h.toRepresents :: ts)))
      key n) else v.view n }

theorem afterFlush_view (h : KeepsVersions clock db ts v) (stat : Stat) {n : Nat}
    (hn : n ≤ seqNumMax) (key : Bytes) : (h.afterFlush stat).view n key =
      answer (versionAt (layersOf (compactedTables clock stat (flushedDB clock db)
        (flushedTable clock h.toRepresents :: ts))).flatten key n) :=
  congrFun (if_pos hn) key

theorem forgets (h : KeepsVersions clock db ts v) (hclock : StrictMono clock) {stat : Stat}
    (hkept : RecencyKept stat (flushedDB clock db)) : v.Forgets (h.afterFlush stat) where
  number := rfl
  pins := rfl
  kept n hn := by
    by_cases hmax : n ≤ seqNumMax
    · have hflushed := h.toOrdered.flushedDB hclock
      have hfloor : (flushedDB clock db).watermark.floor ≤ n ∨ (flushedDB clock db).seqNum ≤ n := by
        rcases hn with hpin | hnewest
        · left
          apply Watermark.floor_le_of_count_pos
          rw [show (flushedDB clock db).watermark = db.watermark from rfl, h.pins.count]
          exact Multiset.count_pos.mpr hpin
        · right
          exact h.number ▸ hnewest
      refine funext fun key => (h.afterFlush_view stat hmax key).trans ?_
      rw [← h.view n hmax key]
      exact congrArg answer (hflushed.versionAt_kept hclock rfl hkept key hfloor hmax)
    · exact if_neg hmax
  forgotten n key := by
    by_cases hmax : n ≤ seqNumMax
    · rw [h.afterFlush_view stat hmax]
      cases hfound : versionAt (layersOf (compactedTables clock stat (flushedDB clock db)
        (flushedTable clock h.toRepresents :: ts))).flatten key n with
      | none => exact .inl rfl
      | some e =>
          -- merges make no entries: what is found was there under its own number
          obtain ⟨huser, hle⟩ := Entry.matchesAt_iff.mp (versionAt_matches hfound)
          have he : e ∈ stored db ts :=
            (h.toOrdered.flushedDB hclock).mem_compactedTables hclock (versionAt_mem hfound)
          refine .inr ⟨e.seqNum, hle, ?_⟩
          rw [← h.view e.seqNum (hle.trans hmax) key, ← huser,
            h.toOrdered.versionAt_seqNum h.unique he]
    · exact .inr ⟨n, le_rfl, congrFun (if_neg hmax) key⟩

theorem flush (h : KeepsVersions clock db ts v) (hclock : StrictMono clock) {stat : Stat}
    (hkept : RecencyKept stat (flushedDB clock db)) :
    ∃ db' ts', db.flushMemtableLocked (healthy clock stat) = (db', .ok ()) ∧
      KeepsVersions clock db' ts' (h.afterFlush stat) := by
  have hflushed := h.toOrdered.flushedDB hclock
  refine ⟨_, _, ?_, hflushed.compactedDB hclock rfl hkept, ?_, h.number, fun n hn key => ?_, h.pins⟩
  · rw [flushMemtableLocked_healthy,
      hflushed.toRepresents.compactTables_eq hclock hflushed.layers_newestFirst]
  · exact fun a ha b hb => h.unique a (hflushed.mem_compactedTables hclock ha) b
      (hflushed.mem_compactedTables hclock hb)
  · exact (h.afterFlush_view stat hn key).symm

theorem withPins (h : KeepsVersions clock db ts v) {w : Watermark} {pins : Multiset Nat}
    (hw : w.Pins pins) : KeepsVersions clock { db with watermark := w } ts { v with pins } where
  toOrdered := h.toOrdered.withWatermark w
  unique := h.unique
  number := h.number
  view := h.view
  pins := hw

theorem withWal (h : KeepsVersions clock db ts v) (wal : Wal.WAL) :
    KeepsVersions clock { db with wal } ts v where
  toRepresents := ⟨h.sstables, h.held, h.nodup, h.stamped, h.wellFormed⟩
  newestFirst := h.newestFirst
  bounded := h.bounded
  unique := h.unique
  number := h.number
  view := h.view
  pins := h.pins

end KeepsVersions

/-- The status as a client of the versioned map sees it. -/
def Status.versioned : Status → VersionedStatus
  | .idle => .idle
  | .called req => .called req
  | .due => .due
  | .loaded snap => .loaded snap
  | .finished reply => .finished reply.versioned

/-- Every effect on the database is one on the numbered states. -/
theorem Status.Step.versions {db' : DB} {st st' : Status}
    (hstep : Status.Step (.steady clock) db st db' st') (hclock : StrictMono clock)
    (hseq : db'.seqNum ≤ seqNumMax) (h : ∃ ts, KeepsVersions clock db ts v) :
    ∃ v', (∃ ts, KeepsVersions clock db' ts v') ∧
      VersionedStatus.Step v st.versioned v' st'.versioned := by
  obtain ⟨ts, h⟩ := h
  cases hstep with
  | refuse hcheck => exact ⟨v, ⟨ts, h⟩, .refuse hcheck⟩
  | @write op hcheck =>
      refine ⟨_, ⟨ts, h.write (Op.check_eq_ok.mp hcheck) hseq⟩, ?_⟩
      split
      · exact .fill hcheck
      · next hspare =>
          refine .write hcheck ?_
          rintro rfl
          exact hspare rfl
  | flush hflush hcompact =>
      obtain ⟨stat, rfl⟩ := hflush
      have hkept : RecencyKept stat (flushedDB clock db) := hcompact ⟨rfl, rfl⟩ ⟨rfl, rfl⟩
      obtain ⟨db', ts', heq, h'⟩ := h.flush hclock hkept
      rw [heq]
      exact ⟨_, ⟨ts', h'⟩, .flush (h.forgets hclock hkept)⟩
  | close => exact ⟨v, ⟨ts, h.withWal _⟩, .close⟩
  | @getAt key snapshot => exact ⟨v, ⟨ts, h⟩, .getAt fun hsnap => h.getAt_eq key hsnap⟩
  | @scanAt lowerBound upperBound snapshot =>
      refine ⟨v, ⟨ts, h⟩, .scanAt fun hsnap => ?_⟩
      obtain ⟨m, hm, hpairs⟩ := h.scanAt_eq lowerBound upperBound hsnap
      rw [hm]
      exact ⟨m.drain, rfl, hpairs⟩
  | load => exact ⟨v, ⟨ts, h⟩, h.number ▸ .load⟩
  | begin => exact ⟨_, ⟨ts, h.withPins (h.pins.begin _)⟩, .begin⟩
  | release => exact ⟨_, ⟨ts, h.withPins (h.pins.done _)⟩, .release⟩

theorem refines_versions (hclock : StrictMono clock) :
    Refines (atomicDB (.steady clock)) versionedMap (fun db => db.seqNum ≤ seqNumMax)
      (fun db v => ∃ ts, KeepsVersions clock db ts v) Status.versioned id Reply.versioned where
  idle := rfl
  called _ := rfl
  finished _ := rfl
  effect db st db' st' v hkeeps hseq heffect := by
    obtain ⟨v', hkeeps', hstep⟩ := Status.Step.versions heffect hclock hseq hkeeps
    exact ⟨v', hkeeps', .inl hstep⟩
  internal _ _ _ _ _ hinternal := hinternal.elim

/-- From a database whose tables are newest first and that nobody has pinned, as long as no
call of a flush fails, compactions keep recency and the sequence numbers last: whatever
the interleaving, the clients cannot tell it from one of a map whose states are numbered. -/
theorem threads_refine_versions {Tid : Type} [DecidableEq Tid] (hdb : Ordered clock db ts)
    (hunique : OneNumberEach (stored db ts)) (hpins : db.watermark = newWatermark)
    (hclock : StrictMono clock) {trace : List (ClientEvent Tid)} {m : Machine Tid}
    (h : Traces (fun m event m' => ThreadStep (.steady clock) m event m' ∧
      m'.db.seqNum ≤ seqNumMax) (Machine.start db) trace m) :
    ∃ s, Traces versionedMap.Step
        (versionedMap.start ⟨db.seqNum, fun n key => db.getAt key n, 0⟩)
        (trace.map (Event.map id Reply.versioned)) s ∧
      ((∀ t, m.pc t = .idle) →
        ∀ n ≤ seqNumMax, ∀ key, m.db.getAt key n = s.state.view n key) := by
  have hstart : KeepsVersions clock db ts ⟨db.seqNum, fun n key => db.getAt key n, 0⟩ :=
    ⟨hdb, hunique, rfl, fun n hn key => (hdb.toRepresents.getAt_eq key hn).symm,
      hpins ▸ Watermark.pins_newWatermark⟩
  obtain ⟨s, htrace, atom, hsim, ts', hkeeps⟩ := traces_refine (refines_versions hclock)
    (fun _ _ hsim hseq => hsim.atomics.1 ▸ hseq) ⟨ts, hstart⟩ h
  refine ⟨s, htrace, fun hidle n hn key => ?_⟩
  rw [hsim.free (hsim.writer_of_idle hidle), hkeeps.getAt_eq key hn]

end Views

def putPinPut : List (ClientEvent Nat) :=
  [.invoke 0 (.write (.put [107] [1])), .respond 0 (.done (.ok ())), .invoke 1 .getSnapshot,
    .respond 1 (.snapshot 1), .invoke 0 (.write (.put [107] [2])), .respond 0 (.done (.ok ())),
    .invoke 1 (.getAt [107] 1), .respond 1 (.value (some [1]))]

theorem traces_putPinPut {step : Machine Nat → Option (ClientEvent Nat) → Machine Nat → Prop}
    (hstep : ∀ m event m', ThreadStep (.steady stampedClock) m event m' → m'.db.seqNum ≤ 2 →
      step m event m') : ∃ m, Traces step (Machine.start emptyDB) putPinPut m := by
  have hput : Traces step (Machine.start emptyDB) _ _ := Traces.start.visible
    (hstep _ (some (.invoke 0 (.write (.put [107] [1])))) _ (.invoke rfl) (by decide))
  have hlock := hput.silent (hstep _ _ _ (.lock (t := 0) rfl rfl rfl rfl) (by decide))
  have hnumber := hlock.silent (hstep _ _ _ (.inside (t := 0) .numberPut) (by decide))
  have hlog := hnumber.silent (hstep _ _ _ (.inside (t := 0) .log) (by decide))
  have hinsert := hlog.silent (hstep _ _ _ (.inside (t := 0) .insert) (by decide))
  have hspare := hinsert.silent (hstep _ _ _ (.inside (t := 0) (.spare (by decide))) (by decide))
  have hunlock := hspare.silent (hstep _ _ _ (.unlock (t := 0) rfl) (by decide))
  have hdone := hunlock.visible (hstep _ _ _ (.respond (t := 0) rfl) (by decide))
  have hpin := hdone.visible (hstep _ (some (.invoke 1 .getSnapshot)) _ (.invoke rfl) (by decide))
  have hload := hpin.silent (hstep _ _ _ (.inside (t := 1) .load) (by decide))
  have hbegin := hload.silent (hstep _ _ _ (.inside (t := 1) .begin) (by decide))
  have hpinned := hbegin.visible (hstep _ _ _ (.respond (t := 1) rfl) (by decide))
  have hput' := hpinned.visible
    (hstep _ (some (.invoke 0 (.write (.put [107] [2])))) _ (.invoke rfl) (by decide))
  have hlock' := hput'.silent (hstep _ _ _ (.lock (t := 0) rfl rfl rfl rfl) (by decide))
  have hnumber' := hlock'.silent (hstep _ _ _ (.inside (t := 0) .numberPut) (by decide))
  have hlog' := hnumber'.silent (hstep _ _ _ (.inside (t := 0) .log) (by decide))
  have hinsert' := hlog'.silent (hstep _ _ _ (.inside (t := 0) .insert) (by decide))
  have hspare' := hinsert'.silent (hstep _ _ _ (.inside (t := 0) (.spare (by decide))) (by decide))
  have hunlock' := hspare'.silent (hstep _ _ _ (.unlock (t := 0) rfl) (by decide))
  have hdone' := hunlock'.visible (hstep _ _ _ (.respond (t := 0) rfl) (by decide))
  have hget := hdone'.visible
    (hstep _ (some (.invoke 1 (.getAt [107] 1))) _ (.invoke rfl) (by decide))
  have hrlock := hget.silent (hstep _ _ _ (.rlock (t := 1) rfl rfl rfl) (by decide))
  have hread := hrlock.silent (hstep _ _ _ (.inside (t := 1) (.memFound rfl)) (by decide))
  have hrunlock := hread.silent (hstep _ _ _ (.runlock (t := 1) rfl) (by decide))
  exact ⟨_, hrunlock.visible (hstep _ _ _ (.respond (t := 1) rfl) (by decide))⟩

theorem threads_refine_versions_putPinPut :
    ∃ s : Clients Nat Versions VersionedStatus, Traces versionedMap.Step
      (versionedMap.start ⟨0, fun n key => emptyDB.getAt key n, 0⟩)
      [.invoke 0 (.write (.put [107] [1])), .respond 0 (.done (.ok ())), .invoke 1 .getSnapshot,
        .respond 1 (.snapshot 1), .invoke 0 (.write (.put [107] [2])), .respond 0 (.done (.ok ())),
        .invoke 1 (.getAt [107] 1), .respond 1 (.value (some [1]))] s := by
  obtain ⟨m, htrace⟩ := traces_putPinPut fun m event m' hstep hseq =>
    (⟨hstep, hseq.trans (by decide)⟩ :
      ThreadStep (.steady stampedClock) m event m' ∧ m'.db.seqNum ≤ seqNumMax)
  have hunique : OneNumberEach (stored emptyDB []) := fun a ha => absurd ha List.not_mem_nil
  obtain ⟨s, hs, -⟩ := threads_refine_versions (ordered_emptyDB stampedClock) hunique rfl
    stampedClock_strictMono htrace
  exact ⟨s, hs⟩

end Hcdb.Db
