import Hcdb.Db.Mapping
import Hcdb.Db.Threads

/-!
Goroutines that read the newest state and write see a map: whatever the interleaving,
and whatever snapshots others take meanwhile, each `Get`, `Scan`, `Put`, `Delete` and
`ForceFlush` acts on the map in one step between its call and its return.  A scan is seen
as what its iterator would yield at once.
-/

namespace Hcdb.Db

open Hcdb.Lib.ByteString
open Hcdb.Lib.Simulation
open Hcdb.Lib.Objects
open Hcdb.Base
open Hcdb.Sstable

/-- A call as a client of a map sees it; reads at a snapshot, snapshots and `Close` are
not its business. -/
inductive MapCall where
  | write (op : Op)
  | get (key : Bytes)
  | scan (lowerBound : Bytes) (upperBound : Option Bytes)
  | other

/-- What a client of the map gets to see. -/
inductive MapReply where
  | done (res : Except DbErr Unit)
  | value (val : Option Bytes)
  | pairs (ps : Option (List (Bytes × Bytes)))
  | other

def Request.view : Request → MapCall
  | .write op => .write op
  | .getAt key snapshot => if snapshot = seqNumMax then .get key else .other
  | .scanAt lowerBound upperBound snapshot =>
      if snapshot = seqNumMax then .scan lowerBound upperBound else .other
  | _ => .other

/-- An iterator is seen as the pairs it yields from the files of the moment in which it
was opened. -/
def Reply.view : Reply → MapReply
  | .done res => .done res
  | .value val => .value val
  | .iterator (.ok it) => .pairs (some it.drain)
  | .iterator (.error _) => .pairs none
  | _ => .other

inductive MapStatus where
  | idle
  | called (call : MapCall)
  | finished (reply : MapReply)

/-- A call takes effect on the map at once. -/
inductive MapStatus.Step : Contents → MapStatus → Contents → MapStatus → Prop
  | refuse {contents op e} : op.check = .error e →
      Step contents (.called (.write op)) contents (.finished (.done (.error e)))
  | write {contents op} : op.check = .ok () →
      Step contents (.called (.write op)) (op.applyTo contents) (.finished (.done (.ok ())))
  | get {contents key} :
      Step contents (.called (.get key)) contents (.finished (.value (contents key)))
  | scan {contents lowerBound upperBound ps} : contents.IsScan lowerBound upperBound ps →
      Step contents (.called (.scan lowerBound upperBound)) contents
        (.finished (.pairs (some ps)))
  | other {contents reply} : Step contents (.called .other) contents (.finished reply)

/-- The map as an object. -/
def mapObject : Object Contents MapStatus MapCall MapReply where
  idle := .idle
  called := .called
  finished := .finished
  effect := MapStatus.Step
  internal _ _ := False

section Refinement

variable [Runtime]

/-- No call of a flush fails, and every compaction keeps recency. -/
def Conditions.steady (clock : Nat → Nat) : Conditions where
  flush env := ∃ stat, env = healthy clock stat
  compact db env := RecencyKept env.stat db

/-- A write that still owes its flush has had its whole effect on the map. -/
def Status.view : Status → MapStatus
  | .idle => .idle
  | .called req => .called req.view
  | .due => .finished (.done (.ok ()))
  | .loaded _ => .called .other
  | .finished reply => .finished reply.view

variable {clock : Nat → Nat} {db db' : DB} {st st' : Status} {contents : Contents}

/-- What an effect on the database is to the map: its effect there, or nothing. -/
theorem Status.Step.maps (hstep : Status.Step (.steady clock) db st db' st')
    (hclock : StrictMono clock) (hseq : db'.seqNum ≤ seqNumMax)
    (h : ∃ ts, Maps clock db ts contents) :
    ∃ contents', (∃ ts, Maps clock db' ts contents') ∧
      (MapStatus.Step contents st.view contents' st'.view ∨
        st'.view = st.view ∧ contents' = contents) := by
  obtain ⟨ts, hmaps⟩ := h
  cases hstep with
  | refuse hcheck => exact ⟨contents, ⟨ts, hmaps⟩, .inl (.refuse hcheck)⟩
  | @write op hcheck =>
      refine ⟨_, ⟨ts, hmaps.write (Op.check_eq_ok.mp hcheck) hseq⟩, .inl ?_⟩
      have hview : Status.view (if op.flushes db then .due else .finished (.done (.ok ()))) =
          .finished (.done (.ok ())) := by
        split <;> rfl
      rw [hview]
      exact .write hcheck
  | flush hflush hcompact =>
      obtain ⟨stat, rfl⟩ := hflush
      have hkept : RecencyKept stat (flushedDB clock db) := hcompact ⟨rfl, rfl⟩ ⟨rfl, rfl⟩
      obtain ⟨db', ts', heq, hmaps', -⟩ := hmaps.flush hclock hkept
      rw [heq]
      exact ⟨contents, ⟨ts', hmaps'⟩, .inr ⟨rfl, rfl⟩⟩
  | close => exact ⟨contents, ⟨ts, hmaps.withWal _⟩, .inl .other⟩
  | @getAt key snapshot =>
      refine ⟨contents, ⟨ts, hmaps⟩, .inl ?_⟩
      simp only [view, Request.view]
      split
      · next hmax =>
          have hget := hmaps.get_eq key
          rw [DB.get] at hget
          rw [hmax, hget]
          exact .get
      · exact .other
  | @scanAt lowerBound upperBound snapshot =>
      refine ⟨contents, ⟨ts, hmaps⟩, .inl ?_⟩
      simp only [view, Request.view]
      split
      · next hmax =>
          obtain ⟨it, hscan, hpairs⟩ := hmaps.scan_eq lowerBound upperBound
          rw [DB.scan] at hscan
          rw [hmax, hscan]
          exact .scan hpairs
      · exact .other
  | load => exact ⟨contents, ⟨ts, hmaps⟩, .inr ⟨rfl, rfl⟩⟩
  | begin => exact ⟨contents, ⟨ts, hmaps.withWatermark _⟩, .inl .other⟩
  | release => exact ⟨contents, ⟨ts, hmaps.withWatermark _⟩, .inl .other⟩

theorem refines_map (hclock : StrictMono clock) :
    Refines (atomicDB (.steady clock)) mapObject (fun db => db.seqNum ≤ seqNumMax)
      (fun db contents => ∃ ts, Maps clock db ts contents) Status.view Request.view Reply.view where
  idle := rfl
  called _ := rfl
  finished _ := rfl
  effect db st db' st' contents hmaps hseq heffect := by
    obtain ⟨contents', hmaps', hstep⟩ := Status.Step.maps heffect hclock hseq hmaps
    exact ⟨contents', hmaps', hstep.imp_right fun hsame => ⟨hsame.1, .inl hsame.2⟩⟩
  internal _ _ _ _ _ hinternal := hinternal.elim

/-- From a database whose tables are newest first, as long as no call of a flush fails,
compactions keep recency and the sequence numbers last: for every interleaving there is
one of a map that the clients cannot tell from it, and whenever no call is under way
every key reads as in the map. -/
theorem threads_refine_map {Tid : Type} [DecidableEq Tid] {ts : List Table}
    (hdb : Ordered clock db ts) (hclock : StrictMono clock) {trace : List (ClientEvent Tid)}
    {m : Machine Tid} (h : Traces (fun m event m' => ThreadStep (.steady clock) m event m' ∧
      m'.db.seqNum ≤ seqNumMax) (Machine.start db) trace m) :
    ∃ s, Traces mapObject.Step (mapObject.start db.get)
        (trace.map (Event.map Request.view Reply.view)) s ∧
      ((∀ t, m.pc t = .idle) → ∀ key, m.db.get key = s.state key) := by
  obtain ⟨s, htrace, atom, hsim, ts', hmaps⟩ := traces_refine (refines_map hclock)
    (fun _ _ hsim hseq => hsim.atomics.1 ▸ hseq) ⟨ts, hdb.maps⟩ h
  refine ⟨s, htrace, fun hidle key => ?_⟩
  rw [hsim.free (hsim.writer_of_idle hidle), hmaps.get_eq]

end Refinement

theorem threads_refine_map_putGet :
    ∃ s : Clients Nat Contents MapStatus, Traces mapObject.Step (mapObject.start emptyDB.get)
      [.invoke 0 (.write (.put [107] [1])), .invoke 1 (.get [107]),
        .respond 1 (.value (some [1])), .respond 0 (.done (.ok ()))] s ∧
      s.state [107] = some [1] := by
  have hsteady : ∀ (m : Machine Nat) event m', ThreadStep (.steady stampedClock) m event m' →
      m'.db.seqNum ≤ 1 →
        ThreadStep (.steady stampedClock) m event m' ∧ m'.db.seqNum ≤ seqNumMax :=
    fun _ _ _ hstep hseq => ⟨hstep, hseq.trans (by decide)⟩
  obtain ⟨m, htrace, hidle, hget⟩ := traces_putGet hsteady
  obtain ⟨s, hs, hcontents⟩ := threads_refine_map (ordered_emptyDB stampedClock)
    stampedClock_strictMono htrace
  exact ⟨s, hs, (hcontents hidle [107]).symm.trans hget⟩

end Hcdb.Db
