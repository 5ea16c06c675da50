import Hcdb.Lib.Transition
import Mathlib.Data.Finset.Basic

/-!
Shutting the server down.  The accept loop, the goroutine that waits for the end of
the context, and one handler per connection run interleaved; a connection is known to
the shutdown only once the accept loop has put it into the map.
-/

namespace Hcdb.Server

open Hcdb.Lib.Transition

/-- Where the accept loop stands: in `Accept`, with a connection that is not in the
map yet, with one that is, in `wg.Wait`, or at one of the two returns. -/
inductive AcceptLoop where
  | accepting
  | accepted (conn : Nat)
  | added (conn : Nat)
  | waiting
  | returned
  | failed
  deriving DecidableEq, Repr

/-- Where the goroutine of the shutdown stands: before `ln.Close`, between it and
`closeAllConns`, or at its end. -/
inductive Closer where
  | idle
  | listenerClosed
  | finished
  deriving DecidableEq, Repr

/-- A handler: not started, in `handleConn`, or after one of its deferred calls
`conn.Close`, `removeConn` and `wg.Done`. -/
inductive Handler where
  | none
  | serving
  | connClosed
  | removed
  | done
  deriving DecidableEq, Repr

/-- `conns` is the map of the server, `closed` the connections on which `Close` was
called.  Connections are numbered as they are accepted. -/
structure ServeState where
  loop : AcceptLoop
  closer : Closer
  conns : Finset Nat
  closed : Finset Nat
  handler : Nat → Handler
  wg : Nat
  next : Nat

/-- The server listens, and nobody is connected. -/
def ServeState.start : ServeState where
  loop := .accepting
  closer := .idle
  conns := ∅
  closed := ∅
  handler _ := .none
  wg := 0
  next := 0

/-- The atomic steps.  `handlerReturns` is the end of the loop of `handleConn`, for
whatever reason, with the deferred `conn.Close`. -/
inductive ServeAct where
  | accept
  | acceptClosed
  | acceptFails
  | addConn
  | startHandler
  | waitReturns
  | closeListener
  | closeAllConns
  | handlerReturns (conn : Nat)
  | removeConn (conn : Nat)
  | handlerDone (conn : Nat)
  deriving DecidableEq, Repr

def ServeState.setHandler (s : ServeState) (conn : Nat) (h : Handler) : ServeState :=
  { s with handler := Function.update s.handler conn h }

/-- What each step does, and when it is possible. -/
inductive ServeStep : ServeState → ServeAct → ServeState → Prop
  | accept {s : ServeState} : s.loop = .accepting → s.closer = .idle →
      ServeStep s .accept { s with loop := .accepted s.next, next := s.next + 1 }
  | acceptClosed {s : ServeState} : s.loop = .accepting → s.closer ≠ .idle →
      ServeStep s .acceptClosed { s with loop := .waiting }
  | acceptFails {s : ServeState} : s.loop = .accepting →
      ServeStep s .acceptFails { s with loop := .failed }
  | addConn {s : ServeState} {conn : Nat} : s.loop = .accepted conn →
      ServeStep s .addConn { s with loop := .added conn, conns := insert conn s.conns }
  | startHandler {s : ServeState} {conn : Nat} : s.loop = .added conn →
      ServeStep s .startHandler
        { s.setHandler conn .serving with loop := .accepting, wg := s.wg + 1 }
  | waitReturns {s : ServeState} : s.loop = .waiting → s.wg = 0 →
      ServeStep s .waitReturns { s with loop := .returned }
  | closeListener {s : ServeState} : s.closer = .idle →
      ServeStep s .closeListener { s with closer := .listenerClosed }
  | closeAllConns {s : ServeState} : s.closer = .listenerClosed →
      ServeStep s .closeAllConns { s with closer := .finished, closed := s.closed ∪ s.conns }
  | handlerReturns {s : ServeState} {conn : Nat} : s.handler conn = .serving →
      ServeStep s (.handlerReturns conn)
        { s.setHandler conn .connClosed with closed := insert conn s.closed }
  | removeConn {s : ServeState} {conn : Nat} : s.handler conn = .connClosed →
      ServeStep s (.removeConn conn)
        { s.setHandler conn .removed with conns := s.conns.erase conn }
  | handlerDone {s : ServeState} {conn : Nat} : s.handler conn = .removed →
      ServeStep s (.handlerDone conn) { s.setHandler conn .done with wg := s.wg - 1 }

/-- Shutdown does not close the tracked connections while the accept loop holds one
that is not tracked yet. -/
def Timely (s : ServeState) (a : ServeAct) : Prop :=
  a = .closeAllConns → ∀ conn, s.loop ≠ .accepted conn

/-- Every connection that is tracked, and every one on which a handler waits for a
command, has been closed. -/
def ServeState.AllClosed (s : ServeState) : Prop :=
  (∀ conn ∈ s.conns, conn ∈ s.closed) ∧ ∀ conn, s.handler conn = .serving → conn ∈ s.closed

/-- A connection has no handler before the accept loop starts it, and a handler that
serves a connection finds it in the map. -/
structure Tracked (s : ServeState) : Prop where
  fresh : ∀ conn, s.next ≤ conn → s.handler conn = .none
  accepted : ∀ conn, s.loop = .accepted conn → conn < s.next ∧ s.handler conn = .none
  added : ∀ conn, s.loop = .added conn →
    conn < s.next ∧ s.handler conn = .none ∧ conn ∈ s.conns
  serving : ∀ conn, s.handler conn = .serving → conn ∈ s.conns

theorem tracked_start : Tracked .start where
  fresh _ _ := rfl
  accepted conn h := by simp [ServeState.start] at h
  added conn h := by simp [ServeState.start] at h
  serving conn h := by simp [ServeState.start] at h

theorem Tracked.setHandler {s : ServeState} (h : Tracked s) {conn : Nat} {phase : Handler}
    (hstarted : s.handler conn ≠ .none) (hphase : phase ≠ .serving) :
    Tracked (s.setHandler conn phase) where
  fresh c hc := by
    have hnone := h.fresh c hc
    have hne : c ≠ conn := fun heq => hstarted (heq ▸ hnone)
    exact (Function.update_of_ne hne _ _).trans hnone
  accepted c hc := by
    obtain ⟨hlt, hnone⟩ := h.accepted c hc
    have hne : c ≠ conn := fun heq => hstarted (heq ▸ hnone)
    exact ⟨hlt, (Function.update_of_ne hne _ _).trans hnone⟩
  added c hc := by
    obtain ⟨hlt, hnone, hmem⟩ := h.added c hc
    have hne : c ≠ conn := fun heq => hstarted (heq ▸ hnone)
    exact ⟨hlt, (Function.update_of_ne hne _ _).trans hnone, hmem⟩
  serving c hc := by
    by_cases heq : c = conn
    · rw [heq] at hc
      exact absurd ((Function.update_self _ _ _).symm.trans hc) hphase
    · exact h.serving c ((Function.update_of_ne heq _ _).symm.trans hc)

theorem Tracked.setLoop {s : ServeState} (h : Tracked s) {loop : AcceptLoop}
    (haccepted : ∀ conn, loop ≠ .accepted conn) (hadded : ∀ conn, loop ≠ .added conn) :
    Tracked { s with loop } where
  fresh := h.fresh
  accepted conn hconn := absurd hconn (haccepted conn)
  added conn hconn := absurd hconn (hadded conn)
  serving := h.serving

theorem Tracked.start_handler {s : ServeState} (h : Tracked s) {conn : Nat}
    (hloop : s.loop = .added conn) :
    Tracked { s.setHandler conn .serving with loop := .accepting, wg := s.wg + 1 } := by
  obtain ⟨hlt, -, hmem⟩ := h.added conn hloop
  refine ⟨fun c hc => ?_, by simp, by simp, fun c hc => ?_⟩
  · have hne : c ≠ conn := fun heq => absurd (heq ▸ hc) (not_le.mpr hlt)
    exact (Function.update_of_ne hne _ _).trans (h.fresh c hc)
  · by_cases heq : c = conn
    · exact heq ▸ hmem
    · exact h.serving c ((Function.update_of_ne heq _ _).symm.trans hc)

theorem Tracked.remove_conn {s : ServeState} (h : Tracked s) {conn : Nat}
    (hhandler : s.handler conn = .connClosed) :
    Tracked { s.setHandler conn .removed with conns := s.conns.erase conn } := by
  have hset : Tracked (s.setHandler conn .removed) := h.setHandler (by simp [hhandler]) (by simp)
  have hremoved : (s.setHandler conn .removed).handler conn = .removed := Function.update_self _ _ _
  refine ⟨hset.fresh, hset.accepted, fun c hc => ?_, fun c hc => ?_⟩
  · obtain ⟨hlt, hnone, hmem⟩ := hset.added c hc
    refine ⟨hlt, hnone, Finset.mem_erase.mpr ⟨fun heq => ?_, hmem⟩⟩
    rw [heq, hremoved] at hnone
    simp at hnone
  · refine Finset.mem_erase.mpr ⟨fun heq => ?_, hset.serving c hc⟩
    have hc : (s.setHandler conn .removed).handler c = .serving := hc
    rw [heq, hremoved] at hc
    simp at hc

theorem Tracked.step {s s' : ServeState} {a : ServeAct} (h : Tracked s) (hs : ServeStep s a s') :
    Tracked s' := by
  cases hs with
  | accept hloop hidle =>
      refine ⟨fun c hc => h.fresh c (Nat.le_of_succ_le hc), fun c hc => ?_, by simp, h.serving⟩
      obtain rfl := AcceptLoop.accepted.inj hc
      exact ⟨Nat.lt_succ_self _, h.fresh _ le_rfl⟩
  | acceptClosed => exact h.setLoop (by simp) (by simp)
  | acceptFails => exact h.setLoop (by simp) (by simp)
  | @addConn conn hloop =>
      obtain ⟨hlt, hnone⟩ := h.accepted conn hloop
      refine ⟨h.fresh, by simp, fun c hc => ?_, fun c hc => ?_⟩
      · obtain rfl := AcceptLoop.added.inj hc
        exact ⟨hlt, hnone, Finset.mem_insert_self _ _⟩
      · exact Finset.mem_insert_of_mem (h.serving c hc)
  | startHandler hloop => exact h.start_handler hloop
  | waitReturns => exact h.setLoop (by simp) (by simp)
  | closeListener => exact ⟨h.fresh, h.accepted, h.added, h.serving⟩
  | closeAllConns => exact ⟨h.fresh, h.accepted, h.added, h.serving⟩
  | @handlerReturns conn hhandler =>
      have hstarted : s.handler conn ≠ .none := by simp [hhandler]
      have hset : Tracked (s.setHandler conn .connClosed) := h.setHandler hstarted (by simp)
      obtain ⟨hfresh, haccepted, hadded, hserving⟩ := hset
      exact ⟨hfresh, haccepted, hadded, hserving⟩
  | removeConn hhandler => exact h.remove_conn hhandler
  | @handlerDone conn hhandler =>
      have hstarted : s.handler conn ≠ .none := by simp [hhandler]
      have hset : Tracked (s.setHandler conn .done) := h.setHandler hstarted (by simp)
      obtain ⟨hfresh, haccepted, hadded, hserving⟩ := hset
      exact ⟨hfresh, haccepted, hadded, hserving⟩

/-- After the shutdown the map holds closed connections only, and the accept loop gets
no further one. -/
structure Shut (s : ServeState) : Prop where
  closed : s.conns ⊆ s.closed
  loop : ∀ conn, s.loop ≠ .accepted conn

theorem shut_step {s s' : ServeState} {a : ServeAct} (h : s.closer = .finished → Shut s)
    (htimely : Timely s a) (hs : ServeStep s a s') : s'.closer = .finished → Shut s' := by
  intro hfinished
  cases hs with
  | accept hloop hidle =>
      have hfinished : s.closer = .finished := hfinished
      rw [hidle] at hfinished
      simp at hfinished
  | acceptClosed => exact ⟨(h hfinished).closed, by simp⟩
  | acceptFails => exact ⟨(h hfinished).closed, by simp⟩
  | addConn hloop => exact absurd hloop ((h hfinished).loop _)
  | startHandler => exact ⟨(h hfinished).closed, by simp⟩
  | waitReturns => exact ⟨(h hfinished).closed, by simp⟩
  | closeListener => simp at hfinished
  | closeAllConns => exact ⟨Finset.subset_union_right, htimely rfl⟩
  | handlerReturns =>
      exact ⟨(h hfinished).closed.trans (Finset.subset_insert _ _), (h hfinished).loop⟩
  | removeConn => exact ⟨(Finset.erase_subset _ _).trans (h hfinished).closed, (h hfinished).loop⟩
  | handlerDone => exact ⟨(h hfinished).closed, (h hfinished).loop⟩

/-- In every run in which the tracked connections are not closed while the accept loop
holds an untracked one, all connections of the server are closed from the end of the
shutdown on, wherever the accept loop is. -/
theorem shutdown_closes_all {s : ServeState} (h : Reaches ServeStep Timely .start s)
    (hfinished : s.closer = .finished) : s.AllClosed := by
  have hinv : Tracked s ∧ (s.closer = .finished → Shut s) := by
    have hstart : Tracked .start ∧ (ServeState.start.closer = .finished → Shut .start) :=
      ⟨tracked_start, by simp [ServeState.start]⟩
    refine Reaches.invariant (fun s => Tracked s ∧ (s.closer = .finished → Shut s)) hstart
      (fun s a s' hinv htimely hs => ?_) h
    exact ⟨hinv.1.step hs, shut_step hinv.2 htimely hs⟩
  have hclosed := (hinv.2 hfinished).closed
  exact ⟨fun conn hconn => hclosed hconn, fun conn hconn => hclosed (hinv.1.serving conn hconn)⟩

/-- An idle connection is tracked and closed by the shutdown. -/
theorem shutdown_closes_all_one :
    ∃ s, Reaches ServeStep Timely .start s ∧ s.closer = .finished ∧ s.loop = .waiting ∧
      s.handler 0 = .serving ∧ s.AllClosed := by
  have h₁ : Reaches ServeStep Timely .start _ := .step .start (by simp [Timely]) (.accept rfl rfl)
  have h₂ := h₁.step (by simp [Timely]) (.addConn rfl)
  have h₃ := h₂.step (by simp [Timely]) (.startHandler rfl)
  have h₄ := h₃.step (by simp [Timely]) (.closeListener rfl)
  have h₅ := h₄.step (by simp [Timely]) (.closeAllConns rfl)
  have h₆ := h₅.step (by simp [Timely]) (.acceptClosed rfl (by simp))
  exact ⟨_, h₆, rfl, rfl, rfl, shutdown_closes_all h₆ rfl⟩

/-- The whole shutdown runs between `Accept` and `addConn`: the connection is tracked
after the last time anyone looks, its handler waits for a command, and so does the
accept loop for the handler. -/
theorem shutdown_misses_accepted :
    ∃ s, Reaches ServeStep (fun _ _ => True) .start s ∧ s.closer = .finished ∧
      s.loop = .waiting ∧ 0 ∈ s.conns ∧ 0 ∉ s.closed ∧ s.handler 0 = .serving ∧ s.wg = 1 := by
  have h₁ : Reaches ServeStep (fun _ _ => True) .start _ := .step .start trivial (.accept rfl rfl)
  have h₂ := h₁.step trivial (.closeListener rfl)
  have h₃ := h₂.step trivial (.closeAllConns rfl)
  have h₄ := h₃.step trivial (.addConn rfl)
  have h₅ := h₄.step trivial (.startHandler rfl)
  have h₆ := h₅.step trivial (.acceptClosed rfl (by simp [ServeState.setHandler]))
  refine ⟨_, h₆, rfl, rfl, ?_, ?_, rfl, rfl⟩
  · exact Finset.mem_insert_self _ _
  · simp [ServeState.start, ServeState.setHandler]

end Hcdb.Server
