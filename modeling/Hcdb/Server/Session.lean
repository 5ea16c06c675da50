import Hcdb.Server.Connections

/-!
What one client sees of its connection, whatever the other connections do: its commands
are answered one by one in the order in which they were sent, by the steps that its
handler takes on the process between those of the others, and a command of which only a
part arrives is not executed.
-/

namespace Hcdb.Server

open Hcdb.Lib.ByteString
open Hcdb.Lib.Framing
open Hcdb.Lib.Simulation
open Hcdb.Base
open Hcdb.Db
open Hcdb.Resp
open Hcdb.Sstable (SstErr)

/-- The steps of one handler, from each of which the next one goes on. -/
inductive Leads (w : Work) : List (Work × Work) → Work → Prop
  | stay : Leads w [] w
  | turn {turns w' w''} : Leads w turns w' → Leads w (turns ++ [(w', w'')]) w''

/-- The steps of all handlers in the order in which they were taken, each of them on the
store that the one before has left. -/
inductive Journal {Cid σ : Type} (step : σ → Work → σ → Work → Prop) (start : σ) :
    List (Cid × Work × Work) → σ → Prop
  | start : Journal step start [] start
  | turn {journal store c w store' w'} : Journal step start journal store →
      step store w store' w' → Journal step start (journal ++ [(c, w, w')]) store'

/-- The steps of the handler of this connection. -/
def turnsOf {Cid : Type} [DecidableEq Cid] (c : Cid) (journal : List (Cid × Work × Work)) :
    List (Work × Work) :=
  (journal.filter fun turn => turn.1 = c).map Prod.snd

theorem turnsOf_turn {Cid : Type} [DecidableEq Cid] (c d : Cid) (w w' : Work)
    (journal : List (Cid × Work × Work)) :
    turnsOf c (journal ++ [(d, w, w')]) = turnsOf c journal ++ if d = c then [(w, w')] else [] := by
  rw [turnsOf, List.filter_append, List.map_append, ← turnsOf]
  split
  · next heq => simp [heq]
  · next hne => simp [hne]

/-- A command that was executed: the steps that its handler took lead to the reply. -/
structure Exchange (sys : SystemTexts) where
  cmd : Value
  turns : List (Work × Work)
  reply : Value
  leads : Leads (.task (dispatchTask sys cmd)) turns (.task (.reply reply))

/-- Calls of `Read` that take these values off the stream one after the other. -/
inductive ReadsTo (stream : Bytes) : List Value → Bytes → Prop
  | start : ReadsTo stream [] stream
  | next {cmds cmd rest rest'} : ReadsTo stream cmds rest → read rest = .ok (cmd, rest') →
      ReadsTo stream (cmds ++ [cmd]) rest'

theorem ReadsTo.readAll {stream rest : Bytes} {cmds all : List Value} {e : Resp.ReadErr}
    (h : ReadsTo stream cmds rest) (hall : ReadAll stream all e) :
    ∃ more, all = cmds ++ more ∧ ReadAll rest more e := by
  induction h with
  | start => exact ⟨all, rfl, hall⟩
  | @next cmds cmd rest rest' _ hread ih =>
      obtain ⟨more, rfl, hmore⟩ := ih
      cases hmore with
      | stop herror =>
          rw [hread] at herror
          simp at herror
      | value hvalue hmore =>
          rw [hread] at hvalue
          obtain ⟨rfl, rfl⟩ := Prod.mk.inj (Except.ok.inj hvalue)
          exact ⟨_, by simp, hmore⟩

/-- What was read of the first bytes of a stream of commands are the first of those that
are there as a whole, and all of them once there is an error. -/
theorem ReadsTo.take {stream rest : Bytes} {done cmds : List Value}
    (h : ReadsTo stream done rest) (hcmds : ∀ cmd ∈ cmds, WellFormed cmd) {len : Nat}
    (hstream : stream = (cmds.map write).flatten.take len) :
    done.length ≤ wholeCount len (cmds.map write) ∧ cmds.take done.length = done ∧
      ((∃ e, read rest = .error e) → done.length = wholeCount len (cmds.map write)) := by
  obtain ⟨e, hall⟩ := readAll_take hcmds len
  rw [← hstream] at hall
  obtain ⟨more, heq, hmore⟩ := h.readAll hall
  have hsum := congrArg List.length heq
  have hwhole : wholeCount len (cmds.map write) ≤ cmds.length :=
    (wholeCount_le _ _).trans_eq (List.length_map _)
  rw [List.length_take, Nat.min_eq_left hwhole, List.length_append] at hsum
  refine ⟨by omega, ?_, ?_⟩
  · have htake := congrArg (List.take done.length) heq
    rwa [List.take_take, Nat.min_eq_left (by omega), List.take_left] at htake
  · rintro ⟨e', herror⟩
    cases hmore with
    | stop => simpa using hsum.symm
    | value hvalue => simp [herror] at hvalue

/-- The exchanges of a connection, and what was done for the command in work. -/
inductive Session (sys : SystemTexts) (stream : Bytes) (turns : List (Work × Work)) :
    List (Exchange sys) → List (Work × Work) → Conn → Prop
  | waiting {done conn} : ReadsTo stream (done.map Exchange.cmd) conn.input →
      turns = (done.map Exchange.turns).flatten →
      conn.output = (done.map fun x => write x.reply).flatten → conn.work = none →
      (conn.closed = true → ∃ e, read conn.input = .error e) → Session sys stream turns done [] conn
  | working {done current conn cmd w} :
      ReadsTo stream (done.map Exchange.cmd ++ [cmd]) conn.input →
      turns = (done.map Exchange.turns).flatten ++ current →
      conn.output = (done.map fun x => write x.reply).flatten → conn.work = some w →
      Leads (.task (dispatchTask sys cmd)) current w → conn.closed = false →
      Session sys stream turns done current conn

section Handlers

variable {Cid : Type} [DecidableEq Cid] {sys : SystemTexts}
  {calls : Process → Work → Process → Work → Prop} {p : Process}
  {n n' : Net Cid Process} {event : Option (NetEvent Cid)} {inputs : Cid → Bytes}

/-- One journal for all connections, and a session for each of them. -/
def Net.Recorded (sys : SystemTexts) (calls : Process → Work → Process → Work → Prop)
    (p : Process) (inputs : Cid → Bytes) (n : Net Cid Process) : Prop :=
  ∃ journal, Journal calls p journal n.store ∧ ∀ c, ∃ done current,
    Session sys (inputs c) (turnsOf c journal) done current (n.conn c)

theorem Net.Recorded.set (h : n.Recorded sys calls p inputs) {c : Cid} {conn : Conn}
    (hconn : ∀ turns done current, Session sys (inputs c) turns done current (n.conn c) →
      ∃ done' current', Session sys (inputs c) turns done' current' conn) :
    (n.set c conn).Recorded sys calls p inputs := by
  obtain ⟨journal, hjournal, hsession⟩ := h
  refine ⟨journal, hjournal, fun d => ?_⟩
  obtain ⟨done, current, hd⟩ := hsession d
  by_cases hdc : d = c
  · subst hdc
    simpa [Net.set] using hconn _ done current hd
  · exact ⟨done, current, by simpa [Net.set, Function.update_of_ne hdc] using hd⟩

theorem Net.Recorded.step (h : n.Recorded sys calls p inputs)
    (hstep : NetStep sys calls n event n') : n'.Recorded sys calls p inputs := by
  cases hstep with
  | @read c cmd rest hwork hopen hread =>
      refine h.set fun turns done current hsession => ?_
      cases hsession with
      | waiting hreads hturns houtput _ _ =>
          exact ⟨done, [], .working (hreads.next hread) (hturns.trans (List.append_nil _).symm)
            houtput rfl .stay hopen⟩
      | working _ _ _ hsome => simp [hwork] at hsome
  | @hangUp c e hwork hread _ =>
      refine h.set fun turns done current hsession => ?_
      cases hsession with
      | waiting hreads hturns houtput _ _ =>
          exact ⟨done, [], .waiting hreads hturns houtput hwork fun _ => ⟨e, hread⟩⟩
      | working _ _ _ hsome => simp [hwork] at hsome
  | @work c w store w' hwork hcall =>
      -- the only step that goes into the journal
      obtain ⟨journal, hjournal, hsession⟩ := h
      refine ⟨journal ++ [(c, w, w')], hjournal.turn hcall, fun d => ?_⟩
      obtain ⟨done, current, hd⟩ := hsession d
      rw [turnsOf_turn]
      by_cases hdc : d = c
      · subst hdc
        cases hd with
        | waiting _ _ _ hnone => simp [hwork] at hnone
        | working hreads hturns houtput hsome hleads hopen =>
            rw [hwork] at hsome
            obtain rfl := Option.some.inj hsome
            refine ⟨done, current ++ [(w, w')], ?_⟩
            simp only [Net.set, Function.update_self, if_true]
            exact .working hreads (by rw [hturns, List.append_assoc]) houtput rfl hleads.turn hopen
      · rw [if_neg (Ne.symm hdc), List.append_nil]
        exact ⟨done, current, by simpa [Net.set, Function.update_of_ne hdc] using hd⟩
  | @reply c v hwork =>
      refine h.set fun turns done current hsession => ?_
      cases hsession with
      | waiting _ _ _ hnone => simp [hwork] at hnone
      | @working _ _ cmd _ hreads hturns houtput hsome hleads hopen =>
          rw [hwork] at hsome
          obtain rfl := Option.some.inj hsome
          refine ⟨done ++ [⟨cmd, current, v, hleads⟩], [], .waiting ?_ ?_ ?_ rfl ?_⟩
          · simpa using hreads
          · simpa using hturns
          · simp [houtput]
          · simp [hopen]

end Handlers

end Hcdb.Server
