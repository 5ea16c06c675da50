import Hcdb.Db.ConcurrentMap
import Hcdb.Db.OpenScan
import Hcdb.Server.Dispatch

/-!
Connections side by side.  Every connection has a handler of its own that reads a
command, makes the calls of it on the database and writes the reply; between any two
calls the handlers of other connections may make theirs.
-/

namespace Hcdb.Server

open Hcdb.Lib.ByteString
open Hcdb.Lib.Framing
open Hcdb.Lib.Simulation
open Hcdb.Base
open Hcdb.Db
open Hcdb.Resp
open Hcdb.Sstable (SstErr Table Reading)
open Hcdb.Compaction (Shelved)

/-- What a handler still has to do for a command: the next call on the database, and how
it goes on with the result.  Of a scan that is all the pairs that the iterator yields. -/
inductive Task where
  | reply (v : Value)
  | put (key value : Bytes) (k : Except DbErr Unit → Task)
  | delete (key : Bytes) (k : Except DbErr Unit → Task)
  | get (key : Bytes) (k : Option Bytes → Task)
  | scan (lowerBound upperBound : Bytes) (k : Except SstErr (List (Bytes × Bytes)) → Task)

section Tasks

variable (sys : SystemTexts)

def setTask : List Value → Task
  | [key, value] => .put key.str value.str fun
      | .error e => .reply (errorReply sys e)
      | .ok () => .reply (.simpleString (bytesOf "OK"))
  | _ => .reply (.error (bytesOf "ERR wrong number of arguments for 'SET'"))

def getTask : List Value → Task
  | [key] => .get key.str fun
      | none => .reply .nullBulkString
      | some val => .reply (.bulkString val)
  | _ => .reply (.error (bytesOf "ERR wrong number of arguments for 'GET'"))

/-- The loop of `doDel`: `Get` and `Delete` are two calls. -/
def delLoopTask (removed : Int) : List Value → Task
  | [] => .reply (.integer removed)
  | a :: args => .get a.str fun found => .delete a.str fun
      | .error e => .reply (errorReply sys e)
      | .ok () => delLoopTask (if found.isSome then removed + 1 else removed) args

def delTask (args : List Value) : Task :=
  if args.isEmpty then .reply (.error (bytesOf "ERR wrong number of arguments for 'DEL'"))
  else delLoopTask sys 0 args

def scanTask : List Value → Task
  | [lowerBound, upperBound] => .scan lowerBound.str upperBound.str fun
      | .error e => .reply (errorReply sys (.sst e))
      | .ok pairs => .reply
          (.array (pairs.flatMap fun (key, val) => [.bulkString key, .bulkString val]))
  | _ => .reply (.error (bytesOf "ERR wrong number of arguments for 'SCAN'"))

/-- What the handler of a connection does for a command. -/
def dispatchTask (cmd : Value) : Task :=
  match cmd.elems with
  | [] => .reply (.error (bytesOf "ERR expected a non-empty command array"))
  | name :: args =>
      if (name :: args).any fun e => !e.isBulkString then
        .reply (.error (bytesOf "ERR command elements must be bulk strings"))
      else
        match commandOf (toUpper name.str) with
        | some .set => setTask sys args
        | some .get => getTask args
        | some .del => delTask sys args
        | some .scan => scanTask sys args
        | some .ping => .reply (doPing args)
        | none => .reply (.error (bytesOf "ERR unknown command '" ++ name.str ++ bytesOf "'"))

variable [Runtime]

/-- A task on its own, with the environment of each write it makes. -/
def Task.run (env : Nat → Env) : Task → Nat → DB → DB × Value
  | .reply v, _, db => (db, v)
  | .put key value k, i, db =>
      (k (db.put (env i) key value).2).run env (i + 1) (db.put (env i) key value).1
  | .delete key k, i, db =>
      (k (db.delete (env i) key).2).run env (i + 1) (db.delete (env i) key).1
  | .get key k, i, db => (k (db.get key)).run env i db
  | .scan lowerBound upperBound k, i, db =>
      (k ((db.scan lowerBound (some upperBound)).map MergeIterator.drain)).run env i db

theorem setTask_run (env : Nat → Env) (db : DB) (args : List Value) :
    (setTask sys args).run env 0 db = doSet sys env db args := by
  rcases args with _ | ⟨key, _ | ⟨value, _ | ⟨x, args⟩⟩⟩
  · rfl
  · rfl
  · simp only [setTask, doSet, Task.run]
    rcases db.put (env 0) key.str value.str with ⟨db', e | u⟩
    · rfl
    · rfl
  · rfl

theorem getTask_run (env : Nat → Env) (db : DB) (args : List Value) :
    (getTask args).run env 0 db = (db, doGet db args) := by
  rcases args with _ | ⟨key, _ | ⟨x, args⟩⟩
  · rfl
  · simp only [getTask, doGet, Task.run]
    rcases db.get key.str with _ | val
    · rfl
    · rfl
  · rfl

theorem delLoopTask_run (env : Nat → Env) (args : List Value) (removed : Int) (i : Nat) (db : DB) :
    (delLoopTask sys removed args).run env i db = delLoop sys env db i removed args := by
  induction args generalizing removed i db with
  | nil => rfl
  | cons a args ih =>
      simp only [delLoopTask, delLoop, Task.run]
      rcases db.delete (env i) a.str with ⟨db', e | u⟩
      · rfl
      · exact ih _ _ _

theorem delTask_run (env : Nat → Env) (db : DB) (args : List Value) :
    (delTask sys args).run env 0 db = doDel sys env db args := by
  rcases args with _ | ⟨a, args⟩
  · rfl
  · rw [delTask, doDel, if_neg (by simp), if_neg (by simp)]
    exact delLoopTask_run sys env (a :: args) 0 0 db

theorem scanTask_run (env : Nat → Env) (db : DB) (args : List Value) :
    (scanTask sys args).run env 0 db = (db, doScan sys db args) := by
  rcases args with _ | ⟨lowerBound, _ | ⟨upperBound, _ | ⟨x, args⟩⟩⟩
  · rfl
  · rfl
  · simp only [scanTask, doScan, Task.run]
    rcases db.scan lowerBound.str (some upperBound.str) with e | it
    · rfl
    · rfl
  · rfl

/-- A handler that nobody interrupts computes `dispatch`. -/
theorem dispatchTask_run (env : Nat → Env) (db : DB) (cmd : Value) :
    (dispatchTask sys cmd).run env 0 db = dispatch sys env db cmd := by
  unfold dispatchTask dispatch
  rcases cmd.elems with _ | ⟨name, args⟩
  · rfl
  · simp only
    split
    · rfl
    · rcases commandOf (toUpper name.str) with _ | command
      · rfl
      · cases command with
        | set => exact setTask_run sys env db args
        | get => exact getTask_run env db args
        | del => exact delTask_run sys env db args
        | scan => exact scanTask_run sys env db args
        | ping => rfl

end Tasks

/-- A handler in `dispatch`: before its next call, or with an iterator out of which it is
getting the pairs. -/
inductive Work where
  | task (t : Task)
  | reading (prog : Reading (List (Bytes × Bytes)))
      (k : Except SstErr (List (Bytes × Bytes)) → Task)

section Calls

variable [Runtime]

/-- One step of a handler on the process, under a condition on the writes and one on what
the loads of a scan get.  A scan is under the lock only until its iterator is open. -/
inductive Work.Step (may : DB → Op → Env → Prop) (loads : Except SstErr (List Entry) → Prop) :
    Process → Work → Process → Work → Prop
  | put {p key value k env} : may p.db (.put key value) env →
      Step may loads p (.task (.put key value k)) (p.call env (.put key value))
        (.task (k (p.db.put env key value).2))
  | delete {p key k env} : may p.db (.delete key) env →
      Step may loads p (.task (.delete key k)) (p.call env (.delete key))
        (.task (k (p.db.delete env key).2))
  | get {p key k} : Step may loads p (.task (.get key k))
      { p with cache := (p.getAt key seqNumMax).2 } (.task (k (p.getAt key seqNumMax).1))
  | scan {p lowerBound upperBound k m} :
      (p.scanAt lowerBound (some upperBound) seqNumMax).1 = .ok m →
      Step may loads p (.task (.scan lowerBound upperBound k))
        { p with cache := (p.scanAt lowerBound (some upperBound) seqNumMax).2 }
        (.reading (Cached.drainLoop m.left m) k)
  | refuse {p lowerBound upperBound k e} :
      (p.scanAt lowerBound (some upperBound) seqNumMax).1 = .error e →
      Step may loads p (.task (.scan lowerBound upperBound k))
        { p with cache := (p.scanAt lowerBound (some upperBound) seqNumMax).2 }
        (.task (k (.error e)))
  | load {p q f k} : loads (p.respond p.cache q).1 →
      Step may loads p (.reading (.ask q f) k) { p with cache := (p.respond p.cache q).2 }
        (.reading (f (p.respond p.cache q).1) k)
  | scanned {p pairs k} :
      Step may loads p (.reading (.done pairs) k) p (.task (k (.ok pairs)))

/-- One call of a handler on a map. -/
inductive Work.MapStep : Contents → Work → Contents → Work → Prop
  | put {contents key value k} : (Op.put key value).check = .ok () →
      MapStep contents (.task (.put key value k)) ((Op.put key value).applyTo contents)
        (.task (k (.ok ())))
  | refusePut {contents key value k e} : (Op.put key value).check = .error e →
      MapStep contents (.task (.put key value k)) contents (.task (k (.error e)))
  | delete {contents key k} : (Op.delete key).check = .ok () →
      MapStep contents (.task (.delete key k)) ((Op.delete key).applyTo contents)
        (.task (k (.ok ())))
  | refuseDelete {contents key k e} : (Op.delete key).check = .error e →
      MapStep contents (.task (.delete key k)) contents (.task (k (.error e)))
  | get {contents key k} :
      MapStep contents (.task (.get key k)) contents (.task (k (contents key)))
  | scan {contents lowerBound upperBound k pairs} :
      contents.IsScan lowerBound (some upperBound) pairs →
      MapStep contents (.task (.scan lowerBound upperBound k)) contents (.task (k (.ok pairs)))

/-- The call meets no fault, its compaction keeps recency, and there is a sequence
number for it. -/
def Steady (clock : Nat → Nat) (db : DB) (op : Op) (env : Env) : Prop :=
  ∃ stat, env = healthy clock stat ∧ CallKeepsRecency clock db ⟨op, stat⟩ ∧
    (op.write db).seqNum ≤ seqNumMax

/-- The load has found the block. -/
def Loaded (res : Except SstErr (List Entry)) : Prop := ∀ e, res ≠ .error e

/-- A process in order, the map that it stands for, and what its tables were made of. -/
structure ActsAs (clock : Nat → Nat) (p : Process) (files : Nat → List Entry)
    (contents : Contents) : Prop where
  maps : ∃ ts, Maps clock p.db ts contents
  sound : p.Sound clock files

/-- A handler that is getting the pairs of a scan out of its iterator is seen as one that
has them. -/
inductive Work.SeenAs (clock : Nat → Nat) (n : Nat) (files : Nat → List Entry) :
    Work → Work → Prop
  | task {t} : SeenAs clock n files (.task t) (.task t)
  | reading {prog pairs k} : Settles clock n files prog pairs →
      SeenAs clock n files (.reading prog k) (.task (k (.ok pairs)))

variable {clock : Nat → Nat} {n n' : Nat} {p p' : Process} {w w' v : Work}
  {files files' : Nat → List Entry} {contents : Contents}

theorem Work.SeenAs.mono (h : w.SeenAs clock n files v) (hn : n ≤ n')
    (hsame : Set.EqOn files' files (Set.Iio n)) : w.SeenAs clock n' files' v := by
  cases h with
  | task => exact .task
  | reading hprog => exact .reading (hprog.mono hn hsame)

theorem ActsAs.shelved (h : ActsAs clock p files contents) :
    Shelved p.db.dir p.db.sstables := by
  obtain ⟨ts, hmaps⟩ := h.maps
  refine ⟨?_, fun sst hsst => ?_⟩
  · rw [hmaps.sstables, List.map_map]
    exact hmaps.nodup
  · rw [hmaps.sstables] at hsst
    obtain ⟨t, ht, rfl⟩ := List.mem_map.mp hsst
    rw [show t.sst.filePath = t.name from rfl, hmaps.held t ht]
    simp

/-- A write changes the map as its reply says. -/
theorem ActsAs.call (h : ActsAs clock p files contents) (hclock : StrictMono clock) {op : Op}
    {env : Env} (hmay : Steady clock p.db op env) :
    ∃ files' contents', ActsAs clock (p.call env op) files' contents' ∧
      p.db.ticks ≤ (p.call env op).db.ticks ∧ Set.EqOn files' files (Set.Iio p.db.ticks) ∧
      (op.check = .ok () ∧ (op.exec env p.db).2 = .ok () ∧ contents' = op.applyTo contents ∨
        ∃ e, op.check = .error e ∧ (op.exec env p.db).2 = .error e ∧ contents' = contents) := by
  obtain ⟨stat, rfl, hkept, hseq⟩ := hmay
  obtain ⟨ts, hmaps⟩ := h.maps
  have hstamps : (healthy clock stat).clock = clock := rfl
  obtain ⟨files', hsound, hticks, hsame⟩ := h.sound.call hclock hstamps op
  cases hcheck : op.check with
  | error e =>
      have hexec := Op.exec_refused hcheck (healthy clock stat) p.db
      have hdb : (p.call (healthy clock stat) op).db = p.db := congrArg Prod.fst hexec
      exact ⟨files', contents, ⟨⟨ts, hdb.symm ▸ hmaps⟩, hsound⟩, hticks, hsame,
        .inr ⟨e, rfl, congrArg Prod.snd hexec, rfl⟩⟩
  | ok u =>
      obtain ⟨db', ts', heq, hmaps'⟩ := hmaps.step hclock (Op.check_eq_ok.mp hcheck) hseq hkept
      have hexec : op.exec (healthy clock stat) p.db = (db', .ok ()) := heq
      have hdb : (p.call (healthy clock stat) op).db = db' := congrArg Prod.fst hexec
      exact ⟨files', _, ⟨⟨ts', hdb ▸ hmaps'⟩, hsound⟩, hticks, hsame,
        .inl ⟨rfl, congrArg Prod.snd hexec, rfl⟩⟩

theorem Work.Step.maps (hstep : Work.Step (Steady clock) Loaded p w p' w')
    (hclock : StrictMono clock) (h : ActsAs clock p files contents)
    (hseen : w.SeenAs clock p.db.ticks files v) :
    ∃ files' contents' v', ActsAs clock p' files' contents' ∧ p.db.ticks ≤ p'.db.ticks ∧
      Set.EqOn files' files (Set.Iio p.db.ticks) ∧ w'.SeenAs clock p'.db.ticks files' v' ∧
      (contents' = contents ∧ v' = v ∨ Work.MapStep contents v contents' v') := by
  have hsame : Set.EqOn files files (Set.Iio p.db.ticks) := Set.eqOn_refl _ _
  obtain ⟨ts, hmaps⟩ := h.maps
  have hreadable : ∀ sst ∈ p.db.sstables, p.Readable sst :=
    fun sst hsst => ⟨h.sound.listed hsst, h.shelved.present sst hsst⟩
  have hreads := h.sound.readsUncached hclock h.shelved
  cases hstep with
  | @put key value k env hmay =>
      cases hseen
      obtain ⟨files', contents', hacts, hticks, hsame', hreply⟩ := h.call hclock hmay
      refine ⟨files', contents', _, hacts, hticks, hsame', .task, .inr ?_⟩
      rcases hreply with ⟨hcheck, hok, rfl⟩ | ⟨e, hcheck, herror, rfl⟩
      · rw [show (p.db.put env key value).2 = .ok () from hok]
        exact .put hcheck
      · rw [show (p.db.put env key value).2 = .error e from herror]
        exact .refusePut hcheck
  | @delete key k env hmay =>
      cases hseen
      obtain ⟨files', contents', hacts, hticks, hsame', hreply⟩ := h.call hclock hmay
      refine ⟨files', contents', _, hacts, hticks, hsame', .task, .inr ?_⟩
      rcases hreply with ⟨hcheck, hok, rfl⟩ | ⟨e, hcheck, herror, rfl⟩
      · rw [show (p.db.delete env key).2 = .ok () from hok]
        exact .delete hcheck
      · rw [show (p.db.delete env key).2 = .error e from herror]
        exact .refuseDelete hcheck
  | @get key k =>
      cases hseen
      have hsound := h.sound.afterRun hclock
        (computes_getFrom p.db.memtable hreadable key seqNumMax)
      have hget : (p.getAt key seqNumMax).1 = contents key :=
        (hreads.1 key seqNumMax).trans (hmaps.get_eq key)
      rw [hget]
      exact ⟨files, contents, _, ⟨⟨ts, hmaps⟩, hsound⟩, le_rfl, hsame, .task, .inr .get⟩
  | @scan lowerBound upperBound k m hopen =>
      cases hseen
      obtain ⟨hsound, hscan, hprog⟩ := h.sound.opens hclock h.shelved hopen
      obtain ⟨m', hm', hpairs⟩ := hmaps.scan_eq lowerBound (some upperBound)
      rw [DB.scan, hscan] at hm'
      obtain rfl := Except.ok.inj hm'
      exact ⟨files, contents, _, ⟨⟨ts, hmaps⟩, hsound⟩, le_rfl, hsame, .reading hprog,
        .inr (.scan hpairs)⟩
  | @refuse lowerBound upperBound k e herror =>
      obtain ⟨m, hm, -⟩ := hmaps.scan_eq lowerBound (some upperBound)
      rw [DB.scan, ← (hreads.2 lowerBound (some upperBound) seqNumMax).1, herror] at hm
      simp at hm
  | load hload =>
      cases hseen with
      | reading hprog =>
          obtain ⟨hsound, hrest⟩ := h.sound.load hclock hprog
          exact ⟨files, contents, _, ⟨⟨ts, hmaps⟩, hsound⟩, le_rfl, hsame, .reading (hrest hload),
            .inl ⟨rfl, rfl⟩⟩
  | scanned =>
      cases hseen with
      | reading hprog =>
          rw [hprog.done]
          exact ⟨files, contents, _, h, le_rfl, hsame, .task, .inl ⟨rfl, rfl⟩⟩

end Calls

/-- A connection: what the client will send and has not been read, what was written to
it, and the command in work, if the handler is not in `resp.Read`. -/
structure Conn where
  input : Bytes
  output : Bytes
  work : Option Work
  closed : Bool

/-- The store and the connections. -/
structure Net (Cid σ : Type) where
  store : σ
  conn : Cid → Conn

def Net.start {Cid σ : Type} (store : σ) (inputs : Cid → Bytes) : Net Cid σ where
  store
  conn c := { input := inputs c, output := [], work := none, closed := false }

/-- What can be seen of the connections from outside. -/
inductive NetEvent (Cid : Type) where
  | read (c : Cid) (cmd : Value)
  | hangUp (c : Cid)
  | reply (c : Cid) (v : Value)

section Handlers

variable {Cid σ : Type} [DecidableEq Cid]

def Net.set (n : Net Cid σ) (c : Cid) (conn : Conn) : Net Cid σ :=
  { n with conn := Function.update n.conn c conn }

/-- The loop of `handleConn`, one step of one connection at a time.  An error of `Read`
ends the handler; that of an overflowing length ends the process. -/
inductive NetStep (sys : SystemTexts) (step : σ → Work → σ → Work → Prop) :
    Net Cid σ → Option (NetEvent Cid) → Net Cid σ → Prop
  | read {n c cmd rest} : (n.conn c).work = none → (n.conn c).closed = false →
      Resp.read (n.conn c).input = .ok (cmd, rest) →
      NetStep sys step n (some (.read c cmd))
        (n.set c { n.conn c with input := rest, work := some (.task (dispatchTask sys cmd)) })
  | hangUp {n c e} : (n.conn c).work = none → Resp.read (n.conn c).input = .error e →
      e ≠ .panic →
      NetStep sys step n (some (.hangUp c)) (n.set c { n.conn c with closed := true })
  | work {n c w store w'} : (n.conn c).work = some w → step n.store w store w' →
      NetStep sys step n none { n.set c { n.conn c with work := some w' } with store }
  | reply {n c v} : (n.conn c).work = some (.task (.reply v)) →
      NetStep sys step n (some (.reply c v))
        (n.set c { n.conn c with output := (n.conn c).output ++ write v, work := none })

variable [Runtime] {clock : Nat → Nat} {sys : SystemTexts}

/-- The connection on the database and on the map. -/
structure Conn.SeenAs (clock : Nat → Nat) (ticks : Nat) (files : Nat → List Entry)
    (conn conn' : Conn) : Prop where
  input : conn'.input = conn.input
  output : conn'.output = conn.output
  closed : conn'.closed = conn.closed
  work : Option.Rel (Work.SeenAs clock ticks files) conn.work conn'.work

section Conns

variable {ticks ticks' : Nat} {files files' : Nat → List Entry} {conn conn' : Conn}

theorem Conn.SeenAs.mono (h : conn.SeenAs clock ticks files conn') (hticks : ticks ≤ ticks')
    (hsame : Set.EqOn files' files (Set.Iio ticks)) :
    conn.SeenAs clock ticks' files' conn' where
  input := h.input
  output := h.output
  closed := h.closed
  work := by
    have hwork := h.work
    generalize conn.work = w at hwork ⊢
    generalize conn'.work = v at hwork ⊢
    cases hwork with
    | some hseen => exact .some (hseen.mono hticks hsame)
    | none => exact .none

theorem Conn.SeenAs.work_none (h : conn.SeenAs clock ticks files conn')
    (hnone : conn.work = none) : conn'.work = none := by
  have hwork := h.work
  rw [hnone] at hwork
  generalize conn'.work = work at hwork
  cases hwork
  rfl

theorem Conn.SeenAs.work_some (h : conn.SeenAs clock ticks files conn') {w : Work}
    (hsome : conn.work = some w) :
    ∃ v, conn'.work = some v ∧ w.SeenAs clock ticks files v := by
  have hwork := h.work
  rw [hsome] at hwork
  generalize conn'.work = work at hwork
  cases hwork with
  | some hseen => exact ⟨_, rfl, hseen⟩

end Conns

/-- The same connections on the database and on the map it stands for. -/
structure Alike (clock : Nat → Nat) (files : Nat → List Entry) (n : Net Cid Process)
    (n' : Net Cid Contents) : Prop where
  acts : ActsAs clock n.store files n'.store
  conn : ∀ c, (n.conn c).SeenAs clock n.store.db.ticks files (n'.conn c)

section Nets

variable {files : Nat → List Entry} {n m : Net Cid Process} {n' : Net Cid Contents}

theorem Alike.advance (h : Alike clock files n n') {files' : Nat → List Entry} {store : Process}
    {contents : Contents} (hacts : ActsAs clock store files' contents)
    (hticks : n.store.db.ticks ≤ store.db.ticks)
    (hsame : Set.EqOn files' files (Set.Iio n.store.db.ticks)) {c : Cid} {conn conn' : Conn}
    (hseen : conn.SeenAs clock store.db.ticks files' conn') :
    Alike clock files' { n.set c conn with store } { n'.set c conn' with store := contents } where
  acts := hacts
  conn d := by
    by_cases hd : d = c
    · subst hd
      simpa [Net.set] using hseen
    · simpa [Net.set, Function.update_of_ne hd] using (h.conn d).mono hticks hsame

theorem Alike.set (h : Alike clock files n n') {c : Cid} {conn conn' : Conn}
    (hseen : conn.SeenAs clock n.store.db.ticks files conn') :
    Alike clock files (n.set c conn) (n'.set c conn') :=
  h.advance h.acts le_rfl (Set.eqOn_refl _ _) hseen

theorem Alike.step {event : Option (NetEvent Cid)} (h : Alike clock files n n')
    (hclock : StrictMono clock)
    (hstep : NetStep sys (Work.Step (Steady clock) Loaded) n event m) :
    ∃ m' files', Answers (NetStep sys Work.MapStep) n' event m' ∧ Alike clock files' m m' := by
  cases hstep with
  | @read c cmd rest hnone hopen hread =>
      have hc := h.conn c
      exact ⟨_, files, .step (.read (hc.work_none hnone) (hc.closed.trans hopen)
        (hc.input ▸ hread)), h.set ⟨rfl, hc.output, hc.closed, .some .task⟩⟩
  | @hangUp c e hnone hread hpanic =>
      have hc := h.conn c
      exact ⟨_, files, .step (.hangUp (hc.work_none hnone) (hc.input ▸ hread) hpanic),
        h.set ⟨hc.input, hc.output, rfl, hc.work⟩⟩
  | @reply c v hreply =>
      have hc := h.conn c
      obtain ⟨w, hw, hseen⟩ := hc.work_some hreply
      cases hseen
      have houtput : (n'.conn c).output ++ write v = (n.conn c).output ++ write v := by
        rw [hc.output]
      exact ⟨_, files, .step (.reply hw), h.set ⟨hc.input, houtput, hc.closed, .none⟩⟩
  | @work c w store w' hsome hwork =>
      have hc := h.conn c
      obtain ⟨v, hv, hseen⟩ := hc.work_some hsome
      obtain ⟨files', contents', v', hacts, hticks, hsame, hseen', hmap⟩ :=
        hwork.maps hclock h.acts hseen
      have hconn : Conn.SeenAs clock store.db.ticks files' { n.conn c with work := some w' }
          { n'.conn c with work := some v' } := ⟨hc.input, hc.output, hc.closed, .some hseen'⟩
      have hadvance := h.advance (c := c) hacts hticks hsame hconn
      rcases hmap with ⟨rfl, rfl⟩ | hmap
      · -- the map has made this call before, or has nothing to do for it
        have hstay : { n'.set c { n'.conn c with work := some v' } with store := n'.store } =
            n' := by
          rw [← hv, Net.set, Function.update_eq_self]
        exact ⟨n', files', .stay, hstay ▸ hadvance⟩
      · exact ⟨_, files', .step (.work hv hmap), hadvance⟩

/-- Whatever the order in which the handlers get to take their steps, and however far the
others are with their scans: every connection reads and writes what it would read and
write if the handlers worked on a map, provided that no load of a scan fails. -/
theorem connections_refine_map {p : Process} {ts : List Table} (hdb : Ordered clock p.db ts)
    (hsound : p.Sound clock files) (hclock : StrictMono clock) {inputs : Cid → Bytes}
    {trace : List (NetEvent Cid)}
    (h : Traces (NetStep sys (Work.Step (Steady clock) Loaded)) (Net.start p inputs) trace n) :
    ∃ n', Traces (NetStep sys Work.MapStep) (Net.start p.db.get inputs) trace n' ∧
      (∀ c, (n'.conn c).output = (n.conn c).output ∧ (n'.conn c).closed = (n.conn c).closed) ∧
      ∀ key, n.store.db.get key = n'.store key := by
  have hstart : ∃ files, Alike clock files (Net.start p inputs) (Net.start p.db.get inputs) :=
    ⟨files, ⟨⟨ts, hdb.maps⟩, hsound⟩, fun _ => ⟨rfl, rfl, rfl, .none⟩⟩
  obtain ⟨n', htrace, files', hacts, hconn⟩ := h.simulate id
    (fun n n' => ∃ files, Alike clock files n n') hstart (by
      rintro s event s' t ⟨files, halike⟩ hstep
      obtain ⟨m', files', hanswer, halike'⟩ := halike.step hclock hstep
      exact ⟨m', by simpa using hanswer, files', halike'⟩)
  rw [List.map_id] at htrace
  obtain ⟨ts', hmaps⟩ := hacts.maps
  exact ⟨n', htrace, fun c => ⟨(hconn c).output, (hconn c).closed⟩, hmaps.get_eq⟩

end Nets

end Handlers

def setCommand : Value :=
  .array [.bulkString [83, 69, 84], .bulkString [107], .bulkString [1]]

def getCommand : Value := .array [.bulkString [71, 69, 84], .bulkString [107]]

theorem wellFormed_setCommand : WellFormed setCommand := by
  refine .array (by decide) fun v hv => ?_
  simp only [List.mem_cons, List.not_mem_nil, or_false] at hv
  rcases hv with rfl | rfl | rfl
  · exact .bulkString (by decide)
  · exact .bulkString (by decide)
  · exact .bulkString (by decide)

theorem wellFormed_getCommand : WellFormed getCommand := by
  refine .array (by decide) fun v hv => ?_
  simp only [List.mem_cons, List.not_mem_nil, or_false] at hv
  rcases hv with rfl | rfl
  · exact .bulkString (by decide)
  · exact .bulkString (by decide)

def setGet (c : Nat) : Bytes := if c = 0 then write setCommand else write getCommand

theorem traces_setGet {may : DB → Op → Env → Prop} (loads : Except SstErr (List Entry) → Prop)
    (hmay : may emptyDB (.put [107] [1]) (healthy stampedClock fileSizes)) :
    ∃ n, Traces (NetStep noTexts (Work.Step may loads))
        (Net.start (Process.start emptyDB newBlockCache) setGet)
        [.read 0 setCommand, .reply 0 (.simpleString [79, 75]), .read 1 getCommand,
          .reply 1 (.bulkString [1])] n ∧
      n.store.db.get [107] = some [1] ∧ (n.conn 0).output = write (.simpleString [79, 75]) ∧
      (n.conn 1).output = write (.bulkString [1]) := by
  have hread : ∀ v, WellFormed v → read (write v) = .ok (v, []) := fun v hv => by
    simpa using read_write_iff.mpr hv []
  have hset : Traces (NetStep noTexts (Work.Step may loads))
      (Net.start (Process.start emptyDB newBlockCache) setGet) _ _ :=
    Traces.start.visible (.read (c := 0) rfl rfl (hread _ wellFormed_setCommand))
  have hput := hset.silent (.work (c := 0) rfl (.put hmay))
  have hok := hput.visible (.reply (c := 0) rfl)
  have hget := hok.visible (.read (c := 1) rfl rfl (hread _ wellFormed_getCommand))
  have hfound := hget.silent (.work (c := 1) rfl .get)
  exact ⟨_, hfound.visible (.reply (c := 1) rfl), rfl, rfl, rfl⟩

theorem steady_set : Steady stampedClock emptyDB (.put [107] [1])
    (healthy stampedClock fileSizes) := by
  refine ⟨fileSizes, rfl, fun flushed hcompacting => ?_, by decide⟩
  have hnone : emptyDB.compacting stampedClock (.put [107] [1]) = none := rfl
  simp [hnone] at hcompacting

theorem connections_refine_map_setGet :
    ∃ n, Traces (NetStep noTexts Work.MapStep) (Net.start emptyDB.get setGet)
        [.read 0 setCommand, .reply 0 (.simpleString [79, 75]), .read 1 getCommand,
          .reply 1 (.bulkString [1])] n ∧
      (n.conn 1).output = write (.bulkString [1]) ∧ n.store [107] = some [1] := by
  obtain ⟨n, htrace, hget, -, hout⟩ := traces_setGet Loaded steady_set
  have hsound : (Process.start emptyDB newBlockCache).Sound stampedClock fun _ => [] :=
    sound_process_start (keeps_emptyDB stampedClock) defaultCacheShardCount_divisor
  obtain ⟨n', htrace', hconn, hstore⟩ := connections_refine_map
    (ordered_emptyDB stampedClock) hsound stampedClock_strictMono htrace
  exact ⟨n', htrace', (hconn 1).1.trans hout, (hstore [107]).symm.trans hget⟩

end Hcdb.Server
