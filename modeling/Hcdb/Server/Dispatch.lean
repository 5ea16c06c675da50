import Hcdb.Db.Operations
import Hcdb.Resp.Stream

namespace Hcdb.Server

open Hcdb.Lib.ByteString
open Hcdb.Db
open Hcdb.Resp

/-- The bytes of a string constant. -/
def bytesOf (s : String) : Bytes := s.toUTF8.data.toList

/-- The commands that the server knows. -/
inductive Command where
  | set
  | get
  | del
  | scan
  | ping
  deriving DecidableEq, Repr

def Command.name : Command → Bytes
  | .set => bytesOf "SET"
  | .get => bytesOf "GET"
  | .del => bytesOf "DEL"
  | .scan => bytesOf "SCAN"
  | .ping => bytesOf "PING"

/-- `strings.ToUpper`, as far as a comparison with an ASCII name can tell: of the
letters outside ASCII only the dotless i and the long s have an ASCII upper case. -/
def toUpper : Bytes → Bytes
  | 0xC4 :: 0xB1 :: s => 73 :: toUpper s
  | 0xC5 :: 0xBF :: s => 83 :: toUpper s
  | b :: s => (if 97 ≤ b ∧ b ≤ 122 then b - 32 else b) :: toUpper s
  | [] => []

/-- The `switch` of `dispatch` over the name. -/
def commandOf (name : Bytes) : Option Command :=
  [Command.set, .get, .del, .scan, .ping].find? fun c => decide (c.name = name)

/-- The texts of the errors that the operating system and damaged files cause.  They
name files of the data directory, whose path has no line break. -/
structure SystemTexts where
  text : DbErr → Bytes
  oneLine : ∀ e, lf ∉ text e

def errorText (sys : SystemTexts) (e : DbErr) : Bytes :=
  match e.text with
  | some s => bytesOf s
  | none => sys.text e

/-- Every error of the database is answered in this form. -/
def errorReply (sys : SystemTexts) (e : DbErr) : Value := .error (bytesOf "ERR " ++ errorText sys e)

section Dispatch

variable [Runtime] (sys : SystemTexts) (env : Nat → Env)

def doSet (db : DB) : List Value → DB × Value
  | [key, value] =>
      match db.put (env 0) key.str value.str with
      | (db, .error e) => (db, errorReply sys e)
      | (db, .ok ()) => (db, .simpleString (bytesOf "OK"))
  | _ => (db, .error (bytesOf "ERR wrong number of arguments for 'SET'"))

def doGet (db : DB) : List Value → Value
  | [key] =>
      match db.get key.str with
      | none => .nullBulkString
      | some val => .bulkString val
  | _ => .error (bytesOf "ERR wrong number of arguments for 'GET'")

/-- The loop of `doDel` from argument `i` on, with the count of the keys that were
there. -/
def delLoop (db : DB) (i : Nat) (removed : Int) : List Value → DB × Value
  | [] => (db, .integer removed)
  | a :: args =>
      let removed := if (db.get a.str).isSome then removed + 1 else removed
      match db.delete (env i) a.str with
      | (db, .error e) => (db, errorReply sys e)
      | (db, .ok ()) => delLoop db (i + 1) removed args

def doDel (db : DB) (args : List Value) : DB × Value :=
  if args = [] then (db, .error (bytesOf "ERR wrong number of arguments for 'DEL'"))
  else delLoop sys env db 0 0 args

def doScan (db : DB) : List Value → Value
  | [lowerBound, upperBound] =>
      match db.scan lowerBound.str (some upperBound.str) with
      | .error e => errorReply sys (.sst e)
      | .ok it => .array (it.drain.flatMap fun (key, val) => [.bulkString key, .bulkString val])
  | _ => .error (bytesOf "ERR wrong number of arguments for 'SCAN'")

def doPing : List Value → Value
  | [] => .simpleString (bytesOf "PONG")
  | a :: _ => .bulkString a.str

/-- `dispatch`, with the environment of each write that the command makes. -/
def dispatch (db : DB) (cmd : Value) : DB × Value :=
  match cmd.elems with
  | [] => (db, .error (bytesOf "ERR expected a non-empty command array"))
  | name :: args =>
      if (name :: args).any fun e => !e.isBulkString then
        (db, .error (bytesOf "ERR command elements must be bulk strings"))
      else
        match commandOf (toUpper name.str) with
        | some .set => doSet sys env db args
        | some .get => (db, doGet db args)
        | some .del => doDel sys env db args
        | some .scan => (db, doScan sys db args)
        | some .ping => (db, doPing args)
        | none => (db, .error (bytesOf "ERR unknown command '" ++ name.str ++ bytesOf "'"))

end Dispatch

/-- What the database answers with fits into memory: every length is an `int`. -/
structure Addressable [Runtime] (db : DB) : Prop where
  get : ∀ key val, db.get key = some val → val.length + 2 ≤ maxInt
  scan : ∀ lowerBound upperBound it, db.scan lowerBound upperBound = .ok it →
    2 * it.drain.length ≤ maxInt ∧
      ∀ pair ∈ it.drain, pair.1.length + 2 ≤ maxInt ∧ pair.2.length + 2 ≤ maxInt

theorem lf_mem_toUpper {s : Bytes} (h : lf ∈ s) : lf ∈ toUpper s := by
  fun_induction toUpper s with
  | case1 s ih =>
      rw [List.mem_cons, List.mem_cons] at h
      rcases h with h | h | h
      · exact absurd h (by decide)
      · exact absurd h (by decide)
      · exact List.mem_cons_of_mem _ (ih h)
  | case2 s ih =>
      rw [List.mem_cons, List.mem_cons] at h
      rcases h with h | h | h
      · exact absurd h (by decide)
      · exact absurd h (by decide)
      · exact List.mem_cons_of_mem _ (ih h)
  | case3 b s _ _ ih =>
      rcases List.mem_cons.mp h with rfl | h
      · exact List.mem_cons_self
      · exact List.mem_cons_of_mem _ (ih h)
  | case4 => exact h

theorem commandOf_eq_none {name : Bytes} (h : lf ∈ name) : commandOf (toUpper name) = none := by
  rw [commandOf, List.find?_eq_none]
  intro c _ hname
  have hmem := lf_mem_toUpper h
  rw [← of_decide_eq_true hname] at hmem
  revert hmem
  cases c <;> decide

theorem errorReply_wellFormed (sys : SystemTexts) (e : DbErr) : WellFormed (errorReply sys e) := by
  refine .error ?_
  rw [List.mem_append, not_or]
  refine ⟨by decide, ?_⟩
  cases e with
  | keyTooLong =>
      change lf ∉ bytesOf "key exceeds 1024 bytes"
      decide
  | valueTooLong =>
      change lf ∉ bytesOf "value exceeds 1048576 bytes"
      decide
  | io call => exact sys.oneLine _
  | compact e => exact sys.oneLine _
  | sst e => exact sys.oneLine _

theorem doPing_wellFormed {args : List Value} (hargs : ∀ a ∈ args, a.str.length + 2 ≤ maxInt) :
    WellFormed (doPing args) := by
  unfold doPing
  split
  · exact .simpleString (by decide)
  · exact .bulkString (hargs _ List.mem_cons_self)

theorem str_length_le {v : Value} (h : WellFormed v) (hbulk : v.isBulkString = true) :
    v.str.length + 2 ≤ maxInt := by
  cases h with
  | bulkString hlen => exact hlen
  | nullBulkString => decide
  | simpleString => simp [Value.isBulkString] at hbulk
  | error => simp [Value.isBulkString] at hbulk
  | integer => simp [Value.isBulkString] at hbulk
  | nullArray => simp [Value.isBulkString] at hbulk
  | array => simp [Value.isBulkString] at hbulk

theorem elems_wellFormed {v : Value} (h : WellFormed v) :
    v.elems.length ≤ maxInt ∧ ∀ e ∈ v.elems, WellFormed e := by
  cases h with
  | array hlen helems => exact ⟨hlen, helems⟩
  | _ => exact ⟨Nat.zero_le _, fun e he => absurd he List.not_mem_nil⟩

/-- The command is an array of bulk strings with a line break in the name. -/
def brokenName (cmd : Value) : Bool :=
  match cmd.elems with
  | [] => false
  | name :: args => (name :: args).all Value.isBulkString && decide (lf ∈ name.str)

section Replies

variable [Runtime] (sys : SystemTexts) (env : Nat → Env) {db : DB} {args : List Value}

theorem doSet_wellFormed (db : DB) (args : List Value) : WellFormed (doSet sys env db args).2 := by
  unfold doSet
  split
  · split
    · exact errorReply_wellFormed sys _
    · exact .simpleString (by decide)
  · exact .error (by decide)

theorem doGet_wellFormed (hdb : Addressable db) (args : List Value) :
    WellFormed (doGet db args) := by
  unfold doGet
  split
  · split
    · exact .nullBulkString
    · rename_i val hval
      exact .bulkString (hdb.get _ _ hval)
  · exact .error (by decide)

theorem delLoop_wellFormed {i : Nat} {removed : Int} (hpos : 0 ≤ removed)
    (hlt : removed + args.length < 2 ^ 63) (db : DB) :
    WellFormed (delLoop sys env db i removed args).2 := by
  induction args generalizing db i removed with
  | nil =>
      rw [List.length_nil] at hlt
      exact .integer (by omega) (by omega)
  | cons a args ih =>
      rw [List.length_cons] at hlt
      rw [delLoop]
      split
      · exact errorReply_wellFormed sys _
      · refine ih ?_ ?_ _
        · split <;> omega
        · split <;> omega

theorem doDel_wellFormed (hargs : args.length ≤ maxInt) (db : DB) :
    WellFormed (doDel sys env db args).2 := by
  unfold doDel
  split
  · exact .error (by decide)
  · have hmax : maxInt = 2 ^ 63 - 1 := rfl
    exact delLoop_wellFormed sys env le_rfl (by omega) db

theorem doScan_wellFormed (hdb : Addressable db) (args : List Value) :
    WellFormed (doScan sys db args) := by
  unfold doScan
  split
  · split
    · exact errorReply_wellFormed sys _
    · rename_i it hit
      obtain ⟨hlen, hpairs⟩ := hdb.scan _ _ _ hit
      refine .array ?_ fun v hv => ?_
      · rw [List.length_flatMap]
        simpa [Nat.mul_comm] using hlen
      · obtain ⟨pair, hpair, hv⟩ := List.mem_flatMap.mp hv
        obtain ⟨hkey, hval⟩ := hpairs pair hpair
        rw [List.mem_cons, List.mem_singleton] at hv
        rcases hv with rfl | rfl
        · exact .bulkString hkey
        · exact .bulkString hval
  · exact .error (by decide)

/-- The only reply that is not well formed repeats a name with a line break. -/
theorem dispatch_wellFormed_iff {cmd : Value} (hcmd : WellFormed cmd) (hdb : Addressable db) :
    WellFormed (dispatch sys env db cmd).2 ↔ brokenName cmd = false := by
  obtain ⟨hlen, helems⟩ := elems_wellFormed hcmd
  unfold dispatch brokenName
  cases hsplit : cmd.elems with
  | nil => exact iff_of_true (.error (by decide)) rfl
  | cons name args =>
      rw [hsplit] at hlen helems
      simp only
      split
      · rename_i hany
        refine iff_of_true (.error (by decide)) ?_
        rw [Bool.and_eq_false_iff]
        left
        rw [← Bool.not_eq_true, List.all_eq_true]
        intro hall
        obtain ⟨e, he, hno⟩ := List.any_eq_true.mp hany
        rw [hall e he] at hno
        exact absurd hno (by decide)
      · rename_i hany
        have hbulk : ∀ e ∈ name :: args, e.isBulkString = true := by
          intro e he
          by_contra hno
          exact hany (List.any_eq_true.mpr ⟨e, he, by simpa using hno⟩)
        have hargs : ∀ a ∈ args, a.str.length + 2 ≤ maxInt := fun a ha =>
          str_length_le (helems a (List.mem_cons_of_mem _ ha)) (hbulk a (List.mem_cons_of_mem _ ha))
        rw [List.all_eq_true.mpr hbulk, Bool.true_and, decide_eq_false_iff_not]
        cases hcommand : commandOf (toUpper name.str) with
        | some c =>
            refine iff_of_true ?_ fun hlf => ?_
            · cases c with
              | set => exact doSet_wellFormed sys env db args
              | get => exact doGet_wellFormed hdb args
              | del =>
                  rw [List.length_cons] at hlen
                  exact doDel_wellFormed sys env (by omega) db
              | scan => exact doScan_wellFormed sys hdb args
              | ping => exact doPing_wellFormed hargs
            · rw [commandOf_eq_none hlf] at hcommand
              simp at hcommand
        | none =>
            -- the one reply that repeats bytes of the command outside of a bulk string
            have hquote : lf ∉ bytesOf "ERR unknown command '" ∧ lf ∉ bytesOf "'" := by decide
            constructor
            · intro hreply hlf
              cases hreply with
              | error hstr => exact hstr (List.mem_append_left _ (List.mem_append_right _ hlf))
            · intro hlf
              refine .error ?_
              rw [List.mem_append, List.mem_append, not_or, not_or]
              exact ⟨⟨hquote.1, hlf⟩, hquote.2⟩

/-- A client that reads the reply to a command finds the reply and nothing else of what
follows, unless the command repeats a line break of its name in an error line. -/
theorem reply_in_sync_iff {stream left : Bytes} {cmd : Value}
    (hread : read stream = .ok (cmd, left)) (hdb : Addressable db) :
    (∀ rest, read (write (dispatch sys env db cmd).2 ++ rest) =
        .ok ((dispatch sys env db cmd).2, rest)) ↔
      brokenName cmd = false := by
  rw [read_write_iff, dispatch_wellFormed_iff sys env (read_wellFormed hread) hdb]

end Replies

def noTexts : SystemTexts where
  text _ := []
  oneLine _ := List.not_mem_nil

def calmEnv (_ : Nat) : Env where
  clock i := i
  stat := fileSizes
  fails _ := false

theorem addressable_emptyDB [Runtime] : Addressable emptyDB where
  get key val hval := by
    have hnone : emptyDB.get key = none := rfl
    rw [hnone] at hval
    simp at hval
  scan lowerBound upperBound it hit := by
    have hdrain : it.drain = [] := by
      rw [← Except.ok.inj hit]
      rfl
    rw [hdrain]
    exact ⟨Nat.zero_le _, by simp⟩

/-- `*1`, `$4`, `ping`: the reply is `+PONG`. -/
theorem reply_in_sync_ping :
    ∃ cmd, read (bytesOf "*1\r\n$4\r\nping\r\n") = .ok (cmd, []) ∧
      (dispatch noTexts calmEnv emptyDB cmd).2 = .simpleString (bytesOf "PONG") ∧
      ∀ rest, read (write (.simpleString (bytesOf "PONG")) ++ rest) =
        .ok (.simpleString (bytesOf "PONG"), rest) := by
  have hread : read (bytesOf "*1\r\n$4\r\nping\r\n") =
      .ok (.array [.bulkString (bytesOf "ping")], []) := rfl
  have hreply : (dispatch noTexts calmEnv emptyDB (.array [.bulkString (bytesOf "ping")])).2 =
      .simpleString (bytesOf "PONG") := rfl
  have hsync := (reply_in_sync_iff noTexts calmEnv hread addressable_emptyDB).mpr (by decide)
  rw [hreply] at hsync
  exact ⟨_, hread, hreply, hsync⟩

/-- A command of one element that is not a command's name but contains a reply of its
own: the client finds a shorter error, and then the forged reply. -/
theorem unknown_name_forges_reply :
    ∃ cmd, read (bytesOf "*1\r\n$6\r\n\n+OK\r\n\r\n") = .ok (cmd, []) ∧
      (dispatch noTexts calmEnv emptyDB cmd).2 =
        .error (bytesOf "ERR unknown command '\n+OK\r\n'") ∧
      ∃ rest, read (write (dispatch noTexts calmEnv emptyDB cmd).2) =
          .ok (.error (bytesOf "ERR unknown command '"), rest) ∧
        read rest = .ok (.simpleString (bytesOf "OK"), bytesOf "'\r\n") :=
  ⟨.array [.bulkString (bytesOf "\n+OK\r\n")], rfl, rfl, bytesOf "+OK\r\n'\r\n", rfl, rfl⟩

end Hcdb.Server
