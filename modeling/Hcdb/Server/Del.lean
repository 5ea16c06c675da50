import Hcdb.Db.Run
import Hcdb.Server.Dispatch
import Mathlib.Data.Finset.Card

namespace Hcdb.Server

open Hcdb.Lib.ByteString
open Hcdb.Base
open Hcdb.Db
open Hcdb.Resp

section Del

variable [Runtime] (env : Nat → Env)

/-- The next `n` calls of `Delete` act on the database as on a map: they meet no error
as long as the key is short enough, and of all keys only this one goes. -/
def ActsAsMap : Nat → Nat → DB → Prop
  | 0, _, _ => True
  | n + 1, i, db =>
      ∀ key : Bytes, key.length ≤ Config.maxKeyLength →
        ∃ db', db.delete (env i) key = (db', .ok ()) ∧ db'.get key = none ∧
          (∀ k, k ≠ key → db'.get k = db.get k) ∧ ActsAsMap n (i + 1) db'

/-- The keys among the arguments that have a value. -/
def liveArgs (db : DB) (args : List Value) : Finset Bytes :=
  (args.map Value.str).toFinset.filter fun key => (db.get key).isSome

/-- Either all arguments go and the reply counts those that were live, or nothing
happens and the reply is an error. -/
def AllOrNothing (db : DB) (args : List Value) (db' : DB) (reply : Value) : Prop :=
  (reply = .integer (liveArgs db args).card ∧ (∀ a ∈ args, db'.get a.str = none) ∧
    ∀ key, (∀ a ∈ args, a.str ≠ key) → db'.get key = db.get key) ∨
  ((∃ text, reply = .error text) ∧ ∀ key, db'.get key = db.get key)

/-- The argument is not too long for a key. -/
def shortEnough (a : Value) : Bool := decide (a.str.length ≤ Config.maxKeyLength)

/-- The keys in front of the first that is too long. -/
def deletedKeys (args : List Value) : List Bytes := (args.takeWhile shortEnough).map Value.str

variable {db db' : DB} {a : Value} {args : List Value}

theorem liveArgs_cons (hkey : db'.get a.str = none)
    (hothers : ∀ key, key ≠ a.str → db'.get key = db.get key) :
    (liveArgs db (a :: args)).card =
      (if (db.get a.str).isSome then 1 else 0) + (liveArgs db' args).card := by
  have hmem : ∀ key, key ∈ liveArgs db' args ↔
      key ≠ a.str ∧ key ∈ liveArgs db args := by
    intro key
    by_cases heq : key = a.str
    · subst heq
      simp [liveArgs, hkey]
    · simp [liveArgs, heq, hothers key heq]
  by_cases hlive : (db.get a.str).isSome = true
  · have hinsert : liveArgs db (a :: args) = insert a.str (liveArgs db' args) := by
      ext key
      rw [Finset.mem_insert, hmem]
      by_cases heq : key = a.str
      · subst heq
        simp [liveArgs, hlive]
      · simp [liveArgs, heq]
    have hnot : a.str ∉ liveArgs db' args := fun h => ((hmem _).mp h).1 rfl
    rw [hinsert, Finset.card_insert_of_notMem hnot, if_pos hlive, Nat.add_comm]
  · have hsame : liveArgs db (a :: args) = liveArgs db' args := by
      ext key
      rw [hmem]
      by_cases heq : key = a.str
      · subst heq
        simp [liveArgs, hlive]
      · simp [liveArgs, heq]
    rw [hsame, if_neg hlive, Nat.zero_add]

theorem delLoop_eq (sys : SystemTexts) {i : Nat} (removed : Int)
    (hmap : ActsAsMap env args.length i db) :
    (delLoop sys env db i removed args).2 =
      (if args.all shortEnough then .integer (removed + (liveArgs db args).card)
        else errorReply sys .keyTooLong) ∧
    ∀ key, (delLoop sys env db i removed args).1.get key =
      if key ∈ deletedKeys args then none else db.get key := by
  induction args generalizing db i removed with
  | nil => simp [delLoop, liveArgs, deletedKeys]
  | cons a args ih =>
      by_cases hshort : a.str.length ≤ Config.maxKeyLength
      · obtain ⟨db', hdelete, hkey, hothers, hnext⟩ := hmap a.str hshort
        have hcount : (liveArgs db (a :: args)).card =
            (if (db.get a.str).isSome then 1 else 0) + (liveArgs db' args).card :=
          liveArgs_cons hkey hothers
        obtain ⟨hreply, hget⟩ := ih (if (db.get a.str).isSome then removed + 1 else removed) hnext
        have hkeys : deletedKeys (a :: args) = a.str :: deletedKeys args := by
          simp [deletedKeys, shortEnough, hshort]
        have hall : (a :: args).all shortEnough = args.all shortEnough := by
          simp [shortEnough, hshort]
        simp only [delLoop, hdelete]
        constructor
        · rw [hreply, hall, hcount]
          congr 2
          split <;> push_cast <;> ring
        · intro key
          rw [hget, hkeys]
          by_cases heq : key = a.str
          · simp [heq, hkey]
          · simp [heq, hothers key heq]
      · -- the loop returns at the first key that is refused
        have hkeys : deletedKeys (a :: args) = [] := by
          simp [deletedKeys, shortEnough, hshort]
        have hrefused : db.delete (env i) a.str = (db, .error .keyTooLong) :=
          if_pos (not_le.mp hshort)
        simp only [delLoop, hrefused, hkeys]
        simp [shortEnough, hshort]

/-- `DEL` is all or nothing exactly when no key is too long, or when none of the keys in
front of the first such key was live. -/
theorem doDel_allOrNothing_iff (sys : SystemTexts) (hmap : ActsAsMap env args.length 0 db) :
    AllOrNothing db args (doDel sys env db args).1 (doDel sys env db args).2 ↔
      (∀ a ∈ args, a.str.length ≤ Config.maxKeyLength) ∨
        ∀ key ∈ deletedKeys args, db.get key = none := by
  have hall : args.all shortEnough = true ↔
      ∀ a ∈ args, a.str.length ≤ Config.maxKeyLength := by
    simp [List.all_eq_true, shortEnough]
  rw [← hall, doDel]
  split
  · rename_i hnil
    subst hnil
    simp [AllOrNothing]
  · obtain ⟨hreply, hget⟩ := delLoop_eq env sys 0 hmap
    unfold AllOrNothing
    by_cases hshort : args.all shortEnough = true
    · have hkeys : deletedKeys args = args.map Value.str := by
        rw [deletedKeys, List.takeWhile_eq_self_iff.mpr (List.all_eq_true.mp hshort)]
      refine iff_of_true (Or.inl ⟨?_, ?_, ?_⟩) (Or.inl hshort)
      · rw [hreply, if_pos hshort, zero_add]
      · intro a ha
        rw [hget, if_pos (hkeys ▸ List.mem_map_of_mem ha)]
      · intro key hkey
        rw [hget, if_neg]
        intro hmem
        obtain ⟨a, ha, heq⟩ := List.mem_map.mp (hkeys ▸ hmem)
        exact hkey a ha heq
    · -- the reply is an error, so nothing at all may have changed
      rw [if_neg hshort] at hreply
      rw [hreply, or_iff_right hshort, or_iff_right (by simp [errorReply])]
      constructor
      · rintro ⟨-, hsame⟩ key hkey
        rw [← hsame key, hget, if_pos hkey]
      · intro hnone
        refine ⟨⟨_, rfl⟩, fun key => ?_⟩
        rw [hget]
        split
        · rename_i hkey
          exact (hnone key hkey).symm
        · rfl

/-- A database that keeps its versions in order acts as a map while there is room in the
memtable. -/
theorem actsAsMap_of_room {clock : Nat → Nat} {ts : List Sstable.Table} {n i : Nat}
    (h : Ordered clock db ts) (hseq : db.seqNum + n ≤ seqNumMax)
    (hroom : db.memtable.size + n * (Config.maxKeyLength + 8) < Config.defaultMemtableFlushSize) :
    ActsAsMap env n i db := by
  induction n generalizing db i with
  | zero => trivial
  | succ n ih =>
      intro key hkey
      rw [Nat.succ_mul] at hroom
      have hlt : db.seqNum < seqNumMax := by omega
      have hsize : (db.written internalKeyKindDelete key []).memtable.size =
          db.memtable.size + (key.length + 8) :=
        congrArg (db.memtable.size + ·) (InternalKey.encode_length _)
      have hvalue : ([] : Bytes).length ≤ Config.maxValueLength := Nat.zero_le _
      have hkind : internalKeyKindDelete ≤ internalKeyKindMax := by decide
      have hwritten := h.written hlt hkind hkey hvalue
      have hget : ∀ k, (db.written internalKeyKindDelete key []).get k =
          if key = k then none else db.get k := by
        intro k
        rw [DB.get, hwritten.getAt_eq k le_rfl, h.versionAt_written hlt hkind hkey hvalue, DB.get,
          h.getAt_eq k le_rfl]
        by_cases heq : key = k
        · rw [if_pos ⟨heq, hlt⟩, if_pos heq, DB.answer_nextEntry_delete]
        · rw [if_neg fun hboth => heq hboth.1, if_neg heq]
      refine ⟨db.written internalKeyKindDelete key [], ?_, ?_, ?_, ih hwritten ?_ ?_⟩
      · rw [DB.delete_eq hkey, DB.flushIfFullLocked, if_pos (by omega)]
      · rw [hget, if_pos rfl]
      · intro k hk
        rw [hget, if_neg (Ne.symm hk)]
      · change db.seqNum + 1 + n ≤ seqNumMax
        omega
      · omega

end Del

def oneKeyDB : DB := emptyDB.written internalKeyKindSet [107] [1]

theorem actsAsMap_oneKeyDB (env : Nat → Env) : ActsAsMap env 2 0 oneKeyDB := by
  have hordered : Ordered stampedClock oneKeyDB [] :=
    (ordered_emptyDB stampedClock).written (by decide) (by decide) (by decide) (by decide)
  exact actsAsMap_of_room env hordered (by decide) (by decide)

/-- A key that is given twice counts once. -/
theorem doDel_allOrNothing_iff_repeated :
    let env : Nat → Env := fun _ => healthy stampedClock fileSizes
    let args : List Value := [.bulkString [107], .bulkString [107]]
    AllOrNothing oneKeyDB args (doDel noTexts env oneKeyDB args).1
      (doDel noTexts env oneKeyDB args).2 := by
  intro env args
  have hmap : ActsAsMap env args.length 0 oneKeyDB := actsAsMap_oneKeyDB env
  exact (doDel_allOrNothing_iff env noTexts hmap).mpr (Or.inl (by decide))

theorem not_allOrNothing_of_long {env : Nat → Env} {long : Bytes}
    (hlong : Config.maxKeyLength < long.length) :
    ¬ AllOrNothing oneKeyDB [.bulkString [107], .bulkString long]
      (doDel noTexts env oneKeyDB [.bulkString [107], .bulkString long]).1
      (doDel noTexts env oneKeyDB [.bulkString [107], .bulkString long]).2 := by
  have hmap : ActsAsMap env [Value.bulkString [107], .bulkString long].length 0 oneKeyDB :=
    actsAsMap_oneKeyDB env
  obtain ⟨hreply, hget⟩ := delLoop_eq env noTexts 0 hmap
  have hshort : shortEnough (.bulkString long) = false := decide_eq_false (not_le.mpr hlong)
  have hkeys : deletedKeys [.bulkString [107], .bulkString long] = [[107]] := by
    rw [deletedKeys, List.takeWhile_cons_of_pos rfl,
      List.takeWhile_cons_of_neg (by rw [hshort]; simp)]
    rfl
  rintro (⟨hcount, -⟩ | ⟨-, hsame⟩)
  · have herror := hreply.symm.trans hcount
    rw [if_neg (by simp [hshort])] at herror
    cases herror
  · have hgone := (hget [107]).symm.trans (hsame [107])
    rw [hkeys, if_pos List.mem_cons_self] at hgone
    revert hgone
    decide

/-- The error comes after the first key has gone. -/
theorem doDel_partial :
    let env : Nat → Env := fun _ => healthy stampedClock fileSizes
    let args : List Value := [.bulkString [107], .bulkString (List.replicate 1025 0)]
    ActsAsMap env args.length 0 oneKeyDB ∧
      ¬ AllOrNothing oneKeyDB args (doDel noTexts env oneKeyDB args).1
        (doDel noTexts env oneKeyDB args).2 := by
  intro env args
  refine ⟨actsAsMap_oneKeyDB env, not_allOrNothing_of_long ?_⟩
  rw [List.length_replicate]
  decide

end Hcdb.Server
