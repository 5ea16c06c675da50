import Hcdb.Lib.Decimal
import Hcdb.Lib.Lines

namespace Hcdb.Resp

open Hcdb.Lib.ByteString
open Hcdb.Lib.Decimal
open Hcdb.Lib.Lines

def lf : UInt8 := 10
def cr : UInt8 := 13
def crlf : Bytes := [cr, lf]

/-- The largest Go `int`. -/
def maxInt : Nat := 2 ^ 63 - 1

def simpleStringType : UInt8 := 43
def errorType : UInt8 := 45
def integerType : UInt8 := 58
def bulkStringType : UInt8 := 36
def arrayType : UInt8 := 42

/-- A `Value`, with the fields that its type gives a meaning. -/
inductive Value where
  | simpleString (str : Bytes)
  | error (str : Bytes)
  | integer (num : Int)
  | nullBulkString
  | bulkString (str : Bytes)
  | nullArray
  | array (elems : List Value)
  deriving Repr

namespace Value

/-- The field `Str`, which is empty where the type has none. -/
def str : Value → Bytes
  | .simpleString str => str
  | .error str => str
  | .bulkString str => str
  | _ => []

def elems : Value → List Value
  | .array elems => elems
  | _ => []

def isBulkString : Value → Bool
  | .nullBulkString => true
  | .bulkString _ => true
  | _ => false

end Value

/-- A type byte, the text and the end of the line. -/
def line (tag : UInt8) (text : Bytes) : Bytes := tag :: (text ++ crlf)

mutual

/-- The bytes that `Write` puts out for a value. -/
def write : Value → Bytes
  | .simpleString str => line simpleStringType str
  | .error str => line errorType str
  | .integer num => line integerType (formatInt num)
  | .nullBulkString => line bulkStringType (formatInt (-1))
  | .bulkString str => line bulkStringType (decimal str.length) ++ (str ++ crlf)
  | .nullArray => line arrayType (formatInt (-1))
  | .array elems => line arrayType (decimal elems.length) ++ writeElems elems

def writeElems : List Value → Bytes
  | [] => []
  | v :: vs => write v ++ writeElems vs

end

/-- How a call of `Read` ends without a value.  The length of a buffer can overflow,
in which case the program panics. -/
inductive ReadErr where
  | io (e : Lib.ByteString.ReadErr)
  | emptyLine
  | badInteger (text : Bytes)
  | badBulkLength (text : Bytes)
  | badArrayLength (text : Bytes)
  | unknownType (tag : UInt8)
  | panic
  deriving DecidableEq, Repr

/-- Up to the line feed, without it and without a carriage return before it. -/
def readLine (r : Bytes) : Except ReadErr (Bytes × Bytes) :=
  match readString lf r with
  | none => .error (.io .eof)
  | some (raw, rest) =>
      let n := raw.length
      if 2 ≤ n ∧ raw[n - 2]? = some cr then .ok (raw.take (n - 2), rest)
      else .ok (raw.take (n - 1), rest)

section Read

variable (readElem : Bytes → Except ReadErr (Value × Bytes))

/-- The loop over the elements of an array. -/
def readElems : Nat → Bytes → Except ReadErr (List Value × Bytes)
  | 0, r => .ok ([], r)
  | n + 1, r =>
      match readElem r with
      | .error e => .error e
      | .ok (v, r) =>
          match readElems n r with
          | .error e => .error e
          | .ok (vs, r) => .ok (v :: vs, r)

/-- The `switch` over the type byte of a line. -/
def readBody (tag : UInt8) (text r : Bytes) : Except ReadErr (Value × Bytes) :=
  if tag = simpleStringType then .ok (.simpleString text, r)
  else if tag = errorType then .ok (.error text, r)
  else if tag = integerType then
    match parseInt text with
    | none => .error (.badInteger text)
    | some n => .ok (.integer n, r)
  else if tag = bulkStringType then
    match parseInt text with
    | none => .error (.badBulkLength text)
    | some n =>
        if n < 0 then .ok (.nullBulkString, r)
        else if maxInt < n.toNat + 2 then .error .panic
        else
          match readFull (n.toNat + 2) r with
          | .error e => .error (.io e)
          | .ok (buf, r) => .ok (.bulkString (buf.take n.toNat), r)
  else if tag = arrayType then
    match parseInt text with
    | none => .error (.badArrayLength text)
    | some n =>
        if n < 0 then .ok (.nullArray, r)
        else
          match readElems readElem n.toNat r with
          | .error e => .error e
          | .ok (elems, r) => .ok (.array elems, r)
  else .error (.unknownType tag)

/-- The body of `Read`, with its recursive call left open. -/
def readWith (r : Bytes) : Except ReadErr (Value × Bytes) :=
  match readLine r with
  | .error e => .error e
  | .ok ([], _) => .error .emptyLine
  | .ok (tag :: text, r) => readBody readElem tag text r

end Read

/-- `Read` with its recursion cut off at a depth. -/
def readTo : Nat → Bytes → Except ReadErr (Value × Bytes)
  | 0, _ => .error (.io .eof)
  | depth + 1, r => readWith (readTo depth) r

/-- `Read`.  Every call consumes a byte, so no recursion is deeper than the stream is
long. -/
def read (r : Bytes) : Except ReadErr (Value × Bytes) := readTo (r.length + 1) r

/-- A value takes at least one byte off the stream. -/
def Shortens (readElem : Bytes → Except ReadErr (Value × Bytes)) : Prop :=
  ∀ r v rest, readElem r = .ok (v, rest) → rest.length < r.length

theorem readLine_shortens {r line rest : Bytes} (h : readLine r = .ok (line, rest)) :
    rest.length < r.length := by
  unfold readLine at h
  split at h
  · simp at h
  · rename_i line' rest' hline
    obtain ⟨text, -, -, rfl⟩ := readString_eq_some hline
    have hrest : rest' = rest := by
      simp only at h
      split at h
      · exact (Prod.mk.inj (Except.ok.inj h)).2
      · exact (Prod.mk.inj (Except.ok.inj h)).2
    rw [hrest, List.length_append, List.length_cons]
    omega

section Recursion

variable {f g : Bytes → Except ReadErr (Value × Bytes)} {r : Bytes}

theorem readElems_le (hf : Shortens f) {n : Nat} {vs : List Value} {rest : Bytes}
    (h : readElems f n r = .ok (vs, rest)) : rest.length ≤ r.length := by
  induction n generalizing r vs with
  | zero =>
      obtain ⟨-, rfl⟩ := Prod.mk.inj (Except.ok.inj h)
      exact le_rfl
  | succ n ih =>
      rw [readElems] at h
      split at h
      · simp at h
      · rename_i v r' hv
        split at h
        · simp at h
        · rename_i vs' r'' hvs
          obtain ⟨-, rfl⟩ := Prod.mk.inj (Except.ok.inj h)
          exact (ih hvs).trans (hf _ _ _ hv).le

theorem readBody_le (hf : Shortens f) {tag : UInt8} {text : Bytes} {v : Value} {rest : Bytes}
    (h : readBody f tag text r = .ok (v, rest)) : rest.length ≤ r.length := by
  unfold readBody at h
  repeat' split at h
  all_goals first
    | (simp at h; done)
    | (obtain ⟨-, rfl⟩ := Prod.mk.inj (Except.ok.inj h); exact le_rfl)
    | skip
  · rename_i buf r' hfull
    obtain ⟨-, rfl⟩ := Prod.mk.inj (Except.ok.inj h)
    obtain ⟨rfl, -⟩ := readFull_eq_ok hfull
    rw [List.length_append]
    omega
  · rename_i elems r' helems
    obtain ⟨-, rfl⟩ := Prod.mk.inj (Except.ok.inj h)
    exact readElems_le hf helems

theorem readWith_shortens (hf : Shortens f) : Shortens (readWith f) := by
  intro r v rest h
  unfold readWith at h
  split at h
  · simp at h
  · simp at h
  · rename_i tag text r' hline
    exact (readBody_le hf h).trans_lt (readLine_shortens hline)

theorem readTo_shortens (depth : Nat) : Shortens (readTo depth) := by
  induction depth with
  | zero => simp [Shortens, readTo]
  | succ depth ih => exact readWith_shortens ih

theorem readElems_congr (hf : Shortens f) {n bound : Nat} (hr : r.length ≤ bound)
    (h : ∀ s, s.length ≤ bound → f s = g s) : readElems f n r = readElems g n r := by
  induction n generalizing r with
  | zero => rfl
  | succ n ih =>
      rw [readElems, readElems, ← h r hr]
      cases hv : f r with
      | error e => rfl
      | ok pair =>
          simp only
          rw [ih ((hf r pair.1 pair.2 hv).le.trans hr)]

theorem readWith_congr (hf : Shortens f) (h : ∀ s, s.length < r.length → f s = g s) :
    readWith f r = readWith g r := by
  unfold readWith
  cases hline : readLine r with
  | error e => rfl
  | ok pair =>
      obtain ⟨line, rest⟩ := pair
      have hlt := readLine_shortens hline
      cases line with
      | nil => rfl
      | cons tag text =>
          have helems : ∀ n, readElems f n rest = readElems g n rest := fun n =>
            readElems_congr hf le_rfl fun s hs => h s (hs.trans_lt hlt)
          simp only [readBody, helems]

theorem readTo_eq {depth depth' : Nat} (h : r.length < depth) (h' : r.length < depth') :
    readTo depth r = readTo depth' r := by
  induction depth generalizing depth' r with
  | zero => omega
  | succ depth ih =>
      obtain ⟨depth', rfl⟩ : ∃ k, depth' = k + 1 := ⟨depth' - 1, by omega⟩
      exact readWith_congr (readTo_shortens depth) fun s hs => ih (by omega) (by omega)

theorem read_shortens : Shortens read := fun r => readTo_shortens (r.length + 1) r

/-- `Read` calls itself on the elements of an array. -/
theorem read_eq (r : Bytes) : read r = readWith read r :=
  readWith_congr (readTo_shortens r.length) fun _ hs => readTo_eq hs (Nat.lt_succ_self _)

end Recursion

end Hcdb.Resp
