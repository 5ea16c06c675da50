import Hcdb.Lib.Framing
import Hcdb.Resp

/-!
Streams of values.  The encoding of a well-formed value is a frame of which `Read`
accepts no part, so a stream that breaks off is read up to the last whole value.
-/

namespace Hcdb.Resp

open Hcdb.Lib.ByteString
open Hcdb.Lib.Decimal
open Hcdb.Lib.Lines
open Hcdb.Lib.Framing

/-- The values that can be written: texts of one line, numbers of 64 bits, and
lengths that are an `int`, also that of the buffer a bulk string is read into. -/
inductive WellFormed : Value → Prop
  | simpleString {str : Bytes} : lf ∉ str → WellFormed (.simpleString str)
  | error {str : Bytes} : lf ∉ str → WellFormed (.error str)
  | integer {num : Int} : -2 ^ 63 ≤ num → num < 2 ^ 63 → WellFormed (.integer num)
  | nullBulkString : WellFormed .nullBulkString
  | bulkString {str : Bytes} : str.length + 2 ≤ maxInt → WellFormed (.bulkString str)
  | nullArray : WellFormed .nullArray
  | array {elems : List Value} : elems.length ≤ maxInt → (∀ v ∈ elems, WellFormed v) →
      WellFormed (.array elems)

/-- The next value of a stream, if there is a whole one. -/
def nextValue (r : Bytes) : Option (Value × Bytes) := (read r).toOption

theorem nextValue_eq_some {r rest : Bytes} {v : Value} :
    nextValue r = some (v, rest) ↔ read r = .ok (v, rest) := by
  unfold nextValue
  cases read r with
  | error e => simp [Except.toOption]
  | ok pair => simp [Except.toOption]

theorem read_of_no_lf {r : Bytes} (h : lf ∉ r) : read r = .error (.io .eof) := by
  rw [read_eq, readWith, readLine, readString_eq_none h]

section Lines

variable {tag : UInt8} {text : Bytes} {v : Value}

theorem readLine_line (h : lf ∉ text) (rest : Bytes) :
    readLine (text ++ crlf ++ rest) = .ok (text, rest) := by
  have hsplit : text ++ crlf ++ rest = text ++ [cr] ++ lf :: rest := by
    simp [crlf]
  have hcr : lf ∉ text ++ [cr] := by
    rw [List.mem_append, not_or]
    exact ⟨h, by decide⟩
  have hlen : (text ++ [cr] ++ [lf]).length = text.length + 2 := by
    simp
  have hget : (text ++ [cr] ++ [lf])[text.length]? = some cr := by
    simp
  rw [readLine, hsplit, readString_append hcr]
  simp only [hlen, Nat.add_sub_cancel, hget]
  rw [if_pos ⟨by omega, trivial⟩, List.append_assoc, List.take_left]

theorem read_line (htag : tag ≠ lf) (h : lf ∉ text) (rest : Bytes) :
    read (line tag text ++ rest) = readBody read tag text rest := by
  have hline := readLine_line (List.not_mem_cons_of_ne_of_not_mem (Ne.symm htag) h) rest
  rw [read_eq, readWith, line, ← List.cons_append, hline]

theorem read_line_take (htag : tag ≠ lf) (h : lf ∉ text) {n : Nat}
    (hn : n < (line tag text).length) (more : Bytes) :
    read ((line tag text ++ more).take n) = .error (.io .eof) := by
  apply read_of_no_lf
  have hsplit : line tag text = (tag :: text ++ [cr]) ++ [lf] := by
    simp [line, crlf]
  rw [hsplit] at hn ⊢
  rw [List.length_append, List.length_singleton] at hn
  rw [List.append_assoc, List.take_append_of_le_length (by omega)]
  intro hmem
  have hmem := List.mem_of_mem_take hmem
  rw [List.mem_append, List.mem_cons, List.mem_singleton] at hmem
  rcases hmem with (heq | hmem) | heq
  · exact htag heq.symm
  · exact h hmem
  · exact absurd heq (by decide)

theorem frame_line {data : Bytes} (htag : tag ≠ lf) (h : lf ∉ text)
    (hbody : ∀ rest, readBody read tag text (data ++ rest) = .ok (v, rest)) :
    Frame nextValue (line tag text ++ data) v where
  ne_nil := List.cons_ne_nil _ _
  read_append rest := by rw [nextValue_eq_some, List.append_assoc, read_line htag h, hbody]

theorem read_take {data : Bytes} (htag : tag ≠ lf) (h : lf ∉ text)
    (hbody : ∀ n < data.length, ∃ e, readBody read tag text (data.take n) = .error (.io e))
    {n : Nat} (hn : n < (line tag text ++ data).length) :
    ∃ e, read ((line tag text ++ data).take n) = .error (.io e) := by
  rcases lt_or_ge n (line tag text).length with hlt | hge
  · exact ⟨.eof, read_line_take htag h hlt data⟩
  · rw [List.length_append] at hn
    rw [List.take_append, List.take_of_length_le hge, read_line htag h]
    exact hbody _ (by omega)

end Lines

theorem decimal_no_lf (n : Nat) : lf ∉ decimal n :=
  fun hmem => absurd (mem_decimal hmem).1 (by decide)

theorem parseInt_minusOne : parseInt (formatInt (-1)) = some (-1) :=
  parseInt_formatInt (by decide) (by decide)

theorem parseInt_length {n : Nat} (hn : n ≤ maxInt) : parseInt (decimal n) = some (n : Int) := by
  have hmax : maxInt < 2 ^ 63 := by decide
  exact parseInt_decimal (hn.trans_lt hmax)

theorem readBody_bulkString {n : Nat} (hn : n + 2 ≤ maxInt) (r : Bytes) :
    readBody read bulkStringType (decimal n) r =
      match readFull (n + 2) r with
      | .error e => .error (.io e)
      | .ok (buf, r) => .ok (.bulkString (buf.take n), r) := by
  have hneg : ¬ (n : Int) < 0 := by omega
  simp only [readBody, parseInt_length (by omega : n ≤ maxInt), hneg, Int.toNat_natCast,
    not_lt.mpr hn, if_false]
  rfl

theorem readBody_array {n : Nat} (hn : n ≤ maxInt) (r : Bytes) :
    readBody read arrayType (decimal n) r =
      match readElems read n r with
      | .error e => .error e
      | .ok (elems, r) => .ok (.array elems, r) := by
  have hneg : ¬ (n : Int) < 0 := by omega
  simp only [readBody, parseInt_length hn, hneg, Int.toNat_natCast, if_false]
  rfl

theorem length_crlf (str : Bytes) : (str ++ crlf).length = str.length + 2 :=
  List.length_append

theorem frame_bulkString {str : Bytes} (h : str.length + 2 ≤ maxInt) :
    Frame nextValue (write (.bulkString str)) (.bulkString str) := by
  refine frame_line (by decide) (decimal_no_lf _) fun rest => ?_
  rw [readBody_bulkString h, readFull_append _ _ (length_crlf str)]
  simp only [List.take_left]

theorem readElems_append {vs : List Value} (h : ∀ v ∈ vs, Frame nextValue (write v) v)
    (rest : Bytes) : readElems read vs.length (writeElems vs ++ rest) = .ok (vs, rest) := by
  induction vs with
  | nil => rfl
  | cons v vs ih =>
      obtain ⟨hv, hvs⟩ := List.forall_mem_cons.mp h
      have hread := nextValue_eq_some.mp (hv.read_append (writeElems vs ++ rest))
      rw [List.length_cons, readElems, writeElems, List.append_assoc, hread]
      simp only [ih hvs]

theorem frame_array {elems : List Value} (hlen : elems.length ≤ maxInt)
    (h : ∀ v ∈ elems, Frame nextValue (write v) v) :
    Frame nextValue (write (.array elems)) (.array elems) := by
  refine frame_line (by decide) (decimal_no_lf _) fun rest => ?_
  rw [readBody_array hlen, readElems_append h]

/-- `Read` takes a well-formed value off any stream that begins with its encoding. -/
theorem frame_write {v : Value} (h : WellFormed v) : Frame nextValue (write v) v := by
  have hline : ∀ tag text, line tag text = line tag text ++ [] := fun tag text =>
    (List.append_nil _).symm
  induction h with
  | simpleString hstr =>
      rw [write, hline]
      exact frame_line (by decide) hstr fun rest => rfl
  | error hstr =>
      rw [write, hline]
      exact frame_line (by decide) hstr fun rest => rfl
  | @integer num hlo hhi =>
      rw [write, hline]
      refine frame_line (by decide) (formatInt_no_lf num) fun rest => ?_
      simp only [readBody, parseInt_formatInt hlo hhi]
      rfl
  | nullBulkString =>
      rw [write, hline]
      refine frame_line (by decide) (formatInt_no_lf _) fun rest => ?_
      simp only [readBody, parseInt_minusOne]
      rfl
  | bulkString hlen => exact frame_bulkString hlen
  | nullArray =>
      rw [write, hline]
      refine frame_line (by decide) (formatInt_no_lf _) fun rest => ?_
      simp only [readBody, parseInt_minusOne]
      rfl
  | array hlen _ ih => exact frame_array hlen ih

theorem readElems_take {vs : List Value} (h : ∀ v ∈ vs, WellFormed v)
    (htorn : ∀ v ∈ vs, ∀ n < (write v).length, ∃ e, read ((write v).take n) = .error (.io e))
    {n : Nat} (hn : n < (writeElems vs).length) :
    ∃ e, readElems read vs.length ((writeElems vs).take n) = .error (.io e) := by
  induction vs generalizing n with
  | nil => simp [writeElems] at hn
  | cons v vs ih =>
      obtain ⟨hv, hvs⟩ := List.forall_mem_cons.mp h
      obtain ⟨htv, htvs⟩ := List.forall_mem_cons.mp htorn
      rw [writeElems, List.length_append] at hn
      rw [List.length_cons, readElems, writeElems, List.take_append]
      rcases lt_or_ge n (write v).length with hlt | hge
      · obtain ⟨e, he⟩ := htv n hlt
        refine ⟨e, ?_⟩
        rw [Nat.sub_eq_zero_of_le hlt.le, List.take_zero, List.append_nil, he]
      · obtain ⟨e, he⟩ := ih hvs htvs (n := n - (write v).length) (by omega)
        refine ⟨e, ?_⟩
        rw [List.take_of_length_le hge,
          nextValue_eq_some.mp ((frame_write hv).read_append _)]
        simp only [he]

/-- `Read` does not accept a part of an encoding: it waits for more. -/
theorem read_torn {v : Value} (h : WellFormed v) {n : Nat} (hn : n < (write v).length) :
    ∃ e, read ((write v).take n) = .error (.io e) := by
  have honly : ∀ {tag : UInt8} {text : Bytes} {n : Nat}, tag ≠ lf → lf ∉ text →
      n < (line tag text).length → ∃ e, read ((line tag text).take n) = .error (.io e) := by
    intro tag text n htag htext hn
    have hread := read_line_take htag htext hn []
    rw [List.append_nil] at hread
    exact ⟨_, hread⟩
  induction h generalizing n with
  | simpleString hstr => exact honly (by decide) hstr hn
  | error hstr => exact honly (by decide) hstr hn
  | integer => exact honly (by decide) (formatInt_no_lf _) hn
  | nullBulkString => exact honly (by decide) (formatInt_no_lf _) hn
  | @bulkString str hlen =>
      refine read_take (by decide) (decimal_no_lf _) (fun m hm => ?_) hn
      rw [length_crlf] at hm
      obtain ⟨err, herr⟩ := readFull_short (n := str.length + 2) (s := (str ++ crlf).take m) (by
        rw [List.length_take]
        omega)
      exact ⟨err, by rw [readBody_bulkString hlen, herr]⟩
  | nullArray => exact honly (by decide) (formatInt_no_lf _) hn
  | array hlen helems ih =>
      refine read_take (by decide) (decimal_no_lf _) (fun m hm => ?_) hn
      obtain ⟨e, he⟩ := readElems_take helems (fun v hv m => ih v hv) hm
      exact ⟨e, by rw [readBody_array hlen, he]⟩

theorem readLine_no_lf {r text rest : Bytes} (h : readLine r = .ok (text, rest)) : lf ∉ text := by
  unfold readLine at h
  split at h
  · simp at h
  · rename_i line' rest' hline
    obtain ⟨body, hbody, rfl, -⟩ := readString_eq_some hline
    have htake : ∀ n ≤ body.length, lf ∉ (body ++ [lf]).take n := by
      intro n hn hmem
      rw [List.take_append_of_le_length hn] at hmem
      exact hbody (List.mem_of_mem_take hmem)
    have hlen : (body ++ [lf]).length = body.length + 1 := by simp
    simp only [hlen] at h
    split at h
    · obtain ⟨rfl, -⟩ := Prod.mk.inj (Except.ok.inj h)
      exact htake _ (by omega)
    · obtain ⟨rfl, -⟩ := Prod.mk.inj (Except.ok.inj h)
      exact htake _ (by omega)

theorem readElems_wellFormed {bound n : Nat} {r rest : Bytes} {vs : List Value}
    (hread : ∀ s v t, s.length ≤ bound → read s = .ok (v, t) → WellFormed v)
    (hr : r.length ≤ bound) (h : readElems read n r = .ok (vs, rest)) :
    vs.length = n ∧ ∀ v ∈ vs, WellFormed v := by
  induction n generalizing r vs with
  | zero =>
      obtain ⟨rfl, -⟩ := Prod.mk.inj (Except.ok.inj h)
      exact ⟨rfl, by simp⟩
  | succ n ih =>
      rw [readElems] at h
      split at h
      · simp at h
      · rename_i v r' hv
        split at h
        · simp at h
        · rename_i vs' r'' hvs
          obtain ⟨rfl, rfl⟩ := Prod.mk.inj (Except.ok.inj h)
          obtain ⟨hlen, hall⟩ := ih ((read_shortens _ _ _ hv).le.trans hr) hvs
          exact ⟨by rw [List.length_cons, hlen],
            List.forall_mem_cons.mpr ⟨hread r v r' hr hv, hall⟩⟩

theorem readBody_wellFormed {tag : UInt8} {text r rest : Bytes} {v : Value} (htext : lf ∉ text)
    (hread : ∀ s v t, s.length ≤ r.length → read s = .ok (v, t) → WellFormed v)
    (h : readBody read tag text r = .ok (v, rest)) : WellFormed v := by
  unfold readBody at h
  split at h
  · obtain ⟨rfl, -⟩ := Prod.mk.inj (Except.ok.inj h)
    exact .simpleString htext
  · split at h
    · obtain ⟨rfl, -⟩ := Prod.mk.inj (Except.ok.inj h)
      exact .error htext
    · split at h
      · split at h
        · simp at h
        · rename_i n hn
          obtain ⟨rfl, -⟩ := Prod.mk.inj (Except.ok.inj h)
          exact .integer (parseInt_range hn).1 (parseInt_range hn).2
      · split at h
        · -- a bulk string
          split at h
          · simp at h
          · split at h
            · obtain ⟨rfl, -⟩ := Prod.mk.inj (Except.ok.inj h)
              exact .nullBulkString
            · split at h
              · simp at h
              · rename_i hfits
                split at h
                · simp at h
                · obtain ⟨rfl, -⟩ := Prod.mk.inj (Except.ok.inj h)
                  refine .bulkString ?_
                  rw [List.length_take]
                  omega
        · split at h
          · -- an array
            split at h
            · simp at h
            · rename_i n hn
              split at h
              · obtain ⟨rfl, -⟩ := Prod.mk.inj (Except.ok.inj h)
                exact .nullArray
              · split at h
                · simp at h
                · rename_i elems r' helems
                  obtain ⟨rfl, -⟩ := Prod.mk.inj (Except.ok.inj h)
                  obtain ⟨hlen, hall⟩ := readElems_wellFormed hread le_rfl helems
                  refine .array ?_ hall
                  have hmax : maxInt = 2 ^ 63 - 1 := rfl
                  have hrange := parseInt_range hn
                  omega
          · simp at h

/-- Every value that `Read` returns could have been written. -/
theorem read_wellFormed {r rest : Bytes} {v : Value} (h : read r = .ok (v, rest)) :
    WellFormed v := by
  -- the elements of an array are read from a shorter stream
  generalize hlen : r.length = len
  induction len using Nat.strongRecOn generalizing r rest v with
  | ind len ih =>
      rw [read_eq, readWith] at h
      split at h
      · simp at h
      · simp at h
      · rename_i tag text r' hline
        have hlt := readLine_shortens hline
        refine readBody_wellFormed (List.not_mem_of_not_mem_cons (readLine_no_lf hline)) ?_ h
        intro s v t hs hread
        exact ih s.length (by omega) hread rfl

theorem read_write_iff {v : Value} :
    (∀ rest, read (write v ++ rest) = .ok (v, rest)) ↔ WellFormed v := by
  constructor
  · intro h
    exact read_wellFormed (h [])
  · intro h rest
    exact nextValue_eq_some.mp ((frame_write h).read_append rest)

/-- Calls of `Read`, one after the other: the values they return up to the first
error, and the error. -/
inductive ReadAll : Bytes → List Value → ReadErr → Prop
  | stop {r : Bytes} {e : ReadErr} : read r = .error e → ReadAll r [] e
  | value {r rest : Bytes} {v : Value} {vs : List Value} {e : ReadErr} :
      read r = .ok (v, rest) → ReadAll rest vs e → ReadAll r (v :: vs) e

theorem readAll_take {vs : List Value} (h : ∀ v ∈ vs, WellFormed v) (n : Nat) :
    ∃ e, ReadAll ((vs.map write).flatten.take n) (vs.take (wholeCount n (vs.map write)))
      (.io e) := by
  induction vs generalizing n with
  | nil => exact ⟨.eof, .stop (read_of_no_lf (by simp))⟩
  | cons v vs ih =>
      obtain ⟨hv, hvs⟩ := List.forall_mem_cons.mp h
      rw [List.map_cons, List.flatten_cons, wholeCount, List.take_append]
      split
      · rename_i hfit
        obtain ⟨e, he⟩ := ih hvs (n - (write v).length)
        have hread := nextValue_eq_some.mp ((frame_write hv).read_append
          ((vs.map write).flatten.take (n - (write v).length)))
        rw [List.take_of_length_le hfit, List.take_succ_cons]
        exact ⟨e, .value hread he⟩
      · rename_i hcut
        obtain ⟨e, he⟩ := read_torn hv (not_le.mp hcut)
        rw [Nat.sub_eq_zero_of_le (not_le.mp hcut).le, List.take_zero, List.append_nil]
        exact ⟨e, .stop he⟩

/-- A stream of values that breaks off anywhere is read up to the last value that is
there as a whole; then there is an error, and never part of a value. -/
theorem read_stream {vs : List Value} (h : ∀ v ∈ vs, WellFormed v) {p : Bytes}
    (hp : p <+: (vs.map write).flatten) :
    ∃ k ≤ vs.length, (∀ i < vs.length, i < k ↔ ((vs.take (i + 1)).map write).flatten <+: p) ∧
      ∃ e, ReadAll p (vs.take k) (.io e) := by
  have htake := List.prefix_iff_eq_take.mp hp
  refine ⟨wholeCount p.length (vs.map write), ?_, fun i hi => ?_, ?_⟩
  · exact (wholeCount_le _ _).trans_eq (List.length_map _)
  · rw [lt_wholeCount_iff (by rwa [List.length_map]), ← List.map_take]
    have hfirst : ((vs.take (i + 1)).map write).flatten <+: (vs.map write).flatten :=
      ((List.take_prefix _ _).map write).flatten
    exact ⟨fun hle => List.prefix_of_prefix_length_le hfirst hp hle, fun hpre => hpre.length_le⟩
  · have hall := readAll_take h p.length
    rwa [← htake] at hall

def twoValues : List Value :=
  [.array [.bulkString [71, 69, 84], .bulkString [97, 13, 10]], .simpleString [79, 75]]

theorem wellFormed_twoValues : ∀ v ∈ twoValues, WellFormed v := by
  rw [twoValues, List.forall_mem_cons, List.forall_mem_singleton]
  refine ⟨.array (by decide) ?_, .simpleString (by decide)⟩
  rw [List.forall_mem_cons, List.forall_mem_singleton]
  exact ⟨.bulkString (by decide), .bulkString (by decide)⟩

theorem read_stream_twoValues :
    (∀ v ∈ twoValues, WellFormed v) ∧
      ∃ k ≤ twoValues.length, (∀ i < twoValues.length,
          i < k ↔ ((twoValues.take (i + 1)).map write).flatten <+:
            (twoValues.map write).flatten.take 25) ∧
        ∃ e, ReadAll ((twoValues.map write).flatten.take 25) (twoValues.take k) (.io e) :=
  ⟨wellFormed_twoValues, read_stream wellFormed_twoValues (List.take_prefix _ _)⟩

end Hcdb.Resp
