import Hcdb.Lib.ByteString

namespace Hcdb.Lib.Lines

open Hcdb.Lib.ByteString

/-- The next line with its delimiter, and what follows it.  A stream without a
delimiter has no line. -/
def readString (delim : UInt8) : Bytes → Option (Bytes × Bytes)
  | [] => none
  | b :: r =>
      if b = delim then some ([b], r)
      else (readString delim r).map fun (line, rest) => (b :: line, rest)

variable {delim : UInt8} {r line rest : Bytes}

theorem readString_append {text : Bytes} (h : delim ∉ text) (rest : Bytes) :
    readString delim (text ++ delim :: rest) = some (text ++ [delim], rest) := by
  induction text with
  | nil => simp [readString]
  | cons b text ih =>
      obtain ⟨hb, htext⟩ := List.ne_and_not_mem_of_not_mem_cons h
      rw [List.cons_append, readString, if_neg (Ne.symm hb), ih htext]
      rfl

theorem readString_eq_none (h : delim ∉ r) : readString delim r = none := by
  induction r with
  | nil => rfl
  | cons b r ih =>
      obtain ⟨hb, hr⟩ := List.ne_and_not_mem_of_not_mem_cons h
      rw [readString, if_neg (Ne.symm hb), ih hr]
      rfl

theorem readString_eq_some (h : readString delim r = some (line, rest)) :
    ∃ text, delim ∉ text ∧ line = text ++ [delim] ∧ r = text ++ delim :: rest := by
  induction r generalizing line with
  | nil => simp [readString] at h
  | cons b r ih =>
      rw [readString] at h
      split at h
      · rename_i hb
        obtain ⟨rfl, rfl⟩ := Prod.mk.inj (Option.some.inj h)
        exact ⟨[], List.not_mem_nil, by rw [hb, List.nil_append], by rw [hb, List.nil_append]⟩
      · rename_i hb
        obtain ⟨⟨line', rest'⟩, hline, hpair⟩ := Option.map_eq_some_iff.mp h
        obtain ⟨rfl, rfl⟩ := Prod.mk.inj hpair
        obtain ⟨text, htext, rfl, rfl⟩ := ih hline
        exact ⟨b :: text, List.not_mem_cons_of_ne_of_not_mem (Ne.symm hb) htext, rfl, rfl⟩

end Hcdb.Lib.Lines
