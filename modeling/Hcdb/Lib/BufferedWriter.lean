import Hcdb.Lib.ByteString
import Mathlib.Data.List.Infix

namespace Hcdb.Lib.BufferedWriter

open Hcdb.Lib.ByteString

/-- What has reached the file, and what is still in the buffer. -/
structure Writer where
  file : Bytes
  buf : Bytes
  deriving DecidableEq, Repr

namespace Writer

/-- Everything written so far. -/
def stream (w : Writer) : Bytes := w.file ++ w.buf

/-- The buffer goes to the file. -/
def flush (w : Writer) : Writer where
  file := w.file ++ w.buf
  buf := []

/-- Write `p` through a buffer of `size` bytes.  What does not fit fills the buffer
up and is written out with it; a write that finds the buffer empty and is too large
for it goes to the file directly. -/
def write (size : Nat) (w : Writer) (p : Bytes) : Writer :=
  let available := size - w.buf.length
  if p.length ≤ available then { w with buf := w.buf ++ p }
  else if w.buf = [] then { w with file := w.file ++ p }
  else
    let filled : Writer := { file := w.file ++ (w.buf ++ p.take available), buf := [] }
    let rest := p.drop available
    if rest.length ≤ size then { filled with buf := rest }
    else { filled with file := filled.file ++ rest }

theorem stream_flush (w : Writer) : w.flush.stream = w.stream := by
  simp [flush, stream]

theorem stream_write (size : Nat) (w : Writer) (p : Bytes) :
    (w.write size p).stream = w.stream ++ p := by
  unfold write
  simp only
  split
  · simp [stream]
  · split
    · rename_i hempty
      simp [stream, hempty]
    · have hsplit : p.take (size - w.buf.length) ++ p.drop (size - w.buf.length) = p :=
        List.take_append_drop _ p
      split
      · simp only [stream, List.append_assoc, hsplit]
      · simp only [stream, List.append_assoc, List.append_nil, hsplit]

theorem write_of_room {size : Nat} {w : Writer} {p : Bytes} (h : w.buf.length + p.length ≤ size) :
    w.write size p = { w with buf := w.buf ++ p } := by
  rw [write, if_pos (by omega)]

theorem file_prefix_write (size : Nat) (w : Writer) (p : Bytes) :
    w.file <+: (w.write size p).file := by
  unfold write
  simp only
  split
  · exact List.prefix_refl _
  · split
    · exact List.prefix_append _ _
    · split
      · exact List.prefix_append _ _
      · exact (List.prefix_append _ _).trans (List.prefix_append _ _)

theorem length_buf_write_le {size : Nat} {w : Writer} (h : w.buf.length ≤ size) (p : Bytes) :
    (w.write size p).buf.length ≤ size := by
  unfold write
  simp only
  split
  · rw [List.length_append]
    omega
  · split
    · exact h
    · split
      · assumption
      · exact Nat.zero_le _

end Writer

end Hcdb.Lib.BufferedWriter
