import Hcdb.Lib.BufferedWriter

/-!
Writing through a buffer to something that can fail.  A call may take only a part of what
it is given; the buffer then remembers the error and passes nothing on any more, so what
has arrived is a first part of everything that was written.
-/

namespace Hcdb.Lib.Fallible

open Hcdb.Lib.ByteString
open Hcdb.Lib.BufferedWriter

/-- What bytes are written to.  A call says how many it has taken, and fails if these are
not all. -/
structure Sink (σ ε : Type*) where
  bytes : σ → Bytes
  write : σ → Bytes → σ × Nat × Option ε
  wrote : ∀ s p, bytes (write s p).1 = bytes s ++ p.take (write s p).2.1
  wrote_le : ∀ s p, (write s p).2.1 ≤ p.length
  whole : ∀ s p, p ≠ [] → ((write s p).2.2 = none ↔ (write s p).2.1 = p.length)

variable {σ ε : Type*}

namespace Sink

variable (out : Sink σ ε)

theorem write_prefix_append (s : σ) (p : Bytes) :
    out.bytes (out.write s p).1 <+: out.bytes s ++ p := by
  rw [out.wrote]
  exact (List.prefix_append_right_inj _).mpr (List.take_prefix _ _)

theorem bytes_write {s : σ} {p : Bytes} (h : (out.write s p).2.2 = none) :
    out.bytes (out.write s p).1 = out.bytes s ++ p := by
  rw [out.wrote]
  by_cases hp : p = []
  · rw [hp, List.take_nil]
  · rw [(out.whole s p hp).mp h, List.take_length]

theorem length_bytes_write_lt {s : σ} {p : Bytes} (hp : p ≠ []) (h : (out.write s p).2.2 ≠ none) :
    (out.bytes (out.write s p).1).length < (out.bytes s ++ p).length := by
  have hlt := lt_of_le_of_ne (out.wrote_le s p) fun heq => h ((out.whole s p hp).mpr heq)
  rw [out.wrote, List.length_append, List.length_append, List.length_take]
  omega

end Sink

/-- A sink that takes everything. -/
def Sink.plain (ε : Type*) : Sink Bytes ε where
  bytes s := s
  write s p := (s ++ p, p.length, none)
  wrote s p := by rw [List.take_length]
  wrote_le _ _ := le_rfl
  whole _ _ _ := iff_of_true rfl rfl

/-- A buffer in front of a sink, and the error that was met. -/
structure Buffered (σ ε : Type*) where
  sink : σ
  buf : Bytes
  err : Option ε

namespace Buffered

/-- Pass `p` on without the buffer. -/
def direct (out : Sink σ ε) (w : Buffered σ ε) (p : Bytes) : Buffered σ ε :=
  let (sink, _, err) := out.write w.sink p
  { w with sink, err }

/-- What a failed call has not taken stays in the buffer. -/
def flush (out : Sink σ ε) (w : Buffered σ ε) : Buffered σ ε :=
  match w.err with
  | some _ => w
  | none =>
      if w.buf = [] then w
      else
        match out.write w.sink w.buf with
        | (sink, n, some err) => { sink, buf := w.buf.drop n, err := some err }
        | (sink, _, none) => { sink, buf := [], err := none }

/-- Write `p` through a buffer of `size` bytes.  What does not fit fills the buffer up and
is passed on with it; a write that finds the buffer empty and is too large for it is passed
on as it is. -/
def write (out : Sink σ ε) (size : Nat) (w : Buffered σ ε) (p : Bytes) : Buffered σ ε :=
  match w.err with
  | some _ => w
  | none =>
      let available := size - w.buf.length
      if p.length ≤ available then { w with buf := w.buf ++ p }
      else if w.buf = [] then w.direct out p
      else
        let filled := { w with buf := w.buf ++ p.take available }.flush out
        let rest := p.drop available
        if filled.err.isSome then filled
        else if rest.length ≤ size then { filled with buf := rest }
        else filled.direct out rest

variable {out : Sink σ ε} {size : Nat} {w : Buffered σ ε} {p : Bytes}

theorem flush_of_err (h : w.err ≠ none) : w.flush out = w := by
  obtain ⟨e, he⟩ := Option.ne_none_iff_exists'.mp h
  rw [flush, he]

theorem write_of_err (h : w.err ≠ none) (p : Bytes) : w.write out size p = w := by
  obtain ⟨e, he⟩ := Option.ne_none_iff_exists'.mp h
  rw [write, he]

/-- All of `stream` was written: without an error it has arrived or is in the buffer, and
otherwise only a first part of it has arrived. -/
structure Carries (out : Sink σ ε) (w : Buffered σ ε) (stream : Bytes) : Prop where
  arrived : out.bytes w.sink <+: stream
  whole : w.err = none → out.bytes w.sink ++ w.buf = stream
  short : w.err ≠ none → (out.bytes w.sink).length < stream.length

variable {stream : Bytes}

theorem Carries.direct (h : Carries out w stream) (hbuf : w.buf = []) (hok : w.err = none)
    (hp : p ≠ []) : Carries out (w.direct out p) (stream ++ p) := by
  have hstream : out.bytes w.sink = stream := by
    rw [← h.whole hok, hbuf, List.append_nil]
  rw [← hstream]
  refine ⟨out.write_prefix_append _ _, fun herr => ?_, out.length_bytes_write_lt hp⟩
  have hbuf' : (w.direct out p).buf = [] := hbuf
  rw [hbuf', List.append_nil]
  exact out.bytes_write herr

theorem Carries.flush (h : Carries out w stream) : Carries out (w.flush out) stream := by
  by_cases hok : w.err = none
  · have hstream := h.whole hok
    rw [Buffered.flush, hok]
    dsimp only
    split
    · exact h
    · rename_i hbuf
      have harrived := out.write_prefix_append w.sink w.buf
      rw [hstream] at harrived
      split
      · rename_i sink n err heq
        have hshort := out.length_bytes_write_lt hbuf
          (show (out.write w.sink w.buf).2.2 ≠ none by rw [heq]; simp)
        rw [hstream, heq] at hshort
        rw [heq] at harrived
        exact ⟨harrived, fun herr => absurd herr (by simp), fun _ => hshort⟩
      · rename_i sink n heq
        refine ⟨by rwa [heq] at harrived, fun _ => ?_, fun herr => absurd rfl herr⟩
        have hbytes := out.bytes_write (show (out.write w.sink w.buf).2.2 = none by rw [heq])
        rw [heq] at hbytes
        rw [List.append_nil, hbytes, hstream]
  · rw [flush_of_err hok]
    exact h

theorem flush_buf (h : (w.flush out).err = none) : (w.flush out).buf = [] := by
  have hok : w.err = none := by
    by_contra herr
    rw [flush_of_err herr] at h
    exact herr h
  rw [flush, hok] at h ⊢
  dsimp only at h ⊢
  split
  · assumption
  · rename_i hbuf
    rw [if_neg hbuf] at h
    split
    · rename_i sink n err heq
      rw [heq] at h
      simp at h
    · rfl

/-- After an error more can only be written in vain. -/
theorem Carries.append (h : Carries out w stream) (herr : w.err ≠ none) (more : Bytes) :
    Carries out w (stream ++ more) :=
  ⟨h.arrived.trans (List.prefix_append _ _), fun hok => absurd hok herr, fun _ =>
    (h.short herr).trans_le (List.prefix_append _ _).length_le⟩

theorem Carries.buffer (h : Carries out w stream) (p : Bytes) :
    Carries out { w with buf := w.buf ++ p } (stream ++ p) := by
  refine ⟨h.arrived.trans (List.prefix_append _ _), fun hok => ?_, fun herr =>
    (h.short herr).trans_le (List.prefix_append _ _).length_le⟩
  rw [← List.append_assoc, h.whole hok]

theorem Carries.write (h : Carries out w stream) (size : Nat) (p : Bytes) :
    Carries out (w.write out size p) (stream ++ p) := by
  by_cases hok : w.err = none
  swap
  · rw [write_of_err hok]
    exact h.append hok p
  obtain ⟨sink, buf, err⟩ := w
  obtain rfl : err = none := hok
  rw [Buffered.write]
  dsimp only
  split
  · exact h.buffer p
  · rename_i hlarge
    split
    · exact h.direct (by assumption) rfl (List.ne_nil_of_length_pos (by omega))
    · -- the buffer is filled up and passed on first
      have hflushed := (h.buffer (p.take (size - buf.length))).flush
      have hrest : stream ++ p = stream ++ p.take (size - buf.length) ++
          p.drop (size - buf.length) := by
        rw [List.append_assoc, List.take_append_drop]
      rw [hrest]
      split
      · rename_i herr
        exact hflushed.append (Option.isSome_iff_ne_none.mp herr) _
      · rename_i herr
        have hnone := Option.not_isSome_iff_eq_none.mp herr
        have hbuf := flush_buf hnone
        split
        · have hbuffer := hflushed.buffer (p.drop (size - buf.length))
          rwa [hbuf, List.nil_append] at hbuffer
        · exact hflushed.direct hbuf hnone (List.ne_nil_of_length_pos (by omega))

/-- `ok` holds of the sink until a call fails, and `failed` from then on. -/
structure Keeps (ok failed : σ → Prop) (w : Buffered σ ε) : Prop where
  before : w.err = none → ok w.sink
  after : w.err ≠ none → failed w.sink

variable {ok failed : σ → Prop}

/-- What one call of the sink does. -/
def Turns (out : Sink σ ε) (ok failed : σ → Prop) : Prop :=
  ∀ s p, ok s → ((out.write s p).2.2 = none → ok (out.write s p).1) ∧
    ((out.write s p).2.2 ≠ none → failed (out.write s p).1)

theorem Keeps.direct (h : Keeps ok failed w) (hturn : Turns out ok failed) (hok : w.err = none)
    (p : Bytes) : Keeps ok failed (w.direct out p) :=
  ⟨(hturn _ p (h.before hok)).1, (hturn _ p (h.before hok)).2⟩

theorem Keeps.flush (h : Keeps ok failed w) (hturn : Turns out ok failed) :
    Keeps ok failed (w.flush out) := by
  by_cases hok : w.err = none
  · have hcall := hturn w.sink w.buf (h.before hok)
    rw [Buffered.flush, hok]
    dsimp only
    split
    · exact h
    · split
      · rename_i sink n err heq
        rw [heq] at hcall
        exact ⟨fun herr => absurd herr (by simp), fun _ => hcall.2 (by simp)⟩
      · rename_i sink n heq
        rw [heq] at hcall
        exact ⟨fun _ => hcall.1 rfl, fun herr => absurd rfl herr⟩
  · rw [flush_of_err hok]
    exact h

theorem Keeps.write (h : Keeps ok failed w) (hturn : Turns out ok failed) (size : Nat)
    (p : Bytes) : Keeps ok failed (w.write out size p) := by
  by_cases hok : w.err = none
  · obtain ⟨sink, buf, err⟩ := w
    obtain rfl : err = none := hok
    rw [Buffered.write]
    dsimp only
    split
    · exact ⟨h.before, h.after⟩
    · split
      · exact h.direct hturn rfl p
      · have hfilled : Keeps ok failed ⟨sink, buf ++ p.take (size - buf.length), none⟩ :=
          ⟨h.before, h.after⟩
        have hflushed := hfilled.flush hturn
        split
        · exact hflushed
        · rename_i herr
          have hnone := Option.not_isSome_iff_eq_none.mp herr
          split
          · exact ⟨hflushed.before, hflushed.after⟩
          · exact hflushed.direct hturn hnone _
  · rw [write_of_err hok]
    exact h

/-- A buffer that has met no error, over a sink that takes everything. -/
def ofWriter (w : Writer) : Buffered Bytes ε where
  sink := w.file
  buf := w.buf
  err := none

theorem flush_ofWriter (w : Writer) :
    (ofWriter w : Buffered Bytes ε).flush (Sink.plain ε) = ofWriter w.flush := by
  obtain ⟨file, buf⟩ := w
  cases buf with
  | nil => simp [flush, ofWriter, Writer.flush]
  | cons b buf => rfl

theorem write_ofWriter (size : Nat) (w : Writer) (p : Bytes) :
    (ofWriter w : Buffered Bytes ε).write (Sink.plain ε) size p = ofWriter (w.write size p) := by
  rw [write, Writer.write]
  change (if p.length ≤ size - (ofWriter w : Buffered Bytes ε).buf.length then _ else _) = _
  by_cases hfits : p.length ≤ size - w.buf.length
  · rw [if_pos hfits]
    exact if_pos hfits
  · rw [if_neg hfits]
    refine (if_neg hfits).trans ?_
    by_cases hbuf : w.buf = []
    · rw [if_pos hbuf]
      exact if_pos hbuf
    · rw [if_neg hbuf]
      refine (if_neg hbuf).trans ?_
      let filled : Writer := { w with buf := w.buf ++ p.take (size - w.buf.length) }
      change (if ((ofWriter filled : Buffered Bytes ε).flush (Sink.plain ε)).err.isSome then _
        else if (p.drop (size - w.buf.length)).length ≤ size then
          { (ofWriter filled : Buffered Bytes ε).flush (Sink.plain ε) with
            buf := p.drop (size - w.buf.length) }
        else ((ofWriter filled : Buffered Bytes ε).flush (Sink.plain ε)).direct (Sink.plain ε)
          (p.drop (size - w.buf.length))) = _
      rw [flush_ofWriter, if_neg (by simp [ofWriter])]
      by_cases hrest : (p.drop (size - w.buf.length)).length ≤ size
      · rw [if_pos hrest, if_pos hrest]
        rfl
      · rw [if_neg hrest, if_neg hrest]
        rfl

end Buffered

end Hcdb.Lib.Fallible
