import Hcdb.Lib.Fallible

namespace Hcdb.Faultinjection

open Hcdb.Lib.ByteString
open Hcdb.Lib.Fallible

/-- `io.ErrClosedPipe`, or an error of the writer below. -/
inductive FaultErr (ε : Type*) where
  | closedPipe
  | inner (e : ε)
  deriving DecidableEq, Repr

/-- A writer that fails once it has passed on `failAfter` bytes. -/
structure FaultyWriter (σ : Type*) where
  w : σ
  written : Nat
  failAfter : Nat

def newFaultyWriter {σ : Type*} (w : σ) (failAfter : Nat) : FaultyWriter σ where
  w
  written := 0
  failAfter

variable {σ ε : Type*}

namespace FaultyWriter

/-- The call goes to the writer below with these bytes. -/
def pass (out : Sink σ ε) (fw : FaultyWriter σ) (p : Bytes) :
    FaultyWriter σ × Nat × Option (FaultErr ε) :=
  let (w, n, err) := out.write fw.w p
  ({ fw with w, written := fw.written + n }, n, err.map .inner)

/-- The part of `p` that is still allowed is passed on, and the rest is an error. -/
def write (out : Sink σ ε) (fw : FaultyWriter σ) (p : Bytes) :
    FaultyWriter σ × Nat × Option (FaultErr ε) :=
  if fw.failAfter ≤ fw.written then (fw, 0, some .closedPipe)
  else
    let allowed := fw.failAfter - fw.written
    if p.length ≤ allowed then fw.pass out p
    else
      -- partial write at the boundary
      match fw.pass out (p.take allowed) with
      | (fw, n, some err) => (fw, n, some err)
      | (fw, n, none) => (fw, n, some .closedPipe)

variable (out : Sink σ ε) (fw : FaultyWriter σ) (p : Bytes)

theorem bytes_pass :
    out.bytes (fw.pass out p).1.w = out.bytes fw.w ++ p.take (fw.pass out p).2.1 :=
  out.wrote fw.w p

theorem write_eq_pass {fw : FaultyWriter σ} (h : fw.written < fw.failAfter) :
    (fw.write out p).1 = (fw.pass out (p.take (fw.failAfter - fw.written))).1 ∧
      (fw.write out p).2.1 = (fw.pass out (p.take (fw.failAfter - fw.written))).2.1 := by
  rw [write, if_neg (not_le.mpr h)]
  dsimp only
  split
  · rw [List.take_of_length_le (by assumption)]
    exact ⟨rfl, rfl⟩
  · split
    · rename_i heq
      rw [heq]
      exact ⟨rfl, rfl⟩
    · rename_i heq
      rw [heq]
      exact ⟨rfl, rfl⟩

end FaultyWriter

open FaultyWriter

/-- A faulty writer is a writer. -/
def faultySink (out : Sink σ ε) : Sink (FaultyWriter σ) (FaultErr ε) where
  bytes fw := out.bytes fw.w
  write fw p := fw.write out p
  wrote fw p := by
    by_cases h : fw.failAfter ≤ fw.written
    · rw [FaultyWriter.write, if_pos h, List.take_zero, List.append_nil]
    · obtain ⟨hstate, hn⟩ := write_eq_pass out p (not_le.mp h)
      have hle := out.wrote_le fw.w (p.take (fw.failAfter - fw.written))
      rw [hstate, hn, bytes_pass, List.take_take, Nat.min_eq_left]
      exact hle.trans (List.length_take_le _ _)
  wrote_le fw p := by
    by_cases h : fw.failAfter ≤ fw.written
    · rw [FaultyWriter.write, if_pos h]
      exact Nat.zero_le _
    · rw [(write_eq_pass out p (not_le.mp h)).2]
      exact (out.wrote_le _ _).trans (List.length_take_le' _ _)
  whole fw p hp := by
    have hpos := List.length_pos_of_ne_nil hp
    rw [FaultyWriter.write]
    split
    · exact iff_of_false (by simp) hpos.ne
    · dsimp only
      split
      · exact Option.map_eq_none_iff.trans (out.whole fw.w p hp)
      · have hle : (fw.pass out (p.take (fw.failAfter - fw.written))).2.1 ≤ _ :=
          (out.wrote_le _ _).trans (List.length_take_le _ _)
        split
        · rename_i heq
          rw [heq] at hle
          exact iff_of_false (by simp) (by dsimp only at hle ⊢; omega)
        · rename_i heq
          rw [heq] at hle
          exact iff_of_false (by simp) (by dsimp only at hle ⊢; omega)

/-- Over a writer that takes everything: the count is what has been passed on, and the
writer fails when the count is used up. -/
theorem turns_faultySink (base : Bytes) (failAfter : Nat) :
    Buffered.Turns (faultySink (Sink.plain ε))
      (fun fw => fw.failAfter = failAfter ∧ fw.written ≤ failAfter ∧
        fw.w.length = base.length + fw.written)
      (fun fw => fw.w.length = base.length + failAfter) := by
  rintro ⟨w, written, _⟩ p ⟨rfl, hle, hlength⟩
  dsimp only at hle hlength
  simp only [faultySink, FaultyWriter.write, FaultyWriter.pass, Sink.plain, Option.map_none]
  split
  · refine ⟨fun h => absurd h (by simp), fun _ => ?_⟩
    dsimp only
    omega
  · split
    · refine ⟨fun _ => ⟨rfl, ?_, ?_⟩, fun h => absurd rfl h⟩
      · dsimp only
        omega
      · dsimp only
        rw [List.length_append]
        omega
    · refine ⟨fun h => absurd h (by simp), fun _ => ?_⟩
      dsimp only
      rw [List.length_append, List.length_take]
      omega

end Hcdb.Faultinjection
