import Mathlib.Data.List.Forall2
import Mathlib.Data.List.TakeDrop

/-!
Readers that take one value after the other off the front of a stream.  A frame is a
piece of the stream from which a reader takes a value, whatever comes behind it; a
sequence of frames can be read back from any prefix of it up to the place of the cut.
-/

namespace Hcdb.Lib.Framing

variable {σ α : Type*} (read : List σ → Option (α × List σ))

/-- Read as long as there is a value: the values, and what is left of the stream. -/
def readMany : Nat → List σ → List α × List σ
  | 0, r => ([], r)
  | fuel + 1, r =>
      match read r with
      | none => ([], r)
      | some (a, rest) => (a :: (readMany fuel rest).1, (readMany fuel rest).2)

/-- The reader takes the value `a` off any stream that begins with `p`. -/
structure Frame (p : List σ) (a : α) : Prop where
  ne_nil : p ≠ []
  read_append : ∀ rest, read (p ++ rest) = some (a, rest)

/-- The reader cannot be misled: it fails on every proper prefix of the frame. -/
structure WholeFrame (p : List σ) (a : α) : Prop extends Frame read p a where
  torn : ∀ n < p.length, read (p.take n) = none

/-- Whatever the reader accepts is a frame. -/
def Framed : Prop :=
  ∀ r a rest, read r = some (a, rest) → ∃ p, r = p ++ rest ∧ Frame read p a

/-- How many of the pieces lie in the first `n` symbols as a whole. -/
def wholeCount : Nat → List (List σ) → Nat
  | _, [] => 0
  | n, p :: ps => if p.length ≤ n then wholeCount (n - p.length) ps + 1 else 0

theorem wholeCount_le (n : Nat) (ps : List (List σ)) : wholeCount n ps ≤ ps.length := by
  induction ps generalizing n with
  | nil => exact Nat.le_refl _
  | cons p ps ih =>
      rw [wholeCount]
      split
      · exact Nat.succ_le_succ (ih _)
      · exact Nat.zero_le _

theorem lt_wholeCount_iff {n i : Nat} {ps : List (List σ)} (hi : i < ps.length) :
    i < wholeCount n ps ↔ (ps.take (i + 1)).flatten.length ≤ n := by
  induction ps generalizing n i with
  | nil => simp at hi
  | cons p ps ih =>
      rw [wholeCount, List.take_succ_cons, List.flatten_cons, List.length_append]
      split
      · rename_i hfit
        cases i with
        | zero => simp [hfit]
        | succ i =>
            rw [Nat.succ_lt_succ_iff, ih (Nat.lt_of_succ_lt_succ hi)]
            omega
      · omega

theorem flatten_take_wholeCount (n : Nat) (ps : List (List σ)) :
    (ps.take (wholeCount n ps)).flatten <+: ps.flatten.take n := by
  induction ps generalizing n with
  | nil => simp
  | cons p ps ih =>
      rw [wholeCount]
      split
      · rename_i hfit
        rw [List.take_succ_cons, List.flatten_cons, List.flatten_cons, List.take_append,
          List.take_of_length_le hfit]
        exact (List.prefix_append_right_inj p).mpr (ih _)
      · exact List.nil_prefix

theorem wholeCount_le_length {ps : List (List σ)} (h : ∀ p ∈ ps, p ≠ []) (n : Nat) :
    wholeCount n ps ≤ (ps.flatten.take n).length := by
  induction ps generalizing n with
  | nil => exact Nat.zero_le _
  | cons p ps ih =>
      have hpos := List.length_pos_of_ne_nil (h p List.mem_cons_self)
      have hrest := ih (fun q hq => h q (List.mem_cons_of_mem p hq)) (n - p.length)
      rw [wholeCount]
      split
      · rw [List.flatten_cons, List.take_append, List.length_append, List.length_take]
        omega
      · exact Nat.zero_le _

variable {read} {p q r : List σ} {a : α} {as bs : List α} {ps : List (List σ)} {fuel : Nat}

/-- The stream is made of frames for these values. -/
def Frames (read : List σ → Option (α × List σ)) (p : List σ) (as : List α) : Prop :=
  ∃ ps : List (List σ), ps.flatten = p ∧ List.Forall₂ (Frame read) ps as

theorem Frames.append (hp : Frames read p as) (hq : Frames read q bs) :
    Frames read (p ++ q) (as ++ bs) := by
  obtain ⟨ps, rfl, hps⟩ := hp
  obtain ⟨qs, rfl, hqs⟩ := hq
  exact ⟨ps ++ qs, List.flatten_append, List.rel_append hps hqs⟩

theorem readMany_append (h : List.Forall₂ (Frame read) ps as) (fuel : Nat) (r : List σ) :
    readMany read (as.length + fuel) (ps.flatten ++ r) =
      (as ++ (readMany read fuel r).1, (readMany read fuel r).2) := by
  induction h with
  | nil => simp
  | @cons p a ps as hframe _ ih =>
      rw [List.length_cons, Nat.succ_add, List.flatten_cons, List.append_assoc, readMany,
        hframe.read_append]
      simp only [ih, List.cons_append]

theorem readMany_eq_of_lt (hframed : Framed read) {fuel fuel' : Nat} (h : r.length < fuel)
    (h' : r.length < fuel') : readMany read fuel r = readMany read fuel' r := by
  induction fuel generalizing fuel' r with
  | zero => omega
  | succ fuel ih =>
      obtain ⟨fuel', rfl⟩ : ∃ k, fuel' = k + 1 := ⟨fuel' - 1, by omega⟩
      rw [readMany, readMany]
      cases hread : read r with
      | none => rfl
      | some res =>
          obtain ⟨a, rest⟩ := res
          obtain ⟨p, rfl, hframe⟩ := hframed r a rest hread
          have hpos := List.length_pos_of_ne_nil hframe.ne_nil
          rw [List.length_append] at h h'
          have hrest : readMany read fuel rest = readMany read fuel' rest :=
            ih (by omega) (by omega)
          simp only [hrest]

/-- What has been read is a sequence of frames, and the reader fails on the rest. -/
theorem readMany_frames (hframed : Framed read) (h : r.length < fuel) :
    ∃ p, r = p ++ (readMany read fuel r).2 ∧ Frames read p (readMany read fuel r).1 ∧
      read (readMany read fuel r).2 = none := by
  induction fuel generalizing r with
  | zero => omega
  | succ fuel ih =>
      rw [readMany]
      cases hread : read r with
      | none => exact ⟨[], rfl, ⟨[], rfl, List.Forall₂.nil⟩, hread⟩
      | some res =>
          obtain ⟨a, rest⟩ := res
          obtain ⟨p, rfl, hframe⟩ := hframed r a rest hread
          have hpos := List.length_pos_of_ne_nil hframe.ne_nil
          rw [List.length_append] at h
          obtain ⟨q, hq, hframes, hstop⟩ := ih (r := rest) (by omega)
          refine ⟨p ++ q, ?_, ?_, hstop⟩
          · rw [List.append_assoc]
            exact congrArg (p ++ ·) hq
          · have hone : Frames read p [a] :=
              ⟨[p], List.flatten_singleton, List.Forall₂.cons hframe List.Forall₂.nil⟩
            exact hone.append hframes

theorem Frames.readMany_eq (h : Frames read p as) (hframed : Framed read) (hnil : read [] = none)
    (hfuel : p.length < fuel) : readMany read fuel p = (as, []) := by
  obtain ⟨ps, rfl, hps⟩ := h
  have hempty : readMany read 1 [] = ([], []) := by
    rw [readMany, hnil]
  have hlong : ps.flatten.length < as.length + 1 + ps.flatten.length := by omega
  have hmore : readMany read (1 + ps.flatten.length) [] = ([], []) := by
    rw [← hempty]
    exact readMany_eq_of_lt hframed (by rw [List.length_nil]; omega) (Nat.lt_succ_self 0)
  have happend := readMany_append hps (1 + ps.flatten.length) []
  rw [List.append_nil, ← Nat.add_assoc] at happend
  rw [readMany_eq_of_lt hframed hfuel hlong, happend, hmore, List.append_nil]

/-- Of a prefix of a sequence of frames the reader finds the values of the frames that
are whole, and stops at the end of the last of them. -/
theorem readMany_take (h : List.Forall₂ (WholeFrame read) ps as) (hnil : read [] = none)
    {n fuel : Nat} (hfuel : wholeCount n ps < fuel) :
    readMany read fuel (ps.flatten.take n) =
      (as.take (wholeCount n ps),
        (ps.flatten.take n).drop (ps.take (wholeCount n ps)).flatten.length) := by
  induction h generalizing n fuel with
  | nil =>
      obtain ⟨fuel, rfl⟩ : ∃ k, fuel = k + 1 := ⟨fuel - 1, by omega⟩
      simp [readMany, hnil]
  | @cons p a ps as hframe _ ih =>
      obtain ⟨fuel, rfl⟩ : ∃ k, fuel = k + 1 := ⟨fuel - 1, by omega⟩
      rw [wholeCount] at hfuel ⊢
      rw [List.flatten_cons, List.take_append]
      split
      · rename_i hfit
        rw [if_pos hfit] at hfuel
        have hrest := @ih (n - p.length) fuel (by omega)
        rw [List.take_of_length_le hfit, readMany, hframe.read_append]
        simp only [hrest, List.take_succ_cons, List.flatten_cons, List.length_append]
        have hpast : p.drop (p.length + (ps.take (wholeCount (n - p.length) ps)).flatten.length) =
            [] := List.drop_eq_nil_of_le (Nat.le_add_right _ _)
        rw [List.drop_append, Nat.add_sub_cancel_left, hpast, List.nil_append]
      · rename_i hcut
        have hzero : n - p.length = 0 := by omega
        rw [hzero, List.take_zero, List.append_nil, readMany, hframe.torn n (by omega)]
        simp

end Hcdb.Lib.Framing
