import Hcdb.Lib.FiniteMap
import Hcdb.Base.InternalKey
import Mathlib.Data.Multiset.Fold

namespace Hcdb.Base

open Hcdb.Lib.FiniteMap

/-- `active` maps every pinned sequence number to its reference count. -/
structure Watermark where
  active : FMap Nat Nat

def newWatermark : Watermark where
  active := FMap.empty

namespace Watermark

/-- The reference count; a number that is not in the map counts 0. -/
def count (w : Watermark) (seq : Nat) : Nat :=
  (w.active.read seq).getD 0

/-- One more reader pins the sequence number. -/
def begin (w : Watermark) (seq : Nat) : Watermark where
  active := w.active.write seq (w.count seq + 1)

/-- One reader less; the last one takes the entry with it. -/
def done (w : Watermark) (seq : Nat) : Watermark :=
  if w.count seq ≤ 1 then { active := w.active.remove seq }
  else { active := w.active.write seq (w.count seq - 1) }

/-- The smallest pinned number, and `seqNumMax` if nobody is pinned. -/
def floor (w : Watermark) : Nat :=
  w.active.pairs.foldl (fun floor pin => if pin.1 < floor then pin.1 else floor) seqNumMax

theorem count_newWatermark (seq : Nat) : newWatermark.count seq = 0 := rfl

theorem count_begin (w : Watermark) (seq s : Nat) :
    (w.begin seq).count s = w.count s + if s = seq then 1 else 0 := by
  by_cases h : s = seq
  · simp [begin, count, h]
  · simp [begin, count, h, FMap.read_write_of_ne _ _ h]

theorem count_done (w : Watermark) (seq s : Nat) :
    (w.done seq).count s = w.count s - if s = seq then 1 else 0 := by
  unfold done
  by_cases h : s = seq
  · subst h
    split
    · simp only [count, FMap.read_remove_self, if_true] at *
      simp only [Option.getD_none]
      omega
    · simp [count]
  · split
    · simp [count, FMap.read_remove_of_ne _ h]
    · simp [count, FMap.read_write_of_ne _ _ h]

theorem le_foldl_min {c : Nat} (pins : List (Nat × Nat)) (floor : Nat) :
    c ≤ pins.foldl (fun floor pin => if pin.1 < floor then pin.1 else floor) floor ↔
      c ≤ floor ∧ ∀ pin ∈ pins, c ≤ pin.1 := by
  induction pins generalizing floor with
  | nil => simp
  | cons pin pins ih =>
      rw [List.foldl_cons, ih, List.forall_mem_cons, ← and_assoc]
      refine and_congr_left fun _ => ?_
      split
      · omega
      · omega

theorem le_floor {w : Watermark} {c : Nat} :
    c ≤ w.floor ↔ c ≤ seqNumMax ∧ ∀ pin ∈ w.active.pairs, c ≤ pin.1 :=
  le_foldl_min w.active.pairs seqNumMax

theorem floor_le_seqNumMax (w : Watermark) : w.floor ≤ seqNumMax :=
  (le_floor.mp le_rfl).1

/-- A pinned snapshot is never below the floor. -/
theorem floor_le_of_count_pos {w : Watermark} {seq : Nat} (h : 0 < w.count seq) :
    w.floor ≤ seq := by
  rw [count] at h
  cases hread : w.active.read seq with
  | none => simp [hread] at h
  | some n => exact (le_floor.mp le_rfl).2 _ ((FMap.read_eq_some_iff _).mp hread)

theorem floor_newWatermark : newWatermark.floor = seqNumMax := rfl

/-- The watermark holds these pins: the counts are theirs, and the map has no key
that is not pinned. -/
structure Pins (w : Watermark) (pins : Multiset Nat) : Prop where
  count : ∀ seq, w.count seq = pins.count seq
  pinned : ∀ seq n, w.active.read seq = some n → 0 < n

theorem pins_newWatermark : newWatermark.Pins 0 where
  count seq := by rw [count_newWatermark, Multiset.count_zero]
  pinned seq n h := by simp [newWatermark] at h

theorem Pins.begin {w : Watermark} {pins : Multiset Nat} (h : w.Pins pins) (seq : Nat) :
    (w.begin seq).Pins (seq ::ₘ pins) where
  count s := by rw [count_begin, h.count, Multiset.count_cons]
  pinned s n hread := by
    by_cases hs : s = seq
    · rw [hs, Watermark.begin, FMap.read_write_self, Option.some.injEq] at hread
      omega
    · rw [Watermark.begin, FMap.read_write_of_ne _ _ hs] at hread
      exact h.pinned s n hread

theorem Pins.done {w : Watermark} {pins : Multiset Nat} (h : w.Pins pins) (seq : Nat) :
    (w.done seq).Pins (pins.erase seq) where
  count s := by
    rw [count_done, h.count]
    by_cases hs : s = seq
    · rw [hs, if_pos rfl, Multiset.count_erase_self]
    · rw [if_neg hs, Multiset.count_erase_of_ne hs, Nat.sub_zero]
  pinned s n hread := by
    unfold Watermark.done at hread
    by_cases hs : s = seq
    · subst hs
      split at hread
      · rw [FMap.read_remove_self] at hread
        simp at hread
      · rw [FMap.read_write_self, Option.some.injEq] at hread
        omega
    · split at hread
      · rw [FMap.read_remove_of_ne _ hs] at hread
        exact h.pinned s n hread
      · rw [FMap.read_write_of_ne _ _ hs] at hread
        exact h.pinned s n hread

theorem Pins.mem_iff {w : Watermark} {pins : Multiset Nat} (h : w.Pins pins) (seq : Nat) :
    seq ∈ pins ↔ ∃ n, (seq, n) ∈ w.active.pairs := by
  rw [← Multiset.count_pos, ← h.count, Watermark.count]
  constructor
  · intro hpos
    cases hread : w.active.read seq with
    | none => simp [hread] at hpos
    | some n => exact ⟨n, (FMap.read_eq_some_iff _).mp hread⟩
  · rintro ⟨n, hpin⟩
    have hread := (FMap.read_eq_some_iff _).mpr hpin
    rw [hread]
    exact h.pinned seq n hread

theorem le_fold_min {c b : Nat} (pins : Multiset Nat) :
    c ≤ pins.fold min b ↔ c ≤ b ∧ ∀ seq ∈ pins, c ≤ seq := by
  induction pins using Multiset.induction_on with
  | empty => simp
  | cons seq pins ih =>
      rw [Multiset.fold_cons_left, le_min_iff, ih, Multiset.forall_mem_cons]
      tauto

theorem Pins.floor_eq {w : Watermark} {pins : Multiset Nat} (h : w.Pins pins) :
    w.floor = pins.fold min seqNumMax := by
  apply eq_of_forall_le_iff
  intro c
  rw [le_floor, le_fold_min]
  refine and_congr_right fun _ => ?_
  constructor
  · intro hle seq hseq
    obtain ⟨n, hpin⟩ := (h.mem_iff seq).mp hseq
    exact hle _ hpin
  · rintro hle ⟨seq, n⟩ hpin
    exact hle seq ((h.mem_iff seq).mpr ⟨n, hpin⟩)

end Watermark

inductive PinCall where
  | begin (seq : Nat)
  | done (seq : Nat)
  deriving DecidableEq, Repr

def Watermark.call (w : Watermark) : PinCall → Watermark
  | .begin seq => w.begin seq
  | .done seq => w.done seq

/-- What the calls mean: `Begin` adds a copy of its number, `Done` takes one away if
there is one. -/
def PinCall.onPins (pins : Multiset Nat) : PinCall → Multiset Nat
  | .begin seq => seq ::ₘ pins
  | .done seq => pins.erase seq

theorem Watermark.Pins.calls {w : Watermark} {pins : Multiset Nat} (h : w.Pins pins)
    (calls : List PinCall) : (calls.foldl call w).Pins (calls.foldl PinCall.onPins pins) := by
  induction calls generalizing w pins with
  | nil => exact h
  | cons c calls ih =>
      cases c with
      | begin seq => exact ih (h.begin seq)
      | done seq => exact ih (h.done seq)

/-- After any calls the floor is the least of the pins and `SeqNumMax`, and a `Done`
takes away a pin of its own number only. -/
theorem watermark_refines_pins (calls : List PinCall) :
    (calls.foldl Watermark.call newWatermark).floor =
      (calls.foldl PinCall.onPins 0).fold min seqNumMax ∧
    (∀ seq ∈ calls.foldl PinCall.onPins 0,
      (calls.foldl Watermark.call newWatermark).floor ≤ seq) ∧
    ∀ seq s, s ≠ seq →
      ((calls.foldl Watermark.call newWatermark).done seq).count s =
        (calls.foldl PinCall.onPins 0).count s := by
  have h := Watermark.pins_newWatermark.calls calls
  refine ⟨h.floor_eq, fun seq hseq => ?_, fun seq s hs => ?_⟩
  · rw [h.floor_eq]
    exact ((Watermark.le_fold_min _).mp le_rfl).2 seq hseq
  · rw [(h.done seq).count, Multiset.count_erase_of_ne hs]

example : ([.begin 7, .begin 3, .begin 3, .done 3, .done 9] : List PinCall).foldl
    PinCall.onPins 0 = {3, 7} := by decide

end Hcdb.Base
