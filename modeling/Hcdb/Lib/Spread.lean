import Mathlib.Data.Finset.Range
import Mathlib.Data.Nat.Log

namespace Hcdb.Lib.Spread

/-- Of any two numbers one is at least `b` times the other. -/
def Apart (b : Nat) (l : List Nat) : Prop := l.Pairwise fun x y => b * x ≤ y ∨ b * y ≤ x

variable {b m M : Nat}

theorem log_div_lt {x y : Nat} (hb : 1 < b) (hm : 0 < m) (hx : m ≤ x) (h : b * x ≤ y) :
    Nat.log b (x / m) < Nat.log b (y / m) := by
  have hpos : x / m ≠ 0 := (Nat.div_pos hx hm).ne'
  have hle : x / m * b ≤ y / m := by
    rw [Nat.le_div_iff_mul_le hm]
    calc x / m * b * m = b * (x / m * m) := by rw [Nat.mul_comm (x / m) b, Nat.mul_assoc]
      _ ≤ b * x := Nat.mul_le_mul_left b (Nat.div_mul_le_self x m)
      _ ≤ y := h
  calc Nat.log b (x / m) < Nat.log b (x / m) + 1 := Nat.lt_succ_self _
    _ = Nat.log b (x / m * b) := (Nat.log_mul_base hb hpos).symm
    _ ≤ Nat.log b (y / m) := Nat.log_mono_right hle

/-- No two numbers that lie apart have the same logarithm. -/
theorem Apart.length_le {l : List Nat} (h : Apart b l) (hb : 1 < b) (hm : 0 < m)
    (hlo : ∀ x ∈ l, m ≤ x) (hhi : ∀ x ∈ l, x ≤ M) : l.length ≤ Nat.log b (M / m) + 1 := by
  have hnodup : (l.map fun x => Nat.log b (x / m)).Nodup := by
    refine List.pairwise_map.mpr (h.imp_of_mem fun {x y} hx hy hxy => ?_)
    rcases hxy with hxy | hyx
    · exact (log_div_lt hb hm (hlo x hx) hxy).ne
    · exact (log_div_lt hb hm (hlo y hy) hyx).ne'
  have hsubset : (l.map fun x => Nat.log b (x / m)) ⊆ List.range (Nat.log b (M / m) + 1) := by
    intro k hk
    obtain ⟨x, hx, rfl⟩ := List.mem_map.mp hk
    rw [List.mem_range]
    exact Nat.lt_succ_of_le (Nat.log_mono_right (Nat.div_le_div_right (hhi x hx)))
  have hlength := (hnodup.subperm hsubset).length_le
  rwa [List.length_map, List.length_range] at hlength

end Hcdb.Lib.Spread
