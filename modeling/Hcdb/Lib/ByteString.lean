import Mathlib.Data.List.Lex
import Mathlib.Order.Compare
import Mathlib.Tactic.Linarith
import Mathlib.Tactic.Ring

namespace Hcdb.Lib.ByteString

/-- A Go `[]byte` or `string`. -/
abbrev Bytes := List UInt8

instance linearOrderUInt8 : LinearOrder UInt8 where
  le_refl := UInt8.le_refl
  le_trans := fun _ _ _ => UInt8.le_trans
  le_antisymm := fun _ _ => UInt8.le_antisymm
  le_total := UInt8.le_total
  toDecidableLE := inferInstance
  toDecidableEq := inferInstance
  toDecidableLT := inferInstance
  lt_iff_le_not_ge := fun a b => by
    simp only [UInt8.lt_iff_toNat_lt, UInt8.le_iff_toNat_le]
    omega

instance linearOrderUInt64 : LinearOrder UInt64 where
  le_refl := UInt64.le_refl
  le_trans := fun _ _ _ => UInt64.le_trans
  le_antisymm := fun _ _ => UInt64.le_antisymm
  le_total := UInt64.le_total
  toDecidableLE := inferInstance
  toDecidableEq := inferInstance
  toDecidableLT := inferInstance
  lt_iff_le_not_ge := fun a b => by
    simp only [UInt64.lt_iff_toNat_lt, UInt64.le_iff_toNat_le]
    omega

/-- The three-way comparison of a linear order, as Go's `Compare` functions
return it. -/
def threeWay {κ : Type*} [LinearOrder κ] (a b : κ) : Ordering :=
  cmp a b

/-- The `width` low bytes of `n`, least significant first. -/
def leBytes : Nat → Nat → Bytes
  | 0, _ => []
  | width + 1, n => UInt8.ofNat n :: leBytes width (n / 256)

/-- The number a least-significant-first byte string spells. -/
def leNat : Bytes → Nat
  | [] => 0
  | b :: bs => b.toNat + 256 * leNat bs

@[simp] theorem leBytes_length (width n : Nat) : (leBytes width n).length = width := by
  induction width generalizing n with
  | zero => rfl
  | succ width ih => simp [leBytes, ih]

theorem leNat_lt (bs : Bytes) : leNat bs < 256 ^ bs.length := by
  induction bs with
  | nil => simp [leNat]
  | cons b bs ih =>
      have hb : b.toNat < 256 := b.toNat_lt
      simp only [leNat, List.length_cons, pow_succ]
      omega

theorem leNat_leBytes (width n : Nat) : leNat (leBytes width n) = n % 256 ^ width := by
  induction width generalizing n with
  | zero => simp [leBytes, leNat, Nat.mod_one]
  | succ width ih =>
      have hbyte : (UInt8.ofNat n).toNat = n % 256 := UInt8.toNat_ofNat'
      rw [leBytes, leNat, ih, hbyte, Nat.pow_succ', Nat.mod_mul (x := n) (a := 256)]

theorem leNat_leBytes_of_lt {width n : Nat} (hn : n < 256 ^ width) :
    leNat (leBytes width n) = n := by
  rw [leNat_leBytes, Nat.mod_eq_of_lt hn]

/-- The two's-complement reading of a little-endian word. -/
def leInt (bs : Bytes) : Int :=
  Int.bmod (leNat bs) (256 ^ bs.length)

/-- The two's-complement encoding of an integer in `width` bytes. -/
def leIntBytes (width : Nat) (x : Int) : Bytes :=
  leBytes width (x % (256 ^ width : Nat)).toNat

@[simp] theorem leIntBytes_length (width : Nat) (x : Int) :
    (leIntBytes width x).length = width := by
  simp [leIntBytes]

theorem leInt_leIntBytes_of_nonneg {width : Nat} {n : Nat} (hn : 2 * n < 256 ^ width) :
    leInt (leIntBytes width n) = n := by
  have hcast : ((n : Int) % ((256 ^ width : Nat) : Int)).toNat = n := by
    rw [Int.emod_eq_of_lt (by omega) (by omega)]
    simp
  have hnat : leNat (leIntBytes width n) = n := by
    rw [leIntBytes, hcast, leNat_leBytes_of_lt (by omega)]
  rw [leInt, hnat, leIntBytes_length]
  apply Int.bmod_eq_of_le <;> omega

/-- How a read from a stream that ends too early fails. -/
inductive ReadErr where
  | eof
  | unexpectedEOF
  deriving DecidableEq, Repr

/-- Take exactly `n` bytes off the front of a stream. As with `io.ReadFull`, a
request for no bytes succeeds even at the end of the stream. -/
def readFull (n : Nat) (s : Bytes) : Except ReadErr (Bytes × Bytes) :=
  if n ≤ s.length then .ok (s.take n, s.drop n)
  else if s = [] then .error .eof
  else .error .unexpectedEOF

theorem readFull_append (a rest : Bytes) {n : Nat} (hn : a.length = n) :
    readFull n (a ++ rest) = .ok (a, rest) := by
  subst hn
  simp [readFull]

theorem readFull_eq_ok {n : Nat} {s a rest : Bytes} (h : readFull n s = .ok (a, rest)) :
    s = a ++ rest ∧ a.length = n := by
  unfold readFull at h
  split at h
  · rename_i hle
    simp only [Except.ok.injEq, Prod.mk.injEq] at h
    rcases h with ⟨rfl, rfl⟩
    exact ⟨(List.take_append_drop n s).symm, by simpa using hle⟩
  · split at h <;> simp at h

theorem readFull_of_lt {n : Nat} {s : Bytes} (h : s.length < n) (hs : s ≠ []) :
    readFull n s = .error .unexpectedEOF := by
  have hn : ¬ n ≤ s.length := by omega
  simp [readFull, hn, hs]

theorem readFull_short {n : Nat} {s : Bytes} (h : s.length < n) :
    ∃ err, readFull n s = .error err := by
  by_cases hs : s = []
  · exact ⟨.eof, by simp [readFull, hs]; omega⟩
  · exact ⟨.unexpectedEOF, readFull_of_lt h hs⟩

theorem readFull_nil {n : Nat} (hn : 0 < n) : readFull n [] = .error .eof := by
  have : ¬ n ≤ 0 := by omega
  simp [readFull, this]

/-- An unsigned number in little endian, and the rest. -/
def readWord (width : Nat) (s : Bytes) : Except ReadErr (Nat × Bytes) :=
  match readFull width s with
  | .ok (a, rest) => .ok (leNat a, rest)
  | .error e => .error e

theorem readWord_append {width n : Nat} (rest : Bytes) (hn : n < 256 ^ width) :
    readWord width (leBytes width n ++ rest) = .ok (n, rest) := by
  simp [readWord, readFull_append _ _ (leBytes_length width n), leNat_leBytes_of_lt hn]

theorem readWord_eq_ok {width n : Nat} {s rest : Bytes} (h : readWord width s = .ok (n, rest)) :
    s.length = width + rest.length := by
  unfold readWord at h
  split at h
  · rename_i a rest' hfull
    obtain ⟨-, rfl⟩ := Prod.mk.inj (Except.ok.inj h)
    obtain ⟨rfl, hlen⟩ := readFull_eq_ok hfull
    rw [List.length_append, hlen]
  · simp at h

/-- A signed number in little endian, and the rest. -/
def readInt (width : Nat) (s : Bytes) : Except ReadErr (Int × Bytes) :=
  match readFull width s with
  | .ok (a, rest) => .ok (leInt a, rest)
  | .error e => .error e

theorem readInt_append {width n : Nat} (rest : Bytes) (hn : 2 * n < 256 ^ width) :
    readInt width (leIntBytes width n ++ rest) = .ok ((n : Int), rest) := by
  simp [readInt, readFull_append _ _ (leIntBytes_length width n),
    leInt_leIntBytes_of_nonneg hn]

end Hcdb.Lib.ByteString
