import Hcdb.Runtime
import Mathlib.Data.Nat.Bitwise

namespace Hcdb.Bloomfilter

open Hcdb.Lib.ByteString

/-- The bits, and how many of them each key sets. -/
structure BloomFilter where
  bits : List Bool
  numHash : Nat
  size : Nat
  length_bits : bits.length = size
  deriving DecidableEq

section Probing

variable [Runtime]

/-- Double hashing.  The division by a zero size is a run-time panic. -/
def hashPosition (key : Bytes) (seed size : Nat) : Option Nat :=
  if UInt64.ofNat size = 0 then none
  else
    let h1 := Runtime.fnv64a key
    let h2 := Runtime.fnv32a key
    some ((h1 + UInt64.ofNat seed * h2.toUInt64) % UInt64.ofNat size).toNat

/-- A filter that contains nothing, of the size that the runtime's floats give. -/
def newBloomFilter : BloomFilter where
  bits := List.replicate Runtime.bloomSize false
  numHash := Runtime.bloomNumHash
  size := Runtime.bloomSize
  length_bits := List.length_replicate

/-- Set the bit of one probe.  A filter the writers build has a positive size, so
the panicking branch of `hashPosition` is not reached from here. -/
def BloomFilter.setProbe (key : Bytes) (bf : BloomFilter) (seed : Nat) : BloomFilter :=
  match hashPosition key seed bf.size with
  | none => bf
  | some pos =>
      { bf with
        bits := bf.bits.set pos true
        length_bits := by rw [List.length_set, bf.length_bits] }

/-- Set the bit of every seed. -/
def BloomFilter.add (bf : BloomFilter) (key : Bytes) : BloomFilter :=
  (List.range bf.numHash).foldl (BloomFilter.setProbe key) bf

/-- Look at one bit after the other, up to the first that is not set. -/
def BloomFilter.probeAll (bf : BloomFilter) (key : Bytes) : List Nat → Option Bool
  | [] => some true
  | seed :: seeds =>
      match hashPosition key seed bf.size with
      | none => none
      | some pos => if bf.bits.getD pos false then bf.probeAll key seeds else some false

/-- `none` is the run-time panic of a filter whose size is zero. -/
def BloomFilter.mightContain (bf : BloomFilter) (key : Bytes) : Option Bool :=
  bf.probeAll key (List.range bf.numHash)

theorem hashPosition_eq_some (key : Bytes) (seed : Nat) {size : Nat} (hpos : 0 < size)
    (hlt : size < 2 ^ 32) : ∃ pos, hashPosition key seed size = some pos ∧ pos < size := by
  have hsize : (UInt64.ofNat size).toNat = size := by
    rw [UInt64.toNat_ofNat']
    exact Nat.mod_eq_of_lt (by omega)
  have hne : UInt64.ofNat size ≠ 0 := by
    intro hzero
    have hcast := congrArg UInt64.toNat hzero
    rw [hsize] at hcast
    simp at hcast
    omega
  refine ⟨_, by rw [hashPosition, if_neg hne], ?_⟩
  rw [UInt64.toNat_mod, hsize]
  exact Nat.mod_lt _ hpos

@[simp] theorem setProbe_size (key : Bytes) (bf : BloomFilter) (seed : Nat) :
    (bf.setProbe key seed).size = bf.size := by
  unfold BloomFilter.setProbe
  split <;> rfl

@[simp] theorem setProbe_numHash (key : Bytes) (bf : BloomFilter) (seed : Nat) :
    (bf.setProbe key seed).numHash = bf.numHash := by
  unfold BloomFilter.setProbe
  split <;> rfl

theorem setProbe_mono (key : Bytes) (bf : BloomFilter) (seed : Nat) {pos : Nat}
    (h : bf.bits.getD pos false = true) : (bf.setProbe key seed).bits.getD pos false = true := by
  unfold BloomFilter.setProbe
  split
  · exact h
  · rename_i pos' _
    simp only [List.getD_eq_getElem?_getD, List.getElem?_set] at h ⊢
    split
    · split
      · rfl
      · rename_i heq hlen
        subst heq
        rw [List.getElem?_eq_none (by omega)] at h
        simp at h
    · exact h

theorem foldl_setProbe_size (key : Bytes) (seeds : List Nat) (bf : BloomFilter) :
    (seeds.foldl (BloomFilter.setProbe key) bf).size = bf.size := by
  induction seeds generalizing bf with
  | nil => rfl
  | cons seed seeds ih => rw [List.foldl_cons, ih, setProbe_size]

theorem foldl_setProbe_numHash (key : Bytes) (seeds : List Nat) (bf : BloomFilter) :
    (seeds.foldl (BloomFilter.setProbe key) bf).numHash = bf.numHash := by
  induction seeds generalizing bf with
  | nil => rfl
  | cons seed seeds ih => rw [List.foldl_cons, ih, setProbe_numHash]

theorem foldl_setProbe_mono (key : Bytes) (seeds : List Nat) (bf : BloomFilter) {pos : Nat}
    (h : bf.bits.getD pos false = true) :
    (seeds.foldl (BloomFilter.setProbe key) bf).bits.getD pos false = true := by
  induction seeds generalizing bf with
  | nil => exact h
  | cons seed seeds ih => exact ih (bf.setProbe key seed) (setProbe_mono key bf seed h)

@[simp] theorem add_size (bf : BloomFilter) (key : Bytes) : (bf.add key).size = bf.size :=
  foldl_setProbe_size key _ bf

@[simp] theorem add_numHash (bf : BloomFilter) (key : Bytes) :
    (bf.add key).numHash = bf.numHash :=
  foldl_setProbe_numHash key _ bf

/-- The filter has set every probe of the key. -/
def BloomFilter.Covers (bf : BloomFilter) (key : Bytes) : Prop :=
  ∀ seed < bf.numHash, ∀ pos, hashPosition key seed bf.size = some pos →
    bf.bits.getD pos false = true

theorem foldl_setProbe_covers (key : Bytes) (seeds : List Nat) (bf : BloomFilter)
    (hpos : 0 < bf.size) (hlt : bf.size < 2 ^ 32) {seed : Nat} (hseed : seed ∈ seeds)
    {pos : Nat} (hhash : hashPosition key seed bf.size = some pos) :
    (seeds.foldl (BloomFilter.setProbe key) bf).bits.getD pos false = true := by
  induction seeds generalizing bf with
  | nil => simp at hseed
  | cons s seeds ih =>
      rw [List.foldl_cons]
      by_cases hs : s = seed
      · subst hs
        apply foldl_setProbe_mono
        obtain ⟨pos', hpos', hbound⟩ := hashPosition_eq_some key s hpos hlt
        rw [hhash, Option.some.injEq] at hpos'
        subst hpos'
        unfold BloomFilter.setProbe
        rw [hhash]
        have hlen : pos < bf.bits.length := by
          rw [bf.length_bits]
          exact hbound
        simp [List.getD_eq_getElem?_getD, hlen]
      · have hmem : seed ∈ seeds := by
          rcases List.mem_cons.mp hseed with h | h
          · exact absurd h.symm hs
          · exact h
        exact ih (bf.setProbe key s) (by simpa using hpos) (by simpa using hlt) hmem
          (by simpa using hhash)

theorem covers_add (bf : BloomFilter) (key : Bytes) (hpos : 0 < bf.size)
    (hlt : bf.size < 2 ^ 32) : (bf.add key).Covers key := by
  intro seed hseed pos hhash
  rw [add_numHash] at hseed
  rw [add_size] at hhash
  exact foldl_setProbe_covers key _ bf hpos hlt (List.mem_range.mpr hseed) hhash

theorem covers_add_of_covers (bf : BloomFilter) (key key' : Bytes) (h : bf.Covers key) :
    (bf.add key').Covers key := by
  intro seed hseed pos hhash
  rw [add_numHash] at hseed
  rw [add_size] at hhash
  exact foldl_setProbe_mono key' _ bf (h seed hseed pos hhash)

theorem foldl_add_size (keys : List Bytes) (bf : BloomFilter) :
    (keys.foldl BloomFilter.add bf).size = bf.size := by
  induction keys generalizing bf with
  | nil => rfl
  | cons key keys ih => rw [List.foldl_cons, ih, add_size]

theorem foldl_add_numHash (keys : List Bytes) (bf : BloomFilter) :
    (keys.foldl BloomFilter.add bf).numHash = bf.numHash := by
  induction keys generalizing bf with
  | nil => rfl
  | cons key keys ih => rw [List.foldl_cons, ih, add_numHash]

theorem covers_foldl_add (keys : List Bytes) (bf : BloomFilter) (hpos : 0 < bf.size)
    (hlt : bf.size < 2 ^ 32) {key : Bytes} (h : key ∈ keys ∨ bf.Covers key) :
    (keys.foldl BloomFilter.add bf).Covers key := by
  induction keys generalizing bf with
  | nil => simpa using h
  | cons k keys ih =>
      rw [List.foldl_cons]
      refine ih (bf.add k) (by simpa using hpos) (by simpa using hlt) ?_
      rcases h with h | h
      · rcases List.mem_cons.mp h with rfl | h
        · exact Or.inr (covers_add bf key hpos hlt)
        · exact Or.inl h
      · exact Or.inr (covers_add_of_covers bf key k h)

theorem probeAll_of_covers (bf : BloomFilter) {key : Bytes} (hpos : 0 < bf.size)
    (hlt : bf.size < 2 ^ 32) (seeds : List Nat)
    (h : ∀ seed ∈ seeds, ∀ pos, hashPosition key seed bf.size = some pos →
      bf.bits.getD pos false = true) : bf.probeAll key seeds = some true := by
  induction seeds with
  | nil => rfl
  | cons seed seeds ih =>
      obtain ⟨pos, hhash, -⟩ := hashPosition_eq_some key seed hpos hlt
      have hbit := h seed (by simp) pos hhash
      have hrest := ih fun s hs => h s (by simp [hs])
      rw [BloomFilter.probeAll, hhash]
      simp only [hbit, if_true, hrest]

theorem mightContain_of_covers (bf : BloomFilter) {key : Bytes} (hpos : 0 < bf.size)
    (hlt : bf.size < 2 ^ 32) (h : bf.Covers key) : bf.mightContain key = some true :=
  probeAll_of_covers bf hpos hlt _ fun seed hseed => h seed (List.mem_range.mp hseed)

theorem mightContain_isSome (bf : BloomFilter) (key : Bytes) (hpos : 0 < bf.size)
    (hlt : bf.size < 2 ^ 32) : ∃ b, bf.mightContain key = some b := by
  have hall : ∀ seeds, ∃ b, bf.probeAll key seeds = some b := by
    intro seeds
    induction seeds with
    | nil => exact ⟨true, rfl⟩
    | cons seed seeds ih =>
        obtain ⟨pos, hhash, -⟩ := hashPosition_eq_some key seed hpos hlt
        obtain ⟨b, hb⟩ := ih
        simp only [BloomFilter.probeAll, hhash]
        split
        · exact ⟨b, hb⟩
        · exact ⟨false, rfl⟩
  exact hall _

end Probing

def setBit (out : Bytes) (i : Nat) : Bytes :=
  out.modify (i / 8) fun b => b ||| (1 <<< UInt8.ofNat (i % 8))

def packBits (numBytes : Nat) (bits : List Bool) : Bytes :=
  bits.zipIdx.foldl (fun out bi => if bi.1 then setBit out bi.2 else out)
    (List.replicate numBytes 0)

/-- The size, the number of hash functions and the packed bits. -/
def serialize (bf : BloomFilter) : Bytes :=
  let numBytes := (bf.bits.length + 7) / 8
  leBytes 4 bf.size ++ leBytes 4 bf.numHash ++ packBits numBytes bf.bits

/-- Bit `i` of serialized data, where missing bytes count as zero. -/
def getBit (data : Bytes) (i : Nat) : Bool :=
  let byteIdx := 8 + i / 8
  if byteIdx < data.length then
    (data.getD byteIdx 0 >>> UInt8.ofNat (i % 8)) &&& 1 == 1
  else false

/-- `none` is the run-time panic of slicing fewer than eight bytes. -/
def deserialize (data : Bytes) : Option BloomFilter :=
  if data.length < 8 then none
  else
    let size := leNat (data.take 4)
    let numHash := leNat ((data.drop 4).take 4)
    some
      { bits := (List.range size).map (getBit data)
        numHash
        size
        length_bits := by simp }

theorem byte_bit_eq_testBit (b : UInt8) {k : Nat} (hk : k < 8) :
    ((b >>> UInt8.ofNat k) &&& 1 == 1) = b.toNat.testBit k := by
  have hofNat : (UInt8.ofNat k).toNat = k := by
    rw [UInt8.toNat_ofNat']
    exact Nat.mod_eq_of_lt (by omega)
  have hnat : ((b >>> UInt8.ofNat k) &&& 1).toNat = (b.toNat >>> k) % 2 := by
    rw [UInt8.toNat_and, UInt8.toNat_shiftRight, hofNat, Nat.mod_eq_of_lt hk]
    exact Nat.and_one_is_mod _
  have hbeq : ((b >>> UInt8.ofNat k) &&& 1 == 1) = decide ((b.toNat >>> k) % 2 = 1) := by
    rw [← hnat, Bool.eq_iff_iff, beq_iff_eq, decide_eq_true_eq, ← UInt8.toNat_inj]
    rfl
  rw [hbeq, Nat.testBit_eq_decide_div_mod_eq, Nat.shiftRight_eq_div_pow]

theorem testBit_or_one_shiftLeft (b : UInt8) {j k : Nat} (hj : j < 8) (hk : k < 8) :
    (b ||| (1 <<< UInt8.ofNat j)).toNat.testBit k = (b.toNat.testBit k || decide (j = k)) := by
  have hofNat : (UInt8.ofNat j).toNat = j := by
    rw [UInt8.toNat_ofNat']
    exact Nat.mod_eq_of_lt (by omega)
  rw [UInt8.toNat_or, UInt8.toNat_shiftLeft, hofNat, Nat.mod_eq_of_lt hj, Nat.testBit_or,
    Nat.testBit_mod_two_pow]
  have hone : (UInt8.toNat 1) = 1 := rfl
  rw [hone, Nat.shiftLeft_eq, Nat.one_mul, Nat.testBit_two_pow]
  simp [hk]

@[simp] theorem setBit_length (out : Bytes) (i : Nat) : (setBit out i).length = out.length := by
  simp [setBit]

theorem setBit_testBit (out : Bytes) {i j : Nat} (hi : i / 8 < out.length) :
    ((setBit out i).getD (j / 8) 0).toNat.testBit (j % 8) =
      ((out.getD (j / 8) 0).toNat.testBit (j % 8) || decide (i = j)) := by
  simp only [setBit, List.getD_eq_getElem?_getD, List.getElem?_modify]
  by_cases hbyte : i / 8 = j / 8
  · have hj : j / 8 < out.length := by omega
    simp only [hbyte, if_true, List.getElem?_eq_getElem hj, Option.map_eq_map,
      Option.map_some, Option.getD_some]
    rw [testBit_or_one_shiftLeft _ (by omega) (by omega)]
    have hsame : decide (i % 8 = j % 8) = decide (i = j) := by
      apply decide_eq_decide.mpr
      omega
    rw [hsame]
  · have hne : i ≠ j := by
      rintro rfl
      exact hbyte rfl
    simp [hbyte, hne]

/-- What a partially packed array holds: the bits packed so far, and the bits of
the array it started from. -/
theorem foldl_setBit_testBit (bits : List Bool) (start : Nat) (out : Bytes)
    (hlen : start + bits.length ≤ 8 * out.length) (j : Nat) :
    (((bits.zipIdx start).foldl (fun out bi => if bi.1 then setBit out bi.2 else out) out).getD
        (j / 8) 0).toNat.testBit (j % 8) =
      ((out.getD (j / 8) 0).toNat.testBit (j % 8) ||
        (decide (start ≤ j) && bits.getD (j - start) false)) := by
  induction bits generalizing start out with
  | nil => simp
  | cons bit bits ih =>
      have hstart : start / 8 < out.length := by
        simp at hlen
        omega
      rw [List.zipIdx_cons, List.foldl_cons]
      rw [ih (start + 1) (if bit then setBit out start else out) (by
        split <;> simp at hlen ⊢ <;> omega)]
      have hhead : ((if bit then setBit out start else out).getD (j / 8) 0).toNat.testBit (j % 8) =
          ((out.getD (j / 8) 0).toNat.testBit (j % 8) || (bit && decide (start = j))) := by
        cases bit
        · simp
        · simp only [if_true, Bool.true_and]
          exact setBit_testBit out hstart
      rw [hhead, Bool.or_assoc]
      congr 1
      -- the new bit sits at `start`; every later position indexes the tail
      rcases lt_trichotomy j start with hj | hj | hj
      · have h1 : ¬ start ≤ j := by omega
        have h2 : ¬ start + 1 ≤ j := by omega
        have h3 : start ≠ j := by omega
        simp [h1, h2, h3]
      · subst hj
        simp
      · have h1 : start ≤ j := by omega
        have h2 : start + 1 ≤ j := by omega
        have h3 : start ≠ j := by omega
        have h4 : j - start = (j - (start + 1)) + 1 := by omega
        simp [h1, h2, h3, h4]

theorem foldl_setBit_length (bits : List (Bool × Nat)) (out : Bytes) :
    (bits.foldl (fun out bi => if bi.1 then setBit out bi.2 else out) out).length =
      out.length := by
  induction bits generalizing out with
  | nil => rfl
  | cons bi bits ih =>
      rw [List.foldl_cons, ih]
      split <;> simp

@[simp] theorem packBits_length (numBytes : Nat) (bits : List Bool) :
    (packBits numBytes bits).length = numBytes := by
  rw [packBits, foldl_setBit_length, List.length_replicate]

theorem packBits_testBit {numBytes : Nat} {bits : List Bool} (h : bits.length ≤ 8 * numBytes)
    (j : Nat) : ((packBits numBytes bits).getD (j / 8) 0).toNat.testBit (j % 8) =
      bits.getD j false := by
  rw [packBits, foldl_setBit_testBit bits 0 _ (by simpa using h)]
  have hzero : ((List.replicate numBytes (0 : UInt8)).getD (j / 8) 0).toNat = 0 := by
    rw [List.getD_eq_getElem?_getD, List.getElem?_replicate]
    split <;> rfl
  rw [hzero]
  simp

@[simp] theorem serialize_length (bf : BloomFilter) :
    (serialize bf).length = 8 + (bf.size + 7) / 8 := by
  simp [serialize, bf.length_bits]
  omega

theorem deserialize_serialize {bf : BloomFilter} (hsize : bf.size < 2 ^ 32)
    (hnum : bf.numHash < 2 ^ 32) : deserialize (serialize bf) = some bf := by
  have hlen := serialize_length bf
  have hnot : ¬ (serialize bf).length < 8 := by omega
  have htake : leNat ((serialize bf).take 4) = bf.size := by
    rw [serialize, List.append_assoc, List.take_left' (leBytes_length 4 _)]
    exact leNat_leBytes_of_lt hsize
  have hdrop : leNat (((serialize bf).drop 4).take 4) = bf.numHash := by
    rw [serialize, List.append_assoc, List.drop_left' (leBytes_length 4 _),
      List.take_left' (leBytes_length 4 _)]
    exact leNat_leBytes_of_lt hnum
  have hbits : (List.range bf.size).map (getBit (serialize bf)) = bf.bits := by
    apply List.ext_getElem
    · simp [bf.length_bits]
    · intro i h₁ h₂
      have hi : i < bf.size := by simpa using h₁
      rw [List.getElem_map, List.getElem_range]
      have hbyte : 8 + i / 8 < (serialize bf).length := by omega
      have hget : (serialize bf).getD (8 + i / 8) 0 =
          (packBits ((bf.bits.length + 7) / 8) bf.bits).getD (i / 8) 0 := by
        have hheader : (leBytes 4 bf.size ++ leBytes 4 bf.numHash).length = 8 := by simp
        rw [serialize, List.getD_eq_getElem?_getD, List.getElem?_append_right (by omega), hheader,
          List.getD_eq_getElem?_getD]
        congr 2
        omega
      rw [getBit]
      simp only [if_pos hbyte, hget]
      rw [byte_bit_eq_testBit _ (by omega), packBits_testBit (by omega),
        List.getD_eq_getElem _ _ h₂]
  rw [deserialize, if_neg hnot]
  simp only [htake, hdrop, hbits]

/-- A filter comes back from its disk format as it was, and a key that was added is
never reported absent, before and after. -/
theorem bloom_no_false_negatives [Runtime] (bf : BloomFilter) (hpos : 0 < bf.size)
    (hsize : bf.size < 2 ^ 32) (hnum : bf.numHash < 2 ^ 32) :
    deserialize (serialize bf) = some bf ∧
    ∀ keys : List Bytes, ∀ key ∈ keys,
      (keys.foldl BloomFilter.add bf).mightContain key = some true ∧
      (deserialize (serialize (keys.foldl BloomFilter.add bf))).bind
        (fun read => read.mightContain key) = some true := by
  refine ⟨deserialize_serialize hsize hnum, ?_⟩
  intro keys key hkey
  have hsize' := foldl_add_size keys bf
  have hnum' := foldl_add_numHash keys bf
  have hfound : (keys.foldl BloomFilter.add bf).mightContain key = some true := by
    apply mightContain_of_covers
    · rw [hsize']
      exact hpos
    · rw [hsize']
      exact hsize
    · exact covers_foldl_add keys bf hpos hsize (Or.inl hkey)
  refine ⟨hfound, ?_⟩
  rw [deserialize_serialize (hsize' ▸ hsize) (hnum' ▸ hnum)]
  exact hfound

/-- A filter of eleven bits and three probes that holds two keys. -/
theorem bloom_no_false_negatives_eleven :
    let bf : BloomFilter :=
      { bits := List.replicate 11 false, numHash := 3, size := 11, length_bits := rfl }
    deserialize (serialize bf) = some bf ∧
      (([[1], [2]] : List Bytes).foldl BloomFilter.add bf).mightContain [1] = some true := by
  intro bf
  have h := bloom_no_false_negatives bf (by decide) (by decide) (by decide)
  exact ⟨h.1, (h.2 [[1], [2]] [1] (by simp)).1⟩

end Hcdb.Bloomfilter
