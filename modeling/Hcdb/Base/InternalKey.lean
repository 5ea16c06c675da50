import Hcdb.Lib.ByteString
import Hcdb.Lib.SortedList
import Mathlib.Data.Prod.Lex

namespace Hcdb.Base

open Hcdb.Lib.ByteString
open Hcdb.Lib.SortedList

/-- The largest sequence number.  Sequence numbers are `uint64` counters, here
natural numbers; packing one into a trailer truncates it to 56 bits. -/
def seqNumMax : Nat := 2 ^ 56 - 1

/-- What a version is: a value that was set, or a deletion. -/
abbrev InternalKeyKind := UInt8

def internalKeyKindDelete : InternalKeyKind := 0
def internalKeyKindSet : InternalKeyKind := 1
/-- The largest valid kind; in a search key it sorts before every version of its number. -/
def internalKeyKindMax : InternalKeyKind := 1
def internalKeyKindInvalid : InternalKeyKind := 255

/-- The sequence number and the kind of a version in one word. -/
abbrev InternalKeyTrailer := UInt64

/-- The sequence number goes above the eight bits of the kind; what does not fit is lost. -/
def makeTrailer (seqNum : Nat) (kind : InternalKeyKind) : InternalKeyTrailer :=
  (UInt64.ofNat seqNum <<< 8) ||| kind.toUInt64

/-- The sequence number of a trailer, without the kind. -/
def trailerSeqNum (t : InternalKeyTrailer) : Nat :=
  (t >>> 8).toNat

def trailerKind (t : InternalKeyTrailer) : InternalKeyKind :=
  (t &&& 0xff).toUInt8

/-- A user key with the trailer that tells its versions apart. -/
structure InternalKey where
  userKey : Bytes
  trailer : InternalKeyTrailer
  deriving DecidableEq, Repr

def internalTrailerLen : Nat := 8

def makeInternalKey (userKey : Bytes) (seqNum : Nat) (kind : InternalKeyKind) : InternalKey :=
  { userKey, trailer := makeTrailer seqNum kind }

/-- The search key sorts before every version visible at the snapshot and after
every version that is not. -/
def makeSearchKeyAt (userKey : Bytes) (snapshot : Nat) : InternalKey :=
  makeInternalKey userKey snapshot internalKeyKindMax

/-- The trailer is the last eight bytes; a shorter key decodes as invalid. -/
def decodeInternalKey (encodedKey : Bytes) : InternalKey :=
  if internalTrailerLen ≤ encodedKey.length then
    let n := encodedKey.length - internalTrailerLen
    { userKey := encodedKey.take n, trailer := UInt64.ofNat (leNat (encodedKey.drop n)) }
  else
    { userKey := [], trailer := internalKeyKindInvalid.toUInt64 }

def bytesCompare (a b : Bytes) : Ordering :=
  threeWay a b

/-- Ascending by user key, and within a user key the newest version first. -/
def internalCompare (userCmp : Bytes → Bytes → Ordering) (a b : InternalKey) : Ordering :=
  match userCmp a.userKey b.userKey with
  | .eq => threeWay b.trailer a.trailer
  | x => x

namespace InternalKey

/-- The user key, and behind it the trailer in little endian. -/
def encode (k : InternalKey) : Bytes :=
  k.userKey ++ leBytes internalTrailerLen k.trailer.toNat

def size (k : InternalKey) : Nat :=
  k.userKey.length + internalTrailerLen

def seqNum (k : InternalKey) : Nat :=
  trailerSeqNum k.trailer

def kind (k : InternalKey) : InternalKeyKind :=
  trailerKind k.trailer

/-- A reader at the snapshot may see the version. -/
def visible (k : InternalKey) (snapshot : Nat) : Bool :=
  decide (k.seqNum ≤ snapshot)

def valid (k : InternalKey) : Bool :=
  decide (k.kind ≤ internalKeyKindMax)

theorem kind_eq_of_valid {k : InternalKey} (h : k.valid = true) :
    k.kind = internalKeyKindSet ∨ k.kind = internalKeyKindDelete := by
  have hle : k.kind.toNat ≤ 1 := of_decide_eq_true h
  rcases Nat.le_one_iff_eq_zero_or_eq_one.mp hle with h | h
  · exact Or.inr (UInt8.toNat_inj.mp h)
  · exact Or.inl (UInt8.toNat_inj.mp h)

theorem valid_of_kind_eq {k : InternalKey}
    (h : k.kind = internalKeyKindSet ∨ k.kind = internalKeyKindDelete) : k.valid = true := by
  rw [valid, decide_eq_true_eq]
  rcases h with h | h
  · rw [h]
    decide
  · rw [h]
    decide

end InternalKey

theorem trailer_toNat (t : InternalKeyTrailer) :
    t.toNat = 256 * trailerSeqNum t + (trailerKind t).toNat := by
  have hseq : trailerSeqNum t = t.toNat / 256 := by
    rw [trailerSeqNum, UInt64.toNat_shiftRight, Nat.shiftRight_eq_div_pow]
    rfl
  have hkind : (trailerKind t).toNat = t.toNat % 256 := by
    rw [trailerKind, UInt64.toNat_toUInt8, UInt64.toNat_and]
    have hand : t.toNat &&& 255 = t.toNat % 256 := Nat.and_two_pow_sub_one_eq_mod t.toNat 8
    change (t.toNat &&& 255) % 2 ^ 8 = t.toNat % 256
    rw [hand, Nat.mod_mod]
  rw [hseq, hkind]
  omega

/-- The shift drops what does not fit, the kind stays as it is. -/
theorem makeTrailer_toNat_mod (seqNum : Nat) (kind : InternalKeyKind) :
    (makeTrailer seqNum kind).toNat = 256 * (seqNum % 2 ^ 56) + kind.toNat := by
  have hkind : kind.toNat < 2 ^ 8 := kind.toNat_lt
  have hshift : (UInt64.ofNat seqNum <<< 8).toNat = (seqNum % 2 ^ 56) <<< 8 := by
    rw [UInt64.toNat_shiftLeft, UInt64.toNat_ofNat']
    change (seqNum % 2 ^ 64) <<< 8 % 2 ^ 64 = (seqNum % 2 ^ 56) <<< 8
    rw [Nat.shiftLeft_eq, Nat.shiftLeft_eq]
    omega
  rw [makeTrailer, UInt64.toNat_or, hshift, UInt8.toNat_toUInt64,
    ← Nat.shiftLeft_add_eq_or_of_lt hkind, Nat.shiftLeft_eq]
  omega

theorem makeTrailer_toNat {seqNum : Nat} (h : seqNum ≤ seqNumMax) (kind : InternalKeyKind) :
    (makeTrailer seqNum kind).toNat = 256 * seqNum + kind.toNat := by
  have hfit : seqNum % 2 ^ 56 = seqNum := by
    unfold seqNumMax at h
    exact Nat.mod_eq_of_lt (by omega)
  rw [makeTrailer_toNat_mod, hfit]

theorem trailerSeqNum_makeTrailer {seqNum : Nat} (h : seqNum ≤ seqNumMax)
    (kind : InternalKeyKind) : trailerSeqNum (makeTrailer seqNum kind) = seqNum := by
  have hpack := makeTrailer_toNat h kind
  have hsplit := trailer_toNat (makeTrailer seqNum kind)
  have hk : kind.toNat < 256 := kind.toNat_lt
  have hk' : (trailerKind (makeTrailer seqNum kind)).toNat < 256 := UInt8.toNat_lt _
  omega

theorem trailerKind_makeTrailer (seqNum : Nat) (kind : InternalKeyKind) :
    trailerKind (makeTrailer seqNum kind) = kind := by
  have hpack := makeTrailer_toNat_mod seqNum kind
  have hsplit := trailer_toNat (makeTrailer seqNum kind)
  have hk : kind.toNat < 256 := kind.toNat_lt
  have hk' : (trailerKind (makeTrailer seqNum kind)).toNat < 256 := UInt8.toNat_lt _
  apply UInt8.toNat_inj.mp
  omega

theorem trailerSeqNum_le (t : InternalKeyTrailer) : trailerSeqNum t ≤ seqNumMax := by
  have ht : t.toNat < 2 ^ 64 := t.toNat_lt
  have hsplit := trailer_toNat t
  unfold seqNumMax
  omega

namespace InternalKey

/-- The image of an internal key in the order that sorts it: the user key
ascending, then the trailer descending. -/
def rank (k : InternalKey) : Bytes ×ₗ UInt64ᵒᵈ :=
  toLex (k.userKey, OrderDual.toDual k.trailer)

theorem rank_injective : Function.Injective rank := by
  rintro ⟨u, t⟩ ⟨u', t'⟩ h
  have hpair := toLex.injective h
  simp only [Prod.mk.injEq] at hpair
  obtain ⟨rfl, ht⟩ := hpair
  rw [OrderDual.toDual.injective ht]

instance : LinearOrder InternalKey :=
  LinearOrder.lift' rank rank_injective

theorem lt_iff (a b : InternalKey) :
    a < b ↔ a.userKey < b.userKey ∨ a.userKey = b.userKey ∧ b.trailer < a.trailer :=
  Prod.Lex.toLex_lt_toLex

theorem lt_iff_seqNum (a b : InternalKey) :
    a < b ↔ a.userKey < b.userKey ∨ a.userKey = b.userKey ∧
      (b.seqNum < a.seqNum ∨ b.seqNum = a.seqNum ∧ b.kind < a.kind) := by
  have ha := trailer_toNat a.trailer
  have hb := trailer_toNat b.trailer
  have hka : (trailerKind a.trailer).toNat < 256 := UInt8.toNat_lt _
  have hkb : (trailerKind b.trailer).toNat < 256 := UInt8.toNat_lt _
  rw [lt_iff, UInt64.lt_iff_toNat_lt, UInt8.lt_iff_toNat_lt]
  unfold seqNum kind
  constructor
  · rintro (h | ⟨h, ht⟩)
    · exact Or.inl h
    · exact Or.inr ⟨h, by omega⟩
  · rintro (h | ⟨h, ht⟩)
    · exact Or.inl h
    · exact Or.inr ⟨h, by omega⟩

theorem userKey_le_of_lt {a b : InternalKey} (h : a < b) : a.userKey ≤ b.userKey := by
  rcases (lt_iff a b).mp h with h | ⟨h, -⟩
  · exact h.le
  · exact h.le

theorem userKey_le_of_le {a b : InternalKey} (h : a ≤ b) : a.userKey ≤ b.userKey := by
  rcases h.lt_or_eq with h | rfl
  · exact userKey_le_of_lt h
  · exact le_rfl

theorem kind_lt_of_lt {a b : InternalKey} (h : a < b) (hu : a.userKey = b.userKey)
    (hs : a.seqNum = b.seqNum) : b.kind < a.kind := by
  rcases (lt_iff_seqNum a b).mp h with h | ⟨-, h | ⟨-, h⟩⟩
  · exact absurd hu h.ne
  · exact absurd hs h.ne'
  · exact h

theorem seqNum_le_of_lt {a b : InternalKey} (h : a < b) (hu : a.userKey = b.userKey) :
    b.seqNum ≤ a.seqNum := by
  rcases (lt_iff_seqNum a b).mp h with h | ⟨-, h | ⟨h, -⟩⟩
  · exact absurd hu h.ne
  · exact h.le
  · exact h.le

theorem decode_encode (k : InternalKey) : decodeInternalKey k.encode = k := by
  have hlen : k.encode.length = k.userKey.length + internalTrailerLen := by
    simp [encode, internalTrailerLen]
  have hle : internalTrailerLen ≤ k.encode.length := by omega
  have hn : k.encode.length - internalTrailerLen = k.userKey.length := by omega
  rw [decodeInternalKey, if_pos hle]
  simp only [hn]
  have htrailer : leNat (leBytes internalTrailerLen k.trailer.toNat) = k.trailer.toNat :=
    leNat_leBytes_of_lt k.trailer.toNat_lt
  simp [encode, htrailer]

theorem encode_length (k : InternalKey) : k.encode.length = k.size := by
  simp [encode, size, internalTrailerLen]

end InternalKey

theorem internalCompare_eq_cmp (a b : InternalKey) :
    internalCompare bytesCompare a b = cmp a b := by
  unfold internalCompare bytesCompare threeWay
  rcases lt_trichotomy a.userKey b.userKey with h | h | h
  · have hab : a < b := (InternalKey.lt_iff a b).mpr (Or.inl h)
    rw [(cmp_eq_lt_iff _ _).mpr h, (cmp_eq_lt_iff _ _).mpr hab]
  · rw [(cmp_eq_eq_iff _ _).mpr h]
    rcases lt_trichotomy b.trailer a.trailer with ht | ht | ht
    · have hab : a < b := (InternalKey.lt_iff a b).mpr (Or.inr ⟨h, ht⟩)
      rw [(cmp_eq_lt_iff a b).mpr hab]
      exact (cmp_eq_lt_iff _ _).mpr ht
    · have hab : a = b := by
        cases a
        cases b
        simp_all
      rw [(cmp_eq_eq_iff a b).mpr hab]
      exact (cmp_eq_eq_iff _ _).mpr ht
    · have hab : b < a := (InternalKey.lt_iff b a).mpr (Or.inr ⟨h.symm, ht⟩)
      rw [(cmp_eq_gt_iff a b).mpr hab]
      exact (cmp_eq_gt_iff _ _).mpr ht
  · have hab : b < a := (InternalKey.lt_iff b a).mpr (Or.inl h)
    rw [(cmp_eq_gt_iff _ _).mpr h, (cmp_eq_gt_iff _ _).mpr hab]

theorem makeSearchKeyAt_seqNum (userKey : Bytes) {snapshot : Nat} (h : snapshot ≤ seqNumMax) :
    (makeSearchKeyAt userKey snapshot).seqNum = snapshot :=
  trailerSeqNum_makeTrailer h _

theorem lt_makeSearchKeyAt_iff {k : InternalKey} (hk : k.valid = true) (userKey : Bytes)
    {snapshot : Nat} (h : snapshot ≤ seqNumMax) :
    k < makeSearchKeyAt userKey snapshot ↔
      k.userKey < userKey ∨ k.userKey = userKey ∧ snapshot < k.seqNum := by
  have hseq := makeSearchKeyAt_seqNum userKey h
  have hkind : (makeSearchKeyAt userKey snapshot).kind = internalKeyKindMax :=
    trailerKind_makeTrailer _ _
  have hle : k.kind ≤ internalKeyKindMax := of_decide_eq_true hk
  rw [InternalKey.lt_iff_seqNum, hseq, hkind]
  change k.userKey < userKey ∨ _ ↔ _
  constructor
  · rintro (hu | ⟨hu, hs | ⟨-, hs⟩⟩)
    · exact Or.inl hu
    · exact Or.inr ⟨hu, hs⟩
    · exact absurd hs (not_lt.mpr hle)
  · rintro (hu | ⟨hu, hs⟩)
    · exact Or.inl hu
    · exact Or.inr ⟨hu, Or.inl hs⟩

end Hcdb.Base
