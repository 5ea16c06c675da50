import Hcdb.Base.InternalKey
import Hcdb.Config

namespace Hcdb.Base

open Hcdb.Lib.ByteString
open Hcdb.Lib.SortedList

/-- `wal.Entry`, `memtable.Item` and `sstable.BlockEntry`: an encoded internal key and a value. -/
structure Entry where
  key : Bytes
  value : Bytes
  deriving DecidableEq, Repr

namespace Entry

def ik (e : Entry) : InternalKey := decodeInternalKey e.key

def userKey (e : Entry) : Bytes := e.ik.userKey

def seqNum (e : Entry) : Nat := e.ik.seqNum

def kind (e : Entry) : InternalKeyKind := e.ik.kind

/-- What every write of the database stores: a key that is an encoded internal
key of kind Set or Delete, with both lengths inside the configured limits. -/
structure WellFormed (e : Entry) : Prop where
  trailer : internalTrailerLen ≤ e.key.length
  keyLength : e.key.length ≤ Config.maxKeyLength + internalTrailerLen
  valueLength : e.value.length ≤ Config.maxValueLength
  valid : e.ik.valid = true

instance (e : Entry) : Decidable e.WellFormed :=
  decidable_of_iff (internalTrailerLen ≤ e.key.length ∧
      e.key.length ≤ Config.maxKeyLength + internalTrailerLen ∧
      e.value.length ≤ Config.maxValueLength ∧ e.ik.valid = true)
    ⟨fun ⟨h₁, h₂, h₃, h₄⟩ => ⟨h₁, h₂, h₃, h₄⟩, fun ⟨h₁, h₂, h₃, h₄⟩ => ⟨h₁, h₂, h₃, h₄⟩⟩

/-- `InternalCompare` puts the first entry before the second. -/
def Before (a b : Entry) : Prop :=
  internalCompare bytesCompare a.ik b.ik = .lt

instance decidableBefore (a b : Entry) : Decidable (a.Before b) :=
  inferInstanceAs (Decidable (_ = _))

theorem before_iff {a b : Entry} : a.Before b ↔ a.ik < b.ik := by
  rw [Before, internalCompare_eq_cmp]
  exact cmp_eq_lt_iff a.ik b.ik

/-- The entry is a version of `userKey` that a reader at `snapshot` may see. -/
def matchesAt (userKey : Bytes) (snapshot : Nat) (e : Entry) : Bool :=
  decide (e.userKey = userKey) && e.ik.visible snapshot

theorem matchesAt_iff {userKey : Bytes} {snapshot : Nat} {e : Entry} :
    e.matchesAt userKey snapshot = true ↔ e.userKey = userKey ∧ e.seqNum ≤ snapshot := by
  simp [matchesAt, InternalKey.visible, seqNum]

theorem seqNum_le_seqNumMax (e : Entry) : e.seqNum ≤ seqNumMax :=
  trailerSeqNum_le _

theorem ik_encode (k : InternalKey) (value : Bytes) : ik { key := k.encode, value } = k :=
  InternalKey.decode_encode k

theorem wellFormed_encode {userKey value : Bytes} {seqNum : Nat} {kind : InternalKeyKind}
    (hkey : userKey.length ≤ Config.maxKeyLength) (hvalue : value.length ≤ Config.maxValueLength)
    (hkind : kind ≤ internalKeyKindMax) :
    WellFormed { key := (makeInternalKey userKey seqNum kind).encode, value } where
  trailer := by
    simp only [InternalKey.encode_length, InternalKey.size]
    omega
  keyLength := by
    simp only [InternalKey.encode_length, InternalKey.size, makeInternalKey]
    omega
  valueLength := hvalue
  valid := by
    rw [ik_encode, InternalKey.valid, decide_eq_true_eq, InternalKey.kind]
    exact (trailerKind_makeTrailer seqNum kind).symm ▸ hkind

end Entry

/-- The version that a `Put` with this sequence number writes. -/
def setVersion (userKey : Bytes) (seqNum : Nat) (value : Bytes) : Entry :=
  { key := (makeInternalKey userKey seqNum internalKeyKindSet).encode, value }

/-- Strictly ascending in internal-key order. -/
abbrev Sorted (es : List Entry) : Prop := SortedBy Entry.ik es

/-- The result of a point lookup in one level of the tree, `KEY_LOOKUP_ENUM`
together with the value that accompanies `KEY_FOUND`. -/
inductive KeyLookup where
  | absent
  | found (value : Bytes)
  | deleted
  deriving DecidableEq, Repr

/-- What the version found by a lookup means to the caller. -/
def KeyLookup.ofEntry? : Option Entry → KeyLookup
  | none => .absent
  | some e => if e.kind = internalKeyKindDelete then .deleted else .found e.value

/-- What a version means to a reader of the database: a value, or nothing. -/
def answer : Option Entry → Option Bytes
  | none => none
  | some e => if e.kind = internalKeyKindDelete then none else some e.value

theorem answer_setVersion (userKey : Bytes) (seqNum : Nat) (value : Bytes) :
    answer (some (setVersion userKey seqNum value)) = some value := by
  have hkind : (setVersion userKey seqNum value).kind = internalKeyKindSet := by
    rw [Entry.kind, setVersion, Entry.ik_encode]
    exact trailerKind_makeTrailer seqNum _
  rw [answer, hkind, if_neg (by decide)]
  rfl

theorem answer_eq_some {o : Option Entry} {value : Bytes} : answer o = some value ↔
    ∃ e, o = some e ∧ e.kind ≠ internalKeyKindDelete ∧ e.value = value := by
  cases o with
  | none => simp [answer]
  | some e =>
      by_cases h : e.kind = internalKeyKindDelete
      · simp [answer, h]
      · simp [answer, h]

/-- The first version of `userKey` visible at `snapshot` in the order of `es`.  On
a sorted list it is the newest one. -/
def versionAt (es : List Entry) (userKey : Bytes) (snapshot : Nat) : Option Entry :=
  es.find? (Entry.matchesAt userKey snapshot)

/-- The seek law on the order of the list alone: the elements from the search
key on are those with a later user key, or of the same user key and visible. -/
theorem dropWhile_searchKey {es : List Entry} (hs : Sorted es)
    (hv : ∀ e ∈ es, e.ik.valid = true) (userKey : Bytes) {snapshot : Nat}
    (hsnap : snapshot ≤ seqNumMax) :
    es.dropWhile (fun e => decide (e.ik < makeSearchKeyAt userKey snapshot)) =
      es.filter fun e =>
        decide (userKey < e.userKey) || e.matchesAt userKey snapshot := by
  rw [hs.dropWhile_lt]
  apply List.filter_congr
  intro e he
  have hlt := lt_makeSearchKeyAt_iff (hv e he) userKey hsnap
  rw [Bool.eq_iff_iff]
  simp only [decide_eq_true_eq, Bool.or_eq_true, Entry.matchesAt_iff]
  rw [← not_lt, hlt]
  change ¬ (e.userKey < userKey ∨ e.userKey = userKey ∧ snapshot < e.seqNum) ↔ _
  push Not
  constructor
  · rintro ⟨hle, hsee⟩
    rcases hle.lt_or_eq with h | h
    · exact Or.inl h
    · exact Or.inr ⟨h.symm, hsee h.symm⟩
  · rintro (h | ⟨h, hle⟩)
    · exact ⟨h.le, fun hc => absurd hc.symm h.ne⟩
    · exact ⟨h.symm.le, fun _ => hle⟩

theorem filter_visible_searchKey {es : List Entry} (hs : Sorted es)
    (hv : ∀ e ∈ es, e.ik.valid = true) (lowerBound : Bytes) {snapshot : Nat}
    (hsnap : snapshot ≤ seqNumMax) :
    (es.dropWhile fun e => decide (e.ik < makeSearchKeyAt lowerBound snapshot)).filter
        (fun e => e.ik.visible snapshot) =
      es.filter fun e => decide (lowerBound ≤ e.userKey) && e.ik.visible snapshot := by
  rw [dropWhile_searchKey hs hv lowerBound hsnap, List.filter_filter]
  apply List.filter_congr
  intro e _
  rw [Bool.eq_iff_iff]
  simp only [Bool.and_eq_true, Bool.or_eq_true, decide_eq_true_eq, Entry.matchesAt]
  constructor
  · rintro ⟨hvis, hlo | ⟨hlo, -⟩⟩
    · exact ⟨hlo.le, hvis⟩
    · exact ⟨hlo.symm.le, hvis⟩
  · rintro ⟨hlo, hvis⟩
    refine ⟨hvis, ?_⟩
    rcases hlo.lt_or_eq with h | h
    · exact Or.inl h
    · exact Or.inr ⟨h.symm, hvis⟩

theorem head?_filter_versionAt {es : List Entry} (hs : Sorted es) (userKey : Bytes)
    (snapshot : Nat) (later : Entry → Bool) :
    (((es.filter fun e =>
        decide (userKey < e.userKey) && later e || e.matchesAt userKey snapshot).head?).filter
      fun e => decide (e.userKey = userKey)) = versionAt es userKey snapshot := by
  rw [versionAt]
  induction es with
  | nil => rfl
  | cons e es ih =>
      obtain ⟨hhead, htail⟩ := sortedBy_cons.mp hs
      by_cases hm : e.matchesAt userKey snapshot = true
      · have hu : e.userKey = userKey := (Entry.matchesAt_iff.mp hm).1
        simp [hm, hu]
      · by_cases hu : userKey < e.userKey ∧ later e = true
        · have hnone : es.find? (Entry.matchesAt userKey snapshot) = none := by
            rw [List.find?_eq_none]
            intro b hb hmb
            have hkey := (Entry.matchesAt_iff.mp hmb).1
            have hle : e.userKey ≤ b.userKey := InternalKey.userKey_le_of_lt (hhead b hb)
            exact absurd (hu.1.trans_le (hkey ▸ hle)) (lt_irrefl _)
          simp [hm, hu.1, hu.2, hu.1.ne', hnone]
        · rw [List.filter_cons_of_neg (by simpa [hm] using hu), ih htail,
            List.find?_cons_of_neg hm]

/-- The seek lands on the newest visible version of the user key, or on another
user key when there is none. -/
theorem head?_dropWhile_searchKey {es : List Entry} (hs : Sorted es)
    (hv : ∀ e ∈ es, e.ik.valid = true) (userKey : Bytes) {snapshot : Nat}
    (hsnap : snapshot ≤ seqNumMax) :
    ((es.dropWhile (fun e => decide (e.ik < makeSearchKeyAt userKey snapshot))).head?.filter
      fun e => decide (e.userKey = userKey)) = versionAt es userKey snapshot := by
  rw [dropWhile_searchKey hs hv userKey hsnap,
    ← head?_filter_versionAt hs userKey snapshot fun _ => true]
  simp only [Bool.and_true]

theorem head?_visible_searchKey {es : List Entry} (hs : Sorted es)
    (hv : ∀ e ∈ es, e.ik.valid = true) (userKey : Bytes) {snapshot : Nat}
    (hsnap : snapshot ≤ seqNumMax) :
    ((((es.dropWhile fun e => decide (e.ik < makeSearchKeyAt userKey snapshot)).filter
        fun e => e.ik.visible snapshot).head?).filter
      fun e => decide (e.userKey = userKey)) = versionAt es userKey snapshot := by
  rw [dropWhile_searchKey hs hv userKey hsnap, List.filter_filter,
    ← head?_filter_versionAt hs userKey snapshot fun e => e.ik.visible snapshot]
  congr 2
  apply List.filter_congr
  intro e _
  rw [Bool.eq_iff_iff]
  simp only [Bool.and_eq_true, Bool.or_eq_true, Entry.matchesAt]
  tauto

end Hcdb.Base
