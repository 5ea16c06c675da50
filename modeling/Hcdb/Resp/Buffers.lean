import Hcdb.Resp

/-!
The buffers that `Read` makes.  A client declares their lengths, and `make` panics on a
length that is negative or asks for more than the platform can address.
-/

namespace Hcdb.Resp

open Hcdb.Lib.ByteString
open Hcdb.Lib.Decimal
open Hcdb.Lib.Lines

/-- A call of `make` for a declared length: `make([]byte, n+2)` or `make([]Value, n)`. -/
inductive Make where
  | bytes (n : Nat)
  | values (n : Nat)
  deriving DecidableEq, Repr

namespace Make

/-- The length that is asked for, before it wraps around. -/
def needed : Make → Int
  | bytes n => n + 2
  | values n => n

/-- The length as a Go `int`. -/
def length (m : Make) : Int := Int.bmod m.needed (2 ^ 64)

/-- A `Value` takes 64 bytes. -/
def elemSize : Make → Int
  | bytes _ => 1
  | values _ => 64

/-- `make` panics on a negative length, and on more memory than there can be. -/
def panics (maxAlloc : Nat) (m : Make) : Bool :=
  decide (m.length < 0 ∨ (maxAlloc : Int) < m.length * m.elemSize)

def elems : Make → Nat
  | bytes _ => 0
  | values n => n

end Make

/-- The call that a line leads to. -/
def declared (tag : UInt8) (text : Bytes) : Option Make :=
  if tag = bulkStringType then
    match parseInt text with
    | none => none
    | some n => if n < 0 then none else some (.bytes n.toNat)
  else if tag = arrayType then
    match parseInt text with
    | none => none
    | some n => if n < 0 then none else some (.values n.toNat)
  else none

/-- The first call, and the stream behind the line that leads to it. -/
def nextMake (r : Bytes) : Option (Make × Bytes) :=
  match readLine r with
  | .ok (tag :: text, r) => (declared tag text).map fun m => (m, r)
  | _ => none

section Limit

variable (maxAlloc : Nat)

def nextPanics (r : Bytes) : Bool :=
  match nextMake r with
  | none => false
  | some (m, _) => m.panics maxAlloc

/-- `Read` where a buffer has at most `maxAlloc` bytes, cut off at a depth. -/
def readInTo : Nat → Bytes → Except ReadErr (Value × Bytes)
  | 0, _ => .error (.io .eof)
  | depth + 1, r =>
      if nextPanics maxAlloc r then .error .panic else readWith (readInTo depth) r

/-- `Read` in a process with this much memory. -/
def readIn (r : Bytes) : Except ReadErr (Value × Bytes) := readInTo maxAlloc (r.length + 1) r

def elemMakes (readElem : Bytes → Except ReadErr (Value × Bytes)) (makesElem : Bytes → List Make) :
    Nat → Bytes → List Make
  | 0, _ => []
  | n + 1, r =>
      match readElem r with
      | .error _ => makesElem r
      | .ok (_, rest) => makesElem r ++ elemMakes readElem makesElem n rest

/-- The buffers that are made on the way. -/
def makesTo : Nat → Bytes → List Make
  | 0, _ => []
  | depth + 1, r =>
      match nextMake r with
      | none => []
      | some (m, rest) =>
          if m.panics maxAlloc then [m]
          else m :: elemMakes (readInTo maxAlloc depth) (makesTo depth) m.elems rest

/-- Every call of `make` in a call of `Read`, in order. -/
def makes (r : Bytes) : List Make := makesTo maxAlloc (r.length + 1) r

/-- All lengths are non-negative and have not wrapped around, and `Read` does not end in
a panic. -/
def LengthsSafe (r : Bytes) : Prop :=
  (∀ m ∈ makes maxAlloc r, 0 ≤ m.length ∧ m.length = m.needed) ∧
    readIn maxAlloc r ≠ .error .panic

variable {maxAlloc} {r : Bytes}

theorem readInTo_shortens (depth : Nat) : Shortens (readInTo maxAlloc depth) := by
  induction depth with
  | zero => simp [Shortens, readInTo]
  | succ depth ih =>
      intro r v rest h
      rw [readInTo] at h
      split at h
      · simp at h
      · exact readWith_shortens ih r v rest h

theorem readInTo_eq {depth depth' : Nat} (h : r.length < depth) (h' : r.length < depth') :
    readInTo maxAlloc depth r = readInTo maxAlloc depth' r := by
  induction depth generalizing depth' r with
  | zero => omega
  | succ depth ih =>
      obtain ⟨depth', rfl⟩ : ∃ k, depth' = k + 1 := ⟨depth' - 1, by omega⟩
      rw [readInTo, readInTo]
      have hrest : readWith (readInTo maxAlloc depth) r = readWith (readInTo maxAlloc depth') r :=
        readWith_congr (readInTo_shortens depth) fun s hs => ih (by omega) (by omega)
      rw [hrest]

theorem readIn_shortens : Shortens (readIn maxAlloc) := fun r =>
  readInTo_shortens (r.length + 1) r

theorem readIn_eq (r : Bytes) :
    readIn maxAlloc r =
      if nextPanics maxAlloc r then .error .panic else readWith (readIn maxAlloc) r := by
  have hrest : readWith (readInTo maxAlloc r.length) r = readWith (readIn maxAlloc) r :=
    readWith_congr (readInTo_shortens r.length) fun s hs =>
      readInTo_eq hs (Nat.lt_succ_self s.length)
  rw [readIn, readInTo, hrest]

theorem nextMake_shortens {m : Make} {rest : Bytes} (h : nextMake r = some (m, rest)) :
    rest.length < r.length := by
  unfold nextMake at h
  split at h
  · rename_i tag text r' hline
    obtain ⟨m', -, hm⟩ := Option.map_eq_some_iff.mp h
    obtain ⟨-, rfl⟩ := Prod.mk.inj hm
    exact readLine_shortens hline
  · cases h

theorem elemMakes_congr {f f' : Bytes → Except ReadErr (Value × Bytes)}
    {g g' : Bytes → List Make} (hf : Shortens f) {n bound : Nat} (hr : r.length ≤ bound)
    (h : ∀ s, s.length ≤ bound → f s = f' s ∧ g s = g' s) :
    elemMakes f g n r = elemMakes f' g' n r := by
  induction n generalizing r with
  | zero => rfl
  | succ n ih =>
      rw [elemMakes, elemMakes, ← (h r hr).1, ← (h r hr).2]
      cases hv : f r with
      | error e => rfl
      | ok pair =>
          simp only
          rw [ih ((hf r pair.1 pair.2 hv).le.trans hr)]

theorem makesTo_eq {depth depth' : Nat} (h : r.length < depth) (h' : r.length < depth') :
    makesTo maxAlloc depth r = makesTo maxAlloc depth' r := by
  induction depth generalizing depth' r with
  | zero => omega
  | succ depth ih =>
      obtain ⟨depth', rfl⟩ : ∃ k, depth' = k + 1 := ⟨depth' - 1, by omega⟩
      rw [makesTo, makesTo]
      cases hnext : nextMake r with
      | none => rfl
      | some next =>
          obtain ⟨m, rest⟩ := next
          have hlt := nextMake_shortens hnext
          have helems : elemMakes (readInTo maxAlloc depth) (makesTo maxAlloc depth) m.elems rest =
              elemMakes (readInTo maxAlloc depth') (makesTo maxAlloc depth') m.elems rest :=
            elemMakes_congr (readInTo_shortens depth) le_rfl fun s hs =>
              ⟨readInTo_eq (by omega) (by omega), ih (by omega) (by omega)⟩
          simp only
          rw [helems]

theorem makes_eq (r : Bytes) :
    makes maxAlloc r =
      match nextMake r with
      | none => []
      | some (m, rest) =>
          if m.panics maxAlloc then [m]
          else m :: elemMakes (readIn maxAlloc) (makes maxAlloc) m.elems rest := by
  rw [makes, makesTo]
  cases hnext : nextMake r with
  | none => rfl
  | some next =>
      obtain ⟨m, rest⟩ := next
      have hlt := nextMake_shortens hnext
      simp only
      rw [elemMakes_congr (readInTo_shortens r.length) le_rfl fun s hs =>
        ⟨readInTo_eq (by omega) (Nat.lt_succ_self s.length),
          makesTo_eq (by omega) (Nat.lt_succ_self s.length)⟩]
      rfl

section Body

variable {f : Bytes → Except ReadErr (Value × Bytes)} {tag : UInt8} {text rest : Bytes} {n : Nat}

theorem readBody_bulkStringType : readBody f bulkStringType text r =
    match parseInt text with
    | none => .error (.badBulkLength text)
    | some n =>
        if n < 0 then .ok (.nullBulkString, r)
        else if maxInt < n.toNat + 2 then .error .panic
        else
          match readFull (n.toNat + 2) r with
          | .error e => .error (.io e)
          | .ok (buf, r) => .ok (.bulkString (buf.take n.toNat), r) := rfl

theorem readBody_arrayType : readBody f arrayType text r =
    match parseInt text with
    | none => .error (.badArrayLength text)
    | some n =>
        if n < 0 then .ok (.nullArray, r)
        else
          match readElems f n.toNat r with
          | .error e => .error e
          | .ok (elems, r) => .ok (.array elems, r) := rfl

theorem readBody_of_none (h : declared tag text = none) :
    readBody f tag text r ≠ .error .panic := by
  by_cases hbulk : tag = bulkStringType
  · subst hbulk
    rw [readBody_bulkStringType]
    rw [declared, if_pos rfl] at h
    split at h
    · simp
    · split at h
      · rename_i hneg
        simp [hneg]
      · cases h
  · by_cases harray : tag = arrayType
    · subst harray
      rw [readBody_arrayType]
      rw [declared, if_neg hbulk, if_pos rfl] at h
      split at h
      · simp
      · split at h
        · rename_i hneg
          simp [hneg]
        · cases h
    · unfold readBody
      rw [if_neg hbulk, if_neg harray]
      split
      · simp
      · split
        · simp
        · split
          · split <;> simp
          · simp

theorem declared_eq_some {m : Make} (h : declared tag text = some m) :
    ∃ n : Int, parseInt text = some n ∧ 0 ≤ n ∧
      (tag = bulkStringType ∧ m = .bytes n.toNat ∨ tag = arrayType ∧ m = .values n.toNat) := by
  unfold declared at h
  split at h
  · rename_i htag
    split at h
    · cases h
    · rename_i n hparse
      split at h
      · cases h
      · rename_i hneg
        exact ⟨n, hparse, not_lt.mp hneg, Or.inl ⟨htag, (Option.some.inj h).symm⟩⟩
  · split at h
    · rename_i htag
      split at h
      · cases h
      · rename_i n hparse
        split at h
        · cases h
        · rename_i hneg
          exact ⟨n, hparse, not_lt.mp hneg, Or.inr ⟨htag, (Option.some.inj h).symm⟩⟩
    · cases h

theorem Make.bytes_fits (hn : n < 2 ^ 63) (h : (Make.bytes n).panics maxAlloc = false) :
    n + 2 ≤ maxInt := by
  by_contra hbig
  unfold maxInt at hbig
  have hmod : ((n : Int) + 2) % ((2 ^ 64 : Nat) : Int) = n + 2 :=
    Int.emod_eq_of_lt (by omega) (by omega)
  have hneg : (Make.bytes n).length < 0 := by
    rw [Make.length, Make.needed, Int.bmod, hmod]
    split <;> omega
  rw [Make.panics, decide_eq_false_iff_not] at h
  exact h (Or.inl hneg)

theorem readBody_of_bytes (h : declared tag text = some (.bytes n))
    (hfits : (Make.bytes n).panics maxAlloc = false) : readBody f tag text r ≠ .error .panic := by
  obtain ⟨z, hparse, hpos, ⟨rfl, hm⟩ | ⟨-, hm⟩⟩ := declared_eq_some h
  · obtain rfl := Make.bytes.inj hm
    have hrange := (parseInt_range hparse).2
    have hle := Make.bytes_fits (by omega) hfits
    rw [readBody_bulkStringType, hparse]
    simp only
    rw [if_neg (not_lt.mpr hpos), if_neg (not_lt.mpr hle)]
    split <;> simp
  · cases hm

theorem readBody_of_values (h : declared tag text = some (.values n)) :
    readBody f tag text r =
      match readElems f n r with
      | .error e => .error e
      | .ok (elems, r) => .ok (.array elems, r) := by
  obtain ⟨z, hparse, hpos, ⟨-, hm⟩ | ⟨rfl, hm⟩⟩ := declared_eq_some h
  · cases hm
  · obtain rfl := Make.values.inj hm
    rw [readBody_arrayType, hparse]
    simp only
    rw [if_neg (not_lt.mpr hpos)]

theorem nextMake_eq_some {m : Make} (h : nextMake r = some (m, rest)) :
    ∃ tag text, readLine r = .ok (tag :: text, rest) ∧ declared tag text = some m := by
  unfold nextMake at h
  split at h
  · rename_i tag text r' hline
    obtain ⟨m', hm', hm⟩ := Option.map_eq_some_iff.mp h
    obtain ⟨rfl, rfl⟩ := Prod.mk.inj hm
    exact ⟨tag, text, hline, hm'⟩
  · cases h

theorem readLine_error {e : ReadErr} (h : readLine r = .error e) : e = .io .eof := by
  unfold readLine at h
  split at h
  · exact (Except.error.inj h).symm
  · simp only at h
    split at h <;> cases h

theorem readWith_of_none (h : nextMake r = none) : readWith f r ≠ .error .panic := by
  unfold nextMake at h
  unfold readWith
  split
  · rename_i e hline
    rw [readLine_error hline]
    simp
  · simp
  · rename_i tag text r' hline
    rw [hline] at h
    exact readBody_of_none (Option.map_eq_none_iff.mp h)

theorem readWith_of_bytes (h : nextMake r = some (.bytes n, rest))
    (hfits : (Make.bytes n).panics maxAlloc = false) : readWith f r ≠ .error .panic := by
  obtain ⟨tag, text, hline, hdeclared⟩ := nextMake_eq_some h
  rw [readWith, hline]
  exact readBody_of_bytes hdeclared hfits

theorem readWith_of_values (h : nextMake r = some (.values n, rest)) :
    readWith f r =
      match readElems f n rest with
      | .error e => .error e
      | .ok (elems, r) => .ok (.array elems, r) := by
  obtain ⟨tag, text, hline, hdeclared⟩ := nextMake_eq_some h
  rw [readWith, hline]
  exact readBody_of_values hdeclared

theorem readWith_eq_of_no_values {g : Bytes → Except ReadErr (Value × Bytes)}
    (h : ∀ n rest, nextMake r ≠ some (.values n, rest)) : readWith f r = readWith g r := by
  unfold readWith
  cases hline : readLine r with
  | error e => rfl
  | ok pair =>
      obtain ⟨line, rest⟩ := pair
      cases line with
      | nil => rfl
      | cons tag text =>
          simp only
          by_cases htag : tag = arrayType
          · subst htag
            rw [readBody_arrayType, readBody_arrayType]
            cases hparse : parseInt text with
            | none => rfl
            | some n =>
                simp only
                split
                · rfl
                · rename_i hneg
                  have htype : arrayType ≠ bulkStringType := by decide
                  refine absurd ?_ (h n.toNat rest)
                  simp [nextMake, hline, declared, hparse, hneg, htype]
          · unfold readBody
            rw [if_neg htag, if_neg htag]

end Body

theorem readElems_panics_iff {f : Bytes → Except ReadErr (Value × Bytes)} {g : Bytes → List Make}
    {n bound : Nat} (hf : Shortens f) (hr : r.length ≤ bound)
    (h : ∀ s, s.length ≤ bound →
      (f s = .error .panic ↔ ∃ m ∈ g s, m.panics maxAlloc = true)) :
    readElems f n r = .error .panic ↔ ∃ m ∈ elemMakes f g n r, m.panics maxAlloc = true := by
  induction n generalizing r with
  | zero => simp [readElems, elemMakes]
  | succ n ih =>
      have hfirst := h r hr
      rw [readElems, elemMakes]
      cases hv : f r with
      | error e =>
          rw [hv] at hfirst
          simp only
          rw [← hfirst, Except.error.injEq, Except.error.injEq]
      | ok pair =>
          obtain ⟨v, rest⟩ := pair
          have hrest := ih (r := rest) ((hf r v rest hv).le.trans hr)
          have hnone : ¬ ∃ m ∈ g r, m.panics maxAlloc = true := by
            rw [← hfirst, hv]
            simp
          simp only [List.mem_append, or_and_right, exists_or]
          rw [or_iff_right hnone, ← hrest]
          cases readElems f n rest with
          | error e => simp
          | ok pair => simp

theorem readIn_panics_iff (r : Bytes) :
    readIn maxAlloc r = .error .panic ↔ ∃ m ∈ makes maxAlloc r, m.panics maxAlloc = true := by
  generalize hlen : r.length = len
  induction len using Nat.strong_induction_on generalizing r with
  | _ len ih =>
      rw [readIn_eq, makes_eq, nextPanics]
      cases hnext : nextMake r with
      | none => simp [readWith_of_none hnext]
      | some next =>
          obtain ⟨m, rest⟩ := next
          have hlt := nextMake_shortens hnext
          simp only
          by_cases hpanics : m.panics maxAlloc = true
          · simp [hpanics]
          · rw [if_neg hpanics, if_neg hpanics]
            simp only [List.mem_cons, exists_eq_or_imp, hpanics, false_or, Bool.false_eq_true]
            cases m with
            | bytes n =>
                simp [readWith_of_bytes hnext (by simpa using hpanics), Make.elems, elemMakes]
            | values n =>
                have helems : readElems (readIn maxAlloc) n rest = .error .panic ↔
                    ∃ m ∈ elemMakes (readIn maxAlloc) (makes maxAlloc) n rest,
                      m.panics maxAlloc = true :=
                  readElems_panics_iff readIn_shortens le_rfl fun s hs =>
                    ih s.length (by omega) s rfl
                rw [readWith_of_values hnext, Make.elems, ← helems]
                cases readElems (readIn maxAlloc) n rest with
                | error e => simp
                | ok pair => simp

theorem readElems_eq_of_not_panic {f g : Bytes → Except ReadErr (Value × Bytes)} {n bound : Nat}
    (hf : Shortens f) (hr : r.length ≤ bound)
    (h : ∀ s, s.length ≤ bound → f s ≠ .error .panic → f s = g s)
    (hne : readElems f n r ≠ .error .panic) : readElems f n r = readElems g n r := by
  induction n generalizing r with
  | zero => rfl
  | succ n ih =>
      rw [readElems] at hne ⊢
      rw [readElems]
      cases hv : f r with
      | error e =>
          rw [hv] at hne
          have hfirst := h r hr (by simpa [hv] using hne)
          rw [← hfirst, hv]
      | ok pair =>
          obtain ⟨v, rest⟩ := pair
          have hfirst := h r hr (by simp [hv])
          rw [hv] at hne
          have hrest := ih (r := rest) ((hf r v rest hv).le.trans hr) (by
            intro hpanic
            simp [hpanic] at hne)
          rw [← hfirst, hv]
          simp only
          rw [hrest]

/-- A limit on the buffers makes no difference but for the panics. -/
theorem readIn_eq_read (h : readIn maxAlloc r ≠ .error .panic) : readIn maxAlloc r = read r := by
  generalize hlen : r.length = len
  induction len using Nat.strong_induction_on generalizing r with
  | _ len ih =>
      rw [readIn_eq] at h ⊢
      rw [read_eq]
      split at h
      · exact absurd rfl h
      · rename_i hnext
        rw [if_neg hnext]
        by_cases hvalues : ∃ n rest, nextMake r = some (.values n, rest)
        · obtain ⟨n, rest, hmake⟩ := hvalues
          have hlt := nextMake_shortens hmake
          rw [readWith_of_values hmake] at h
          rw [readWith_of_values hmake, readWith_of_values hmake,
            readElems_eq_of_not_panic readIn_shortens le_rfl
              (fun s hs hne => ih s.length (by omega) hne rfl) (by
                intro hpanic
                simp [hpanic] at h)]
        · exact readWith_eq_of_no_values fun n rest hmake => hvalues ⟨n, rest, hmake⟩

theorem Make.needed_nonneg (m : Make) : 0 ≤ m.needed := by
  cases m with
  | bytes n => exact Int.natCast_nonneg (n + 2)
  | values n => exact Int.natCast_nonneg n

theorem Make.length_eq (hmax : maxAlloc < 2 ^ 63) {m : Make}
    (h : m.needed * m.elemSize ≤ maxAlloc) : m.length = m.needed := by
  have hnonneg := m.needed_nonneg
  have hle : m.needed ≤ m.needed * m.elemSize := by
    cases m with
    | bytes n =>
        simp only [elemSize]
        omega
    | values n =>
        simp only [elemSize]
        omega
  rw [length]
  apply Int.bmod_eq_of_le <;> omega

/-- The lengths of a stream are safe exactly when no declared length that `Read` comes to
asks for more than `make` can give. -/
theorem lengthsSafe_iff (hmax : maxAlloc < 2 ^ 63) (r : Bytes) :
    LengthsSafe maxAlloc r ↔ ∀ m ∈ makes maxAlloc r, m.needed * m.elemSize ≤ maxAlloc := by
  constructor
  · rintro ⟨hlen, hread⟩ m hm
    by_contra hbig
    apply hread
    refine (readIn_panics_iff r).mpr ⟨m, hm, ?_⟩
    rw [Make.panics, decide_eq_true_eq, (hlen m hm).2]
    exact Or.inr (not_le.mp hbig)
  · intro hfits
    have hlength : ∀ m ∈ makes maxAlloc r, m.length = m.needed := fun m hm =>
      Make.length_eq hmax (hfits m hm)
    refine ⟨fun m hm => ⟨hlength m hm ▸ m.needed_nonneg, hlength m hm⟩, ?_⟩
    intro hpanic
    obtain ⟨m, hm, hpanics⟩ := (readIn_panics_iff r).mp hpanic
    rw [Make.panics, decide_eq_true_eq, hlength m hm] at hpanics
    rcases hpanics with hneg | hbig
    · exact absurd m.needed_nonneg (not_le.mpr hneg)
    · exact absurd (hfits m hm) (not_le.mpr hbig)

end Limit

theorem lengthsSafe_iff_bulkString : LengthsSafe (2 ^ 48) [36, 49, 13, 10, 97, 13, 10] :=
  (lengthsSafe_iff (by decide) _).mpr (by decide)

/-- `$9223372036854775807`: the largest `int` plus two is negative. -/
theorem lengthsSafe_maxInt :
    let r : Bytes := [36, 57, 50, 50, 51, 51, 55, 50, 48, 51, 54, 56, 53, 52, 55, 55, 53, 56, 48,
      55, 13, 10]
    makes (2 ^ 48) r = [.bytes maxInt] ∧ (Make.bytes maxInt).length < 0 ∧
      readIn (2 ^ 48) r = .error .panic ∧ ¬ LengthsSafe (2 ^ 48) r := by
  intro r
  have hpanic : readIn (2 ^ 48) r = .error .panic := rfl
  exact ⟨by decide, by decide, hpanic, fun hsafe => hsafe.2 hpanic⟩

end Hcdb.Resp
