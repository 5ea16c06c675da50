import Hcdb.Lib.ByteString
import Mathlib.Data.Nat.Digits.Lemmas

namespace Hcdb.Lib.Decimal

open Hcdb.Lib.ByteString

def digitByte (d : Nat) : UInt8 := UInt8.ofNat (48 + d)

/-- The digits of a number, the most significant first. -/
def decimal (n : Nat) : Bytes :=
  if n = 0 then [digitByte 0] else (Nat.digits 10 n).reverse.map digitByte

theorem digitByte_toNat {d : Nat} (hd : d < 10) : (digitByte d).toNat = 48 + d := by
  rw [digitByte, UInt8.toNat_ofNat']
  exact Nat.mod_eq_of_lt (by omega)

theorem digitByte_lt {x y : Nat} (hy : y < 10) (h : x < y) : digitByte x < digitByte y := by
  rw [UInt8.lt_iff_toNat_lt, digitByte_toNat (by omega : x < 10), digitByte_toNat hy]
  omega

theorem map_digitByte_inj {l l' : List Nat} (hl : ∀ d ∈ l, d < 10) (hl' : ∀ d ∈ l', d < 10)
    (h : l.map digitByte = l'.map digitByte) : l = l' := by
  induction l generalizing l' with
  | nil => simpa using h.symm
  | cons d l ih =>
      cases l' with
      | nil => simp at h
      | cons d' l' =>
          rw [List.map_cons, List.map_cons, List.cons.injEq] at h
          have hd := congrArg UInt8.toNat h.1
          rw [digitByte_toNat (hl d (by simp)), digitByte_toNat (hl' d' (by simp))] at hd
          rw [ih (fun x hx => hl x (by simp [hx])) (fun x hx => hl' x (by simp [hx])) h.2]
          congr 1
          omega

theorem decimal_eq_digits (n : Nat) : ∃ l : List Nat, l ≠ [] ∧ (∀ d ∈ l, d < 10) ∧
    Nat.ofDigits 10 l = n ∧ decimal n = l.reverse.map digitByte := by
  by_cases hn : n = 0
  · exact ⟨[0], by simp, by simp, by simp [hn], by simp [decimal, hn]⟩
  · exact ⟨Nat.digits 10 n, Nat.digits_ne_nil_iff_ne_zero.mpr hn,
      fun d hd => Nat.digits_lt_base (by omega) hd, Nat.ofDigits_digits 10 n,
      by rw [decimal, if_neg hn]⟩

theorem decimal_injective : Function.Injective decimal := by
  intro a b h
  obtain ⟨l, -, hl, rfl, hdec⟩ := decimal_eq_digits a
  obtain ⟨l', -, hl', rfl, hdec'⟩ := decimal_eq_digits b
  rw [hdec, hdec'] at h
  have heq := map_digitByte_inj (fun d hd => hl d (List.mem_reverse.mp hd))
    (fun d hd => hl' d (List.mem_reverse.mp hd)) h
  rw [List.reverse_injective heq]

theorem append_lt_append {a b : Bytes} (hlen : a.length = b.length) (h : a < b) (x y : Bytes) :
    a ++ x < b ++ y := by
  induction a generalizing b with
  | nil =>
      cases b with
      | nil => exact absurd h (lt_irrefl _)
      | cons c b => simp at hlen
  | cons c a ih =>
      cases b with
      | nil => simp at hlen
      | cons d b =>
          simp only [List.length_cons, Nat.add_right_cancel_iff] at hlen
          rw [List.cons_append, List.cons_append, List.cons_lt_cons_iff]
          rcases List.cons_lt_cons_iff.mp h with hcd | ⟨hcd, hab⟩
          · exact Or.inl hcd
          · exact Or.inr ⟨hcd, ih hlen hab⟩

theorem reverse_map_lt {l l' : List Nat} (hlen : l.length = l'.length) (hl : ∀ d ∈ l, d < 10)
    (hl' : ∀ d ∈ l', d < 10) (h : Nat.ofDigits 10 l < Nat.ofDigits 10 l') :
    l.reverse.map digitByte < l'.reverse.map digitByte := by
  -- the last digit is the most significant one
  induction l using List.reverseRecOn generalizing l' with
  | nil =>
      have hnil : l' = [] := List.length_eq_zero_iff.mp hlen.symm
      simp [hnil] at h
  | append_singleton xs x ih =>
      rcases List.eq_nil_or_concat l' with rfl | ⟨ys, y, rfl⟩
      · simp at hlen
      · rw [List.concat_eq_append] at hlen hl' h ⊢
        have hlen' : xs.length = ys.length := by simpa using hlen
        have hx : Nat.ofDigits 10 xs < 10 ^ xs.length :=
          Nat.ofDigits_lt_base_pow_length (by omega) fun d hd => hl d (by simp [hd])
        have hy : Nat.ofDigits 10 ys < 10 ^ xs.length := by
          rw [hlen']
          exact Nat.ofDigits_lt_base_pow_length (by omega) fun d hd => hl' d (by simp [hd])
        have hyd : y < 10 := hl' y (by simp)
        rw [Nat.ofDigits_append, Nat.ofDigits_append, ← hlen', Nat.ofDigits_singleton,
          Nat.ofDigits_singleton] at h
        rw [List.reverse_append, List.reverse_append]
        simp only [List.reverse_singleton, List.singleton_append, List.map_cons,
          List.cons_lt_cons_iff]
        rcases Nat.lt_trichotomy x y with hxy | rfl | hxy
        · exact Or.inl (digitByte_lt hyd hxy)
        · refine Or.inr ⟨rfl, ih hlen' (fun d hd => hl d (by simp [hd]))
            (fun d hd => hl' d (by simp [hd])) ?_⟩
          omega
        · exfalso
          have hmul : 10 ^ xs.length * (y + 1) ≤ 10 ^ xs.length * x := Nat.mul_le_mul_left _ hxy
          rw [Nat.mul_succ] at hmul
          omega

theorem length_digits_of_range {k n : Nat} (hlo : 10 ^ k ≤ n) (hhi : n < 10 ^ (k + 1)) :
    (Nat.digits 10 n).length = k + 1 := by
  have hle := (Nat.digits_length_le_iff (by omega : 1 < 10) n).mpr hhi
  have hge := (Nat.lt_digits_length_iff (by omega : 1 < 10) n).mpr hlo
  omega

theorem decimal_of_range {k n : Nat} (hlo : 10 ^ k ≤ n) :
    decimal n = (Nat.digits 10 n).reverse.map digitByte := by
  have hpos : 0 < 10 ^ k := Nat.pow_pos (by omega)
  rw [decimal, if_neg (by omega)]

theorem decimal_length {k n : Nat} (hlo : 10 ^ k ≤ n) (hhi : n < 10 ^ (k + 1)) :
    (decimal n).length = k + 1 := by
  rw [decimal_of_range hlo, List.length_map, List.length_reverse, length_digits_of_range hlo hhi]

/-- Among numbers with the same number of digits the numerals sort as the numbers. -/
theorem decimal_lt {k a b : Nat} (ha : 10 ^ k ≤ a) (hb : b < 10 ^ (k + 1)) (hab : a < b) :
    decimal a < decimal b := by
  rw [decimal_of_range ha, decimal_of_range (ha.trans hab.le)]
  apply reverse_map_lt
  · rw [length_digits_of_range ha (hab.trans hb), length_digits_of_range (ha.trans hab.le) hb]
  · exact fun d hd => Nat.digits_lt_base (by omega) hd
  · exact fun d hd => Nat.digits_lt_base (by omega) hd
  · rw [Nat.ofDigits_digits, Nat.ofDigits_digits]
    exact hab

/-- Read digits behind a number that has been read already. -/
def parseDigits : Nat → Bytes → Option Nat
  | acc, [] => some acc
  | acc, b :: bs =>
      if 48 ≤ b.toNat ∧ b.toNat ≤ 57 then parseDigits (acc * 10 + (b.toNat - 48)) bs else none

/-- A number from its digits, of which there has to be one. -/
def parseNat (s : Bytes) : Option Nat :=
  if s = [] then none else parseDigits 0 s

/-- The digits, and a minus in front of a negative number. -/
def formatInt (z : Int) : Bytes :=
  if z < 0 then 45 :: decimal z.natAbs else decimal z.natAbs

/-- Read a signed number of 64 bits: an optional sign, then at least one digit. -/
def parseInt : Bytes → Option Int
  | [] => none
  | b :: bs =>
      if b = 45 then (parseNat bs).bind fun n => if n ≤ 2 ^ 63 then some (-(n : Int)) else none
      else
        (parseNat (if b = 43 then bs else b :: bs)).bind fun n =>
          if n < 2 ^ 63 then some (n : Int) else none

theorem parseDigits_append (acc : Nat) (s t : Bytes) :
    parseDigits acc (s ++ t) = (parseDigits acc s).bind fun n => parseDigits n t := by
  induction s generalizing acc with
  | nil => rfl
  | cons b s ih =>
      rw [List.cons_append, parseDigits, parseDigits]
      split
      · exact ih _
      · rfl

theorem parseDigits_digits (acc : Nat) {l : List Nat} (hl : ∀ d ∈ l, d < 10) :
    parseDigits acc (l.reverse.map digitByte) = some (acc * 10 ^ l.length + Nat.ofDigits 10 l) := by
  induction l with
  | nil => simp [parseDigits]
  | cons d l ih =>
      obtain ⟨hd, hl⟩ := List.forall_mem_cons.mp hl
      have hbyte := digitByte_toNat hd
      rw [List.reverse_cons, List.map_append, parseDigits_append, ih hl, Option.bind_some,
        List.map_singleton, parseDigits, if_pos (by omega), parseDigits, hbyte, Nat.ofDigits_cons,
        List.length_cons, pow_succ]
      congr 1
      rw [Nat.add_sub_cancel_left]
      ring

theorem mem_decimal {n : Nat} {b : UInt8} (hb : b ∈ decimal n) : 48 ≤ b.toNat ∧ b.toNat ≤ 57 := by
  obtain ⟨l, -, hl, -, hdec⟩ := decimal_eq_digits n
  rw [hdec] at hb
  obtain ⟨d, hd, rfl⟩ := List.mem_map.mp hb
  have hlt := hl d (List.mem_reverse.mp hd)
  rw [digitByte_toNat hlt]
  omega

theorem decimal_ne_nil (n : Nat) : decimal n ≠ [] := by
  obtain ⟨l, hne, -, -, hdec⟩ := decimal_eq_digits n
  rw [hdec]
  simpa using hne

theorem parseNat_decimal (n : Nat) : parseNat (decimal n) = some n := by
  obtain ⟨l, -, hl, hval, hdec⟩ := decimal_eq_digits n
  rw [parseNat, if_neg (decimal_ne_nil n), hdec, parseDigits_digits 0 hl, hval, Nat.zero_mul,
    Nat.zero_add]

theorem parseInt_decimal {n : Nat} (hn : n < 2 ^ 63) : parseInt (decimal n) = some (n : Int) := by
  cases hdec : decimal n with
  | nil => exact absurd hdec (decimal_ne_nil n)
  | cons b bs =>
      have hdigit : 48 ≤ b.toNat ∧ b.toNat ≤ 57 := mem_decimal (hdec ▸ List.mem_cons_self)
      have hminus : b ≠ 45 := by
        rintro rfl
        exact absurd hdigit.1 (by decide)
      have hplus : b ≠ 43 := by
        rintro rfl
        exact absurd hdigit.1 (by decide)
      rw [parseInt, if_neg hminus, if_neg hplus, ← hdec, parseNat_decimal, Option.bind_some,
        if_pos hn]

theorem parseInt_formatInt {z : Int} (hlo : -2 ^ 63 ≤ z) (hhi : z < 2 ^ 63) :
    parseInt (formatInt z) = some z := by
  rw [formatInt]
  split
  · rename_i hneg
    rw [parseInt, if_pos rfl, parseNat_decimal, Option.bind_some, if_pos (by omega)]
    congr 1
    omega
  · rename_i hpos
    rw [parseInt_decimal (by omega)]
    congr 1
    omega

theorem parseInt_range {s : Bytes} {z : Int} (h : parseInt s = some z) :
    -2 ^ 63 ≤ z ∧ z < 2 ^ 63 := by
  cases s with
  | nil => simp [parseInt] at h
  | cons b s =>
      rw [parseInt] at h
      split at h
      · obtain ⟨n, -, hn⟩ := Option.bind_eq_some_iff.mp h
        split at hn
        · rw [← Option.some.inj hn]
          omega
        · simp at hn
      · obtain ⟨n, -, hn⟩ := Option.bind_eq_some_iff.mp h
        split at hn
        · rw [← Option.some.inj hn]
          omega
        · simp at hn

theorem mem_formatInt {z : Int} {b : UInt8} (hb : b ∈ formatInt z) :
    b = 45 ∨ 48 ≤ b.toNat ∧ b.toNat ≤ 57 := by
  rw [formatInt] at hb
  split at hb
  · rcases List.mem_cons.mp hb with rfl | hb
    · exact Or.inl rfl
    · exact Or.inr (mem_decimal hb)
  · exact Or.inr (mem_decimal hb)

theorem formatInt_no_lf (z : Int) : (10 : UInt8) ∉ formatInt z := by
  intro hmem
  rcases mem_formatInt hmem with h | h
  · exact absurd h (by decide)
  · exact absurd h.1 (by decide)

theorem formatInt_injective : Function.Injective formatInt := by
  -- a digit is no sign
  have hsign : ∀ (n : Nat) (s : Bytes), 45 :: s ≠ decimal n := by
    intro n s heq
    have hmem : (45 : UInt8) ∈ decimal n := heq ▸ List.mem_cons_self
    exact absurd (mem_decimal hmem).1 (by decide)
  intro a b heq
  unfold formatInt at heq
  split at heq
  · split at heq
    · have := decimal_injective (List.tail_eq_of_cons_eq heq)
      omega
    · exact absurd heq (hsign _ _)
  · split at heq
    · exact absurd heq.symm (hsign _ _)
    · have := decimal_injective heq
      omega

theorem append_cons_inj_of_not_mem {α : Type*} {a : α} {x x' y y' : List α} (hy : a ∉ y)
    (hy' : a ∉ y') (h : x ++ a :: y = x' ++ a :: y') : x = x' ∧ y = y' := by
  have hside : ∀ {z y y' : List α}, a ∉ y → a :: y = z ++ a :: y' → z = [] ∧ y = y' := by
    intro z y y' hy heq
    cases z with
    | nil => exact ⟨rfl, List.tail_eq_of_cons_eq heq⟩
    | cons b z =>
        have htail : y = z ++ a :: y' := List.tail_eq_of_cons_eq heq
        exact absurd (htail ▸ List.mem_append_right z List.mem_cons_self) hy
  rcases List.append_eq_append_iff.mp h with ⟨z, hx, heq⟩ | ⟨z, hx, heq⟩
  · obtain ⟨rfl, rfl⟩ := hside hy heq
    exact ⟨by simpa using hx.symm, rfl⟩
  · obtain ⟨rfl, rfl⟩ := hside hy' heq
    exact ⟨by simpa using hx, rfl⟩

end Hcdb.Lib.Decimal
