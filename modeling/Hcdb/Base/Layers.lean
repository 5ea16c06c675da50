import Hcdb.Base.Entry
import Mathlib.Data.List.Find
import Mathlib.Data.List.TakeWhile

/-!
What readers see of several sorted runs at once, the memtable and the tables in
the order in which they are searched.  A point read takes the first run that has
a visible version; a merge takes the newest version of all of them.
-/

namespace Hcdb.Base

open Hcdb.Lib.ByteString
open Hcdb.Lib.SortedList

/-- Of two versions the one that comes first in internal-key order. -/
def newer : Option Entry → Option Entry → Option Entry
  | none, b => b
  | some a, none => some a
  | some a, some b => if b.ik < a.ik then some b else some a

/-- What a merge of the layers takes for `userKey` at `snapshot`. -/
def newestAt (layers : List (List Entry)) (userKey : Bytes) (snapshot : Nat) : Option Entry :=
  layers.foldr (fun layer rest => newer (versionAt layer userKey snapshot) rest) none

/-- Along the list the versions of every user key come newest first. -/
def NewestFirst (es : List Entry) : Prop :=
  es.Pairwise fun a b => a.userKey = b.userKey → a.ik < b.ik

instance (es : List Entry) : Decidable (NewestFirst es) :=
  inferInstanceAs (Decidable (es.Pairwise _))

variable {layers : List (List Entry)} {es : List Entry} {userKey : Bytes} {snapshot : Nat}

theorem newestFirst_of_sorted (h : Sorted es) : NewestFirst es := by
  apply List.Pairwise.imp _ h
  intro a b hlt _
  exact hlt

theorem versionAt_eq_none : versionAt es userKey snapshot = none ↔
    ∀ e ∈ es, e.matchesAt userKey snapshot = false := by
  rw [versionAt, List.find?_eq_none]
  constructor
  · intro h e he
    simpa using h e he
  · intro h e he
    simp [h e he]

theorem versionAt_mem {e : Entry} (h : versionAt es userKey snapshot = some e) : e ∈ es :=
  List.mem_of_find?_eq_some h

theorem versionAt_matches {e : Entry} (h : versionAt es userKey snapshot = some e) :
    e.matchesAt userKey snapshot = true :=
  List.find?_some h

/-- From the highest number on all snapshots are alike. -/
theorem versionAt_of_bounded {n : Nat} (h : ∀ e ∈ es, e.seqNum ≤ n)
    (key : Bytes) {snapshot snapshot' : Nat} (hle : n ≤ snapshot) (hle' : n ≤ snapshot') :
    versionAt es key snapshot = versionAt es key snapshot' := by
  refine List.find?_congr fun e he => ?_
  have hseq := h e he
  rw [Bool.eq_iff_iff, Entry.matchesAt_iff, Entry.matchesAt_iff]
  exact and_congr_right fun _ => ⟨fun _ => hseq.trans hle', fun _ => hseq.trans hle⟩

theorem versionAt_append (es₁ es₂ : List Entry) (userKey : Bytes) (snapshot : Nat) :
    versionAt (es₁ ++ es₂) userKey snapshot =
      (versionAt es₁ userKey snapshot).or (versionAt es₂ userKey snapshot) :=
  List.find?_append

theorem NewestFirst.versionAt_eq_some_iff (h : NewestFirst es) {e : Entry} :
    versionAt es userKey snapshot = some e ↔
      e ∈ es ∧ e.matchesAt userKey snapshot = true ∧
        ∀ b ∈ es, b.matchesAt userKey snapshot = true → e.ik ≤ b.ik := by
  induction es with
  | nil => simp [versionAt]
  | cons a es ih =>
      obtain ⟨hhead, htail⟩ := List.pairwise_cons.mp h
      have hlt : ∀ b ∈ es, a.matchesAt userKey snapshot = true →
          b.matchesAt userKey snapshot = true → a.ik < b.ik := by
        intro b hb hma hmb
        apply hhead b hb
        rw [(Entry.matchesAt_iff.mp hma).1, (Entry.matchesAt_iff.mp hmb).1]
      rw [versionAt]
      by_cases hm : a.matchesAt userKey snapshot = true
      · rw [List.find?_cons_of_pos hm, Option.some.injEq]
        constructor
        · rintro rfl
          refine ⟨by simp, hm, fun b hb hmb => ?_⟩
          rcases List.mem_cons.mp hb with rfl | hb
          · exact le_rfl
          · exact (hlt b hb hm hmb).le
        · rintro ⟨he, hme, hmin⟩
          rcases List.mem_cons.mp he with rfl | he
          · rfl
          · exact absurd (hlt e he hm hme) (not_lt.mpr (hmin a (by simp) hm))
      · rw [List.find?_cons_of_neg hm]
        have hrec := ih htail
        rw [versionAt] at hrec
        rw [hrec]
        constructor
        · rintro ⟨he, hme, hmin⟩
          refine ⟨List.mem_cons_of_mem _ he, hme, fun b hb hmb => ?_⟩
          rcases List.mem_cons.mp hb with rfl | hb
          · exact absurd hmb hm
          · exact hmin b hb hmb
        · rintro ⟨he, hme, hmin⟩
          rcases List.mem_cons.mp he with rfl | he
          · exact absurd hme hm
          · exact ⟨he, hme, fun b hb => hmin b (List.mem_cons_of_mem _ hb)⟩

/-- A version newer than all that are stored is what its user key shows from its
sequence number on; nothing else changes. -/
theorem NewestFirst.versionAt_insert (h : NewestFirst es) {es' : List Entry} (h' : NewestFirst es')
    {e : Entry} (hmem : ∀ x, x ∈ es' ↔ x = e ∨ x ∈ es) (hseq : ∀ b ∈ es, b.seqNum < e.seqNum) :
    versionAt es' userKey snapshot =
      if e.matchesAt userKey snapshot then some e else versionAt es userKey snapshot := by
  apply Option.ext
  intro x
  rw [h'.versionAt_eq_some_iff]
  split
  · rename_i hmatch
    rw [Option.some.injEq]
    constructor
    · rintro ⟨hx, hmx, hmin⟩
      rcases (hmem x).mp hx with rfl | hx
      · rfl
      · have huser : e.userKey = x.userKey := by
          rw [(Entry.matchesAt_iff.mp hmatch).1, (Entry.matchesAt_iff.mp hmx).1]
        have hlt : e.ik < x.ik :=
          (InternalKey.lt_iff_seqNum _ _).mpr (Or.inr ⟨huser, Or.inl (hseq x hx)⟩)
        exact absurd hlt (not_lt.mpr (hmin e ((hmem e).mpr (Or.inl rfl)) hmatch))
    · rintro rfl
      refine ⟨(hmem e).mpr (Or.inl rfl), hmatch, fun b hb hmb => ?_⟩
      rcases (hmem b).mp hb with rfl | hb
      · exact le_rfl
      · have huser : e.userKey = b.userKey := by
          rw [(Entry.matchesAt_iff.mp hmatch).1, (Entry.matchesAt_iff.mp hmb).1]
        exact ((InternalKey.lt_iff_seqNum _ _).mpr (Or.inr ⟨huser, Or.inl (hseq b hb)⟩)).le
  · rename_i hmatch
    rw [h.versionAt_eq_some_iff]
    constructor
    · rintro ⟨hx, hmx, hmin⟩
      rcases (hmem x).mp hx with rfl | hx
      · exact absurd hmx hmatch
      · exact ⟨hx, hmx, fun b hb => hmin b ((hmem b).mpr (Or.inr hb))⟩
    · rintro ⟨hx, hmx, hmin⟩
      refine ⟨(hmem x).mpr (Or.inr hx), hmx, fun b hb hmb => ?_⟩
      rcases (hmem b).mp hb with rfl | hb
      · exact absurd hmb hmatch
      · exact hmin b hb hmb

theorem newer_eq_none {a b : Option Entry} : newer a b = none ↔ a = none ∧ b = none := by
  cases a with
  | none => simp [newer]
  | some a =>
      cases b with
      | none => simp [newer]
      | some b =>
          simp only [newer, reduceCtorEq, and_self, iff_false]
          split <;> simp

theorem newestAt_eq_none : newestAt layers userKey snapshot = none ↔
    ∀ e ∈ layers.flatten, e.matchesAt userKey snapshot = false := by
  induction layers with
  | nil => simp [newestAt]
  | cons layer layers ih =>
      rw [newestAt, List.foldr_cons, ← newestAt, newer_eq_none, ih, versionAt_eq_none]
      simp only [List.flatten_cons, List.mem_append]
      constructor
      · rintro ⟨h₁, h₂⟩ e (he | he)
        · exact h₁ e he
        · exact h₂ e he
      · intro h
        exact ⟨fun e he => h e (Or.inl he), fun e he => h e (Or.inr he)⟩

theorem newer_none (a : Option Entry) : newer a none = a := by
  cases a <;> rfl

theorem newer_assoc (a b c : Option Entry) : newer (newer a b) c = newer a (newer b c) := by
  cases a with
  | none => rfl
  | some a =>
      cases b with
      | none => rfl
      | some b =>
          cases c with
          | none => rw [newer_none, newer_none]
          | some c =>
              simp only [newer]
              by_cases hba : b.ik < a.ik
              · by_cases hcb : c.ik < b.ik
                · simp [hba, hcb, hcb.trans hba]
                · simp [hba, hcb]
              · by_cases hcb : c.ik < b.ik
                · simp [hba, hcb]
                · simp [hba, hcb, not_lt.mpr ((not_lt.mp hba).trans (not_lt.mp hcb))]

theorem newestAt_append (layers layers' : List (List Entry)) (userKey : Bytes) (snapshot : Nat) :
    newestAt (layers ++ layers') userKey snapshot =
      newer (newestAt layers userKey snapshot) (newestAt layers' userKey snapshot) := by
  induction layers with
  | nil => rfl
  | cons layer layers ih =>
      rw [List.cons_append, newestAt, List.foldr_cons, ← newestAt, ih, ← newer_assoc]
      rfl

theorem newestAt_insert (front : List (List Entry)) (layer : List Entry)
    (back : List (List Entry)) (userKey : Bytes) (snapshot : Nat) :
    (∃ e, versionAt layer userKey snapshot = some e ∧
      newestAt (front ++ layer :: back) userKey snapshot = some e) ∨
      newestAt (front ++ layer :: back) userKey snapshot =
        newestAt (front ++ back) userKey snapshot := by
  have hcons : newestAt (layer :: back) userKey snapshot =
      newer (versionAt layer userKey snapshot) (newestAt back userKey snapshot) := rfl
  rw [newestAt_append, newestAt_append, hcons]
  cases newestAt front userKey snapshot with
  | none =>
      cases versionAt layer userKey snapshot with
      | none => exact Or.inr rfl
      | some e =>
          cases newestAt back userKey snapshot with
          | none => exact Or.inl ⟨e, rfl, rfl⟩
          | some b =>
              by_cases hbe : b.ik < e.ik
              · simp [newer, hbe]
              · simp [newer, hbe]
  | some f =>
      cases versionAt layer userKey snapshot with
      | none => exact Or.inr rfl
      | some e =>
          cases newestAt back userKey snapshot with
          | none =>
              by_cases hef : e.ik < f.ik
              · simp [newer, hef]
              · simp [newer, hef]
          | some b =>
              by_cases hbe : b.ik < e.ik
              · simp [newer, hbe]
              · by_cases hef : e.ik < f.ik
                · simp [newer, hbe, hef]
                · simp [newer, hbe, hef, not_lt.mpr ((not_lt.mp hef).trans (not_lt.mp hbe))]

theorem newestAt_spec (hs : ∀ layer ∈ layers, Sorted layer) {e : Entry}
    (h : newestAt layers userKey snapshot = some e) :
    e ∈ layers.flatten ∧ e.matchesAt userKey snapshot = true ∧
      ∀ b ∈ layers.flatten, b.matchesAt userKey snapshot = true → e.ik ≤ b.ik := by
  induction layers generalizing e with
  | nil => simp [newestAt] at h
  | cons layer layers ih =>
      have hlayer := newestFirst_of_sorted (hs layer (by simp))
      have hrest := fun {e} => ih (fun l hl => hs l (by simp [hl])) (e := e)
      rw [newestAt, List.foldr_cons, ← newestAt] at h
      rw [List.flatten_cons]
      cases hv : versionAt layer userKey snapshot with
      | none =>
          rw [hv, newer] at h
          obtain ⟨hmem, hmatch, hmin⟩ := hrest h
          refine ⟨List.mem_append_right _ hmem, hmatch, fun b hb hmb => ?_⟩
          rcases List.mem_append.mp hb with hb | hb
          · rw [versionAt_eq_none.mp hv b hb] at hmb
            simp at hmb
          · exact hmin b hb hmb
      | some a =>
          obtain ⟨hmem, hmatch, hmin⟩ := hlayer.versionAt_eq_some_iff.mp hv
          cases hn : newestAt layers userKey snapshot with
          | none =>
              rw [hv, hn, newer, Option.some.injEq] at h
              subst h
              refine ⟨List.mem_append_left _ hmem, hmatch, fun b hb hmb => ?_⟩
              rcases List.mem_append.mp hb with hb | hb
              · exact hmin b hb hmb
              · rw [newestAt_eq_none.mp hn b hb] at hmb
                simp at hmb
          | some c =>
              obtain ⟨hmem', hmatch', hmin'⟩ := hrest hn
              rw [hv, hn, newer] at h
              split at h
              · rename_i hlt
                simp only [Option.some.injEq] at h
                subst h
                refine ⟨List.mem_append_right _ hmem', hmatch', fun b hb hmb => ?_⟩
                -- the version of the first layer is between the two
                rcases List.mem_append.mp hb with hb | hb
                · exact hlt.le.trans (hmin b hb hmb)
                · exact hmin' b hb hmb
              · rename_i hge
                simp only [Option.some.injEq] at h
                subst h
                refine ⟨List.mem_append_left _ hmem, hmatch, fun b hb hmb => ?_⟩
                rcases List.mem_append.mp hb with hb | hb
                · exact hmin b hb hmb
                · exact (not_lt.mp hge).trans (hmin' b hb hmb)

theorem newestAt_eq_some_iff (hs : ∀ layer ∈ layers, Sorted layer)
    (hinj : ∀ a ∈ layers.flatten, ∀ b ∈ layers.flatten, a.ik = b.ik → a = b) {e : Entry} :
    newestAt layers userKey snapshot = some e ↔
      e ∈ layers.flatten ∧ e.matchesAt userKey snapshot = true ∧
        ∀ b ∈ layers.flatten, b.matchesAt userKey snapshot = true → e.ik ≤ b.ik := by
  constructor
  · exact newestAt_spec hs
  · rintro ⟨hmem, hmatch, hmin⟩
    cases hn : newestAt layers userKey snapshot with
    | none =>
        rw [newestAt_eq_none.mp hn e hmem] at hmatch
        simp at hmatch
    | some c =>
        obtain ⟨hmem', hmatch', hmin'⟩ := newestAt_spec hs hn
        rw [hinj c hmem' e hmem (le_antisymm (hmin' e hmem hmatch) (hmin c hmem' hmatch'))]

theorem NewestFirst.eq_of_ik_eq (h : NewestFirst es) {a b : Entry} (ha : a ∈ es) (hb : b ∈ es)
    (hab : a.ik = b.ik) : a = b := by
  have hnodup : (es.map Entry.ik).Nodup := by
    rw [List.Nodup, List.pairwise_map]
    apply List.Pairwise.imp _ h
    intro a b hlt heq
    exact absurd (hlt (congrArg InternalKey.userKey heq)) (heq ▸ lt_irrefl _)
  exact List.inj_on_of_nodup_map hnodup ha hb hab

/-- A merge depends on nothing but the set of versions in its layers. -/
theorem newestAt_congr {layers' : List (List Entry)} (hs : ∀ layer ∈ layers, Sorted layer)
    (hs' : ∀ layer ∈ layers', Sorted layer) (hmem : ∀ e, e ∈ layers.flatten ↔ e ∈ layers'.flatten)
    (hinj : ∀ a ∈ layers'.flatten, ∀ b ∈ layers'.flatten, a.ik = b.ik → a = b) :
    newestAt layers userKey snapshot = newestAt layers' userKey snapshot := by
  apply Option.ext
  intro e
  rw [newestAt_eq_some_iff hs' hinj, newestAt_eq_some_iff hs]
  · simp only [hmem]
  · intro a ha b hb
    exact hinj a ((hmem a).mp ha) b ((hmem b).mp hb)

/-- Point reads and merges agree on layers that are newest first throughout. -/
theorem NewestFirst.newestAt_eq (h : NewestFirst layers.flatten)
    (hs : ∀ layer ∈ layers, Sorted layer) :
    newestAt layers userKey snapshot = versionAt layers.flatten userKey snapshot := by
  apply Option.ext
  intro e
  rw [newestAt_eq_some_iff hs fun a ha b hb => h.eq_of_ik_eq ha hb, h.versionAt_eq_some_iff]

theorem internalCompare_lt_iff (a b : InternalKey) : internalCompare bytesCompare a b = .lt ↔
    a.userKey < b.userKey ∨ a.userKey = b.userKey ∧
      (b.seqNum < a.seqNum ∨ b.seqNum = a.seqNum ∧ b.kind < a.kind) := by
  rw [internalCompare_eq_cmp, ← InternalKey.lt_iff_seqNum]
  exact cmp_eq_lt_iff a b

theorem internalCompare_eq_iff (a b : InternalKey) :
    internalCompare bytesCompare a b = .eq ↔ a = b := by
  rw [internalCompare_eq_cmp]
  exact cmp_eq_eq_iff a b

theorem internalCompare_gt_iff (a b : InternalKey) :
    internalCompare bytesCompare a b = .gt ↔ internalCompare bytesCompare b a = .lt := by
  rw [internalCompare_eq_cmp, internalCompare_eq_cmp]
  exact (cmp_eq_gt_iff a b).trans (cmp_eq_lt_iff b a).symm

theorem internalCompare_trans {a b c : InternalKey}
    (hab : internalCompare bytesCompare a b = .lt) (hbc : internalCompare bytesCompare b c = .lt) :
    internalCompare bytesCompare a c = .lt := by
  rw [internalCompare_eq_cmp] at hab hbc ⊢
  exact (cmp_eq_lt_iff a c).mpr (((cmp_eq_lt_iff a b).mp hab).trans ((cmp_eq_lt_iff b c).mp hbc))

/-- The first entry at or after the search key. -/
def seekAt (es : List Entry) (userKey : Bytes) (snapshot : Nat) : Option Entry :=
  es.find? fun e => internalCompare bytesCompare e.ik (makeSearchKeyAt userKey snapshot) != .lt

/-- The entry is the newest version of `userKey` that a reader at `snapshot` sees. -/
structure IsNewestAt (es : List Entry) (userKey : Bytes) (snapshot : Nat) (e : Entry) : Prop where
  mem : e ∈ es
  version : e.userKey = userKey
  visible : e.seqNum ≤ snapshot
  newest : ∀ b ∈ es, b.userKey = userKey → b.seqNum ≤ snapshot →
    b = e ∨ e.Before b ∧ b.seqNum ≤ e.seqNum

theorem seekAt_eq_head? (es : List Entry) (userKey : Bytes) (snapshot : Nat) :
    seekAt es userKey snapshot =
      (es.dropWhile fun e => decide (e.ik < makeSearchKeyAt userKey snapshot)).head? := by
  rw [seekAt, ← List.find?_not_eq_head?_dropWhile]
  congr 1
  funext e
  rw [internalCompare_eq_cmp, Bool.eq_iff_iff, bne_iff_ne, Bool.not_eq_true',
    decide_eq_false_iff_not]
  exact not_congr (cmp_eq_lt_iff _ _)

theorem seekAt_filter {es : List Entry} (hs : Sorted es) (hv : ∀ e ∈ es, e.ik.valid = true)
    (userKey : Bytes) {snapshot : Nat} (hsnap : snapshot ≤ seqNumMax) :
    (seekAt es userKey snapshot).filter (fun e => decide (e.userKey = userKey)) =
      versionAt es userKey snapshot := by
  rw [seekAt_eq_head?, head?_dropWhile_searchKey hs hv userKey hsnap]

theorem isNewestAt_of_versionAt {es : List Entry} (hs : Sorted es) {userKey : Bytes}
    {snapshot : Nat} {e : Entry} (h : versionAt es userKey snapshot = some e) :
    IsNewestAt es userKey snapshot e := by
  obtain ⟨hmem, hmatch, hmin⟩ := (newestFirst_of_sorted hs).versionAt_eq_some_iff.mp h
  obtain ⟨hu, hvisible⟩ := Entry.matchesAt_iff.mp hmatch
  refine ⟨hmem, hu, hvisible, fun b hb hbu hbs => ?_⟩
  rcases (hmin b hb (Entry.matchesAt_iff.mpr ⟨hbu, hbs⟩)).lt_or_eq with hlt | heq
  · exact Or.inr ⟨Entry.before_iff.mpr hlt, InternalKey.seqNum_le_of_lt hlt (hu.trans hbu.symm)⟩
  · exact Or.inl (hs.eq_of_key_eq hb hmem heq.symm)

/-- The codec, the order and the seek: encoding loses nothing, `InternalCompare` orders
by user key ascending and then by sequence number and kind descending, and a seek lands
on the newest visible version of its user key exactly when there is one. -/
theorem internalKey_laws :
    (∀ (userKey : Bytes) (seqNum : Nat) (kind : InternalKeyKind), seqNum ≤ seqNumMax →
      kind = internalKeyKindSet ∨ kind = internalKeyKindDelete →
      decodeInternalKey (makeInternalKey userKey seqNum kind).encode =
          makeInternalKey userKey seqNum kind ∧
        (makeInternalKey userKey seqNum kind).seqNum = seqNum ∧
        (makeInternalKey userKey seqNum kind).kind = kind) ∧
    (∀ a b, internalCompare bytesCompare a b = .lt ↔
      a.userKey < b.userKey ∨ a.userKey = b.userKey ∧
        (b.seqNum < a.seqNum ∨ b.seqNum = a.seqNum ∧ b.kind < a.kind)) ∧
    (∀ a b, internalCompare bytesCompare a b = .eq ↔ a = b) ∧
    (∀ a b, internalCompare bytesCompare a b = .gt ↔ internalCompare bytesCompare b a = .lt) ∧
    (∀ a b c, internalCompare bytesCompare a b = .lt → internalCompare bytesCompare b c = .lt →
      internalCompare bytesCompare a c = .lt) ∧
    ∀ es : List Entry, es.Pairwise Entry.Before →
      (∀ e ∈ es, e.kind = internalKeyKindSet ∨ e.kind = internalKeyKindDelete) →
      ∀ (userKey : Bytes) (snapshot : Nat), snapshot ≤ seqNumMax →
        ((∃ e, seekAt es userKey snapshot = some e ∧ e.userKey = userKey) ↔
          ∃ e ∈ es, e.userKey = userKey ∧ e.seqNum ≤ snapshot) ∧
        ∀ e, seekAt es userKey snapshot = some e → e.userKey = userKey →
          IsNewestAt es userKey snapshot e := by
  refine ⟨fun userKey seqNum kind hseq _ => ⟨InternalKey.decode_encode _,
    trailerSeqNum_makeTrailer hseq kind, trailerKind_makeTrailer seqNum kind⟩,
    internalCompare_lt_iff, internalCompare_eq_iff, internalCompare_gt_iff,
    fun a b c => internalCompare_trans, ?_⟩
  intro es hbefore hkind userKey snapshot hsnap
  have hs : Sorted es := hbefore.imp Entry.before_iff.mp
  have hv : ∀ e ∈ es, e.ik.valid = true := fun e he => InternalKey.valid_of_kind_eq (hkind e he)
  have hseek := seekAt_filter hs hv userKey hsnap
  have hland : ∀ e, seekAt es userKey snapshot = some e → e.userKey = userKey →
      versionAt es userKey snapshot = some e := by
    intro e he hu
    rw [← hseek, he]
    simp [Option.filter, hu]
  refine ⟨⟨?_, ?_⟩, fun e he hu => isNewestAt_of_versionAt hs (hland e he hu)⟩
  · rintro ⟨e, he, hu⟩
    have hnewest := isNewestAt_of_versionAt hs (hland e he hu)
    exact ⟨e, hnewest.mem, hu, hnewest.visible⟩
  · rintro ⟨e, he, hu, hvisible⟩
    cases hversion : versionAt es userKey snapshot with
    | none =>
        have hnone := versionAt_eq_none.mp hversion e he
        rw [Entry.matchesAt_iff.mpr ⟨hu, hvisible⟩] at hnone
        simp at hnone
    | some b =>
        rw [hversion, Option.filter_eq_some_iff] at hseek
        exact ⟨b, hseek.1, of_decide_eq_true hseek.2⟩

/-- Between two versions of a key the seek lands on the older one. -/
theorem internalKey_laws_twoVersions :
    seekAt [setVersion [107] 3 [1], setVersion [107] 1 [2]] [107] 2 =
      some (setVersion [107] 1 [2]) ∧
    IsNewestAt [setVersion [107] 3 [1], setVersion [107] 1 [2]] [107] 2
      (setVersion [107] 1 [2]) := by
  obtain ⟨-, -, -, -, -, hseek⟩ := internalKey_laws
  have hland : seekAt [setVersion [107] 3 [1], setVersion [107] 1 [2]] [107] 2 =
      some (setVersion [107] 1 [2]) := by decide
  exact ⟨hland, (hseek _ (by decide) (by decide) [107] 2 (by decide)).2 _ hland (by decide)⟩

end Hcdb.Base
