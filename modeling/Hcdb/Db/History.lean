import Hcdb.Db.Run

/-!
The writes between two flushes, as the versions they store.  The memtable is what
one gets by inserting them in order, the log holds one record for each, and replay
of what is left of the log inserts the ones that are left.
-/

namespace Hcdb.Db

open Hcdb.Lib.ByteString
open Hcdb.Lib.BufferedWriter
open Hcdb.Lib.SortedList
open Hcdb.Base
open Hcdb.Memtable
open Hcdb.Sstable
open Hcdb.Wal

/-- The version that the write makes with this number. -/
def Op.entry? (seqNum : Nat) : Op → Option Entry
  | .put key value =>
      some { key := (makeInternalKey key seqNum internalKeyKindSet).encode, value }
  | .delete key =>
      some { key := (makeInternalKey key seqNum internalKeyKindDelete).encode, value := [] }
  | .flush => none

/-- The versions that the calls store when the counter starts at `seqNum`. -/
def history : Nat → List Op → List Entry
  | _, [] => []
  | seqNum, op :: ops =>
      match op.entry? (seqNum + 1) with
      | none => history seqNum ops
      | some e => e :: history (seqNum + 1) ops

def Op.writes (key : Bytes) : Op → Bool
  | .put k _ => decide (k = key)
  | .delete k => decide (k = key)
  | .flush => false

/-- The bytes that the write adds to the log. -/
def Op.recordLength : Op → Nat
  | .put key value => 24 + key.length + value.length
  | .delete key => 24 + key.length
  | .flush => 0

/-- The calls whose records lie in the first `n` bytes of the log as a whole. -/
def survivingOps : Nat → List Op → List Op
  | _, [] => []
  | n, op :: ops =>
      if op.recordLength ≤ n then op :: survivingOps (n - op.recordLength) ops else []

def insertEntry (mt : MemTable) (e : Entry) : MemTable := mt.insert e.key e.value

def memtableOf (es : List Entry) : MemTable := es.foldl insertEntry newMemTable

theorem history_append (seqNum : Nat) (ops ops' : List Op) :
    history seqNum (ops ++ ops') =
      history seqNum ops ++ history (seqNum + (history seqNum ops).length) ops' := by
  induction ops generalizing seqNum with
  | nil => simp [history]
  | cons op ops ih =>
      cases h : op.entry? (seqNum + 1) with
      | none => simp [history, h, ih]
      | some e =>
          simp only [List.cons_append, history, h, ih, List.length_cons]
          rw [Nat.add_assoc seqNum 1, Nat.add_comm 1]

theorem entry?_eq_none {seqNum : Nat} {op : Op} (h : op.entry? seqNum = none) : op = .flush := by
  cases op with
  | put k value => simp [Op.entry?] at h
  | delete k => simp [Op.entry?] at h
  | flush => rfl

theorem entry?_recordLength {seqNum : Nat} {op : Op} {e : Entry} (h : op.entry? seqNum = some e) :
    Wal.recordLength e = op.recordLength := by
  cases op with
  | put key value =>
      obtain rfl := Option.some.inj h
      simp only [Wal.recordLength, InternalKey.encode_length, InternalKey.size, makeInternalKey,
        internalTrailerLen, Op.recordLength]
      omega
  | delete key =>
      obtain rfl := Option.some.inj h
      simp only [Wal.recordLength, InternalKey.encode_length, InternalKey.size, makeInternalKey,
        internalTrailerLen, Op.recordLength, List.length_nil]
      omega
  | flush => simp [Op.entry?] at h

theorem wholeWithin_history (n seqNum : Nat) (ops : List Op) :
    wholeWithin n (history seqNum ops) = history seqNum (survivingOps n ops) := by
  induction ops generalizing n seqNum with
  | nil => rfl
  | cons op ops ih =>
      cases h : op.entry? (seqNum + 1) with
      | none =>
          obtain rfl := entry?_eq_none h
          have hsub : survivingOps n (.flush :: ops) = .flush :: survivingOps n ops := by
            simp [survivingOps, Op.recordLength]
          rw [hsub]
          simp only [history, h, ih]
      | some e =>
          have hlen := entry?_recordLength h
          simp only [history, h, wholeWithin, survivingOps, hlen]
          split
          · simp only [history, h, ih]
          · rfl

theorem survivingOps_initial (n : Nat) (ops : List Op) : survivingOps n ops <+: ops := by
  induction ops generalizing n with
  | nil => exact List.nil_prefix
  | cons op ops ih =>
      unfold survivingOps
      split
      · exact List.cons_prefix_cons.mpr ⟨rfl, ih _⟩
      · exact List.nil_prefix

/-- What holds of every version a history stores: it is well formed, a tombstone is
empty, and its number lies behind the starting point. -/
structure Recorded (seqNum : Nat) (e : Entry) : Prop where
  wellFormed : e.WellFormed
  tombstone : e.kind = internalKeyKindDelete → e.value = []
  after : seqNum < e.seqNum

theorem entry?_recorded {seqNum : Nat} {op : Op} {e : Entry} (h : op.entry? (seqNum + 1) = some e)
    (hop : op.Accepted) (hseq : seqNum < seqNumMax) :
    Recorded seqNum e ∧ e.seqNum = seqNum + 1 := by
  have hnum : ∀ userKey kind value,
      Entry.seqNum { key := (makeInternalKey userKey (seqNum + 1) kind).encode, value } =
        seqNum + 1 := by
    intro userKey kind value
    rw [Entry.seqNum, Entry.ik_encode]
    exact trailerSeqNum_makeTrailer hseq kind
  cases op with
  | put key value =>
      obtain rfl := Option.some.inj h
      refine ⟨⟨Entry.wellFormed_encode hop.1 hop.2 (by decide), fun hkind => ?_, ?_⟩,
        hnum _ _ _⟩
      · rw [Entry.kind, Entry.ik_encode] at hkind
        have hset := (trailerKind_makeTrailer _ internalKeyKindSet).symm.trans hkind
        exact absurd hset (by decide)
      · rw [hnum]
        exact Nat.lt_succ_self _
  | delete key =>
      obtain rfl := Option.some.inj h
      refine ⟨⟨Entry.wellFormed_encode hop (by simp [Config.maxValueLength]) (by decide),
        fun _ => rfl, ?_⟩, hnum _ _ _⟩
      rw [hnum]
      exact Nat.lt_succ_self _
  | flush => simp [Op.entry?] at h

theorem history_length_le (seqNum : Nat) (ops : List Op) :
    (history seqNum ops).length ≤ ops.length := by
  induction ops generalizing seqNum with
  | nil => simp [history]
  | cons op ops ih =>
      rw [List.length_cons, history]
      split
      · exact (ih seqNum).trans (Nat.le_succ _)
      · rw [List.length_cons]
        exact Nat.succ_le_succ (ih _)

theorem history_recorded {seqNum : Nat} {ops : List Op} (hop : ∀ op ∈ ops, op.Accepted)
    (hfew : seqNum + ops.length ≤ seqNumMax) : ∀ e ∈ history seqNum ops, Recorded seqNum e := by
  induction ops generalizing seqNum with
  | nil => simp [history]
  | cons op ops ih =>
      rw [List.length_cons] at hfew
      have hops : ∀ op ∈ ops, op.Accepted := fun op' h' => hop op' (by simp [h'])
      rw [history]
      split
      · exact ih hops (by omega)
      · rename_i e he
        intro x hx
        rcases List.mem_cons.mp hx with rfl | hx
        · exact (entry?_recorded he (hop op (by simp)) (by omega)).1
        · have hrec := ih hops (by omega : seqNum + 1 + ops.length ≤ seqNumMax) x hx
          exact ⟨hrec.wellFormed, hrec.tombstone, (Nat.lt_succ_self _).trans hrec.after⟩

theorem history_pairwise {seqNum : Nat} {ops : List Op} (hop : ∀ op ∈ ops, op.Accepted)
    (hfew : seqNum + ops.length ≤ seqNumMax) :
    (history seqNum ops).Pairwise fun a b => a.seqNum < b.seqNum := by
  induction ops generalizing seqNum with
  | nil => exact List.Pairwise.nil
  | cons op ops ih =>
      rw [List.length_cons] at hfew
      have hops : ∀ op ∈ ops, op.Accepted := fun op' h' => hop op' (by simp [h'])
      rw [history]
      split
      · exact ih hops (by omega)
      · rename_i e he
        have hnum := (entry?_recorded he (hop op (by simp)) (by omega)).2
        refine List.Pairwise.cons (fun x hx => ?_) (ih hops (by omega))
        rw [hnum]
        exact (history_recorded hops (by omega : seqNum + 1 + ops.length ≤ seqNumMax) x hx).after

theorem history_seqNum_le {seqNum : Nat} {ops : List Op} (hop : ∀ op ∈ ops, op.Accepted)
    (hfew : seqNum + ops.length ≤ seqNumMax) :
    ∀ e ∈ history seqNum ops, e.seqNum ≤ seqNum + ops.length := by
  induction ops generalizing seqNum with
  | nil => simp [history]
  | cons op ops ih =>
      rw [List.length_cons] at hfew ⊢
      have hops : ∀ op ∈ ops, op.Accepted := fun op' h' => hop op' (by simp [h'])
      rw [history]
      split
      · exact fun e he => (ih hops (by omega) e he).trans (by omega)
      · rename_i e he
        intro x hx
        rcases List.mem_cons.mp hx with rfl | hx
        · have := (entry?_recorded he (hop op (by simp)) (by omega)).2
          omega
        · have := ih hops (by omega : seqNum + 1 + ops.length ≤ seqNumMax) x hx
          omega

theorem memtableOf_append (es : List Entry) (e : Entry) :
    memtableOf (es ++ [e]) = insertEntry (memtableOf es) e := by
  rw [memtableOf, List.foldl_append]
  rfl

theorem mem_memtableOf {es : List Entry} (h : es.Pairwise fun a b => a.seqNum < b.seqNum)
    (x : Entry) : x ∈ (memtableOf es).tree ↔ x ∈ es := by
  induction es using List.reverseRecOn with
  | nil => simp [memtableOf, newMemTable]
  | append_singleton es e ih =>
      obtain ⟨hes, -, hlt⟩ := List.pairwise_append.mp h
      rw [memtableOf_append, insertEntry, mem_insert_tree, ih hes, List.mem_append,
        List.mem_singleton]
      constructor
      · rintro (hx | ⟨hx, -⟩)
        · exact Or.inr hx
        · exact Or.inl hx
      · rintro (hx | hx)
        · refine Or.inr ⟨hx, fun heq => ?_⟩
          have hnum : x.seqNum = e.seqNum := congrArg InternalKey.seqNum heq
          have := hlt x hx e (by simp)
          omega
        · exact Or.inl hx

theorem mem_of_mem_memtableOf {es : List Entry} {x : Entry} (h : x ∈ (memtableOf es).tree) :
    x ∈ es := by
  induction es using List.reverseRecOn with
  | nil => simp [memtableOf, newMemTable] at h
  | append_singleton es e ih =>
      rw [memtableOf_append, insertEntry, mem_insert_tree] at h
      rcases h with rfl | ⟨hx, -⟩
      · simp
      · exact List.mem_append_left _ (ih hx)

theorem foldl_rebuildEntry {es : List Entry} (h : ∀ e ∈ es, e.kind = internalKeyKindDelete →
    e.value = []) (mt : MemTable) (maxSeq : Nat) :
    es.foldl rebuildEntry (mt, maxSeq) = (es.foldl insertEntry mt, maxSeqNumOf maxSeq es) := by
  induction es generalizing mt maxSeq with
  | nil => rfl
  | cons e es ih =>
      have hinsert : (if e.kind = internalKeyKindDelete then mt.delete e.key
          else mt.put e.key e.value) = insertEntry mt e := by
        split
        · rename_i hkind
          rw [MemTable.delete, insertEntry, h e (by simp) hkind]
        · rfl
      rw [List.foldl_cons, rebuildEntry, hinsert, ih fun e' he' => h e' (by simp [he'])]
      rfl

theorem entry?_matchesAt {seqNum : Nat} {op : Op} {e : Entry} (h : op.entry? seqNum = some e)
    (key : Bytes) : e.matchesAt key seqNumMax = op.writes key := by
  have huser : ∀ k kind value,
      Entry.matchesAt key seqNumMax { key := (makeInternalKey k seqNum kind).encode, value } =
        decide (k = key) := by
    intro k kind value
    have hseen := Entry.seqNum_le_seqNumMax
      { key := (makeInternalKey k seqNum kind).encode, value }
    rw [Bool.eq_iff_iff, Entry.matchesAt_iff, Entry.userKey, Entry.ik_encode, decide_eq_true_eq]
    exact ⟨And.left, fun hk => ⟨hk, hseen⟩⟩
  cases op with
  | put k value =>
      obtain rfl := Option.some.inj h
      exact huser _ _ _
  | delete k =>
      obtain rfl := Option.some.inj h
      exact huser _ _ _
  | flush => simp [Op.entry?] at h

theorem entry?_outcome {seqNum : Nat} {op : Op} {e : Entry} (h : op.entry? seqNum = some e)
    (key : Bytes) (last : Option Bytes) :
    op.outcome key last = if op.writes key then answer (some e) else last := by
  have hkind : ∀ k kind value,
      Entry.kind { key := (makeInternalKey k seqNum kind).encode, value } = kind := by
    intro k kind value
    rw [Entry.kind, Entry.ik_encode]
    exact trailerKind_makeTrailer seqNum kind
  cases op with
  | put k value =>
      obtain rfl := Option.some.inj h
      have hset : internalKeyKindSet ≠ internalKeyKindDelete := by decide
      simp [Op.outcome, Op.writes, answer, hkind, hset]
  | delete k =>
      obtain rfl := Option.some.inj h
      simp [Op.outcome, Op.writes, answer, hkind]
  | flush => simp [Op.entry?] at h

theorem versionAt_memtableOf_append {es : List Entry} {e : Entry}
    (h : (es ++ [e]).Pairwise fun a b => a.seqNum < b.seqNum) (key : Bytes) (snapshot : Nat) :
    versionAt (memtableOf (es ++ [e])).tree key snapshot =
      if e.matchesAt key snapshot then some e else versionAt (memtableOf es).tree key snapshot := by
  obtain ⟨hold, -, hlt⟩ := List.pairwise_append.mp h
  have hmem : ∀ x, x ∈ (memtableOf (es ++ [e])).tree ↔ x = e ∨ x ∈ (memtableOf es).tree := by
    intro x
    rw [mem_memtableOf h, mem_memtableOf hold, List.mem_append, List.mem_singleton, or_comm]
  exact (newestFirst_of_sorted (memtableOf es).sorted).versionAt_insert
    (newestFirst_of_sorted (memtableOf (es ++ [e])).sorted) hmem
    fun b hb => hlt b ((mem_memtableOf hold b).mp hb) e (by simp)

/-- The newest version in the memtable of a history is the one of the last call that
wrote the key. -/
theorem versionAt_memtableOf {seqNum : Nat} {ops : List Op} (hop : ∀ op ∈ ops, op.Accepted)
    (hfew : seqNum + ops.length ≤ seqNumMax) (key : Bytes) :
    answer (versionAt (memtableOf (history seqNum ops)).tree key seqNumMax) = lastWrite ops key ∧
      (versionAt (memtableOf (history seqNum ops)).tree key seqNumMax = none ↔
        ∀ op ∈ ops, op.writes key = false) := by
  induction ops using List.reverseRecOn with
  | nil => simp [history, memtableOf, newMemTable, versionAt, answer, lastWrite]
  | append_singleton ops op ih =>
      have hpair := history_pairwise hop hfew
      rw [List.length_append, List.length_singleton] at hfew
      have hops : ∀ op ∈ ops, op.Accepted := fun op' h' => hop op' (by simp [h'])
      obtain ⟨hans, hnone⟩ := ih hops (by omega)
      have hlen := history_length_le seqNum ops
      rw [history_append] at hpair
      rw [lastWrite_append, history_append, List.forall_mem_append, List.forall_mem_singleton]
      cases he : op.entry? (seqNum + (history seqNum ops).length + 1) with
      | none =>
          obtain rfl := entry?_eq_none he
          simp only [history, he, List.append_nil]
          exact ⟨hans, hnone.trans (and_iff_left rfl).symm⟩
      | some e =>
          simp only [history, he] at hpair ⊢
          rw [versionAt_memtableOf_append hpair, entry?_matchesAt he,
            entry?_outcome he key (lastWrite ops key)]
          cases op.writes key with
          | true => simp
          | false => simpa using ⟨hans, hnone⟩

/-- A memtable of writes in front of what was stored answers for the keys it has and
leaves the others to the rest. -/
theorem answer_memtableOf_or {seqNum : Nat} {ops : List Op} (hop : ∀ op ∈ ops, op.Accepted)
    (hfew : seqNum + ops.length ≤ seqNumMax) (key : Bytes) (rest : Option Entry) :
    answer ((versionAt (memtableOf (history seqNum ops)).tree key seqNumMax).or rest) =
      if ∃ op ∈ ops, op.writes key = true then lastWrite ops key else answer rest := by
  obtain ⟨hans, hnone⟩ := versionAt_memtableOf hop hfew key
  cases hv : versionAt (memtableOf (history seqNum ops)).tree key seqNumMax with
  | none =>
      rw [if_neg, Option.none_or]
      rintro ⟨op, hmem, hw⟩
      rw [hnone.mp hv op hmem] at hw
      simp at hw
  | some e =>
      rw [if_pos, Option.some_or, ← hans, hv]
      by_contra hnot
      push Not at hnot
      have := hnone.mpr fun op hmem => by simpa using hnot op hmem
      rw [hv] at this
      simp at this

theorem length_memtableOf_le {es : List Entry} (h : es.Pairwise fun a b => a.seqNum < b.seqNum) :
    (memtableOf es).tree.length ≤ es.length := by
  have hsub : (memtableOf es).tree ⊆ es := fun x hx => (mem_memtableOf h x).mp hx
  exact ((memtableOf es).sorted.nodup.subperm hsub).length_le

theorem history_length {seqNum : Nat} {ops : List Op} (h : ∀ op ∈ ops, op ≠ .flush) :
    (history seqNum ops).length = ops.length := by
  induction ops generalizing seqNum with
  | nil => rfl
  | cons op ops ih =>
      rw [history]
      split
      · rename_i hnone
        exact absurd (entry?_eq_none hnone) (h op (by simp))
      · rw [List.length_cons, List.length_cons, ih fun op' h' => h op' (by simp [h'])]

theorem exists_last_history {ops : List Op} (hop : ∀ op ∈ ops, op.Accepted)
    (hwrite : ∀ op ∈ ops, op ≠ .flush) (hfew : ops.length ≤ seqNumMax) (hne : ops ≠ []) :
    ∃ e ∈ history 0 ops, e.seqNum = ops.length := by
  rcases List.eq_nil_or_concat' ops with rfl | ⟨init, op, rfl⟩
  · exact absurd rfl hne
  · rw [List.length_append, List.length_singleton] at hfew ⊢
    have hinit : ∀ op ∈ init, op ≠ .flush := fun op' h' => hwrite op' (by simp [h'])
    obtain ⟨e, he⟩ : ∃ e, op.entry? (init.length + 1) = some e :=
      Option.ne_none_iff_exists'.mp fun hnone => hwrite op (by simp) (entry?_eq_none hnone)
    refine ⟨e, ?_, (entry?_recorded he (hop op (by simp)) (by omega)).2⟩
    rw [history_append, history_length hinit]
    simp [history, he]

theorem mem_history_take {ops : List Op} (hop : ∀ op ∈ ops, op.Accepted)
    (hwrite : ∀ op ∈ ops, op ≠ .flush) (hfew : ops.length ≤ seqNumMax) (n : Nat) (e : Entry) :
    e ∈ history 0 (ops.take n) ↔ e ∈ history 0 ops ∧ e.seqNum ≤ n := by
  have hsplit := history_append 0 (ops.take n) (ops.drop n)
  rw [List.take_append_drop,
    history_length fun op h => hwrite op (List.mem_of_mem_take h)] at hsplit
  have hlen := List.length_take_le n ops
  have hsum := congrArg List.length (List.take_append_drop n ops)
  rw [List.length_append] at hsum
  rw [hsplit, List.mem_append]
  constructor
  · intro he
    have := history_seqNum_le (fun op h => hop op (List.mem_of_mem_take h)) (by omega) e he
    exact ⟨Or.inl he, by omega⟩
  · rintro ⟨he | he, hle⟩
    · exact he
    · have hafter := (history_recorded (fun op h => hop op (List.mem_of_mem_drop h)) (by omega)
        e he).after
      have hnil : (ops.drop n).length = 0 := by
        rw [List.length_drop]
        rw [List.length_take] at hafter
        omega
      rw [List.length_eq_zero_iff.mp hnil] at he
      simp [history] at he

/-- Versions that are newest first and are those of a history show every snapshot the
writes up to it. -/
theorem answer_versionAt_history {es : List Entry} (h : NewestFirst es) {ops : List Op}
    (hmem : ∀ e, e ∈ es ↔ e ∈ history 0 ops) (hop : ∀ op ∈ ops, op.Accepted)
    (hwrite : ∀ op ∈ ops, op ≠ .flush) (hfew : ops.length ≤ seqNumMax) (key : Bytes)
    (snapshot : Nat) :
    answer (versionAt es key snapshot) = lastWrite (ops.take snapshot) key := by
  have hop' : ∀ op ∈ ops.take snapshot, op.Accepted := fun op h => hop op (List.mem_of_mem_take h)
  have hlen := List.length_take_le' snapshot ops
  have hpair := history_pairwise hop' (by omega : 0 + (ops.take snapshot).length ≤ seqNumMax)
  have hsame : versionAt es key snapshot =
      versionAt (memtableOf (history 0 (ops.take snapshot))).tree key seqNumMax := by
    apply Option.ext
    intro e
    have hin : ∀ x, x ∈ (memtableOf (history 0 (ops.take snapshot))).tree ∧
        x.matchesAt key seqNumMax = true ↔ x ∈ es ∧ x.matchesAt key snapshot = true := by
      intro x
      have hmax := x.seqNum_le_seqNumMax
      rw [mem_memtableOf hpair, mem_history_take hop hwrite hfew, hmem, Entry.matchesAt_iff,
        Entry.matchesAt_iff]
      tauto
    rw [h.versionAt_eq_some_iff,
      (newestFirst_of_sorted (memtableOf _).sorted).versionAt_eq_some_iff]
    constructor
    · rintro ⟨he, hm, hmin⟩
      obtain ⟨he', hm'⟩ := (hin e).mpr ⟨he, hm⟩
      exact ⟨he', hm', fun b hb hmb => hmin b ((hin b).mp ⟨hb, hmb⟩).1 ((hin b).mp ⟨hb, hmb⟩).2⟩
    · rintro ⟨he, hm, hmin⟩
      obtain ⟨he', hm'⟩ := (hin e).mp ⟨he, hm⟩
      exact ⟨he', hm', fun b hb hmb => hmin b ((hin b).mpr ⟨hb, hmb⟩).1 ((hin b).mpr ⟨hb, hmb⟩).2⟩
  rw [hsame]
  exact (versionAt_memtableOf hop' (by omega) key).1

theorem foldl_insertEntry_size (es : List Entry) (mt : MemTable) :
    (es.foldl insertEntry mt).size =
      mt.size + (es.map fun e => e.key.length + e.value.length).sum := by
  induction es generalizing mt with
  | nil => simp
  | cons e es ih =>
      rw [List.foldl_cons, ih, List.map_cons, List.sum_cons]
      simp only [insertEntry, MemTable.insert]
      omega

theorem length_le_foldl_insertEntry_size {es : List Entry} (h : ∀ e ∈ es, e.WellFormed)
    (mt : MemTable) : 8 * es.length ≤ (es.foldl insertEntry mt).size := by
  have hsum : 8 * es.length ≤ (es.map fun e => e.key.length + e.value.length).sum := by
    induction es with
    | nil => simp
    | cons e es ih =>
        have htrailer := (h e (by simp)).trailer
        have hrest := ih fun e' he' => h e' (by simp [he'])
        rw [List.length_cons, List.map_cons, List.sum_cons]
        unfold internalTrailerLen at htrailer
        omega
  rw [foldl_insertEntry_size]
  omega

section Writes

variable [Runtime]

/-- The writes one after the other, without any flush. -/
def writeAll (db : DB) (ops : List Op) : DB :=
  ops.foldl (fun db op => op.write db) db

theorem writeAll_append (db : DB) (ops : List Op) (op : Op) :
    writeAll db (ops ++ [op]) = op.write (writeAll db ops) := by
  rw [writeAll, List.foldl_append]
  rfl

theorem Op.write_eq (db : DB) (op : Op) :
    op.write db = match op.entry? (db.seqNum + 1) with
      | none => db
      | some e => { db with
          seqNum := db.seqNum + 1
          wal := db.wal.write e
          memtable := insertEntry db.memtable e } := by
  cases op with
  | put key value => rfl
  | delete key => rfl
  | flush => rfl

theorem writeAll_eq (db : DB) (ops : List Op) :
    writeAll db ops = { db with
      seqNum := db.seqNum + (history db.seqNum ops).length
      wal := (history db.seqNum ops).foldl WAL.write db.wal
      memtable := (history db.seqNum ops).foldl insertEntry db.memtable } := by
  induction ops generalizing db with
  | nil => rfl
  | cons op ops ih =>
      rw [writeAll, List.foldl_cons, ← writeAll, ih, Op.write_eq]
      cases h : op.entry? (db.seqNum + 1) with
      | none => simp only [history, h]
      | some e =>
          simp only [history, h, List.length_cons, List.foldl_cons, DB.mk.injEq, true_and, and_true]
          omega

theorem writeAll_wal (db : DB) (ops : List Op) :
    (writeAll db ops).wal = (history db.seqNum ops).foldl WAL.write db.wal := by
  rw [writeAll_eq]

theorem writeAll_dir (db : DB) (ops : List Op) : (writeAll db ops).dir = db.dir := by
  rw [writeAll_eq]

theorem writeAll_ticks (db : DB) (ops : List Op) : (writeAll db ops).ticks = db.ticks := by
  rw [writeAll_eq]

theorem stream_foldl_write (es : List Entry) (wal : WAL) :
    (es.foldl WAL.write wal).writer.stream = wal.writer.stream ++ encodeRecords es := by
  induction es generalizing wal with
  | nil => simp [encodeRecords]
  | cons e es ih =>
      rw [List.foldl_cons, ih, WAL.stream_write]
      simp [encodeRecords]

end Writes

end Hcdb.Db
