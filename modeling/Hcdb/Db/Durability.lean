import Hcdb.Db.Life
import Hcdb.Db.Mapping
import Hcdb.Db.Mvcc
import Hcdb.Db.Relisting
import Hcdb.Lib.Simulation

/-!
What a crash can cost.  A database that is killed and opened again, any number of times,
gives back the first of the writes it has acknowledged: all of those that were flushed or
fsynced, and some of the ones behind them.
-/

namespace Hcdb.Db

open Hcdb.Lib.ByteString
open Hcdb.Lib.BufferedWriter
open Hcdb.Lib.FiniteMap
open Hcdb.Lib.Framing
open Hcdb.Lib.Simulation
open Hcdb.Lib.SortedList
open Hcdb.Base
open Hcdb.Memtable
open Hcdb.Sstable
open Hcdb.Compaction
open Hcdb.Wal

/-- The writes that a database gives back, how many of them no crash can take, how many
have come since the last `Sync`, and from which snapshot on reads see all of them. -/
structure Ledger where
  writes : List Op
  safe : Nat
  counter : Nat
  horizon : Nat
  up : Bool

def Ledger.start : Ledger where
  writes := []
  safe := 0
  counter := 0
  horizon := 0
  up := true

/-- A flush may merge tables, which loses what only snapshots below `horizon` can see. -/
inductive LedgerEvent where
  | write (op : Op)
  | flush (horizon : Nat)
  | close
  | crash (op : Op) (horizon : Nat)
  | restart
  | other

/-- An event, with the horizon of the merge that it comes to. -/
def LifeEvent.view (horizon : Nat) : LifeEvent → LedgerEvent
  | .write op => .write op
  | .flush _ => .flush horizon
  | .close => .close
  | .kill op _ => .crash op horizon
  | .flushFails env => if env.fails .flushWrite then .other else .flush horizon
  | .killFlushing _ _ _ => .crash .flush horizon
  | .restart => .restart
  | _ => .other

/-- The write is added; the one that completes the count makes all of them safe. -/
def Ledger.write (l : Ledger) : Op → Ledger
  | .flush => l
  | op =>
      if Config.defaultSyncThreshold ≤ l.counter + 1 then
        { l with writes := l.writes ++ [op], safe := l.writes.length + 1, counter := 0 }
      else { l with writes := l.writes ++ [op], counter := l.counter + 1 }

/-- Flushes and `Close` make all writes safe, a write does when it completes the count.  A
crash, which may come inside a write, keeps the safe writes and some of those that follow
them. -/
inductive LedgerStep : Ledger → Option LedgerEvent → Ledger → Prop
  | write {l op} : l.up = true → LedgerStep l (some (.write op)) (l.write op)
  | flush {l horizon} : l.up = true →
      LedgerStep l (some (.flush horizon))
        { l with safe := l.writes.length, horizon := max l.horizon horizon }
  | close {l} : l.up = true →
      LedgerStep l (some .close) { l with safe := l.writes.length, up := false }
  | crash {l op m safe horizon} : l.up = true → l.safe ≤ safe → safe ≤ m →
      m ≤ (l.write op).writes.length →
      LedgerStep l (some (.crash op horizon))
        { l with
          writes := (l.write op).writes.take m, safe, horizon := max l.horizon horizon,
          up := false }
  | restart {l} : l.up = false →
      LedgerStep l (some .restart) { l with counter := 0, up := true }
  | other {l} : LedgerStep l (some .other) l

theorem Ledger.write_eq (l : Ledger) {op : Op} (h : op ≠ .flush) :
    l.write op =
      if Config.defaultSyncThreshold ≤ l.counter + 1 then
        { l with writes := l.writes ++ [op], safe := l.writes.length + 1, counter := 0 }
      else { l with writes := l.writes ++ [op], counter := l.counter + 1 } := by
  cases op with
  | put key value => rfl
  | delete key => rfl
  | flush => exact absurd rfl h

theorem Ledger.writes_write (l : Ledger) {op : Op} (h : op ≠ .flush) :
    (l.write op).writes = l.writes ++ [op] := by
  rw [l.write_eq h]
  split <;> rfl

theorem Ledger.up_write (l : Ledger) (op : Op) : (l.write op).up = l.up := by
  by_cases h : op = .flush
  · rw [h, write]
  · rw [l.write_eq h]
    split <;> rfl

theorem Ledger.horizon_write (l : Ledger) (op : Op) : (l.write op).horizon = l.horizon := by
  by_cases h : op = .flush
  · rw [h, write]
  · rw [l.write_eq h]
    split <;> rfl

theorem Ledger.writes_initial (l : Ledger) (op : Op) : l.writes <+: (l.write op).writes := by
  by_cases h : op = .flush
  · rw [h, write]
  · rw [l.writes_write h]
    exact List.prefix_append _ _

theorem Ledger.safe_write (l : Ledger) (hsafe : l.safe ≤ l.writes.length) (op : Op) :
    l.safe ≤ (l.write op).safe ∧ (l.write op).safe ≤ (l.write op).writes.length := by
  by_cases h : op = .flush
  · rw [h, write]
    exact ⟨le_rfl, hsafe⟩
  · rw [l.writes_write h, List.length_append, List.length_singleton, l.write_eq h]
    split <;> constructor <;> dsimp only <;> omega

theorem LedgerStep.crash_plain {l : Ledger} {op : Op} {m : Nat} (hup : l.up = true)
    (hsafe : l.safe ≤ m) (hm : m ≤ (l.write op).writes.length) :
    LedgerStep l (some (.crash op 0))
      { l with writes := (l.write op).writes.take m, up := false } := by
  have hcrash : LedgerStep l (some (.crash op 0))
      { l with
        writes := (l.write op).writes.take m, safe := l.safe, horizon := max l.horizon 0,
        up := false } := .crash hup le_rfl hsafe hm
  rwa [Nat.max_zero] at hcrash

theorem LedgerStep.crash_all {l : Ledger} (hup : l.up = true) (hsafe : l.safe ≤ l.writes.length)
    (horizon : Nat) :
    LedgerStep l (some (.crash .flush horizon))
      { l with safe := l.writes.length, horizon := max l.horizon horizon, up := false } := by
  have hcrash : LedgerStep l (some (.crash .flush horizon))
      { l with
        writes := l.writes.take l.writes.length, safe := l.writes.length,
        horizon := max l.horizon horizon, up := false } := .crash hup hsafe le_rfl le_rfl
  rwa [List.take_length] at hcrash

theorem LedgerStep.keeps_safe {l l' : Ledger} {event : Option LedgerEvent}
    (h : LedgerStep l event l') (hsafe : l.safe ≤ l.writes.length) :
    l.safe ≤ l'.safe ∧ l'.safe ≤ l'.writes.length ∧ l.writes.take l.safe <+: l'.writes := by
  cases h with
  | @write op _ =>
      obtain ⟨hgrows, hle⟩ := l.safe_write hsafe op
      exact ⟨hgrows, hle, (List.take_prefix _ _).trans (l.writes_initial op)⟩
  | flush => exact ⟨hsafe, le_rfl, List.take_prefix _ _⟩
  | close => exact ⟨hsafe, le_rfl, List.take_prefix _ _⟩
  | @crash op m safe _ _ hkept hle hm =>
      have hcut : l.writes.take l.safe = (l.write op).writes.take l.safe :=
        (List.prefix_iff_eq_take.mp
          ((List.take_prefix _ _).trans (l.writes_initial op))).trans (by
            rw [List.length_take, Nat.min_eq_left hsafe])
      refine ⟨hkept, ?_, ?_⟩
      · rw [List.length_take, Nat.min_eq_left hm]
        exact hle
      · rw [hcut]
        exact List.take_prefix_take_left (hkept.trans hle)
  | restart => exact ⟨le_rfl, hsafe, List.take_prefix _ _⟩
  | other => exact ⟨le_rfl, hsafe, List.take_prefix _ _⟩

theorem LedgerStep.run_keeps_safe {l l' : Ledger} {events : List LedgerEvent}
    (h : Traces LedgerStep l events l') (hsafe : l.safe ≤ l.writes.length) :
    l.safe ≤ l'.safe ∧ l'.safe ≤ l'.writes.length ∧ l.writes.take l.safe <+: l'.writes := by
  refine h.invariant (fun l' => l.safe ≤ l'.safe ∧ l'.safe ≤ l'.writes.length ∧
    l.writes.take l.safe <+: l'.writes) ⟨le_rfl, hsafe, List.take_prefix _ _⟩ ?_
  intro s label s' hs hstep
  obtain ⟨hle, hlen, hinitial⟩ := hs
  obtain ⟨hle', hlen', hinitial'⟩ := hstep.keeps_safe hlen
  refine ⟨hle.trans hle', hlen', List.IsPrefix.trans ?_ hinitial'⟩
  have hcut := List.prefix_iff_eq_take.mp hinitial
  rw [List.length_take, Nat.min_eq_left hsafe] at hcut
  rw [hcut]
  exact List.take_prefix_take_left hle

theorem length_le_wholeWithin [Runtime] {n : Nat} {es : List Entry} (es' : List Entry)
    (h : (encodeRecords es).length ≤ n) : es.length ≤ (wholeWithin n (es ++ es')).length := by
  obtain ⟨k, rfl⟩ := Nat.exists_eq_add_of_le h
  rw [wholeWithin_append, List.length_append]
  exact Nat.le_add_right _ _

theorem history_drop_split {writes : List Op} (h : ∀ op ∈ writes, op ≠ .flush) {n m : Nat}
    (hn : n ≤ m) (hm : m ≤ writes.length) :
    history n (writes.drop n) =
      history n ((writes.take m).drop n) ++ history m (writes.drop m) := by
  have hsplit : writes.drop n = (writes.take m).drop n ++ writes.drop m := by
    conv_lhs => rw [← List.take_append_drop m writes]
    rw [List.drop_append_of_le_length (by rw [List.length_take]; omega)]
  have hlen : (history n ((writes.take m).drop n)).length = m - n := by
    rw [history_length fun op hop => h op (List.mem_of_mem_take (List.mem_of_mem_drop hop)),
      List.length_drop, List.length_take, Nat.min_eq_left hm]
  rw [hsplit, history_append, hlen, Nat.add_sub_cancel' hn]

theorem history_concat {ops : List Op} (h : ∀ op ∈ ops, op ≠ .flush) {n : Nat} {op : Op}
    {e : Entry} (he : op.entry? (n + ops.length + 1) = some e) :
    history n (ops ++ [op]) = history n ops ++ [e] := by
  rw [history_append, history_length h]
  simp only [history, he]

theorem newestFirst_reverse {es : List Entry} (h : es.Pairwise fun a b => a.seqNum < b.seqNum) :
    NewestFirst es.reverse := by
  refine List.pairwise_reverse.mpr (h.imp fun {a b} hlt huser => ?_)
  exact (InternalKey.lt_iff_seqNum _ _).mpr (Or.inr ⟨huser, Or.inl hlt⟩)

theorem versionAt_memtableOf_reverse {es : List Entry}
    (h : es.Pairwise fun a b => a.seqNum < b.seqNum) (key : Bytes) (snapshot : Nat) :
    versionAt (memtableOf es).tree key snapshot = versionAt es.reverse key snapshot :=
  versionAt_of_mem_iff (newestFirst_of_sorted (memtableOf es).sorted) (newestFirst_reverse h)
    (fun e => by rw [mem_memtableOf h, List.mem_reverse]) key snapshot

section Recalls

variable [Runtime]

/-- The snapshots that a flush may lose: those below this one. -/
def DB.mergeFloor (clock : Nat → Nat) (stat : Stat) (db : DB) : Nat :=
  if (flushedDB clock db).NoMerge stat then 0 else min db.watermark.floor db.seqNum

/-- The database gives back the writes, the first `n` of them from its tables, to all
snapshots from the horizon on. -/
structure Recalls (clock : Nat → Nat) (n : Nat) (db : DB) (ts us : List Table) (horizon : Nat)
    (writes : List Op) : Prop extends Ordered clock db ts where
  relists : Relists db.dir ts us
  accepted : ∀ op ∈ writes, op.Accepted
  noFlush : ∀ op ∈ writes, op ≠ .flush
  few : writes.length ≤ seqNumMax
  seqNum : db.seqNum = writes.length
  horizon_le : horizon ≤ n
  le_length : n ≤ writes.length
  memtable : db.memtable = memtableOf (history n (writes.drop n))
  old : ∀ e ∈ (layersOf ts).flatten, e.seqNum ≤ n
  tables : ∀ key snapshot, horizon ≤ snapshot →
    versionAt (layersOf ts).flatten key snapshot =
      versionAt (history 0 (writes.take n)).reverse key snapshot

theorem recalls_emptyDB (clock : Nat → Nat) : Recalls clock 0 emptyDB [] [] 0 [] where
  toOrdered := ordered_emptyDB clock
  relists := relists_emptyDB
  accepted := by simp
  noFlush := by simp
  few := Nat.zero_le _
  seqNum := rfl
  horizon_le := le_rfl
  le_length := le_rfl
  memtable := rfl
  old := by simp [layersOf]
  tables _ _ _ := rfl

variable {clock : Nat → Nat} {n m : Nat} {db : DB} {ts us : List Table} {horizon : Nat}
  {writes : List Op}

namespace Recalls

theorem accepted_take (h : Recalls clock n db ts us horizon writes) (m : Nat) :
    (∀ op ∈ writes.take m, op.Accepted) ∧ (∀ op ∈ writes.take m, op ≠ .flush) ∧
      0 + (writes.take m).length ≤ seqNumMax :=
  ⟨fun op hop => h.accepted op (List.mem_of_mem_take hop),
    fun op hop => h.noFlush op (List.mem_of_mem_take hop),
    (Nat.zero_add _).trans_le ((List.length_take_le' _ _).trans h.few)⟩

theorem accepted_drop (h : Recalls clock n db ts us horizon writes) (hn : n ≤ m)
    (hm : m ≤ writes.length) :
    (∀ op ∈ (writes.take m).drop n, op.Accepted) ∧
      n + ((writes.take m).drop n).length ≤ seqNumMax := by
  refine ⟨fun op hop => (h.accepted_take m).1 op (List.mem_of_mem_drop hop), ?_⟩
  rw [List.length_drop, List.length_take, Nat.min_eq_left hm, Nat.add_sub_cancel' hn]
  exact hm.trans h.few

theorem versionAt_take (h : Recalls clock n db ts us horizon writes) (hn : n ≤ m)
    (hm : m ≤ writes.length) (key : Bytes) {snapshot : Nat} (hsnap : horizon ≤ snapshot) :
    versionAt ((memtableOf (history n ((writes.take m).drop n))).tree ++ (layersOf ts).flatten)
        key snapshot =
      versionAt (history 0 (writes.take m)).reverse key snapshot := by
  obtain ⟨hop, hfew⟩ := h.accepted_drop hn hm
  have hlen : (writes.take m).length = m := by rw [List.length_take, Nat.min_eq_left hm]
  have hsplit := history_drop_split (h.accepted_take m).2.1 (Nat.zero_le n) (hn.trans_eq hlen.symm)
  rw [List.drop_zero, List.drop_zero, List.take_take, Nat.min_eq_left hn] at hsplit
  rw [hsplit, List.reverse_append, versionAt_append, versionAt_append, h.tables key snapshot hsnap,
    versionAt_memtableOf_reverse (history_pairwise hop hfew)]

theorem versionAt_eq (h : Recalls clock n db ts us horizon writes) (key : Bytes) {snapshot : Nat}
    (hsnap : horizon ≤ snapshot) :
    versionAt (stored db ts) key snapshot = versionAt (history 0 writes).reverse key snapshot := by
  have hall := h.versionAt_take h.le_length le_rfl key hsnap
  rw [List.take_length, ← h.memtable] at hall
  exact hall

theorem answer_eq (h : Recalls clock n db ts us horizon writes) (key : Bytes) {snapshot : Nat}
    (hsnap : horizon ≤ snapshot) :
    answer (versionAt (stored db ts) key snapshot) = lastWrite (writes.take snapshot) key := by
  have hfew : 0 + writes.length ≤ seqNumMax := (Nat.zero_add _).trans_le h.few
  rw [h.versionAt_eq key hsnap]
  exact answer_versionAt_history (newestFirst_reverse (history_pairwise h.accepted hfew))
    (fun e => List.mem_reverse) h.accepted h.noFlush h.few key snapshot

theorem write (h : Recalls clock n db ts us horizon writes) {op : Op} (hop : op.Accepted)
    (hwrite : op ≠ .flush) (hseq : db.seqNum < seqNumMax) :
    Recalls clock n (op.write db) ts us horizon (writes ++ [op]) := by
  obtain ⟨e, hentry⟩ : ∃ e, op.entry? (db.seqNum + 1) = some e :=
    Option.ne_none_iff_exists'.mp fun hnone => hwrite (entry?_eq_none hnone)
  have hlen : n + (writes.drop n).length = db.seqNum := by
    rw [List.length_drop, Nat.add_sub_cancel' h.le_length, h.seqNum]
  have hhistory : history n ((writes ++ [op]).drop n) = history n (writes.drop n) ++ [e] := by
    rw [List.drop_append_of_le_length h.le_length]
    exact history_concat (fun op ho => h.noFlush op (List.mem_of_mem_drop ho)) (hlen.symm ▸ hentry)
  have hlength : (writes ++ [op]).length = writes.length + 1 := by simp
  exact {
    toOrdered := h.toOrdered.write hseq hop
    relists := (Op.write_dir db op).symm ▸ h.relists
    accepted := by simpa [or_imp, forall_and] using ⟨h.accepted, hop⟩
    noFlush := by simpa [or_imp, forall_and] using ⟨h.noFlush, hwrite⟩
    few := by rw [hlength, ← h.seqNum]; exact hseq
    seqNum := by rw [Op.write_eq, hentry, hlength, h.seqNum]
    horizon_le := h.horizon_le
    le_length := hlength ▸ h.le_length.trans (Nat.le_succ _)
    memtable := by
      rw [Op.write_eq, hentry, hhistory, memtableOf, List.foldl_append, ← memtableOf, ← h.memtable]
      rfl
    old := h.old
    tables := by rw [List.take_append_of_le_length h.le_length]; exact h.tables }

/-- The last write is the newest version of its key, and so no merge drops it. -/
theorem exists_last (h : Recalls clock n db ts us horizon writes) (hpos : 0 < n) :
    ∃ e ∈ (layersOf ts).flatten, e.seqNum = n := by
  obtain ⟨hop, hwrite, hfew⟩ := h.accepted_take n
  have hlen : (writes.take n).length = n := by
    rw [List.length_take, Nat.min_eq_left h.le_length]
  have hne : writes.take n ≠ [] := List.ne_nil_of_length_pos (hlen.symm ▸ hpos)
  obtain ⟨e, he, hlast⟩ := exists_last_history hop hwrite (by omega) hne
  have hpairwise := history_pairwise hop hfew
  have hnewest : versionAt (history 0 (writes.take n)).reverse e.userKey seqNumMax = some e := by
    refine (newestFirst_reverse hpairwise).versionAt_eq_some_iff.mpr
      ⟨List.mem_reverse.mpr he, Entry.matchesAt_iff.mpr ⟨rfl, e.seqNum_le_seqNumMax⟩,
        fun b hb hmatch => not_lt.mp fun hlt => ?_⟩
    -- an older number cannot come before the highest one
    have hle := history_seqNum_le hop hfew b (List.mem_reverse.mp hb)
    have hge : e.seqNum ≤ b.seqNum :=
      InternalKey.seqNum_le_of_lt hlt (Entry.matchesAt_iff.mp hmatch).1
    have hnodup : ((history 0 (writes.take n)).map Entry.seqNum).Nodup :=
      List.pairwise_map.mpr (hpairwise.imp fun hlt => hlt.ne)
    have heq := List.inj_on_of_nodup_map hnodup (List.mem_reverse.mp hb) he (by omega)
    exact lt_irrefl _ (heq ▸ hlt)
  rw [← h.tables e.userKey seqNumMax (h.horizon_le.trans (h.le_length.trans h.few))] at hnewest
  exact ⟨e, versionAt_mem hnewest, hlast.trans hlen⟩

theorem versionAt_flush (h : Recalls clock n db ts us horizon writes) (hclock : StrictMono clock)
    {stat : Stat} (htidy : TidyFlush clock db stat) (key : Bytes) {snapshot : Nat}
    (hsnap : horizon ≤ snapshot) (hfloor : db.mergeFloor clock stat ≤ snapshot) :
    versionAt (layersOf (compactedTables clock stat (flushedDB clock db)
        (flushedTable clock h.toRepresents :: ts))).flatten key snapshot =
      versionAt (history 0 writes).reverse key snapshot := by
  have hflushed := h.toOrdered.flushedDB hclock
  have hbefore : versionAt (layersOf (flushedTable clock h.toRepresents :: ts)).flatten key
      snapshot = versionAt (history 0 writes).reverse key snapshot := h.versionAt_eq key hsnap
  have hafter : ∀ {s}, (flushedDB clock db).watermark.floor ≤ s →
      versionAt (layersOf (compactedTables clock stat (flushedDB clock db)
        (flushedTable clock h.toRepresents :: ts))).flatten key s =
      versionAt (layersOf (flushedTable clock h.toRepresents :: ts)).flatten key s :=
    fun hs => hflushed.versionAt_compactedDB hclock rfl htidy.recency key hs
  unfold DB.mergeFloor at hfloor
  split at hfloor
  · rename_i hno
    have hsame : compactedTables clock stat (flushedDB clock db)
        (flushedTable clock h.toRepresents :: ts) = flushedTable clock h.toRepresents :: ts :=
      (((hflushed.toRepresents.noMerge_iff stat).mp hno).result_eq _ (flushedDB clock db).dir).1
    rw [hsame, hbefore]
  · rcases min_le_iff.mp hfloor with hfloor | hseq
    · exact (hafter hfloor).trans hbefore
    · rcases le_total (flushedDB clock db).watermark.floor snapshot with hle | hle
      · exact (hafter hle).trans hbefore
      · -- nothing is numbered above the snapshot, so the floor shows what it shows
        have hold : ∀ e ∈ (layersOf (flushedTable clock h.toRepresents :: ts)).flatten,
            e.seqNum ≤ db.seqNum := h.bounded
        rw [versionAt_of_bounded (fun e he => hold e (hflushed.mem_compactedTables hclock he))
          key hseq (hseq.trans hle), hafter le_rfl,
          versionAt_of_bounded hold key (hseq.trans hle) hseq, hbefore]

theorem flush (h : Recalls clock n db ts us horizon writes) (hclock : StrictMono clock)
    {stat : Stat} (htidy : TidyFlush clock db stat) :
    ∃ ts' us', Recalls clock writes.length (db.flushMemtableLocked (healthy clock stat)).1 ts' us'
      (max horizon (db.mergeFloor clock stat)) writes := by
  obtain ⟨us', hrelists⟩ := h.toOrdered.relists_flush hclock h.relists htidy
  have hflushed := h.toOrdered.flushedDB hclock
  have hfloor : db.mergeFloor clock stat ≤ writes.length := by
    unfold DB.mergeFloor
    split
    · exact Nat.zero_le _
    · exact (min_le_right _ _).trans_eq h.seqNum
  rw [h.toOrdered.flush_eq hclock stat]
  exact ⟨_, us', {
    toOrdered := hflushed.compactedDB hclock rfl htidy.recency
    relists := hrelists
    accepted := h.accepted
    noFlush := h.noFlush
    few := h.few
    seqNum := h.seqNum
    horizon_le := max_le (h.horizon_le.trans h.le_length) hfloor
    le_length := le_rfl
    memtable := by
      rw [List.drop_length]
      rfl
    old := fun e he => (h.bounded e (hflushed.mem_compactedTables hclock he)).trans_eq h.seqNum
    tables := fun key snapshot hsnap => by
      rw [List.take_length]
      exact h.versionAt_flush hclock htidy key ((le_max_left _ _).trans hsnap)
        ((le_max_right _ _).trans hsnap) }⟩

theorem seqNum_reopened (h : Recalls clock n db ts us horizon writes) (hn : n ≤ m)
    (hm : m ≤ writes.length) (ticks : Nat) :
    (reopened us (history n ((writes.take m).drop n)) db.dir ticks).seqNum = m := by
  obtain ⟨hop, hfew⟩ := h.accepted_drop hn hm
  have hlen : n + ((writes.take m).drop n).length = m := by
    rw [List.length_drop, List.length_take, Nat.min_eq_left hm, Nat.add_sub_cancel' hn]
  apply le_antisymm
  · refine max_le (maxSeqNumOf_le (Nat.zero_le _) fun e he => ?_)
      (maxSeqNumOf_le (Nat.zero_le _) fun e he => ?_)
    · exact (history_seqNum_le hop hfew e he).trans_eq hlen
    · exact (h.old e ((h.relists.mem_layers e).mp he)).trans hn
  · rcases Nat.eq_zero_or_pos m with rfl | hpos
    · exact Nat.zero_le _
    · rcases hn.eq_or_lt with rfl | hlt
      · obtain ⟨e, he, hlast⟩ := h.exists_last hpos
        have hmax := (le_maxSeqNumOf 0 (layersOf us).flatten).2 e
          ((h.relists.mem_layers e).mpr he)
        exact hlast.ge.trans (hmax.trans (le_max_right _ _))
      · -- the last of the writes is in the log
        obtain ⟨hop', hwrite, hfew'⟩ := h.accepted_take m
        have htake : (writes.take m).length = m := by rw [List.length_take, Nat.min_eq_left hm]
        have hne : writes.take m ≠ [] := List.ne_nil_of_length_pos (htake.symm ▸ hpos)
        obtain ⟨e, he, hlast⟩ := exists_last_history hop' hwrite (by omega) hne
        have hsplit := history_drop_split hwrite (Nat.zero_le n) (hn.trans_eq htake.symm)
        rw [List.drop_zero, List.drop_zero, List.take_take, Nat.min_eq_left hn] at hsplit
        rw [hsplit, List.mem_append] at he
        rcases he with he | he
        · have hle := history_seqNum_le (h.accepted_take n).1 (h.accepted_take n).2.2 e he
          rw [List.length_take, Nat.min_eq_left h.le_length] at hle
          omega
        · exact (hlast.trans htake).ge.trans
            (((le_maxSeqNumOf 0 _).2 e he).trans (le_max_left _ _))

theorem reopened_take (h : Recalls clock n db ts us horizon writes) (hn : n ≤ m)
    (hm : m ≤ writes.length) {ticks : Nat} (hticks : db.ticks ≤ ticks) :
    Recalls clock n (reopened us (history n ((writes.take m).drop n)) db.dir ticks) us us horizon
      (writes.take m) := by
  obtain ⟨hop, hwrite, hfew⟩ := h.accepted_take m
  obtain ⟨hop', hfew'⟩ := h.accepted_drop hn hm
  have hlen : (writes.take m).length = m := by rw [List.length_take, Nat.min_eq_left hm]
  have hrec := history_recorded hop' hfew'
  have hmemtable := mem_memtableOf (history_pairwise hop' hfew')
  have hold : ∀ e ∈ (layersOf us).flatten, e.seqNum ≤ n :=
    fun e he => h.old e ((h.relists.mem_layers e).mp he)
  have hnewest : NewestFirst
      (stored (reopened us (history n ((writes.take m).drop n)) db.dir ticks) us) := by
    refine List.pairwise_append.mpr ⟨newestFirst_of_sorted (memtableOf _).sorted,
      h.relists.newestFirst, fun a ha b hb huser => ?_⟩
    refine (InternalKey.lt_iff_seqNum _ _).mpr (Or.inr ⟨huser, Or.inl ?_⟩)
    exact (hold b hb).trans_lt (hrec a ((hmemtable a).mp ha)).after
  have hrelisted := h.toRepresents.relist h.relists.perm
  exact {
    sstables := rfl
    held := hrelisted.held
    nodup := hrelisted.nodup
    stamped := fun name hname => (h.stamped name hname).imp fun _ hi => ⟨hi.1.trans_le hticks, hi.2⟩
    wellFormed := fun e he => (hrec e ((hmemtable e).mp he)).wellFormed
    newestFirst := hnewest
    bounded := fun e he => by
      rcases List.mem_append.mp he with he | he
      · exact ((le_maxSeqNumOf 0 _).2 e (mem_of_mem_memtableOf he)).trans (le_max_left _ _)
      · exact ((le_maxSeqNumOf 0 _).2 e he).trans (le_max_right _ _)
    relists := ⟨h.relists.listed, List.Perm.refl _, h.relists.newestFirst⟩
    accepted := hop
    noFlush := hwrite
    few := (Nat.zero_add _).ge.trans hfew
    seqNum := (h.seqNum_reopened hn hm ticks).trans hlen.symm
    horizon_le := h.horizon_le
    le_length := hn.trans_eq hlen.symm
    memtable := rfl
    old := hold
    tables := fun key snapshot hsnap => by
      rw [h.relists.versionAt_eq h.layers_newestFirst, h.tables key snapshot hsnap, List.take_take,
        Nat.min_eq_left hn] }

theorem relists_flushedDB (h : Recalls clock n db ts us horizon writes) (hclock : StrictMono clock)
    (hstamp : ∀ i ≤ db.ticks, Stamp (clock i)) (hroom : (stored db ts).length < 2 ^ 32) :
    Relists (flushedDB clock db).dir (flushedTable clock h.toRepresents :: ts)
      (flushedTable clock h.toRepresents :: us) where
  listed := by
    have hcount : db.memtable.tree.length < 2 ^ 32 :=
      (List.sublist_append_left _ _).length_le.trans_lt hroom
    exact @listed_flushedDB _ clock { db with sstables := us.map Table.sst } us h.relists.listed
      (h.toRepresents.relist h.relists.perm) hclock hstamp (Table.countable_of_length_lt hcount)
  perm := h.relists.perm.cons _
  newestFirst := by
    have hnewest := (h.reopened_take h.le_length le_rfl le_rfl).newestFirst
    rw [List.take_length, stored, reopened, ← h.memtable] at hnewest
    exact hnewest

theorem flushedDB (h : Recalls clock n db ts us horizon writes) (hclock : StrictMono clock)
    (hstamp : ∀ i ≤ db.ticks, Stamp (clock i)) (hroom : (stored db ts).length < 2 ^ 32) :
    Recalls clock writes.length (flushedDB clock db) (flushedTable clock h.toRepresents :: ts)
      (flushedTable clock h.toRepresents :: us) horizon writes where
  toOrdered := h.toOrdered.flushedDB hclock
  relists := h.relists_flushedDB hclock hstamp hroom
  accepted := h.accepted
  noFlush := h.noFlush
  few := h.few
  seqNum := h.seqNum
  horizon_le := h.horizon_le.trans h.le_length
  le_length := le_rfl
  memtable := by
    rw [List.drop_length]
    rfl
  old e he := (h.bounded e he).trans_eq h.seqNum
  tables key snapshot hsnap := by
    rw [List.take_length]
    exact h.versionAt_eq key hsnap

theorem tidyFlush (h : Recalls clock n db ts us horizon writes) (hclock : StrictMono clock)
    {stat : Stat} (hcalm : (Db.flushedDB clock db).NoMerge stat)
    (hstamp : ∀ i ≤ db.ticks + db.sstables.length + 1, Stamp (clock i))
    (hroom : (stored db ts).length < 2 ^ 32) : TidyFlush clock db stat := by
  have hflushed := h.toOrdered.flushedDB hclock
  have hno : NoMerge ((healthy clock stat).compaction (Db.flushedDB clock db)).stat
      (flushedTable clock h.toRepresents :: ts) := (hflushed.toRepresents.noMerge_iff stat).mp hcalm
  obtain ⟨htables, hdir⟩ :=
    hno.result_eq (Db.flushedDB clock db).watermark.floor (Db.flushedDB clock db).dir
  have hafter : (db.flushMemtableLocked (healthy clock stat)).1.dir =
      (Db.flushedDB clock db).dir := by
    rw [h.toOrdered.flush_eq hclock stat]
    exact hdir
  have hrelists := h.relists_flushedDB hclock
    (fun i hi => hstamp i (le_add_right (le_add_right hi))) hroom
  refine ⟨?_, fun ssts hopen => ?_, hstamp, ?_⟩
  · rw [hflushed.recencyKept_iff hclock, compactedTables, htables]
    exact hflushed.layers_newestFirst
  · rw [hafter, hrelists.listed.openAllInDir_eq] at hopen
    rw [hafter, ← Except.ok.inj hopen, layers_of_listed hrelists.listed]
    exact hrelists.newestFirst
  · rw [hflushed.layers_eq]
    exact hroom

end Recalls

end Recalls

section Lives

variable [Runtime]

/-- The database holds the writes of the ledger, the first `n` of them in tables and the
others in the memtable and the log; the fsynced part of the log reaches to the safe ones. -/
structure Kept (clock : Nat → Nat) (n : Nat) (db : DB) (fsynced : Nat) (ts us : List Table)
    (l : Ledger) : Prop extends Recalls clock n db ts us l.horizon l.writes where
  flushed : n ≤ l.safe
  safe_le : l.safe ≤ l.writes.length
  log : db.wal.writer.stream = encodeRecords (history n (l.writes.drop n))
  covered : (encodeRecords (history n ((l.writes.take l.safe).drop n))).length ≤ fsynced
  reached : fsynced ≤ db.wal.writer.file.length
  counter : db.wal.putCounter = l.counter

/-- What is left on the disk opens as a database with the writes of the ledger. -/
structure Left (clock : Nat → Nat) (n : Nat) (disk : Disk) (us : List Table) (l : Ledger) :
    Prop where
  opens : openDB disk.log disk.dir disk.ticks =
    .ok (reopened us (history n (l.writes.drop n)) disk.dir disk.ticks)
  recalls : Recalls clock n (reopened us (history n (l.writes.drop n)) disk.dir disk.ticks) us us
    l.horizon l.writes
  flushed : n ≤ l.safe
  safe_le : l.safe ≤ l.writes.length
  covered : (encodeRecords (history n ((l.writes.take l.safe).drop n))).length ≤ disk.fsynced

/-- The state holds what the ledger says. -/
def Life.Shows (clock : Nat → Nat) : Life → Ledger → Prop
  | .running db fsynced _, l => l.up = true ∧ ∃ n ts us, Kept clock n db fsynced ts us l
  | .down disk, l => l.up = false ∧ ∃ n us, Left clock n disk us l

theorem kept_start (clock : Nat → Nat) : Life.start.Shows clock Ledger.start :=
  ⟨rfl, 0, [], [],
    { toRecalls := recalls_emptyDB clock
      flushed := le_rfl
      safe_le := le_rfl
      log := rfl
      covered := le_rfl
      reached := le_rfl
      counter := rfl }⟩

variable {clock : Nat → Nat} {n : Nat} {db : DB} {fsynced : Nat} {ts us : List Table} {l : Ledger}

/-- A first part of the log that holds the records of the first `safe` writes is opened as
those and some of the others. -/
theorem Kept.left (h : Kept clock n db fsynced ts us l) {safe : Nat} (hflushed : n ≤ safe)
    (hsafe : safe ≤ l.writes.length) (disk : Disk) (hdir : disk.dir = db.dir)
    (hticks : db.ticks ≤ disk.ticks) (hlog : disk.log <+: db.wal.writer.stream)
    (hfsynced : disk.fsynced ≤ disk.log.length)
    (hcovered : (encodeRecords (history n ((l.writes.take safe).drop n))).length ≤ disk.fsynced) :
    ∃ m, safe ≤ m ∧ m ≤ l.writes.length ∧
      Left clock n disk us { l with writes := l.writes.take m, safe, up := false } := by
  obtain ⟨log, fsynced', dir, ticks, leftover⟩ := disk
  obtain rfl : dir = db.dir := hdir
  have hn := hflushed.trans hsafe
  obtain ⟨hop, hfew⟩ := h.accepted_drop hn le_rfl
  rw [List.take_length] at hop hfew
  have hrec := history_recorded hop hfew
  have hwhole := wholeWithin_history log.length n (l.writes.drop n)
  have hcut : survivingOps log.length (l.writes.drop n) =
      (l.writes.take (n + (survivingOps log.length (l.writes.drop n)).length)).drop n := by
    rw [List.drop_take, Nat.add_sub_cancel_left]
    exact List.prefix_iff_eq_take.mp (survivingOps_initial log.length (l.writes.drop n))
  have hsurvive := (survivingOps_initial log.length (l.writes.drop n)).length_le
  rw [List.length_drop] at hsurvive
  have hle : n + (survivingOps log.length (l.writes.drop n)).length ≤ l.writes.length := by omega
  have hkept : safe ≤ n + (survivingOps log.length (l.writes.drop n)).length := by
    have hsub := length_le_wholeWithin (history safe (l.writes.drop safe))
      (hcovered.trans hfsynced)
    rw [← history_drop_split h.noFlush hflushed hsafe, hwhole,
      history_length fun op ho => h.noFlush op (List.mem_of_mem_take (List.mem_of_mem_drop ho)),
      List.length_drop, List.length_take, Nat.min_eq_left hsafe] at hsub
    have := hsub.trans (history_length_le _ _)
    omega
  refine ⟨_, hkept, hle, ?_, ?_, hflushed, ?_, ?_⟩
  · have htake : log = (encodeRecords (history n (l.writes.drop n))).take log.length :=
      h.log ▸ List.prefix_iff_eq_take.mp hlog
    dsimp only
    rw [← hcut, ← hwhole]
    nth_rewrite 1 [htake]
    exact openDB_eq h.relists.listed (fun e he => loggable_of_wellFormed (hrec e he).wellFormed)
      (fun e he => (hrec e he).tombstone) _ _
  · exact h.toRecalls.reopened_take (hflushed.trans hkept) hle hticks
  · exact hkept.trans_eq (by rw [List.length_take, Nat.min_eq_left hle])
  · dsimp only
    rw [List.take_take, Nat.min_eq_left hkept]
    exact hcovered

theorem Left.kept {disk : Disk} (h : Left clock n disk us l)
    (hopen : openDB disk.log disk.dir disk.ticks = .ok db) :
    Kept clock n db (min disk.fsynced db.wal.writer.file.length) us us
      { l with counter := 0, up := true } := by
  obtain rfl : reopened us (history n (l.writes.drop n)) disk.dir disk.ticks = db :=
    Except.ok.inj (h.opens.symm.trans hopen)
  have hpart : (encodeRecords (history n ((l.writes.take l.safe).drop n))).length ≤
      (encodeRecords (history n (l.writes.drop n))).length := by
    rw [history_drop_split h.recalls.noFlush h.flushed h.safe_le, encodeRecords, encodeRecords,
      List.flatMap_append, List.length_append]
    exact Nat.le_add_right _ _
  exact { h.recalls with
    flushed := h.flushed
    safe_le := h.safe_le
    log := List.append_nil _
    covered := le_min h.covered hpart
    reached := min_le_right _ _
    counter := rfl }

theorem fsyncedBy_eq (db : DB) (fsynced : Nat) {op : Op} (h : op ≠ .flush) :
    fsyncedBy db fsynced op =
      if Config.defaultSyncThreshold ≤ db.wal.putCounter + 1 then
        (op.write db).wal.writer.file.length
      else fsynced := by
  cases op with
  | put key value => rfl
  | delete key => rfl
  | flush => exact absurd rfl h

theorem Kept.write (h : Kept clock n db fsynced ts us l) {op : Op} (hop : op.Accepted)
    (hseq : db.seqNum < seqNumMax) :
    Kept clock n (op.write db) (fsyncedBy db fsynced op) ts us (l.write op) := by
  by_cases hflush : op = .flush
  · subst hflush
    exact h
  obtain ⟨e, hentry⟩ : ∃ e, op.entry? (db.seqNum + 1) = some e :=
    Option.ne_none_iff_exists'.mp fun hnone => hflush (entry?_eq_none hnone)
  have hwrites := l.writes_write hflush
  have hn := h.flushed.trans h.safe_le
  -- the record goes behind the records of the writes since the last flush
  have hhistory : history n ((l.write op).writes.drop n) = history n (l.writes.drop n) ++ [e] := by
    have hlen : n + (l.writes.drop n).length = db.seqNum := by
      rw [List.length_drop, Nat.add_sub_cancel' hn, h.seqNum]
    rw [hwrites, List.drop_append_of_le_length hn]
    exact history_concat (fun op ho => h.noFlush op (List.mem_of_mem_drop ho)) (hlen.symm ▸ hentry)
  have hwal : (op.write db).wal = db.wal.write e := by rw [Op.write_eq, hentry]
  have hlog : (op.write db).wal.writer.stream =
      encodeRecords (history n ((l.write op).writes.drop n)) := by
    rw [hwal, WAL.stream_write, h.log, hhistory, encodeRecords, encodeRecords,
      List.flatMap_append, List.flatMap_singleton]
  have hrecalls : Recalls clock n (op.write db) ts us (l.write op).horizon (l.write op).writes := by
    rw [hwrites, l.horizon_write op]
    exact h.toRecalls.write hop hflush hseq
  obtain ⟨hgrows, hle⟩ := l.safe_write h.safe_le op
  rw [fsyncedBy_eq db fsynced hflush, h.counter]
  by_cases hfull : Config.defaultSyncThreshold ≤ l.counter + 1
  · -- the count is complete: the file is the stream, and all of it is fsynced
    have hsynced := WAL.write_synced e (h.counter.symm ▸ hfull)
    have hfile : (op.write db).wal.writer.file =
        encodeRecords (history n ((l.write op).writes.drop n)) := by
      rw [← hlog, hwal, hsynced]
      exact (List.append_nil _).symm
    have hsafe : (l.write op).safe = (l.write op).writes.length := by
      rw [hwrites, List.length_append, List.length_singleton, l.write_eq hflush, if_pos hfull]
    rw [if_pos hfull]
    exact { hrecalls with
      flushed := h.flushed.trans hgrows
      safe_le := hle
      log := hlog
      covered := by rw [hsafe, List.take_length, hfile]
      reached := le_rfl
      counter := by rw [hwal, hsynced, l.write_eq hflush, if_pos hfull] }
  · have hcounting := WAL.write_of_counting e (h.counter.symm ▸ not_le.mp hfull)
    have hfile : db.wal.writer.file <+: (op.write db).wal.writer.file := by
      rw [hwal, hcounting]
      exact WAL.file_prefix_append db.wal e
    have hsafe : (l.write op).safe = l.safe := by rw [l.write_eq hflush, if_neg hfull]
    rw [if_neg hfull]
    exact { hrecalls with
      flushed := h.flushed.trans hgrows
      safe_le := hle
      log := hlog
      covered := by
        rw [hsafe, hwrites, List.take_append_of_le_length h.safe_le]
        exact h.covered
      reached := h.reached.trans hfile.length_le
      counter := by rw [hwal, hcounting, h.counter, l.write_eq hflush, if_neg hfull] }

theorem Kept.withWatermark (h : Kept clock n db fsynced ts us l) (w : Watermark) :
    Kept clock n { db with watermark := w } fsynced ts us l :=
  { h with memtable := h.memtable }

theorem Kept.flush (h : Kept clock n db fsynced ts us l) (hclock : StrictMono clock) {stat : Stat}
    (htidy : TidyFlush clock db stat) :
    ∃ ts' us', Kept clock l.writes.length (db.flushMemtableLocked (healthy clock stat)).1
      (min fsynced (db.flushMemtableLocked (healthy clock stat)).1.wal.writer.file.length) ts' us'
      { l with
        safe := l.writes.length, horizon := max l.horizon (db.mergeFloor clock stat) } := by
  obtain ⟨ts', us', hrecalls⟩ := h.toRecalls.flush hclock htidy
  have hwal : (db.flushMemtableLocked (healthy clock stat)).1.wal = (flushedDB clock db).wal := by
    rw [flushMemtableLocked_healthy]
    exact ((flushedDB clock db).compactTables_frame _).1
  refine ⟨ts', us', { hrecalls with
    flushed := le_rfl
    safe_le := le_rfl
    log := ?_
    covered := ?_
    reached := min_le_right _ _
    counter := ?_ }⟩
  · rw [hwal, List.drop_length]
    rfl
  · rw [List.take_length, List.drop_length]
    exact Nat.zero_le _
  · rw [hwal]
    exact h.counter

theorem Kept.close (h : Kept clock n db fsynced ts us l) :
    Left clock n (db.close.leaves db.close.wal.writer.file.length db.close.wal.writer.file) us
      { l with safe := l.writes.length, up := false } := by
  have hstream : db.close.wal.writer.file = db.wal.writer.stream := rfl
  obtain ⟨m, hm, hle, hleft⟩ := h.left (h.flushed.trans h.safe_le) le_rfl
    (db.close.leaves db.close.wal.writer.file.length db.close.wal.writer.file) rfl le_rfl
    (List.prefix_refl _) (min_le_right _ _) (by
      rw [List.take_length, ← h.log, ← hstream]
      exact (min_self _).ge)
  rwa [List.take_of_length_le hm] at hleft

theorem Kept.kill (h : Kept clock n db fsynced ts us l) {op : Op} (hop : op.Accepted)
    (hseq : db.seqNum < seqNumMax) {log : Bytes} (hlog : log <+: (op.write db).wal.writer.stream)
    (hfsynced : fsynced ≤ log.length) :
    ∃ m, l.safe ≤ m ∧ m ≤ (l.write op).writes.length ∧
      Left clock n (db.leaves fsynced log) us
        { l with writes := (l.write op).writes.take m, up := false } := by
  have hwrite := h.write hop hseq
  have hsafe := h.safe_le.trans (l.writes_initial op).length_le
  have htake : (l.write op).writes.take l.safe = l.writes.take l.safe := by
    obtain ⟨more, hmore⟩ := l.writes_initial op
    rw [← hmore, List.take_append_of_le_length h.safe_le]
  obtain ⟨m, hm, hle, hleft⟩ := hwrite.left h.flushed hsafe (db.leaves fsynced log)
    (Op.write_dir db op).symm (Op.write_ticks db op).le hlog (min_le_right _ _) (by
      rw [htake]
      exact le_min h.covered (h.covered.trans hfsynced))
  exact ⟨m, hm, hle, { hleft with recalls := l.horizon_write op ▸ hleft.recalls }⟩

/-- A flush that ends after it has emptied the log and before it has merged any tables. -/
structure SettledFlush (clock : Nat → Nat) (db : DB) (env : Env) : Prop where
  installs : env.installs
  resets : env.resets
  stops : ∃ e, (db.flushMemtableLocked env).2 = .error e
  dir : (db.flushMemtableLocked env).1.dir = (flushedDB clock db).dir
  stamp : ∀ i ≤ db.ticks, Stamp (clock i)
  room : (flushedDB clock db).layers.flatten.length < 2 ^ 32

/-- It leaves the database that the flush has made, but for the readings of the clock. -/
theorem SettledFlush.eq {env : Env} (h : SettledFlush clock db env) (henv : env.clock = clock) :
    ∃ ticks ≥ (flushedDB clock db).ticks,
      (db.flushMemtableLocked env).1 = { flushedDB clock db with ticks } := by
  obtain ⟨e, hstops⟩ := h.stops
  have hdir := h.dir
  rw [db.flushMemtableLocked_resets h.installs h.resets, henv] at hstops hdir ⊢
  unfold DB.compactTables at hstops hdir ⊢
  rcases hcompact : compact (env.compaction (flushedDB clock db)) (flushedDB clock db).dir
    (flushedDB clock db).sstables (flushedDB clock db).watermark.floor with ⟨dir, e' | ssts⟩
  · rw [hcompact] at hdir
    refine ⟨_, Nat.le_add_right _ (flushedDB clock db).sstables.length, ?_⟩
    simp only at hdir ⊢
    rw [hdir]
  · rw [hcompact] at hstops
    simp at hstops

theorem Kept.settled (h : Kept clock n db fsynced ts us l) (hclock : StrictMono clock) {env : Env}
    (henv : env.clock = clock) (hsettled : SettledFlush clock db env) :
    ∃ ts' us', Kept clock l.writes.length (db.flushMemtableLocked env).1
      (min fsynced (db.flushMemtableLocked env).1.wal.writer.file.length) ts' us'
      { l with safe := l.writes.length } := by
  have hroom : (stored db ts).length < 2 ^ 32 := by
    have hroom := hsettled.room
    rwa [(h.toOrdered.flushedDB hclock).layers_eq] at hroom
  have hrecalls := h.toRecalls.flushedDB hclock hsettled.stamp hroom
  obtain ⟨ticks, hticks, heq⟩ := hsettled.eq henv
  rw [heq]
  exact ⟨_, _, {
    hrecalls with
    stamped := fun name hname =>
      (hrecalls.stamped name hname).imp fun _ hi => ⟨hi.1.trans_le hticks, hi.2⟩
    flushed := le_rfl
    safe_le := le_rfl
    log := by
      rw [List.drop_length]
      rfl
    covered := by
      rw [List.take_length, List.drop_length]
      exact Nat.zero_le _
    reached := min_le_right _ _
    counter := h.counter }⟩

theorem flush_of_flushWrite {env : Env} (hfails : env.fails .flushWrite = true) (db : DB) :
    db.flushMemtableLocked env = ({ db with ticks := db.ticks + 1 }, .error (.io .flushWrite)) := by
  simp only [DB.flushMemtableLocked, DB.flushTable, hfails, if_true]

theorem Kept.flushFails (h : Kept clock n db fsynced ts us l) :
    Kept clock n { db with ticks := db.ticks + 1 }
      (min fsynced db.wal.writer.file.length) ts us l :=
  { h with
    stamped := fun name hname =>
      (h.stamped name hname).imp fun _ hi => ⟨hi.1.trans (Nat.lt_succ_self _), hi.2⟩
    memtable := h.memtable
    covered := le_min h.covered (h.covered.trans h.reached)
    reached := min_le_right _ _ }

/-- A kill before the table is in place may leave a part of it. -/
theorem Kept.killFlushing (h : Kept clock n db fsynced ts us l) {log : Bytes}
    (hlog : log <+: db.wal.writer.stream) (hfsynced : fsynced ≤ log.length)
    (leftover : Option (Bytes × Bytes)) :
    ∃ m, l.safe ≤ m ∧ m ≤ l.writes.length ∧
      Left clock n { { db with ticks := db.ticks + 1 }.leaves fsynced log with leftover } us
        { l with writes := l.writes.take m, up := false } :=
  h.left h.flushed h.safe_le _ rfl (Nat.le_succ _) hlog (min_le_right _ _)
    (le_min h.covered (h.covered.trans hfsynced))

/-- With all writes in tables and the log truncated nothing can be lost any more. -/
theorem Kept.killFlushed (h : Kept clock n db fsynced ts us l) (hall : n = l.writes.length)
    (leftover : Option (Bytes × Bytes)) (fsynced' : Nat) :
    Left clock n { db.leaves fsynced' [] with leftover } us { l with up := false } := by
  have hsafe : l.safe = l.writes.length := le_antisymm h.safe_le (hall ▸ h.flushed)
  obtain ⟨m, hm, hle, hleft⟩ := h.left h.flushed h.safe_le
    { db.leaves fsynced' [] with leftover } rfl le_rfl List.nil_prefix (min_le_right _ _) (by
      rw [hsafe, List.take_length, hall, List.drop_length]
      exact Nat.zero_le _)
  rwa [List.take_of_length_le (hsafe ▸ hm)] at hleft

/-- What is assumed of a step: numbers are left, merges keep recency, and a kill leaves what
is fsynced.  A flush that fails or is killed has not put its table in place or has emptied
the log, and it has merged nothing or all.  What it has left of a table is deleted before
the next `Open`. -/
def Orderly (clock : Nat → Nat) : Life → LifeEvent → Prop
  | .running db _ _, .write _ => db.seqNum < seqNumMax
  | .running db _ _, .flush stat => TidyFlush clock db stat
  | .running db _ _, .flushFails env => env.fails .flushWrite = true ∨ SettledFlush clock db env
  | .running db fsynced _, .kill _ log => db.seqNum < seqNumMax ∧ fsynced ≤ log.length
  | .running db fsynced _, .killFlushing env log _ =>
      (env.fails .flushWrite = true ∧ fsynced ≤ log.length) ∨
        (log = [] ∧ (SettledFlush clock db env ∨
          ∃ stat, env = healthy clock stat ∧ TidyFlush clock db stat))
  | .down disk, .restart => disk.leftover = none
  | _, _ => True

/-- Up to which snapshot the flush may lose what can be seen: if it fails it has not merged. -/
def DB.flushFloor (clock : Nat → Nat) (env : Env) (db : DB) : Nat :=
  match (db.flushMemtableLocked env).2 with
  | .ok () => db.mergeFloor clock env.stat
  | .error _ => 0

/-- Up to which snapshot the event may lose what can be seen. -/
def Life.mergeFloor (clock : Nat → Nat) : Life → LifeEvent → Nat
  | .running db _ _, .flush stat => db.mergeFloor clock stat
  | .running db _ _, .killFlushing env _ _ => db.flushFloor clock env
  | _, _ => 0

theorem DB.flushFloor_of_error {env : Env} {e : DbErr}
    (h : (db.flushMemtableLocked env).2 = .error e) : db.flushFloor clock env = 0 := by
  rw [flushFloor, h]

/-- The steps that are assumed, seen by their events. -/
inductive LifeRun (clock : Nat → Nat) : Life → Option (LifeEvent × Nat) → Life → Prop
  | step {s s' : Life} {event : LifeEvent} : Orderly clock s event → LifeStep clock s event s' →
      LifeRun clock s (some (event, s.mergeFloor clock event)) s'

theorem Life.Shows.flushFails (h : (Life.running db fsynced true).Shows clock l)
    (hclock : StrictMono clock) {env : Env} (henv : env.clock = clock)
    (hmay : env.fails .flushWrite = true ∨ SettledFlush clock db env) :
    ∃ l', LedgerStep l (some ((LifeEvent.flushFails env).view 0)) l' ∧
      (Life.running (db.flushMemtableLocked env).1
        (min fsynced (db.flushMemtableLocked env).1.wal.writer.file.length) false).Shows clock
        l' := by
  obtain ⟨hup, n, ts, us, h⟩ := h
  rcases hmay with hfails | hsettled
  · have hview : (LifeEvent.flushFails env).view 0 = .other := if_pos hfails
    rw [hview, flush_of_flushWrite hfails]
    exact ⟨l, .other, hup, n, ts, us, h.flushFails⟩
  · have hview : (LifeEvent.flushFails env).view 0 = .flush 0 :=
      if_neg (by simp [hsettled.installs.1])
    obtain ⟨ts', us', hsettled'⟩ := h.settled hclock henv hsettled
    have hflush : LedgerStep l (some (.flush 0))
        { l with safe := l.writes.length, horizon := max l.horizon 0 } := .flush hup
    rw [Nat.max_zero] at hflush
    rw [hview]
    exact ⟨_, hflush, hup, _, ts', us', hsettled'⟩

theorem Life.Shows.killFlushing (h : (Life.running db fsynced true).Shows clock l)
    (hclock : StrictMono clock) {env : Env} (henv : env.clock = clock) {log : Bytes}
    (hlog : log <+: db.wal.writer.stream)
    (hmay : (env.fails .flushWrite = true ∧ fsynced ≤ log.length) ∨
      (log = [] ∧ (SettledFlush clock db env ∨
        ∃ stat, env = healthy clock stat ∧ TidyFlush clock db stat)))
    (leftover : Option (Bytes × Bytes)) :
    ∃ l', LedgerStep l (some (.crash .flush (db.flushFloor clock env))) l' ∧
      (Life.down { (db.flushMemtableLocked env).1.leaves fsynced log with leftover }).Shows clock
        l' := by
  obtain ⟨hup, n, ts, us, h⟩ := h
  rcases hmay with ⟨hfails, hfsynced⟩ | ⟨rfl, hsettled | ⟨stat, rfl, htidy⟩⟩
  · have hstop := flush_of_flushWrite hfails db
    obtain ⟨m, hm, hle, hleft⟩ := h.killFlushing hlog hfsynced leftover
    rw [DB.flushFloor_of_error (congrArg Prod.snd hstop), hstop]
    exact ⟨_, .crash_plain hup hm hle, rfl, n, us, hleft⟩
  · obtain ⟨e, hstops⟩ := hsettled.stops
    obtain ⟨ts', us', hsettled'⟩ := h.settled hclock henv hsettled
    have hcrash := LedgerStep.crash_all hup h.safe_le 0
    rw [Nat.max_zero] at hcrash
    rw [DB.flushFloor_of_error hstops]
    exact ⟨_, hcrash, rfl, _, us', hsettled'.killFlushed rfl leftover fsynced⟩
  · obtain ⟨ts', us', hflush⟩ := h.flush hclock htidy
    have hfloor : db.flushFloor clock (healthy clock stat) = db.mergeFloor clock stat := by
      rw [DB.flushFloor, h.toOrdered.flush_eq hclock stat]
      rfl
    rw [hfloor]
    exact ⟨_, .crash_all hup h.safe_le _, rfl, _, us', hflush.killFlushed rfl leftover fsynced⟩

/-- Every step of a life is one of its ledger. -/
theorem Life.Shows.step (hclock : StrictMono clock) {s s' : Life} {event : LifeEvent}
    {l : Ledger} (h : s.Shows clock l) (hmay : Orderly clock s event)
    (hstep : LifeStep clock s event s') :
    ∃ l', LedgerStep l (some (event.view (s.mergeFloor clock event))) l' ∧ s'.Shows clock l' := by
  cases hstep with
  | write hop =>
      obtain ⟨hup, n, ts, us, h⟩ := h
      exact ⟨_, .write hup, (l.up_write _).trans hup, n, ts, us, h.write hop hmay⟩
  | flush =>
      obtain ⟨hup, n, ts, us, h⟩ := h
      obtain ⟨ts', us', hflush⟩ := h.flush hclock hmay
      exact ⟨_, .flush hup, hup, _, ts', us', hflush⟩
  | flushFails henv _ _ => exact h.flushFails hclock henv hmay
  | getSnapshot =>
      obtain ⟨hup, n, ts, us, h⟩ := h
      exact ⟨_, .other, hup, n, ts, us, h.withWatermark _⟩
  | releaseSnapshot =>
      obtain ⟨hup, n, ts, us, h⟩ := h
      exact ⟨_, .other, hup, n, ts, us, h.withWatermark _⟩
  | close =>
      obtain ⟨hup, n, ts, us, h⟩ := h
      exact ⟨_, .close hup, rfl, n, us, h.close⟩
  | kill hop hlog =>
      obtain ⟨hup, n, ts, us, h⟩ := h
      obtain ⟨m, hm, hle, hleft⟩ := h.kill hop hmay.1 hlog hmay.2
      exact ⟨_, .crash_plain hup hm hle, rfl, n, us, hleft⟩
  | killFlushing henv hlog => exact h.killFlushing hclock henv hlog hmay _
  | sweep =>
      obtain ⟨hdown, n, us, h⟩ := h
      exact ⟨l, .other, hdown, n, us, h.opens, h.recalls, h.flushed, h.safe_le, h.covered⟩
  | @restart disk db hopen =>
      obtain ⟨hdown, n, us, h⟩ := h
      have hfiles : disk.files = disk.dir := by rw [Disk.files, hmay]
      rw [hfiles] at hopen
      exact ⟨_, .restart hdown, rfl, n, us, us, h.kept hopen⟩

/-- The events of a run, as those of its ledger. -/
def ledgerEvent (label : LifeEvent × Nat) : LedgerEvent := label.1.view label.2

theorem Life.Shows.run (hclock : StrictMono clock) {s s' : Life} {l : Ledger}
    (h : s.Shows clock l) {labels : List (LifeEvent × Nat)}
    (hrun : Traces (LifeRun clock) s labels s') :
    ∃ l', Traces LedgerStep l (labels.map ledgerEvent) l' ∧ s'.Shows clock l' := by
  refine hrun.simulate ledgerEvent (Life.Shows clock) h ?_
  intro s label s' l h hstep
  obtain ⟨hmay, hstep⟩ := hstep
  obtain ⟨l', hledger, h'⟩ := h.step hclock hmay hstep
  exact ⟨l', .step hledger, h'⟩

/-- The database reads at every snapshot from the horizon on as the first of these writes. -/
structure DB.Gives (db : DB) (horizon : Nat) (writes : List Op) : Prop where
  seqNum : db.seqNum = writes.length
  getAt : ∀ key snapshot, horizon ≤ snapshot → snapshot ≤ seqNumMax →
    db.getAt key snapshot = lastWrite (writes.take snapshot) key
  scanAt : ∀ lowerBound upperBound snapshot, horizon ≤ snapshot → snapshot ≤ seqNumMax →
    ∃ m, db.scanAt lowerBound upperBound snapshot = .ok m ∧
      Contents.IsScan (lastWrite (writes.take snapshot)) lowerBound upperBound m.drain

theorem Recalls.gives {horizon : Nat} {writes : List Op}
    (h : Recalls clock n db ts us horizon writes) : db.Gives horizon writes where
  seqNum := h.seqNum
  getAt key snapshot hle hsnap := (h.toRepresents.getAt_eq key hsnap).trans (h.answer_eq key hle)
  scanAt lowerBound upperBound snapshot hle hsnap := by
    have hscan := h.toOrdered.scanAt_isScan lowerBound upperBound hsnap
    rwa [funext fun key => h.answer_eq key hle] at hscan

/-- Over any number of kills and restarts the database reads as the writes of its ledger,
and the writes that are safe at some time are there at every later one. -/
theorem durable_writes_survive (hclock : StrictMono clock) {before after : List (LifeEvent × Nat)}
    {db db' : DB} {fsynced fsynced' : Nat} {flushing flushing' : Bool}
    (hbefore : Traces (LifeRun clock) Life.start before (.running db fsynced flushing))
    (hafter : Traces (LifeRun clock) (.running db fsynced flushing) after
      (.running db' fsynced' flushing')) :
    ∃ l l' : Ledger, Traces LedgerStep Ledger.start (before.map ledgerEvent) l ∧
      Traces LedgerStep l (after.map ledgerEvent) l' ∧ db.Gives l.horizon l.writes ∧
      db'.Gives l'.horizon l'.writes ∧ l.writes.take l.safe <+: l'.writes := by
  obtain ⟨l, hl, hup, n, ts, us, h⟩ := (kept_start clock).run hclock hbefore
  have hshows : (Life.running db fsynced flushing).Shows clock l := ⟨hup, n, ts, us, h⟩
  obtain ⟨l', hl', -, n', ts', us', h'⟩ := hshows.run hclock hafter
  obtain ⟨-, -, hkept⟩ := LedgerStep.run_keeps_safe hl' h.safe_le
  exact ⟨l, l', hl, hl', h.toRecalls.gives, h'.toRecalls.gives, hkept⟩

end Lives

/-- A flushed write, with two tables at most and so no merge. -/
def putFlush : List (LifeEvent × Nat) :=
  [(.write (.put [97] [1]), 0), (.write .flush, 0), (.flush fileSizes, 0)]

/-- The kill leaves nothing of the log and the first byte of a table. -/
def killRestart : List (LifeEvent × Nat) :=
  [(.write .flush, 0),
    (.killFlushing (faulty stampedClock fileSizes .flushWrite) [] (some (2, [0])), 0), (.sweep, 0),
    (.restart, 0)]

theorem noMerge_put :
    (flushedDB stampedClock (writeAll emptyDB [.put [97] [1]])).NoMerge fileSizes :=
  .inl (by decide)

theorem traces_putFlush : ∃ db, Traces (LifeRun stampedClock) Life.start putFlush
    (.running db 0 false) ∧ db.seqNum = 1 := by
  have hput : LifeRun stampedClock Life.start (some (.write (.put [97] [1]), 0))
      (.running (writeAll emptyDB [.put [97] [1]]) 0 false) :=
    .step (show 0 < seqNumMax by decide) (.write ⟨by decide, by decide⟩)
  have hfull : LifeRun stampedClock (.running (writeAll emptyDB [.put [97] [1]]) 0 false)
      (some (.write .flush, 0)) (.running (writeAll emptyDB [.put [97] [1]]) 0 true) :=
    .step (show 1 < seqNumMax by decide) (.write trivial)
  have hrecalls : Recalls stampedClock 0 (writeAll emptyDB [.put [97] [1]]) [] [] 0
      [.put [97] [1]] :=
    (recalls_emptyDB stampedClock).write (show Op.Accepted (.put [97] [1]) from
      ⟨by decide, by decide⟩) nofun (by decide)
  have htidy := hrecalls.tidyFlush stampedClock_strictMono noMerge_put (by decide) (by decide)
  have hfloor : (writeAll emptyDB [.put [97] [1]]).mergeFloor stampedClock fileSizes = 0 :=
    if_pos noMerge_put
  have hflush : LifeRun stampedClock (.running (writeAll emptyDB [.put [97] [1]]) 0 true)
      (some (.flush fileSizes, (writeAll emptyDB [.put [97] [1]]).mergeFloor stampedClock
        fileSizes)) _ := .step htidy .flush
  rw [hfloor] at hflush
  have htraces := ((Traces.start.visible hput).visible hfull).visible hflush
  rw [Nat.zero_min] at htraces
  exact ⟨_, htraces, (DB.flushMemtableLocked_frame rfl _).seqNum⟩

/-- A write that is flushed is there after a kill inside the next flush. -/
theorem durable_writes_survive_putFlush : ∃ db db' : DB, ∃ l l' : Ledger,
    Traces LedgerStep Ledger.start (putFlush.map ledgerEvent) l ∧
      Traces LedgerStep l (killRestart.map ledgerEvent) l' ∧ db.Gives l.horizon l.writes ∧
      db'.Gives l'.horizon l'.writes ∧ l.writes.take l.safe <+: l'.writes := by
  obtain ⟨db, hbefore, hseq⟩ := traces_putFlush
  have hcall : LifeRun stampedClock (.running db 0 false) (some (.write .flush, 0))
      (.running db 0 true) := .step (hseq.trans_lt (by decide)) (.write trivial)
  have hstop := flush_of_flushWrite
    (rfl : (faulty stampedClock fileSizes .flushWrite).fails .flushWrite = true) db
  have hkill : LifeRun stampedClock (.running db 0 true)
      (some (.killFlushing (faulty stampedClock fileSizes .flushWrite) [] (some (2, [0])),
        db.flushFloor stampedClock (faulty stampedClock fileSizes .flushWrite))) _ :=
    .step (.inl ⟨rfl, le_rfl⟩) (.killFlushing rfl List.nil_prefix)
  rw [DB.flushFloor_of_error (congrArg Prod.snd hstop)] at hkill
  have hsweep : ∀ disk, LifeRun stampedClock (.down disk) (some (.sweep, 0))
      (.down { disk with leftover := none }) := fun disk =>
    @LifeRun.step _ stampedClock _ _ .sweep trivial .sweep
  obtain ⟨l, -, -, n, us, hleft⟩ := (kept_start stampedClock).run stampedClock_strictMono
    (((hbefore.visible hcall).visible hkill).visible (hsweep _))
  have hafter := (((Traces.start.visible hcall).visible hkill).visible (hsweep _)).visible
    (@LifeRun.step _ stampedClock _ _ .restart rfl (.restart hleft.opens))
  obtain ⟨l, l', h⟩ := durable_writes_survive stampedClock_strictMono hbefore hafter
  exact ⟨db, _, l, l', h⟩

end Hcdb.Db
