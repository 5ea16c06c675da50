import Hcdb.Cache
import Hcdb.Config
import Hcdb.Lib.Recency
import Mathlib.Algebra.Order.BigOperators.Group.List

/-!
The cache against the ideal one, which holds in every shard the keys that were used
last, each with the value that was put last.
-/

namespace Hcdb.Cache

open Hcdb.Lib.ByteString
open Hcdb.Lib.FiniteMap
open Hcdb.Lib.Recency

variable {β : Type}

def Element.pair (e : Element β) : Bytes × β := (e.key, e.value)

theorem eraseP_eq_filter {α : Type} {p : α → Bool} {a : α} {l : List α} (hnd : l.Nodup)
    (h : ∀ x ∈ l, p x = true → x = a) : l.eraseP p = l.filter fun x => !p x := by
  induction l with
  | nil => rfl
  | cons b l ih =>
      obtain ⟨hb, hnd⟩ := List.nodup_cons.mp hnd
      have hl : ∀ x ∈ l, p x = true → x = a := fun x hx => h x (List.mem_cons_of_mem _ hx)
      cases hpb : p b with
      | false =>
          rw [List.eraseP_cons_of_neg (by simp [hpb]), List.filter_cons_of_pos (by simp [hpb]),
            ih hnd hl]
      | true =>
          rw [List.eraseP_cons_of_pos hpb, List.filter_cons_of_neg (by simp [hpb])]
          refine (List.filter_eq_self.mpr fun x hx => ?_).symm
          -- another one would be the same element once more
          cases hpx : p x with
          | false => rfl
          | true =>
              have hxb := (hl x hx hpx).trans (h b List.mem_cons_self hpb).symm
              exact absurd (hxb ▸ hx) hb

section Ids

variable {ll : List (Element β)} {e : Element β}

theorem find?_id (hnd : (ll.map Element.id).Nodup) (he : e ∈ ll) :
    ll.find? (fun x => decide (x.id = e.id)) = some e := by
  cases hfind : ll.find? fun x => decide (x.id = e.id) with
  | none => simpa using List.find?_eq_none.mp hfind e he
  | some x =>
      have hid : x.id = e.id := by simpa using List.find?_some hfind
      rw [List.inj_on_of_nodup_map hnd (List.mem_of_find?_eq_some hfind) he hid]

theorem moveToFront_eq (hnd : (ll.map Element.id).Nodup) (he : e ∈ ll) :
    moveToFront e.id ll = e :: ll.filter fun x => decide (x.id ≠ e.id) := by
  have huniq : ∀ x ∈ ll, decide (x.id = e.id) = true → x = e := by
    intro x hx hid
    exact List.inj_on_of_nodup_map hnd hx he (of_decide_eq_true hid)
  unfold moveToFront
  rw [find?_id hnd he, eraseP_eq_filter hnd.of_map huniq]
  simp

theorem map_id_setValue (id : Nat) (value : β) (ll : List (Element β)) :
    (setValue id value ll).map Element.id = ll.map Element.id := by
  have h := congrArg (List.map Prod.snd) (map_link_setValue id value ll)
  rw [List.map_map, List.map_map] at h
  exact h

end Ids

theorem filter_setValue (id : Nat) (value : β) (ll : List (Element β)) :
    (setValue id value ll).filter (fun x => decide (x.id ≠ id)) =
      ll.filter fun x => decide (x.id ≠ id) := by
  induction ll with
  | nil => rfl
  | cons e ll ih =>
      have hcons : setValue id value (e :: ll) =
          (if e.id = id then { e with value } else e) :: setValue id value ll := rfl
      rw [hcons]
      by_cases hid : e.id = id
      · rw [if_pos hid, List.filter_cons_of_neg (by simp [hid]),
          List.filter_cons_of_neg (by simp [hid]), ih]
      · rw [if_neg hid, List.filter_cons_of_pos (by simp [hid]),
          List.filter_cons_of_pos (by simp [hid]), ih]

namespace LRU

def len (c : LRU β) : Nat := c.ll.length

/-- The keys of the shard, the most recently used first. -/
def keys (c : LRU β) : List Bytes := c.ll.map Element.key

def pairs (c : LRU β) : List (Bytes × β) := c.ll.map Element.pair

variable {c : LRU β} {key : Bytes} {e e' : Element β}

theorem map_fst_pairs (c : LRU β) : c.pairs.map Prod.fst = c.keys := by
  rw [pairs, keys, List.map_map]
  rfl

theorem nodup_ids (c : LRU β) : (c.ll.map Element.id).Nodup := by
  have h := c.linked.nodup
  rw [List.map_map] at h
  exact h

theorem read_of_mem (he : e ∈ c.ll) : c.items.read e.key = some e.id :=
  (c.linked.items e.key e.id).mpr (List.mem_map_of_mem he)

theorem eq_of_key_eq (he : e ∈ c.ll) (he' : e' ∈ c.ll) (h : e.key = e'.key) : e = e' := by
  have hread := read_of_mem he
  rw [h, read_of_mem he'] at hread
  exact List.inj_on_of_nodup_map c.nodup_ids he he' (Option.some.inj hread).symm

theorem nodup_keys (c : LRU β) : c.keys.Nodup :=
  c.nodup_ids.of_map.map_on fun _ he _ he' h => eq_of_key_eq he he' h

theorem exists_of_read {id : Nat} (h : c.items.read key = some id) :
    ∃ e ∈ c.ll, e.key = key ∧ e.id = id := by
  obtain ⟨e, he, hlink⟩ := List.mem_map.mp ((c.linked.items key id).mp h)
  exact ⟨e, he, congrArg Prod.fst hlink, congrArg Prod.snd hlink⟩

theorem isSome_read_iff : (c.items.read key).isSome = true ↔ key ∈ c.keys := by
  constructor
  · intro h
    obtain ⟨id, hid⟩ := Option.isSome_iff_exists.mp h
    obtain ⟨e, he, rfl, -⟩ := exists_of_read hid
    exact List.mem_map_of_mem he
  · intro h
    obtain ⟨e, he, rfl⟩ := List.mem_map.mp h
    rw [read_of_mem he]
    rfl

theorem filter_id_eq_filter_key (he : e ∈ c.ll) :
    c.ll.filter (fun x => decide (x.id ≠ e.id)) =
      c.ll.filter fun x => decide (x.key ≠ e.key) := by
  apply List.filter_congr
  intro x hx
  rw [decide_eq_decide]
  apply not_congr
  constructor
  · intro hid
    rw [List.inj_on_of_nodup_map c.nodup_ids hx he hid]
  · intro hkey
    rw [eq_of_key_eq hx he hkey]

theorem map_pair_filter (key : Bytes) (ll : List (Element β)) :
    (ll.filter fun x => decide (x.key ≠ key)).map Element.pair =
      (ll.map Element.pair).filter fun p => decide (p.1 ≠ key) := by
  rw [List.filter_map]
  rfl

theorem get_of_mem (he : e ∈ c.ll) : (c.get e.key).1 = some e.value ∧
    (c.get e.key).2.capacity = c.capacity ∧
    (c.get e.key).2.pairs = e.pair :: c.pairs.filter fun p => decide (p.1 ≠ e.key) := by
  have hmove := moveToFront_eq c.nodup_ids he
  rw [filter_id_eq_filter_key he] at hmove
  unfold get
  rw [read_of_mem he]
  refine ⟨?_, rfl, ?_⟩
  · simp only [find?_id c.nodup_ids he, Option.map_some]
  · refine (congrArg (List.map Element.pair) hmove).trans ?_
    rw [List.map_cons, map_pair_filter]
    rfl

theorem get_of_not_mem (h : key ∉ c.keys) : c.get key = (none, c) := by
  have hread : c.items.read key = none := by
    rw [← Option.not_isSome_iff_eq_none, isSome_read_iff]
    exact h
  unfold get
  rw [hread]

theorem store_pairs (c : LRU β) (key : Bytes) (value : β) :
    (c.store key value).capacity = c.capacity ∧
    (c.store key value).pairs = (key, value) :: c.pairs.filter fun p => decide (p.1 ≠ key) := by
  unfold store
  split
  · rename_i id hread
    refine ⟨rfl, ?_⟩
    obtain ⟨e, he, rfl, rfl⟩ := exists_of_read hread
    have hnd : ((setValue e.id value c.ll).map Element.id).Nodup := by
      rw [map_id_setValue]
      exact c.nodup_ids
    have hmem : { e with value } ∈ setValue e.id value c.ll :=
      List.mem_map.mpr ⟨e, he, if_pos rfl⟩
    have hmove := moveToFront_eq hnd hmem
    simp only at hmove
    rw [filter_setValue, filter_id_eq_filter_key he] at hmove
    refine (congrArg (List.map Element.pair) hmove).trans ?_
    rw [List.map_cons, map_pair_filter]
    rfl
  · rename_i hread
    refine ⟨rfl, ?_⟩
    have hself : c.pairs.filter (fun p => decide (p.1 ≠ key)) = c.pairs := by
      apply List.filter_eq_self.mpr
      intro p hp
      rw [decide_eq_true_eq]
      rintro rfl
      have hmem : p.1 ∈ c.keys := map_fst_pairs c ▸ List.mem_map_of_mem hp
      rw [← isSome_read_iff, hread] at hmem
      cases hmem
    rw [hself]
    rfl

theorem insert_pairs {cap : Nat} (hcap : 0 < cap) (hc : c.capacity = cap)
    (hlen : c.pairs.length ≤ cap) (key : Bytes) (value : β) :
    (c.insert key value).capacity = c.capacity ∧
    (c.insert key value).pairs =
      ((key, value) :: c.pairs.filter fun p => decide (p.1 ≠ key)).take cap := by
  obtain ⟨hcapacity, hpairs⟩ := c.store_pairs key value
  have hlength : (c.store key value).ll.length = (c.store key value).pairs.length :=
    (List.length_map _).symm
  have hle : (c.store key value).pairs.length ≤ cap + 1 := by
    rw [hpairs, List.length_cons]
    exact Nat.succ_le_succ ((List.length_filter_le _ _).trans hlen)
  rw [← hpairs]
  unfold insert
  simp only
  split
  · rename_i hfull
    refine ⟨hcapacity, ?_⟩
    have hdrop : (c.store key value).evictOldest.pairs = (c.store key value).pairs.dropLast :=
      List.map_dropLast
    rw [hdrop, List.dropLast_eq_take]
    congr 1
    omega
  · rename_i hroom
    refine ⟨hcapacity, (List.take_of_length_le ?_).symm⟩
    omega

/-- The shard is the ideal one: it holds the `cap` keys that were used last, with the
values that `last` says. -/
structure Ideal (cap : Nat) (uses : List Bytes) (last : Bytes → Option β) (c : LRU β) : Prop where
  capacity : c.capacity = cap
  keys : c.keys = (recency uses).take cap
  values : ∀ p ∈ c.pairs, last p.1 = some p.2

variable {cap : Nat} {uses : List Bytes} {last : Bytes → Option β}

theorem ideal_newLRU (cap : Nat) (last : Bytes → Option β) : Ideal cap [] last (newLRU cap) where
  capacity := rfl
  keys := List.take_nil.symm
  values _ hp := absurd hp List.not_mem_nil

theorem Ideal.length_le (h : c.Ideal cap uses last) : c.pairs.length ≤ cap := by
  rw [← List.length_map Prod.fst, map_fst_pairs, h.keys]
  exact List.length_take_le _ _

theorem Ideal.touched (h : c.Ideal cap uses last) (hcap : 0 < cap) {c' : LRU β} {key : Bytes}
    {value : β} (hcapacity : c'.capacity = c.capacity)
    (hpairs : c'.pairs = ((key, value) :: c.pairs.filter fun p => decide (p.1 ≠ key)).take cap)
    {last' : Bytes → Option β} (hkey : last' key = some value)
    (hothers : ∀ k, k ≠ key → last' k = last k) : c'.Ideal cap (key :: uses) last' where
  capacity := hcapacity.trans h.capacity
  keys := by
    have hfilter : (c.pairs.filter fun p => decide (p.1 ≠ key)).map Prod.fst =
        without key c.keys := by
      rw [← map_fst_pairs, without, List.filter_map]
      rfl
    rw [← map_fst_pairs, hpairs, List.map_take, List.map_cons, hfilter, h.keys, recency,
      ← take_touch_take hcap key (nodup_recency uses)]
    rfl
  values p hp := by
    rw [hpairs] at hp
    rcases List.mem_cons.mp (List.mem_of_mem_take hp) with rfl | hp
    · exact hkey
    · obtain ⟨hp, hne⟩ := List.mem_filter.mp hp
      rw [hothers _ (of_decide_eq_true hne)]
      exact h.values p hp

theorem Ideal.put (h : c.Ideal cap uses last) (hcap : 0 < cap) (key : Bytes) (value : β) :
    (c.put key value).Ideal cap (key :: uses) (Function.update last key (some value)) := by
  obtain ⟨hcapacity, hpairs⟩ := insert_pairs hcap h.capacity h.length_le key value
  exact h.touched hcap hcapacity hpairs (Function.update_self ..)
    fun k hk => Function.update_of_ne hk ..

theorem Ideal.get_hit (h : c.Ideal cap uses last) (hcap : 0 < cap) (hkey : key ∈ c.keys) :
    (∃ value, (c.get key).1 = some value ∧ last key = some value) ∧
      (c.get key).2.Ideal cap (key :: uses) last := by
  obtain ⟨e, he, rfl⟩ := List.mem_map.mp hkey
  obtain ⟨hvalue, hcapacity, hpairs⟩ := get_of_mem he
  have hlast : last e.key = some e.value := h.values e.pair (List.mem_map_of_mem he)
  refine ⟨⟨e.value, hvalue, hlast⟩, h.touched hcap hcapacity ?_ hlast fun _ _ => rfl⟩
  rw [hpairs]
  refine (List.take_of_length_le ?_).symm
  have hlt : (c.pairs.filter fun p => decide (p.1 ≠ e.key)).length < c.pairs.length :=
    List.length_filter_lt_length_iff_exists.mpr ⟨e.pair, List.mem_map_of_mem he, by
      simp [Element.pair]⟩
  exact Nat.succ_le_of_lt hlt |>.trans h.length_le

end LRU

inductive Access (β : Type) where
  | get (key : Bytes)
  | put (key : Bytes) (value : β)

def Access.update (last : Bytes → Option β) : Access β → Bytes → Option β
  | .get _ => last
  | .put key value => Function.update last key (some value)

/-- The value that was put last for each key. -/
def lastPut (accesses : List (Access β)) : Bytes → Option β :=
  accesses.foldl Access.update fun _ => none

/-- `NewShardedLRU`, unless the number of shards is no divisor as a `uint32`: then every
`Get` and every `Put` panics. -/
def startCache (numShards capacityPerShard : Nat) : Option (ShardedLRU β) :=
  if h : numShards % 2 ^ 32 ≠ 0 then some (newShardedLRU numShards capacityPerShard h) else none

namespace ShardedLRU

def len (s : ShardedLRU β) : Nat := (s.shards.map LRU.len).sum

variable [Runtime]

/-- One access, and the key in front of the uses if the access was one: a `Put` or a
`Get` that hits. -/
def access (state : ShardedLRU β × List Bytes) : Access β → ShardedLRU β × List Bytes
  | .get key =>
      match state.1.get key with
      | (none, s) => (s, state.2)
      | (some _, s) => (s, key :: state.2)
  | .put key value => (state.1.put key value, key :: state.2)

/-- A sequence of calls, with the keys that they have used. -/
def run (s : ShardedLRU β) (accesses : List (Access β)) : ShardedLRU β × List Bytes :=
  accesses.foldl access (s, [])

/-- The other keys of the shard that were used since the last use of the key. -/
def usedSince (numShards : Nat) (uses : List Bytes) (key : Bytes) : Finset Bytes :=
  ((before key uses).filter fun k =>
    decide (shardIndex k numShards = shardIndex key numShards)).toFinset

/-- Every shard is the ideal one for the uses of its own keys. -/
structure Ideal (numShards cap : Nat) (uses : List Bytes) (last : Bytes → Option β)
    (s : ShardedLRU β) : Prop where
  length : s.shards.length = numShards
  shards : ∀ (i : Nat) (hi : i < s.shards.length), (s.shards.get ⟨i, hi⟩).Ideal cap
    (uses.filter fun k => decide (shardIndex k numShards = i)) last
  used : ∀ key, (last key).isSome = true ↔ key ∈ uses

variable {numShards cap : Nat} {uses uses' : List Bytes} {last last' : Bytes → Option β}
  {s : ShardedLRU β}

theorem Ideal.shard (h : s.Ideal numShards cap uses last) (key : Bytes) :
    (s.shard key).Ideal cap
      (uses.filter fun k => decide (shardIndex k numShards = shardIndex key numShards)) last := by
  have hidx : shardIndex key numShards = shardIndex key s.shards.length := by rw [h.length]
  rw [hidx]
  exact h.shards _ (s.shardIndex_lt key)

/-- The shard of the key changes, and nothing in the other shards depends on the key. -/
theorem Ideal.setShard (h : s.Ideal numShards cap uses last) (key : Bytes) {c : LRU β}
    (hc : c.Ideal cap
      (uses'.filter fun k => decide (shardIndex k numShards = shardIndex key numShards)) last')
    (huses : ∀ i, i ≠ shardIndex key numShards →
      (uses'.filter fun k => decide (shardIndex k numShards = i)) =
        uses.filter fun k => decide (shardIndex k numShards = i))
    (hlast : ∀ k, k ≠ key → last' k = last k)
    (hused : ∀ k, (last' k).isSome = true ↔ k ∈ uses') :
    (s.setShard key c).Ideal numShards cap uses' last' where
  length := List.length_set.trans h.length
  used := hused
  shards i hi := by
    have hi' : i < s.shards.length := hi.trans_eq List.length_set
    have hget : (s.setShard key c).shards.get ⟨i, hi⟩ =
        if shardIndex key numShards = i then c else s.shards.get ⟨i, hi'⟩ := by
      rw [← h.length]
      exact List.getElem_set ..
    rw [hget]
    split
    · rename_i hidx
      rw [← hidx]
      exact hc
    · rename_i hidx
      have hold := h.shards i hi'
      rw [huses i (Ne.symm hidx)]
      refine ⟨hold.capacity, hold.keys, fun p hp => ?_⟩
      have hmem : p.1 ∈ (s.shards.get ⟨i, hi'⟩).keys :=
        LRU.map_fst_pairs _ ▸ List.mem_map_of_mem hp
      rw [hold.keys] at hmem
      have hin := (List.mem_filter.mp (mem_recency.mp (List.mem_of_mem_take hmem))).2
      rw [hlast p.1 ?_, hold.values p hp]
      -- a key of another shard is not this key
      intro heq
      rw [heq, decide_eq_true_eq] at hin
      exact hidx hin

theorem filter_cons_shard_of_ne {key : Bytes} {i : Nat} (hi : i ≠ shardIndex key numShards)
    (uses : List Bytes) :
    ((key :: uses).filter fun k => decide (shardIndex k numShards = i)) =
      uses.filter fun k => decide (shardIndex k numShards = i) :=
  List.filter_cons_of_neg (by simpa using Ne.symm hi)

theorem filter_cons_shard (key : Bytes) (uses : List Bytes) :
    ((key :: uses).filter fun k => decide (shardIndex k numShards = shardIndex key numShards)) =
      key :: uses.filter fun k => decide (shardIndex k numShards = shardIndex key numShards) :=
  List.filter_cons_of_pos (by simp)

theorem Ideal.access (h : s.Ideal numShards cap uses last) (hcap : 0 < cap) (a : Access β) :
    (ShardedLRU.access (s, uses) a).1.Ideal numShards cap (ShardedLRU.access (s, uses) a).2
      (a.update last) := by
  cases a with
  | get key =>
      have hshard := h.shard key
      by_cases hkey : key ∈ (s.shard key).keys
      · obtain ⟨⟨value, hvalue, hlast⟩, hnext⟩ := hshard.get_hit hcap hkey
        have hget : s.get key = (some value, s.setShard key ((s.shard key).get key).2) := by
          rw [ShardedLRU.get, hvalue]
        rw [ShardedLRU.access, hget]
        refine h.setShard key (filter_cons_shard key uses ▸ hnext)
          (fun i hi => filter_cons_shard_of_ne hi uses) (fun _ _ => rfl) fun k => ?_
        rw [Access.update, List.mem_cons, h.used k]
        refine ⟨Or.inr, ?_⟩
        rintro (rfl | hk)
        · exact (h.used k).mp (hlast ▸ rfl)
        · exact hk
      · -- a miss is no use of the key
        have hmiss := LRU.get_of_not_mem hkey
        have hget : s.get key = (none, s.setShard key (s.shard key)) := by
          rw [ShardedLRU.get, hmiss]
        rw [ShardedLRU.access, hget]
        exact h.setShard key hshard (fun _ _ => rfl) (fun _ _ => rfl) h.used
  | put key value =>
      have hnext := (h.shard key).put hcap key value
      refine h.setShard key (filter_cons_shard key uses ▸ hnext)
        (fun i hi => filter_cons_shard_of_ne hi uses)
        (fun k hk => Function.update_of_ne hk ..) fun k => ?_
      rw [Access.update, ShardedLRU.access, List.mem_cons]
      by_cases hk : k = key
      · simp [hk]
      · rw [Function.update_of_ne hk, h.used k]
        simp [hk]

theorem Ideal.foldl (h : s.Ideal numShards cap uses last) (hcap : 0 < cap)
    (accesses : List (Access β)) :
    (accesses.foldl ShardedLRU.access (s, uses)).1.Ideal numShards cap
      (accesses.foldl ShardedLRU.access (s, uses)).2 (accesses.foldl Access.update last) := by
  induction accesses generalizing s uses last with
  | nil => exact h
  | cons a accesses ih => exact ih (h.access hcap a)

theorem Ideal.get_eq_some_iff (h : s.Ideal numShards cap uses last) (hcap : 0 < cap) (key : Bytes)
    (value : β) : (s.get key).1 = some value ↔
      last key = some value ∧ (usedSince numShards uses key).card < cap := by
  have hshard := h.shard key
  have hmem : key ∈ (s.shard key).keys ↔
      key ∈ uses ∧ (usedSince numShards uses key).card < cap := by
    rw [hshard.keys, mem_take_recency, List.mem_filter, before_filter (by simp), usedSince]
    simp
  by_cases hkey : key ∈ (s.shard key).keys
  · obtain ⟨⟨value', hvalue, hlast⟩, -⟩ := hshard.get_hit hcap hkey
    have hget : (s.get key).1 = some value' := hvalue
    rw [hget, hlast, and_iff_left (hmem.mp hkey).2]
  · have hget : (s.get key).1 = none := congrArg Prod.fst (LRU.get_of_not_mem hkey)
    rw [hget]
    refine iff_of_false (by simp) ?_
    rintro ⟨hlast, hfew⟩
    exact hkey (hmem.mpr ⟨(h.used key).mp (hlast ▸ rfl), hfew⟩)

theorem Ideal.get_put (h : s.Ideal numShards cap uses last) (hcap : 0 < cap) (key : Bytes)
    (value : β) : ((s.put key value).get key).1 = some value := by
  refine ((h.access hcap (.put key value)).get_eq_some_iff hcap key value).mpr ⟨?_, ?_⟩
  · exact Function.update_self key (some value) last
  · simpa [usedSince, ShardedLRU.access] using hcap

theorem Ideal.len_le (h : s.Ideal numShards cap uses last) : s.len ≤ numShards * cap := by
  rw [len, ← h.length, ← List.length_map LRU.len]
  refine (List.sum_le_card_nsmul _ cap ?_).trans_eq (nsmul_eq_mul _ _)
  intro n hn
  obtain ⟨c, hc, rfl⟩ := List.mem_map.mp hn
  obtain ⟨i, hi, rfl⟩ := List.mem_iff_getElem.mp hc
  have hle := (h.shards i hi).length_le
  rw [LRU.pairs, List.length_map] at hle
  exact hle

end ShardedLRU

/-- After any sequence of accesses a `Get` returns the last value that was put, as long
as fewer keys of the shard than it has room for were used since the key was; map and list
of a shard agree, and there is a bound on the number of entries. -/
def RefinesIdeal [Runtime] (β : Type) (numShards cap : Nat) : Prop :=
  ∃ s : ShardedLRU β, startCache numShards cap = some s ∧ ∀ accesses,
    (∀ key value, ((s.run accesses).1.get key).1 = some value ↔
      lastPut accesses key = some value ∧
        (ShardedLRU.usedSince numShards (s.run accesses).2 key).card < cap) ∧
    (∀ c ∈ (s.run accesses).1.shards, c.keys.Nodup ∧
      ∀ key, (c.items.read key).isSome = true ↔ key ∈ c.keys) ∧
    (s.run accesses).1.len ≤ numShards * cap

theorem startCache_eq_none {numShards : Nat} (h : numShards % 2 ^ 32 = 0) (cap : Nat) :
    (startCache numShards cap : Option (ShardedLRU β)) = none := by
  rw [startCache, dif_neg (not_not.mpr h)]

theorem ideal_newShardedLRU [Runtime] {numShards : Nat} (h : numShards % 2 ^ 32 ≠ 0) (cap : Nat) :
    (newShardedLRU numShards cap h : ShardedLRU β).Ideal numShards cap [] fun _ => none := by
  refine ⟨List.length_replicate, ?_, by simp⟩
  intro i hi
  have hget : (newShardedLRU numShards cap h).shards.get ⟨i, hi⟩ = (newLRU cap : LRU β) :=
    List.getElem_replicate ..
  rw [hget]
  exact LRU.ideal_newLRU cap _

/-- A cache of any number of shards that is a divisor as a `uint32` refines the ideal
one. -/
theorem refinesIdeal_iff [Runtime] (β : Type) (numShards : Nat) {cap : Nat} (hcap : 1 ≤ cap) :
    RefinesIdeal β numShards cap ↔ numShards % 2 ^ 32 ≠ 0 := by
  constructor
  · rintro ⟨s, hs, -⟩ hzero
    rw [startCache_eq_none hzero] at hs
    cases hs
  · intro hdivisor
    refine ⟨newShardedLRU numShards cap hdivisor, dif_pos hdivisor, fun accesses => ?_⟩
    have hideal := (ideal_newShardedLRU hdivisor cap).foldl hcap accesses
    exact ⟨hideal.get_eq_some_iff hcap, fun c _ => ⟨c.nodup_keys, fun _ => LRU.isSome_read_iff⟩,
      hideal.len_le⟩

theorem refinesIdeal_iff_default :
    RefinesIdeal Bytes Config.defaultCacheShardCount
      (Config.defaultBlockCacheEntries / Config.defaultCacheShardCount) :=
  (refinesIdeal_iff Bytes Config.defaultCacheShardCount (by decide)).mpr (by decide)

/-- With 2³² shards the hash is divided by zero. -/
theorem not_refinesIdeal_wrapped : ¬ RefinesIdeal Bytes (2 ^ 32) 1 := by
  rintro ⟨s, hs, -⟩
  rw [startCache_eq_none (by decide)] at hs
  cases hs

end Hcdb.Cache
