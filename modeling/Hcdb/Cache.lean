import Hcdb.Lib.FiniteMap
import Hcdb.Runtime

namespace Hcdb.Cache

open Hcdb.Lib.ByteString
open Hcdb.Lib.FiniteMap

variable {β : Type}

/-- A `*list.Element` and the `*entry` it holds.  The `id` stands for the pointer. -/
structure Element (β : Type) where
  id : Nat
  key : Bytes
  value : β

def Element.link (e : Element β) : Bytes × Nat := (e.key, e.id)

/-- `ll.MoveToFront(elem)`. -/
def moveToFront (id : Nat) (ll : List (Element β)) : List (Element β) :=
  match ll.find? fun e => decide (e.id = id) with
  | none => ll
  | some e => e :: ll.eraseP fun e => decide (e.id = id)

/-- `elem.Value.(*entry).value = value`. -/
def setValue (id : Nat) (value : β) (ll : List (Element β)) : List (Element β) :=
  ll.map fun e => if e.id = id then { e with value } else e

theorem cons_eraseP_perm {α : Type} {p : α → Bool} {l : List α} {a : α} (h : l.find? p = some a) :
    (a :: l.eraseP p).Perm l := by
  induction l with
  | nil => simp at h
  | cons b l ih =>
      cases hb : p b with
      | true =>
          rw [List.find?_cons_of_pos hb, Option.some.injEq] at h
          rw [List.eraseP_cons_of_pos hb, h]
      | false =>
          rw [List.find?_cons_of_neg (by simp [hb])] at h
          rw [List.eraseP_cons_of_neg (by simp [hb])]
          exact (List.Perm.swap b a _).trans ((ih h).cons b)

theorem moveToFront_perm (id : Nat) (ll : List (Element β)) : (moveToFront id ll).Perm ll := by
  unfold moveToFront
  cases hfind : ll.find? fun e => decide (e.id = id) with
  | none => exact List.Perm.refl ll
  | some e => exact cons_eraseP_perm hfind

theorem map_link_setValue (id : Nat) (value : β) (ll : List (Element β)) :
    (setValue id value ll).map Element.link = ll.map Element.link := by
  rw [setValue, List.map_map]
  apply List.map_congr_left
  intro e _
  simp only [Function.comp_apply]
  split <;> rfl

/-- The map leads from every key in the list to its element, and no other key anywhere.
The pointers below `fresh` have been handed out. -/
structure Linked (links : List (Bytes × Nat)) (items : FMap Bytes Nat) (fresh : Nat) : Prop where
  nodup : (links.map Prod.snd).Nodup
  allocated : ∀ link ∈ links, link.2 < fresh
  items : ∀ key id, items.read key = some id ↔ (key, id) ∈ links

namespace Linked

variable {links links' : List (Bytes × Nat)} {items : FMap Bytes Nat} {fresh : Nat}

theorem perm (h : Linked links items fresh) (hperm : links'.Perm links) :
    Linked links' items fresh where
  nodup := (hperm.map Prod.snd).nodup_iff.mpr h.nodup
  allocated link hlink := h.allocated link (hperm.mem_iff.mp hlink)
  items key id := (h.items key id).trans hperm.mem_iff.symm

theorem push (h : Linked links items fresh) {key : Bytes} (hnew : items.read key = none) :
    Linked ((key, fresh) :: links) (items.write key fresh) (fresh + 1) where
  nodup := by
    rw [List.map_cons, List.nodup_cons]
    refine ⟨?_, h.nodup⟩
    intro hmem
    obtain ⟨link, hlink, hid⟩ := List.mem_map.mp hmem
    exact (h.allocated link hlink).ne hid
  allocated link hlink := by
    rcases List.mem_cons.mp hlink with rfl | hlink
    · exact Nat.lt_succ_self fresh
    · exact (h.allocated link hlink).trans (Nat.lt_succ_self fresh)
  items key' id := by
    by_cases hkey : key' = key
    · have hother : (key', id) ∉ links := by
        rw [hkey, ← h.items, hnew]
        simp
      rw [hkey] at hother ⊢
      simp [hother, eq_comm]
    · rw [FMap.read_write_of_ne _ _ hkey, h.items]
      simp [hkey]

theorem remove {key : Bytes} {id : Nat} (h : Linked (links ++ [(key, id)]) items fresh) :
    Linked links (items.remove key) fresh where
  nodup := (List.nodup_append.mp (List.map_append ▸ h.nodup)).1
  allocated link hlink := h.allocated link (List.mem_append_left _ hlink)
  items key' id' := by
    by_cases hkey : key' = key
    · rw [hkey, FMap.read_remove_self]
      refine ⟨by simp, fun hmem => ?_⟩
      -- the key would lead to two elements
      have hlast := (h.items key id).mpr (by simp)
      have hfront := (h.items key id').mpr (List.mem_append_left _ hmem)
      have hid : id' = id := Option.some.inj (hfront.symm.trans hlast)
      have hnd := h.nodup
      rw [List.map_append, List.nodup_append] at hnd
      exact absurd hid (hnd.2.2 id' (List.mem_map_of_mem hmem) id (by simp))
    · rw [FMap.read_remove_of_ne _ hkey, h.items]
      simp [hkey]

end Linked

/-- One shard: the most recently used element is in front, and the map leads to the
elements. -/
structure LRU (β : Type) where
  capacity : Int
  ll : List (Element β)
  items : FMap Bytes Nat
  fresh : Nat
  linked : Linked (ll.map Element.link) items fresh

def newLRU (capacity : Int) : LRU β where
  capacity
  ll := []
  items := FMap.empty
  fresh := 0
  linked := ⟨by simp, by simp, by simp⟩

namespace LRU

theorem linked_dropLast (c : LRU β) : Linked (c.ll.dropLast.map Element.link)
    (match c.ll.getLast? with
      | none => c.items
      | some oldest => c.items.remove oldest.key) c.fresh := by
  have h := c.linked
  rcases List.eq_nil_or_concat c.ll with hnil | ⟨front, oldest, hconcat⟩
  · rw [hnil] at h ⊢
    exact h
  · rw [List.concat_eq_append] at hconcat
    rw [hconcat, List.map_append] at h
    rw [hconcat, List.getLast?_concat, List.dropLast_concat]
    exact h.remove

/-- Drop the element at the back, from the list and from the map. -/
def evictOldest (c : LRU β) : LRU β where
  capacity := c.capacity
  ll := c.ll.dropLast
  items :=
    match c.ll.getLast? with
    | none => c.items
    | some oldest => c.items.remove oldest.key
  fresh := c.fresh
  linked := c.linked_dropLast

/-- `insert` without the eviction. -/
def store (c : LRU β) (key : Bytes) (value : β) : LRU β :=
  match h : c.items.read key with
  | some id => { c with
      ll := moveToFront id (setValue id value c.ll)
      linked := c.linked.perm
        (map_link_setValue id value c.ll ▸ (moveToFront_perm id _).map Element.link) }
  | none => { c with
      ll := { id := c.fresh, key, value } :: c.ll
      items := c.items.write key c.fresh
      fresh := c.fresh + 1
      linked := c.linked.push h }

/-- Store the pair in front, and evict the oldest if the shard is over its capacity. -/
def insert (c : LRU β) (key : Bytes) (value : β) : LRU β :=
  let c := c.store key value
  if c.capacity ≠ 0 ∧ c.capacity < c.ll.length then c.evictOldest else c

/-- A hit moves the element to the front. -/
def get (c : LRU β) (key : Bytes) : Option β × LRU β :=
  match c.items.read key with
  | none => (none, c)
  | some id =>
      ((c.ll.find? fun e => decide (e.id = id)).map Element.value, { c with
        ll := moveToFront id c.ll
        linked := c.linked.perm ((moveToFront_perm id _).map Element.link) })

def put (c : LRU β) (key : Bytes) (value : β) : LRU β := c.insert key value

def Holds (P : Bytes → β → Prop) (c : LRU β) : Prop :=
  ∀ e ∈ c.ll, P e.key e.value

variable {P : Bytes → β → Prop} {c : LRU β}

theorem key_of_read {key : Bytes} {id : Nat} (h : c.items.read key = some id) {e : Element β}
    (he : e ∈ c.ll) (hid : e.id = id) : e.key = key := by
  have hlink : (key, id) ∈ c.ll.map Element.link := (c.linked.items key id).mp h
  have hself : e.link ∈ c.ll.map Element.link := List.mem_map_of_mem he
  have heq := List.inj_on_of_nodup_map c.linked.nodup hself hlink hid
  exact congrArg Prod.fst heq

theorem Holds.get (h : c.Holds P) (key : Bytes) :
    (∀ value, (c.get key).1 = some value → P key value) ∧ (c.get key).2.Holds P := by
  unfold LRU.get
  cases hread : c.items.read key with
  | none => exact ⟨by simp, h⟩
  | some id =>
      refine ⟨?_, fun e he => h e ((moveToFront_perm id _).mem_iff.mp he)⟩
      intro value hvalue
      obtain ⟨e, hfind, rfl⟩ := Option.map_eq_some_iff.mp hvalue
      have hmem := List.mem_of_find?_eq_some hfind
      have hid : e.id = id := by simpa using List.find?_some hfind
      exact key_of_read hread hmem hid ▸ h e hmem

theorem Holds.store (h : c.Holds P) {key : Bytes} {value : β} (hvalue : P key value) :
    (c.store key value).Holds P := by
  unfold LRU.store
  split
  · rename_i id hread
    intro e he
    obtain ⟨e', he', rfl⟩ := List.mem_map.mp ((moveToFront_perm id _).mem_iff.mp he)
    split
    · rename_i hid
      exact (key_of_read hread he' hid).symm ▸ hvalue
    · exact h e' he'
  · intro e he
    rcases List.mem_cons.mp he with rfl | he
    · exact hvalue
    · exact h e he

theorem Holds.insert (h : c.Holds P) {key : Bytes} {value : β} (hvalue : P key value) :
    (c.insert key value).Holds P := by
  have hstored := h.store hvalue
  unfold LRU.insert
  simp only
  split
  · exact fun e he => hstored e ((List.dropLast_sublist _).subset he)
  · exact hstored

end LRU

/-- The shards are counted by a `uint32` that the hash is divided by. -/
structure ShardedLRU (β : Type) where
  shards : List (LRU β)
  divisor : shards.length % 2 ^ 32 ≠ 0

/-- `NewShardedLRU`, for a number of shards that can be divided by as a `uint32`. -/
def newShardedLRU (numShards : Nat) (capacityPerShard : Int)
    (hdivisor : numShards % 2 ^ 32 ≠ 0) : ShardedLRU β where
  shards := List.replicate numShards (newLRU capacityPerShard)
  divisor := by rwa [List.length_replicate]

def ShardedLRU.Holds (P : Bytes → β → Prop) (s : ShardedLRU β) : Prop :=
  ∀ c ∈ s.shards, c.Holds P

theorem holds_newShardedLRU {numShards : Nat} {capacityPerShard : Int}
    (hdivisor : numShards % 2 ^ 32 ≠ 0) (P : Bytes → β → Prop) :
    (newShardedLRU numShards capacityPerShard hdivisor).Holds P := by
  intro c hc e he
  obtain rfl := List.eq_of_mem_replicate hc
  simp [newLRU] at he

section Sharded

variable [Runtime]

def shardIndex (key : Bytes) (numShards : Nat) : Nat :=
  (Runtime.fnv32a key).toNat % (numShards % 2 ^ 32)

namespace ShardedLRU

theorem shardIndex_lt (s : ShardedLRU β) (key : Bytes) :
    shardIndex key s.shards.length < s.shards.length := by
  exact (Nat.mod_lt _ (Nat.pos_of_ne_zero s.divisor)).trans_le (Nat.mod_le _ _)

def shard (s : ShardedLRU β) (key : Bytes) : LRU β :=
  s.shards.get ⟨shardIndex key s.shards.length, s.shardIndex_lt key⟩

/-- The same cache with another shard in the place of the key's. -/
def setShard (s : ShardedLRU β) (key : Bytes) (c : LRU β) : ShardedLRU β where
  shards := s.shards.set (shardIndex key s.shards.length) c
  divisor := List.length_set.symm ▸ s.divisor

def get (s : ShardedLRU β) (key : Bytes) : Option β × ShardedLRU β :=
  (((s.shard key).get key).1, s.setShard key ((s.shard key).get key).2)

def put (s : ShardedLRU β) (key : Bytes) (value : β) : ShardedLRU β :=
  s.setShard key ((s.shard key).put key value)

variable {P : Bytes → β → Prop} {s : ShardedLRU β}

theorem Holds.setShard (h : s.Holds P) (key : Bytes) {c : LRU β} (hc : c.Holds P) :
    (s.setShard key c).Holds P := by
  intro c' hc'
  rcases List.mem_or_eq_of_mem_set hc' with hc' | rfl
  · exact h c' hc'
  · exact hc

theorem Holds.shard (h : s.Holds P) (key : Bytes) : (s.shard key).Holds P :=
  h _ (List.get_mem _ _)

theorem Holds.get (h : s.Holds P) (key : Bytes) :
    (∀ value, (s.get key).1 = some value → P key value) ∧ (s.get key).2.Holds P :=
  ⟨((h.shard key).get key).1, h.setShard key ((h.shard key).get key).2⟩

theorem Holds.put (h : s.Holds P) {key : Bytes} {value : β} (hvalue : P key value) :
    (s.put key value).Holds P :=
  h.setShard key ((h.shard key).insert hvalue)

end ShardedLRU

end Sharded

end Hcdb.Cache
