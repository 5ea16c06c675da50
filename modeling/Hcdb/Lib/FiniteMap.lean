import Hcdb.Lib.SortedList

namespace Hcdb.Lib.FiniteMap

open Hcdb.Lib.SortedList

variable {κ β : Type*}

/-- A map with finitely many keys. -/
structure FMap (κ β : Type*) where
  pairs : List (κ × β)
  nodup : (pairs.map Prod.fst).Nodup

namespace FMap

def empty : FMap κ β where
  pairs := []
  nodup := List.nodup_nil

theorem nodup_filter (m : FMap κ β) (p : κ × β → Bool) : ((m.pairs.filter p).map Prod.fst).Nodup :=
  m.nodup.sublist (List.filter_sublist.map Prod.fst)

variable [LinearOrder κ]

def read (m : FMap κ β) (key : κ) : Option β :=
  (m.pairs.find? fun f => decide (f.1 = key)).map Prod.snd

def remove (m : FMap κ β) (key : κ) : FMap κ β where
  pairs := m.pairs.filter fun f => decide (f.1 ≠ key)
  nodup := m.nodup_filter _

def write (m : FMap κ β) (key : κ) (value : β) : FMap κ β where
  pairs := (key, value) :: m.pairs.filter fun f => decide (f.1 ≠ key)
  nodup := by
    rw [List.map_cons, List.nodup_cons]
    refine ⟨?_, m.nodup_filter _⟩
    simp

/-- The pairs, the largest key first. -/
def descending (m : FMap κ β) : List (κ × β) :=
  sortBy (fun f => OrderDual.toDual f.1) m.pairs

theorem read_eq_some_iff (m : FMap κ β) {key : κ} {value : β} :
    m.read key = some value ↔ (key, value) ∈ m.pairs := by
  have huniq : ∀ f ∈ m.pairs, ∀ g ∈ m.pairs, f.1 = g.1 → f = g := by
    intro f hf g hg h
    exact List.inj_on_of_nodup_map m.nodup hf hg h
  constructor
  · intro h
    obtain ⟨f, hfind, rfl⟩ := Option.map_eq_some_iff.mp h
    have hkey : f.1 = key := by simpa using List.find?_some hfind
    rw [← hkey]
    exact List.mem_of_find?_eq_some hfind
  · intro h
    have hsome : (m.pairs.find? fun f => decide (f.1 = key)).isSome := by
      rw [List.find?_isSome]
      exact ⟨_, h, by simp⟩
    obtain ⟨f, hfind⟩ := Option.isSome_iff_exists.mp hsome
    have hkey : f.1 = key := by simpa using List.find?_some hfind
    have heq := huniq f (List.mem_of_find?_eq_some hfind) _ h hkey
    rw [read, hfind, heq]
    rfl

theorem read_eq_none_iff (m : FMap κ β) {key : κ} :
    m.read key = none ↔ ∀ f ∈ m.pairs, f.1 ≠ key := by
  simp [read]

@[simp] theorem read_empty (key : κ) : (empty : FMap κ β).read key = none := rfl

@[simp] theorem read_write_self (m : FMap κ β) (key : κ) (value : β) :
    (m.write key value).read key = some value := by
  simp [read, write]

theorem read_write_of_ne (m : FMap κ β) {key key' : κ} (value : β) (h : key' ≠ key) :
    (m.write key value).read key' = m.read key' := by
  apply Option.ext
  intro c
  rw [read_eq_some_iff, read_eq_some_iff]
  simp [write, h]

@[simp] theorem read_remove_self (m : FMap κ β) (key : κ) : (m.remove key).read key = none := by
  rw [read_eq_none_iff]
  simp [remove]

theorem read_remove_of_ne (m : FMap κ β) {key key' : κ} (h : key' ≠ key) :
    (m.remove key).read key' = m.read key' := by
  apply Option.ext
  intro c
  rw [read_eq_some_iff, read_eq_some_iff]
  simp [remove, h]

theorem descending_sortedBy (m : FMap κ β) :
    SortedBy (fun f : κ × β => OrderDual.toDual f.1) m.descending := by
  apply sortBy_sortedBy
  have hpair := m.nodup
  rw [List.Nodup, List.pairwise_map] at hpair
  exact hpair.imp fun hne heq => hne (OrderDual.toDual.injective heq)

theorem mem_descending (m : FMap κ β) {f : κ × β} : f ∈ m.descending ↔ f ∈ m.pairs :=
  mem_sortBy

theorem nodup_descending (m : FMap κ β) : (m.descending.map Prod.fst).Nodup :=
  ((sortBy_perm m.pairs).map Prod.fst).nodup_iff.mpr m.nodup

theorem descending_eq (m : FMap κ β) {l : List (κ × β)}
    (hs : l.Pairwise fun f g => g.1 < f.1) (hmem : ∀ f, f ∈ l ↔ m.read f.1 = some f.2) :
    m.descending = l := by
  apply SortedBy.eq_of_mem_iff m.descending_sortedBy
  · exact hs.imp fun h => OrderDual.toDual_lt_toDual.mpr h
  · intro f
    rw [mem_descending, hmem, read_eq_some_iff]

end FMap

end Hcdb.Lib.FiniteMap
