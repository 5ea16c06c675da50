import Hcdb.Compaction.Files

/-!
A compaction in which an I/O call fails.  Until the loop that deletes starts, every
file of the table list is still there; the deletions before the one that fails have
been made.
-/

namespace Hcdb.Compaction

open Hcdb.Lib.ByteString
open Hcdb.Lib.FiniteMap
open Hcdb.Base
open Hcdb.Sstable

/-- The same surroundings without faults. -/
def Env.calm (env : Env) : Env := { env with fails := fun _ => false }

theorem removeLoop_calm {env : Env} {compacted : List Bytes} {tables : List SSTable} {i : Nat}
    {dir dir' : TableDir} (h : removeLoop env compacted i dir tables = (dir', .ok ())) :
    removeLoop env.calm compacted i dir tables = (dir', .ok ()) := by
  induction tables generalizing i dir with
  | nil => exact h
  | cons sst tables ih =>
      rw [removeLoop] at h ⊢
      split at h
      · rename_i hmem
        rw [if_pos hmem]
        split at h
        · simp at h
        · rename_i hok
          rw [if_neg fun hor => hok (Or.inr (hor.resolve_left (by simp [Env.calm])))]
          exact ih h
      · rename_i hmem
        rw [if_neg hmem]
        exact ih h

section Faults

variable [Runtime] {env : Env} {floor : Nat} {dir dir' : TableDir}

theorem compact_error {tables : List SSTable} {e : CompactErr}
    (h : compact env dir tables floor = (dir', .error e)) :
    mergeLoop env floor 0 dir (groupBySimilarSize env.stat tables) = (dir', .error e) ∨
      ∃ merged result compacted,
        mergeLoop env floor 0 dir (groupBySimilarSize env.stat tables) =
          (merged, .ok (result, compacted)) ∧
        removeLoop env compacted 0 merged tables = (dir', .error e) := by
  unfold compact at h
  split at h
  · simp at h
  · split at h
    · rename_i hmerge
      obtain ⟨rfl, he⟩ := Prod.mk.inj h
      cases he
      exact Or.inl hmerge
    · rename_i merged result compacted hmerge
      split at h
      · rename_i hremove
        obtain ⟨rfl, he⟩ := Prod.mk.inj h
        cases he
        exact Or.inr ⟨merged, result, compacted, hmerge, hremove⟩
      · simp at h

/-- Whatever is in the tables, groups whose files are there are merged unless a read or
a write fails. -/
theorem mergeLoop_ok (hok : ∀ g, env.fails (.read g) = false ∧ env.fails (.write g) = false ∧
      env.fails (.dirSync g) = false) {gs : List (List Table)} {n : Nat}
    (hheld : GroupsHeld env.now n dir gs) :
    ∃ merged result, mergeLoop env floor n dir (gs.map (List.map Table.sst)) =
      (merged, .ok (result, (doomed gs).map Table.name)) := by
  induction gs generalizing n dir with
  | nil => exact ⟨dir, [], rfl⟩
  | cons g gs ih =>
      rw [List.map_cons, mergeLoop, List.length_map]
      by_cases hlen : g.length < 2
      · obtain ⟨merged, result, hrest⟩ := ih hheld.tail
        have hsmall : ¬ 2 ≤ g.length := by omega
        have hdoomed : doomed (g :: gs) = doomed gs := by simp [doomed, hsmall]
        rw [if_pos hlen, hrest, hdoomed]
        exact ⟨merged, _, rfl⟩
      · obtain ⟨hokRead, hokWrite, hokSync⟩ := hok n
        have hgroup : ∃ file out, mergeGroup env floor n dir (g.map Table.sst) =
            (dir.write (sstName (env.now n)) file, .ok out) := by
          simp only [mergeGroup, hokRead, hokWrite, hokSync, readAll_eq hheld.head,
            Bool.false_eq_true, if_false]
          exact ⟨_, _, rfl⟩
        obtain ⟨file, out, hgroup⟩ := hgroup
        obtain ⟨merged, result, hrest⟩ := ih (hheld.write file)
        have hbig : 2 ≤ g.length := by omega
        have hdoomed : (doomed (g :: gs)).map Table.name =
            (g.map Table.sst).map SSTable.filePath ++ (doomed gs).map Table.name := by
          simp [doomed, hbig, Table.sst, tableOf]
        rw [if_neg hlen, hgroup, hdoomed]
        simp only [hrest]
        exact ⟨merged, _, rfl⟩

/-- The names that are gone from the disk when this call fails. -/
def lostNames (env : Env) (ts : List Table) : IoCall → List Bytes
  | .remove j => (doomedNames env ts).take j
  | _ => []

variable {ts : List Table}

theorem mergeLoop_keeps (hheld : ∀ t ∈ ts, dir.read t.name = some t.content)
    (hfresh : ∀ i < ts.length, ∀ t ∈ ts, t.name ≠ sstName (env.now i))
    {merged : TableDir} {res : Except CompactErr (List SSTable × List Bytes)}
    (h : mergeLoop env floor 0 dir (groupBySimilarSize env.stat (ts.map Table.sst)) =
      (merged, res)) :
    ∀ t ∈ ts, merged.read t.name = some t.content := by
  intro t ht
  have hread : (mergeLoop env floor 0 dir (groupBySimilarSize env.stat (ts.map Table.sst))).1.read
      t.name = dir.read t.name := by
    apply read_mergeLoop
    intro i _ hi
    have hgroups := groupsOf_length_le env.stat ts
    rw [groupBySimilarSize_eq, List.length_map] at hi
    exact hfresh i (by omega) t ht
  rw [h] at hread
  exact hread.trans (hheld t ht)

theorem mergeLoop_ends (floor : Nat)
    (hheld : ∀ t ∈ ts, dir.read t.name = some t.content)
    (hfresh : ∀ i < ts.length, ∀ t ∈ ts, t.name ≠ sstName (env.now i)) {j : Nat}
    (hcall : ∀ c, env.fails c = decide (c = .remove j)) :
    ∃ merged result, mergeLoop env floor 0 dir
      (groupBySimilarSize env.stat (ts.map Table.sst)) =
      (merged, .ok (result, (doomed (groupsOf env.stat ts)).map Table.name)) := by
  have hgroups := groupsHeld_take hheld hfresh (groupsOf env.stat ts).length
  rw [List.take_length] at hgroups
  rw [groupBySimilarSize_eq]
  refine mergeLoop_ok (fun g => ?_) hgroups
  simp [hcall]

/-- When a call fails, a file of the list is gone if its deletion came before it, and
whole otherwise. -/
theorem compact_fault (hheld : ∀ t ∈ ts, dir.read t.name = some t.content)
    (hnodup : (ts.map Table.name).Nodup)
    (hfresh : ∀ i < ts.length, ∀ t ∈ ts, t.name ≠ sstName (env.now i)) {call : IoCall}
    (hcall : ∀ c, env.fails c = decide (c = call)) {e : CompactErr}
    (h : compact env dir (ts.map Table.sst) floor = (dir', .error e)) {t : Table} (ht : t ∈ ts) :
    dir'.read t.name = if t.name ∈ lostNames env ts call then none else some t.content := by
  rcases compact_error h with hmerge | ⟨merged, result, compacted, hmerge, hremove⟩
  · have hstill := mergeLoop_keeps hheld hfresh hmerge t ht
    cases call with
    | remove j =>
        obtain ⟨merged, result, hok⟩ := mergeLoop_ends floor hheld hfresh hcall
        rw [hmerge] at hok
        simp at hok
    | read g => simpa [lostNames] using hstill
    | write g => simpa [lostNames] using hstill
    | dirSync g => simpa [lostNames] using hstill
  · have hstill := mergeLoop_keeps hheld hfresh hmerge
    have hpresent : ∀ t ∈ ts, merged.read t.name ≠ none := by
      intro t ht
      rw [hstill t ht]
      exact Option.some_ne_none _
    -- a deletion fails only when it is the call that does
    have hreached : ∃ k < (doomedOf compacted ts).length, call = .remove k := by
      by_contra hne
      rw [removeLoop_ok (fun k _ hk => ?_) hnodup hpresent] at hremove
      · simp at hremove
      · rw [hcall, decide_eq_false_iff_not]
        exact fun heq => hne ⟨k, by omega, heq.symm⟩
    obtain ⟨j, hj, rfl⟩ := hreached
    obtain ⟨merged', result', hok⟩ := mergeLoop_ends floor hheld hfresh hcall
    rw [hmerge] at hok
    obtain ⟨rfl, hlists⟩ := Prod.mk.inj hok
    obtain ⟨-, rfl⟩ := Prod.mk.inj (Except.ok.inj hlists)
    have hindex : ∀ k, env.fails (.remove k) = decide (k = j) := fun k => by simp [hcall]
    have hfails := removeLoop_fails hindex hnodup (Nat.zero_le j) hpresent
      (List.getElem?_eq_getElem hj)
    rw [hremove, Nat.sub_zero, List.map_take] at hfails
    rw [(Prod.mk.inj hfails).1, read_removeNames, hstill t ht]
    rfl

theorem compact_remove_error (floor : Nat)
    (hheld : ∀ t ∈ ts, dir.read t.name = some t.content)
    (hnodup : (ts.map Table.name).Nodup)
    (hfresh : ∀ i < ts.length, ∀ t ∈ ts, t.name ≠ sstName (env.now i)) {j : Nat}
    (hcall : ∀ c, env.fails c = decide (c = .remove j))
    (hbig : Config.defaultCompactionThreshold ≤ ts.length) (hj : j < (doomedNames env ts).length) :
    ∃ dir' e, compact env dir (ts.map Table.sst) floor = (dir', .error e) := by
  obtain ⟨merged, result, hmerge⟩ := mergeLoop_ends floor hheld hfresh hcall
  have hpresent : ∀ t ∈ ts, merged.read t.name ≠ none := by
    intro t ht
    rw [mergeLoop_keeps hheld hfresh hmerge t ht]
    exact Option.some_ne_none _
  rw [doomedNames, List.length_map] at hj
  have hindex : ∀ k, env.fails (.remove k) = decide (k = j) := fun k => by simp [hcall]
  have hremove := removeLoop_fails hindex hnodup (Nat.zero_le j) hpresent
    (List.getElem?_eq_getElem hj)
  rw [compact, List.length_map, if_neg (not_lt.mpr hbig), hmerge]
  simp only [hremove]
  exact ⟨_, _, rfl⟩

/-- When no deletion fails, a compaction that fails has kept all files, and has written
none but under the names that the clock gave it. -/
theorem compact_unfinished (hremove : ∀ j, env.fails (.remove j) = false)
    (hheld : ∀ t ∈ ts, dir.read t.name = some t.content)
    (hnodup : (ts.map Table.name).Nodup)
    (hfresh : ∀ i < ts.length, ∀ t ∈ ts, t.name ≠ sstName (env.now i)) {e : CompactErr}
    (h : compact env dir (ts.map Table.sst) floor = (dir', .error e)) :
    (∀ t ∈ ts, dir'.read t.name = some t.content) ∧
      ∀ name, dir'.read name ≠ none →
        dir.read name ≠ none ∨ ∃ i < ts.length, name = sstName (env.now i) := by
  rcases compact_error h with hmerge | ⟨merged, result, compacted, hmerge, hfails⟩
  · refine ⟨mergeLoop_keeps hheld hfresh hmerge, fun name hname => ?_⟩
    by_contra hnew
    obtain ⟨hold, hnone⟩ := not_or.mp hnew
    have hread : (mergeLoop env floor 0 dir
        (groupBySimilarSize env.stat (ts.map Table.sst))).1.read name = dir.read name := by
      apply read_mergeLoop
      intro i _ hi heq
      have hgroups := groupsOf_length_le env.stat ts
      rw [groupBySimilarSize_eq, List.length_map] at hi
      exact hnone ⟨i, by omega, heq⟩
    rw [hmerge] at hread
    exact hold (hread ▸ hname)
  · have hpresent : ∀ t ∈ ts, merged.read t.name ≠ none := by
      intro t ht
      rw [mergeLoop_keeps hheld hfresh hmerge t ht]
      exact Option.some_ne_none _
    rw [removeLoop_ok (fun k _ _ => hremove k) hnodup hpresent] at hfails
    simp at hfails

theorem mergeGroup_calm {g : Nat} {group : List SSTable} {sst : SSTable}
    (h : mergeGroup env floor g dir group = (dir', .ok sst)) :
    mergeGroup env.calm floor g dir group = (dir', .ok sst) := by
  unfold mergeGroup at h ⊢
  simp only [Env.calm, Bool.false_eq_true, if_false]
  split at h
  · simp at h
  · split at h
    · simp at h
    · rename_i iterators hread
      dsimp only at h
      split at h
      · simp at h
      · split at h
        · simp at h
        · exact h

theorem mergeLoop_calm {groups : List (List SSTable)} {g : Nat} {out : List SSTable × List Bytes}
    (h : mergeLoop env floor g dir groups = (dir', .ok out)) :
    mergeLoop env.calm floor g dir groups = (dir', .ok out) := by
  induction groups generalizing g dir out with
  | nil => exact h
  | cons group groups ih =>
      rw [mergeLoop] at h ⊢
      split at h
      · rename_i hsmall
        rw [if_pos hsmall]
        split at h
        · simp at h
        · rename_i hrest
          obtain rfl := (Prod.mk.inj h).1
          rw [ih hrest]
          exact h
      · rename_i hlarge
        rw [if_neg hlarge]
        split at h
        · simp at h
        · rename_i hgroup
          rw [mergeGroup_calm hgroup]
          split at h
          · simp at h
          · rename_i hrest
            obtain rfl := (Prod.mk.inj h).1
            dsimp only
            rw [ih hrest]
            exact h

theorem compact_calm {tables result : List SSTable}
    (h : compact env dir tables floor = (dir', .ok result)) :
    compact env.calm dir tables floor = (dir', .ok result) := by
  unfold compact at h ⊢
  split at h
  · rename_i hfew
    rw [if_pos hfew]
    exact h
  · rename_i hmany
    rw [if_neg hmany]
    split at h
    · simp at h
    · rename_i hmerge
      have hcalm := mergeLoop_calm hmerge
      split at h
      · simp at h
      · rename_i hremove
        rw [show env.calm.stat = env.stat from rfl, hcalm]
        dsimp only
        rw [removeLoop_calm hremove]
        exact h

end Faults

end Hcdb.Compaction
