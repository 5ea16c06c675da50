import Hcdb.Lib.Spread
import Hcdb.Compaction.Files

namespace Hcdb.Compaction

open Hcdb.Lib.ByteString
open Hcdb.Lib.Spread
open Hcdb.Sstable

section Leaders

variable {α : Type} {size : α → Nat}

end Leaders

section Compact

variable [Runtime] {env : Env} {floor : Nat}

theorem MergeRun.length_eq {g : Nat} {dir dir' : TableDir} {groups : List (List SSTable)}
    {res : Except CompactErr (List SSTable × List Bytes)}
    (hrun : MergeRun env floor g dir groups dir' res) (hne : ∀ group ∈ groups, group ≠ [])
    {out : List SSTable × List Bytes} (hok : res = .ok out) : out.1.length = groups.length := by
  induction hrun generalizing out with
  | nil =>
      obtain rfl := Except.ok.inj hok
      rfl
  | @single g _ _ group groups res hsmall _ ih =>
      cases res with
      | error e => simp [Except.map] at hok
      | ok rest =>
          obtain rfl := Except.ok.inj hok
          have hpos := List.length_pos_iff.mpr (hne group List.mem_cons_self)
          have hrest := ih (fun group hg => hne group (List.mem_cons_of_mem _ hg)) rfl
          simp only [List.length_append, List.length_cons]
          omega
  | failed _ => simp at hok
  | @merged g _ _ _ group groups sst res _ _ ih =>
      cases res with
      | error e => simp [Except.map] at hok
      | ok rest =>
          obtain rfl := Except.ok.inj hok
          have hrest := ih (fun group hg => hne group (List.mem_cons_of_mem _ hg)) rfl
          simp only [List.length_cons, hrest]

end Compact

end Hcdb.Compaction
