namespace Hcdb.Config

def maxKeyLength : Nat := 1024

def maxValueLength : Nat := 1048576

/-- The memtable is flushed when it has grown to this many bytes. -/
def defaultMemtableFlushSize : Nat := 4 * 1024 * 1024

/-- A block of a table is closed when its entries reach this size. -/
def defaultBlockSize : Nat := 4096

def defaultSyncThreshold : Nat := 10

def defaultCompactionThreshold : Nat := 4

def defaultSimilarSizeRatio : Nat := 2

def defaultBlockCacheEntries : Nat := 256

def defaultCacheShardCount : Nat := 16

end Hcdb.Config
