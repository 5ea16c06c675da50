import Hcdb.Lib.ByteString
import Hcdb.Lib.SortedList
import Hcdb.Lib.FiniteMap
import Hcdb.Config
import Hcdb.Base.InternalKey
import Hcdb.Base.Entry
import Hcdb.Runtime
import Hcdb.Bloomfilter
import Hcdb.Memtable
import Hcdb.Sstable.Block
import Hcdb.Sstable.Index
import Hcdb.Sstable.Writer
import Hcdb.Sstable.Reader
import Hcdb.Sstable.RoundTrip
import Hcdb.Lib.Traversal
import Hcdb.Sstable.Iterator
import Hcdb.Sstable.Table
import Hcdb.Lib.PriorityQueue
import Hcdb.Base.Layers
import Hcdb.Db.Iterator
import Hcdb.Db.Pool
import Hcdb.Db.Heap
import Hcdb.Db.MergeScan
import Hcdb.Db.Read
import Hcdb.Db.Damage
import Hcdb.Lib.Retain
import Hcdb.Lib.Decimal
import Hcdb.Sstable.OpenAll
import Hcdb.Compaction.Compact
import Hcdb.Compaction.Groups
import Hcdb.Compaction.Files
import Hcdb.Base.Watermark
import Hcdb.Lib.BufferedWriter
import Hcdb.Wal
import Hcdb.Db.Operations
import Hcdb.Db.State
import Hcdb.Db.CompactedScan
import Hcdb.Db.Run
import Hcdb.Db.LastWrite
import Hcdb.Db.Levels
import Hcdb.Db.History
import Hcdb.Db.Recovery
import Hcdb.Db.FlushCrash
import Hcdb.Compaction.Restart
import Hcdb.Db.CompactionCrash
import Hcdb.Db.Mvcc
import Hcdb.Db.Leftover
import Hcdb.Db.Snapshots
import Hcdb.Compaction.Faults
import Hcdb.Db.FaultyFlush
import Hcdb.Sstable.Flush
import Hcdb.Lib.Framing
import Hcdb.Wal.Replay
import Hcdb.Lib.Loop
import Hcdb.Db.ScanLoops
import Hcdb.Lib.Lines
import Hcdb.Resp
import Hcdb.Resp.Stream
import Hcdb.Server.Dispatch
import Hcdb.Lib.Transition
import Hcdb.Server.Shutdown
import Hcdb.Db.Life
import Hcdb.Db.LossWindow
import Hcdb.Compaction.Contents
import Hcdb.Db.SeqNums
import Hcdb.Cache
import Hcdb.Lib.Asking
import Hcdb.Sstable.Cached
import Hcdb.Db.Cached
import Hcdb.Db.Contents
import Hcdb.Db.BlockCache
import Hcdb.Sstable.Run
import Hcdb.Sstable.ScanSources
import Hcdb.Sstable.Panics
import Hcdb.Resp.Buffers
import Hcdb.Server.Del
import Hcdb.Lib.Recency
import Hcdb.Cache.Ideal
import Hcdb.Lib.Simulation
import Hcdb.Db.Threads
import Hcdb.Db.Mapping
import Hcdb.Db.ConcurrentMap
import Hcdb.Server.Connections
import Hcdb.Server.Session
import Hcdb.Db.Durability
import Hcdb.Lib.Fallible
import Hcdb.Faultinjection
import Hcdb.Wal.Fallible
import Hcdb.Db.FaultyRun
import Hcdb.Db.FaultyLog
import Hcdb.Db.OpenScan
import Hcdb.Lib.Objects
import Hcdb.Db.VersionedMap
import Hcdb.Lib.Spread
import Hcdb.Compaction.Sizes
import Hcdb.Db.TableCount
import Hcdb.Lib.BinaryHeap
import Hcdb.Db.HeapScan
import Hcdb.Db.Relisting
