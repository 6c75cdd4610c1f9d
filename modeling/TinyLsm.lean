import TinyLsm.Iterators.MergeIterator
import TinyLsm.Iterators.TwoMergeIterator
import TinyLsm.Block
import TinyLsm.Table
import TinyLsm.Table.Builder
import TinyLsm.Table.Iterator
import TinyLsm.Iterators.ConcatIterator
import TinyLsm.Compact.Task
import TinyLsm.Lib.Effect
import TinyLsm.Manifest
import TinyLsm.SkipMap
import TinyLsm.Wal
import TinyLsm.LsmIterator
import TinyLsm.MemTable
import TinyLsm.LsmStorage.State
import TinyLsm.LsmStorage.Read
import TinyLsm.Compact.Leveled
import TinyLsm.Compact.SimpleLeveled
import TinyLsm.Compact.Tiered
import TinyLsm.Compact
import TinyLsm.LsmStorage.Engine
import TinyLsm.LsmStorage.Open
import TinyLsm.LsmStorage.Invariant
import TinyLsm.Mvcc.Txn
import TinyLsm.Compact.Output
import TinyLsm.LsmStorage.Nonempty
import TinyLsm.Compact.Install
import TinyLsm.LsmStorage.Layout
import TinyLsm.Compact.Bottom
import TinyLsm.LsmStorage.Batch
import TinyLsm.LsmStorage.Close
import TinyLsm.LsmStorage.CommitTs
import TinyLsm.LsmStorage.Sync
import TinyLsm.Iterators.Endless
import TinyLsm.LsmStorage.Compacted
import TinyLsm.Mvcc.KeyHashes
import TinyLsm.Block.RoundTrip
import TinyLsm.Table.RoundTrip
import TinyLsm.LsmStorage.Logs
import TinyLsm.MemTable.Scan
import TinyLsm.Compact.LeveledSorted
import TinyLsm.LsmStorage.Publish
import TinyLsm.LsmStorage.Flushers
import TinyLsm.Table.Casts
import TinyLsm.LsmStorage.Lengths
import TinyLsm.LsmStorage.History
import TinyLsm.Iterators.Errors
import TinyLsm.Iterators.Seek
import TinyLsm.LsmStorage.RangeFilters
import TinyLsm.Table.Damaged
import TinyLsm.Compact.LeveledConverges
import TinyLsm.Compact.Quiescent
import TinyLsm.CompactionSimulator
import TinyLsm.LsmStorage.Replayed
import TinyLsm.LsmStorage.Contents
import TinyLsm.LsmStorage.Preserved
import TinyLsm.LsmStorage.Reopen
import TinyLsm.Mvcc.Snapshot
import TinyLsm.LsmStorage.BlockCache
import TinyLsm.LsmStorage.ConcurrentReads
import TinyLsm.LsmStorage.Held
import TinyLsm.LsmStorage.Uncovered
import TinyLsm.LsmStorage.ReopenedGets
import TinyLsm.LsmStorage.FullCompaction
import TinyLsm.LsmStorage.FailedBatch
import TinyLsm.LsmStorage.Sessions
import TinyLsm.LsmStorage.AgeOrder
