import Turso.Storage.Freelist.Soundness
import Turso.Storage.Freelist.DatabaseFull
import Turso.Storage.Overflow.RoundTrip
import Turso.Storage.Savepoint.Refinement
import Turso.Storage.Wal.RecoveredPrefix
import Turso.Storage.Wal.FrameCache
import Turso.Types.RecordComparers
import Turso.Storage.BTree.Seek.Correct
import Turso.Mvcc.SnapshotIsolation
import Turso.Mvcc.RowidAllocator
import Turso.Mvcc.Checkpoint
import Turso.Incremental.ViewDag
import Turso.Incremental.IvmSum
import Turso.Sync.LazyStorage.Safety
import Turso.Vdbe.Sorter.Correct
import Turso.Vdbe.HashTable.Distinct
import Turso.Json.Path
import Turso.Translate.NullRejection
