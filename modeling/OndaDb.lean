import OndaDb.BlockCache.Theorems.Books
import OndaDb.Catalog.Theorems.Replayer
import OndaDb.Catalog.Theorems.RoundTrip
import OndaDb.Checkpoint.Theorems.Instant
import OndaDb.Compaction.Theorems.Reads
import OndaDb.Compaction.Theorems.Spanned
import OndaDb.Delta.Theorems.Faithful
import OndaDb.Dirs.Theorems.Apart
import OndaDb.Durations
import OndaDb.Entity.Theorems.Canonical
import OndaDb.Excise.Theorems.Reads
import OndaDb.Fifo.Theorems.Run
import OndaDb.Incarnation.Theorems.Apart
import OndaDb.Parts.Theorems.Detach
import OndaDb.Parts.Theorems.Pause
import OndaDb.Parts.Theorems.Sweep
import OndaDb.Prepared.Theorems.Exact
import OndaDb.Prepared.Theorems.Sweeps
import OndaDb.Publish.Snapshots
import OndaDb.RangeLock.Theorems.Held
import OndaDb.RangeTombstone.Set
import OndaDb.RangeTombstone.Theorems.Mask
import OndaDb.Sst.Separator
import OndaDb.Sst.Theorems.Walk
import OndaDb.TableCache.Theorems.Bounds
import OndaDb.TokenBucket
import OndaDb.Txn.Theorems.Commit
import OndaDb.Txn.Theorems.Index
import OndaDb.TxnLock.Theorems.Safety
import OndaDb.Upgrade.Carry
import OndaDb.Upgrade.Theorems.Crash
import OndaDb.Wal.Theorems.Cut
import OndaDb.Wal.Theorems.GroupCommit
