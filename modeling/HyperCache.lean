import HyperCache.Accounting
import HyperCache.ArcBounds
import HyperCache.Bootstrap
import HyperCache.ClientFailover
import HyperCache.ClientPut
import HyperCache.ClockProgress
import HyperCache.ConcurrentRecord
import HyperCache.Dissemination
import HyperCache.EventDelivery
import HyperCache.Exclusive
import HyperCache.ExpirationTrigger
import HyperCache.FailedOperations
import HyperCache.Handoff
import HyperCache.HeartbeatMetrics
import HyperCache.HintLedger
import HyperCache.KeyListing
import HyperCache.LeastRecent
import HyperCache.LfuRefinement
import HyperCache.Listing
import HyperCache.MerkleLeaf
import HyperCache.PointerTables
import HyperCache.PoolProgress
import HyperCache.QuorumReads
import HyperCache.RepairShutdown
import HyperCache.Resizing
import HyperCache.ShardedMap
import HyperCache.Sharding
import HyperCache.Shedding
import HyperCache.TombstoneSweep
import HyperCache.Versions
import HyperCache.Wrapping
