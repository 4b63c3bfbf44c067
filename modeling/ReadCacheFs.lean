import ReadCacheFs.Lib.Bisection
import ReadCacheFs.Lib.Cuts
import ReadCacheFs.Lib.KeyedQueue
import ReadCacheFs.Lib.LossyMap
import ReadCacheFs.Lib.MultiMap
import ReadCacheFs.Lib.NodeList
import ReadCacheFs.Lib.OrderedKeys
import ReadCacheFs.Lib.Recency
import ReadCacheFs.Lib.Replacement
import ReadCacheFs.Lib.Runs
import ReadCacheFs.Lib.SecondChance
import ReadCacheFs.Lib.Slices
import ReadCacheFs.Lib.TimedRecency
import ReadCacheFs.Basic
import ReadCacheFs.StringUtil
import ReadCacheFs.ThreadPool
import ReadCacheFs.CachePaths
import ReadCacheFs.UrlUtils
import ReadCacheFs.Chunking
import ReadCacheFs.Layout
import ReadCacheFs.LayoutLookup
import ReadCacheFs.Planner
import ReadCacheFs.PlanKeys
import ReadCacheFs.PlanRace
import ReadCacheFs.Remap
import ReadCacheFs.RemapFacts
import ReadCacheFs.RemapRuns
import ReadCacheFs.RemapKeys
import ReadCacheFs.RemapExact
import ReadCacheFs.DiskFiles
import ReadCacheFs.PublishedFiles
import ReadCacheFs.CacheFileInfo
import ReadCacheFs.SharedValueLru
import ReadCacheFs.SharedValueLruMap
import ReadCacheFs.SingleFlight
import ReadCacheFs.CreationInvalidation
import ReadCacheFs.ExclusiveMultiLru
import ReadCacheFs.ExclusiveMultiLruQueue
import ReadCacheFs.FileHandleCache
import ReadCacheFs.EvictionPolicy
import ReadCacheFs.ClockQueue
import ReadCacheFs.PolicyStorage
import ReadCacheFs.FilePolicySpec
import ReadCacheFs.PolicyContents
import ReadCacheFs.PolicyInvariant
import ReadCacheFs.GroupIsolation
import ReadCacheFs.GroupBudgets
import ReadCacheFs.ClockFifo
import ReadCacheFs.PolicyAccess
import ReadCacheFs.ReplacementRuns
import ReadCacheFs.ExtensionStorage
import ReadCacheFs.ExtensionRace
import ReadCacheFs.ObjectStorage
import ReadCacheFs.ObjectRace
import ReadCacheFs.DataCacheStorage
import ReadCacheFs.FileInvalidation
import ReadCacheFs.BackendEquivalence
import ReadCacheFs.Readers
import ReadCacheFs.ReadTasks
import ReadCacheFs.GridArithmetic
import ReadCacheFs.CacheFileSystem
import ReadCacheFs.RemapOverlap
import ReadCacheFs.Mirror
import ReadCacheFs.StorageContract
import ReadCacheFs.PinnedBlocks
import ReadCacheFs.Staleness
import ReadCacheFs.Transparency
import ReadCacheFs.AccessTimestamps
import ReadCacheFs.AccessRecency
import ReadCacheFs.CacheDirectories
import ReadCacheFs.DiskInvalidation
import ReadCacheFs.DiskTransparency
import ReadCacheFs.ReadTransparency
import ReadCacheFs.ProfiledReads
import ReadCacheFs.ByteStatistics
import ReadCacheFs.ReadOpens
import ReadCacheFs.ReopenedReads
import ReadCacheFs.RemovalRace
import ReadCacheFs.FailedReads
import ReadCacheFs.CachedBytes
import ReadCacheFs.CachedReads
import ReadCacheFs.ChangingRemote
import ReadCacheFs.ClearedReads
import ReadCacheFs.MemoryBound
import ReadCacheFs.PolicyStats
import ReadCacheFs.Settings
import ReadCacheFs.SettingsSessions
import ReadCacheFs.FlightTimes
import ReadCacheFs.MetadataCache
import ReadCacheFs.CacheListing
import ReadCacheFs.ReadPins
import ReadCacheFs.ConcurrentReads
import ReadCacheFs.PooledReads
