import IoxCore.Authz.Authorizer
import IoxCore.GarbageCollector.Checker
import IoxCore.IoxQuery.Split
import IoxCore.IoxQuery.SeriesSet
import IoxCore.IoxQuery.OrderUnion
import IoxCore.IoxQuery.GapfillRange
import IoxCore.Influxql.ReduceTime
import IoxCore.Influxql.RoundTrip
import IoxCore.ParquetCache.DataService
import IoxCore.Wal.Wal
import IoxCore.LineProtocol.Display
import IoxCore.LineProtocol.SeriesBase
import IoxCore.Partition.Filter
import IoxCore.MutableBatch.Split
import IoxCore.MutableBatchLp.LinesConverter
import IoxCore.Tsm.Float
import IoxCore.Tsm.Timestamp
import IoxCore.Tsm.Key
import IoxCore.Tsm.Strings
import IoxCore.IoxCatalog.Validate
import IoxCore.IoxCatalog.ParquetFiles
import IoxCore.CacheSystem.Eviction
import IoxCore.CacheSystem.Ttl
import IoxCore.CacheSystem.Refresh
import IoxCore.CacheSystem.RemoveIf
import IoxCore.IoxQuery.Overlap
import IoxCore.CatalogCache.Local
import IoxCore.DataTypes.NamespaceName
import IoxCore.DataTypes.SortKeyIds
import IoxCore.DataTypes.SnapshotHash
import IoxCore.ArrowUtil.Optimize
import IoxCore.Sharder.JumpHash
import IoxCore.IoxQuery.DedupSortOrder
import IoxCore.IoxQueryInfluxql.Window
import IoxCore.IoxQueryInfluxql.Percentile
import IoxCore.QueryFunctions.Regex
import IoxCore.QueryFunctions.Selector
import IoxCore.Backoff.Backoff
import IoxCore.Predicate.Rewrite
