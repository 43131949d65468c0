import Fckdb.Accounting
import Fckdb.Aggregate
import Fckdb.Alone
import Fckdb.Api
import Fckdb.AttrIndex
import Fckdb.AttrIndexSpec
import Fckdb.Auth
import Fckdb.Backpressure
import Fckdb.BatchSize
import Fckdb.Bounds
import Fckdb.Branch
import Fckdb.Cache
import Fckdb.CachedReads
import Fckdb.CallMoves
import Fckdb.ClearMoves
import Fckdb.Clusters
import Fckdb.Coercion
import Fckdb.Collection
import Fckdb.CommitLog
import Fckdb.CommitMoves
import Fckdb.Committer
import Fckdb.Compact
import Fckdb.CompareLaws
import Fckdb.Compat
import Fckdb.Crates
import Fckdb.Delivery
import Fckdb.Destroy
import Fckdb.Destruction
import Fckdb.Dimensions
import Fckdb.Doc
import Fckdb.EditBudget
import Fckdb.EmbedResponse
import Fckdb.EmbeddedRows
import Fckdb.Error
import Fckdb.ExactScores
import Fckdb.ExhaustiveSearch
import Fckdb.Filter
import Fckdb.FilterIndex
import Fckdb.FilterWrites
import Fckdb.Float
import Fckdb.Fts
import Fckdb.FullProbe
import Fckdb.Fusion
import Fckdb.Gc
import Fckdb.Glob
import Fckdb.GroupCommit
import Fckdb.GroupKeys
import Fckdb.Grouping
import Fckdb.HashOrder
import Fckdb.HashedCompaction
import Fckdb.History
import Fckdb.IndexArray
import Fckdb.IndexFlaws
import Fckdb.IndexFormat
import Fckdb.IndexObjects
import Fckdb.IndexParts
import Fckdb.IndexScalar
import Fckdb.IntegerSum
import Fckdb.Isolation
import Fckdb.Ivf
import Fckdb.Json
import Fckdb.Lib.Asks
import Fckdb.Lib.Best
import Fckdb.Lib.Binary64
import Fckdb.Lib.Codec
import Fckdb.Lib.Drawn
import Fckdb.Lib.EditDistance
import Fckdb.Lib.Eval
import Fckdb.Lib.Extent
import Fckdb.Lib.Hashing
import Fckdb.Lib.IntegerOrder
import Fckdb.Lib.IntegerSums
import Fckdb.Lib.MixedOrder
import Fckdb.Lib.Pool
import Fckdb.Lib.Postings
import Fckdb.Lib.Prog
import Fckdb.Lib.Replay
import Fckdb.Lib.Rounds
import Fckdb.Lib.Runs
import Fckdb.Lib.Search
import Fckdb.Lib.SortedMap
import Fckdb.Lib.Traces
import Fckdb.Lib.Wildcard
import Fckdb.Linearization
import Fckdb.Live
import Fckdb.LogSafety
import Fckdb.Manifest
import Fckdb.Membership
import Fckdb.Moves
import Fckdb.MultiQueries
import Fckdb.Names
import Fckdb.Namespace
import Fckdb.NearestAlike
import Fckdb.OrderBy
import Fckdb.OrderedQuery
import Fckdb.Partitions
import Fckdb.Placement
import Fckdb.Prefilter
import Fckdb.PrefixReads
import Fckdb.Query
import Fckdb.QueryReads
import Fckdb.Quiet
import Fckdb.QuietQuery
import Fckdb.RankedSearch
import Fckdb.Ranking
import Fckdb.ReadYourWrites
import Fckdb.Readers
import Fckdb.Recompact
import Fckdb.RecordCodec
import Fckdb.RecordSize
import Fckdb.References
import Fckdb.Registry
import Fckdb.Requests
import Fckdb.Schema
import Fckdb.SchemaFrame
import Fckdb.SchemaRuns
import Fckdb.Scoring
import Fckdb.SearchAnswers
import Fckdb.Serial
import Fckdb.Service
import Fckdb.Settings
import Fckdb.ShardedAggregates
import Fckdb.ShardedSearch
import Fckdb.Sharding
import Fckdb.Solo
import Fckdb.SoundAnswers
import Fckdb.Sparse
import Fckdb.Statuses
import Fckdb.Store
import Fckdb.Tenancy
import Fckdb.TextMatch
import Fckdb.TypedRecords
import Fckdb.V2Answers
import Fckdb.V2Query
import Fckdb.Value
import Fckdb.ValueOrder
import Fckdb.WalFormat
import Fckdb.WiderProbe
import Fckdb.WriteAlone
import Fckdb.WriteRequest
