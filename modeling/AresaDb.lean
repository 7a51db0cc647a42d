import AresaDb.Lib.ByteOrder
import AresaDb.Lib.OrdMap
import AresaDb.Lib.Tiling
import AresaDb.Lib.Run
import AresaDb.Pd.Types
import AresaDb.Pd.Catalog
import AresaDb.Pd.CatalogSteps
import AresaDb.Pd.CatalogInv
import AresaDb.Pd.CatalogIds
import AresaDb.Pd.CatalogRuns
import AresaDb.Core.Storage
import AresaDb.Lib.Codec
import AresaDb.Pd.CatalogOwners
import AresaDb.Pd.Persist
import AresaDb.Pd.RaftTypes
import AresaDb.Pd.StateMachine
import AresaDb.Pd.CatalogLoad
import AresaDb.Pd.Rows
import AresaDb.Pd.Durability
import AresaDb.Pd.Replication
import AresaDb.Pd.SnapshotRace
import AresaDb.Core.Keys
import AresaDb.Core.KeyOrder
import AresaDb.Core.Engines
import AresaDb.Raft.LogStore
import AresaDb.Raft.LogHistory
import AresaDb.Raft.Command
import AresaDb.Raft.LogRuns
import AresaDb.Raft.StateMachine
import AresaDb.Raft.Recovery
import AresaDb.Cluster.Admin
import AresaDb.Cluster.Directory
import AresaDb.Cluster.Reconcile
import AresaDb.Cluster.Isolation
import AresaDb.Pd.SnapshotRoundTrip
import AresaDb.Pd.Rejection
import AresaDb.Core.Scans
import AresaDb.Lib.Multimap
import AresaDb.Lib.Binary64
import AresaDb.Store.Value
import AresaDb.Store.Local
import AresaDb.Store.Edges
import AresaDb.Store.Transaction
import AresaDb.Store.TransactionSafe
import AresaDb.Store.FieldIndex
import AresaDb.Store.PropertyIndex
import AresaDb.Store.FullText
import AresaDb.Store.Tiered
import AresaDb.Store.Copies
import AresaDb.Store.Tiering
import AresaDb.Store.IndexRuns
import AresaDb.Store.IndexLookup
import AresaDb.Store.Concurrent
import AresaDb.Store.LostUpdate
import AresaDb.Store.StaleCopy
import AresaDb.Query.Types
import AresaDb.Query.Executor
import AresaDb.Query.Reads
import AresaDb.Query.IndexPlans
import AresaDb.Lib.Kleene
import AresaDb.Query.Parser
import AresaDb.Query.Where
import AresaDb.Pd.CatalogQueries
import AresaDb.Pd.CatalogRetry
import AresaDb.Pd.CatalogCounters
import AresaDb.Distributed.Replica
import AresaDb.Distributed.Votes
import AresaDb.Distributed.AppendEntries
import AresaDb.Distributed.Bloom
import AresaDb.Distributed.Shard
import AresaDb.Store.Layouts
import AresaDb.Schemas.Registry
import AresaDb.Schemas.Manager
import AresaDb.Lib.Format
import AresaDb.Server.Protocol
import AresaDb.Server.Wire
import AresaDb.Lib.BestFirst
import AresaDb.Vectors.Index
import AresaDb.Vectors.Freshness
import AresaDb.Vectors.Links
import AresaDb.Lib.Keyed
import AresaDb.Cluster.DirectoryRuns
import AresaDb.Cluster.RangeAdmin
import AresaDb.Lib.Glob
import AresaDb.Query.Filters
import AresaDb.Query.Like
import AresaDb.Query.Results
import AresaDb.Query.Inserts
import AresaDb.Lib.StableSort
import AresaDb.Query.Ordering
import AresaDb.Lib.FloatText
import AresaDb.Lib.Text
import AresaDb.Query.Commands
import AresaDb.Lib.Keywords
import AresaDb.Query.ParserPanics
import AresaDb.Query.WhereText
import AresaDb.Query.VectorFilters
import AresaDb.Query.VectorStatement
import AresaDb.Query.Engine
import AresaDb.Query.CallerLimits
import AresaDb.Lib.BreadthFirst
import AresaDb.Store.RoundTrips
import AresaDb.Store.Graph
import AresaDb.Query.Traversal
import AresaDb.Query.TraverseExact
import AresaDb.Query.ShortestPath
import AresaDb.Query.Spellings
import AresaDb.Query.Components
import AresaDb.Store.ParallelTraverse
import AresaDb.Vectors.Reachable
import AresaDb.Lib.Nearest
import AresaDb.Vectors.Generic
import AresaDb.Vectors.SearchExact
import AresaDb.Vectors.Scan
import AresaDb.Vectors.TopK
import AresaDb.Vectors.Metrics
import AresaDb.Rag.Fusion
import AresaDb.Lib.Windows
import AresaDb.Lib.Drain
import AresaDb.Lib.BitWords
import AresaDb.Lib.Successor
import AresaDb.Lib.LittleEndian
import AresaDb.Lib.Nibbles
import AresaDb.Distributed.BloomRuns
import AresaDb.Distributed.BloomBytes
import AresaDb.Distributed.CountingBloom
import AresaDb.Distributed.ShardListing
import AresaDb.Distributed.ShardCascade
import AresaDb.Distributed.Ring
import AresaDb.Distributed.Streaming
import AresaDb.Rag.Chunker
import AresaDb.Store.Cache
import AresaDb.Schemas.Fields
import AresaDb.Schemas.Validation
import AresaDb.Store.BucketSync
import AresaDb.Lib.Blanks
import AresaDb.Lib.Greedy
import AresaDb.Lib.Lines
import AresaDb.Lib.Pieces
import AresaDb.Rag.Strategies
import AresaDb.Rag.Sentences
import AresaDb.Rag.Groups
import AresaDb.Rag.Limits
import AresaDb.Lib.Rounding
import AresaDb.Query.Comparison
import AresaDb.Lib.FixedPoint
import AresaDb.Store.IndexKeys
import AresaDb.Rag.Context
import AresaDb.Rag.Located
import AresaDb.Pd.CatalogGroups
import AresaDb.Cluster.Fleet
import AresaDb.Pd.Admin
import AresaDb.Pd.AdminRuns
import AresaDb.Server.Handler
import AresaDb.Server.Session
import AresaDb.Server.Transactions
import AresaDb.Core.EngineRuns
import AresaDb.Net.Transport
import AresaDb.Pd.Heartbeat
import AresaDb.Server.Clients
import AresaDb.Server.ClientRuns
import AresaDb.Rag.Retrieval
