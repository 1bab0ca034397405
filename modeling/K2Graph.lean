import K2Graph.Raft.Commit
import K2Graph.Wal.RollbackCrash
import K2Graph.Storage.Queues
import K2Graph.Meta.Truthful
import K2Graph.Meta.Catalogue
import K2Graph.Raft.VoteDurability
import K2Graph.Kvstore.SnapshotTransfer
import K2Graph.Filter.Encoding
import K2Graph.Storaged.Rebuild
import K2Graph.Storaged.Compaction
import K2Graph.Storaged.IndexConsistency
import K2Graph.Metad.BalanceParts
import K2Graph.Metad.SchemaShape
import K2Graph.Graphd.SetExecutor
import K2Graph.Raft.Membership
import K2Graph.Storaged.Uuid
import K2Graph.Raft.Acknowledge
import K2Graph.Raft.Checks
import K2Graph.Graphd.DeleteVertices
import K2Graph.Storage.Transactions
import K2Graph.Dataman.Iterator
import K2Graph.Dataman.RowSet
import K2Graph.Storaged.IndexValues
import K2Graph.Filter.Evaluation
import K2Graph.Filter.Prepare
import K2Graph.Graphd.YieldDistinct
import K2Graph.Metad.LeaderReport
import K2Graph.Base.CollectNSucceeded
import K2Graph.Storage.Promises
import K2Graph.Parser.IntegerLiteral
import K2Graph.Graphd.Lookup
import K2Graph.Metad.Snapshot
import K2Graph.Metad.CreateSpace
import K2Graph.Metad.JobDescription
import K2Graph.Storaged.Buckets
