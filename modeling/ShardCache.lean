import ShardCache.Foundations.Run
import ShardCache.Foundations.Replay
import ShardCache.Foundations.Linearization
import ShardCache.Foundations.Quorum
import ShardCache.Foundations.Register
import ShardCache.Foundations.MachineOrder
import ShardCache.Foundations.Framing
import ShardCache.Foundations.Codec
import ShardCache.Foundations.Custody
import ShardCache.Foundations.UseOrder
import ShardCache.Foundations.Distinct
import ShardCache.Foundations.Mutex
import ShardCache.Foundations.Newest
import ShardCache.Foundations.Hysteresis
import ShardCache.Foundations.Indexing
import ShardCache.Foundations.Traced
import ShardCache.Store.Entry
import ShardCache.Store.Slot
import ShardCache.Store.Cache
import ShardCache.Store.Operations
import ShardCache.Store.Recency
import ShardCache.Store.Calls
import ShardCache.Store.Contents
import ShardCache.Store.CacheThreads
import ShardCache.Store.Expiry
import ShardCache.Store.Convergence
import ShardCache.Store.Resurrection
import ShardCache.Protocol.Number
import ShardCache.Cluster.Config
import ShardCache.Cluster.HybridClock
import ShardCache.Cluster.ConsistentHash
import ShardCache.Cluster.RoutingTable
import ShardCache.Cluster.PlacementHistory
import ShardCache.Cluster.PreferenceList
import ShardCache.Cluster.Movement
import ShardCache.Store.ShardedCache
import ShardCache.Store.Sharding
import ShardCache.Store.SingleFlight
import ShardCache.Store.OneFetch
import ShardCache.Store.GetOrLoad
import ShardCache.Store.Snapshot
import ShardCache.Store.SnapshotFile
import ShardCache.Store.SnapshotMerge
import ShardCache.Store.SnapshotOrder
import ShardCache.Store.SnapshotReadings
import ShardCache.Store.Persistence
import ShardCache.Cluster.LocalNode
import ShardCache.Cluster.Recency
import ShardCache.Replication.Protocol
import ShardCache.Replication.Fanout
import ShardCache.Replication.Growth
import ShardCache.Replication.Invariant
import ShardCache.Replication.Preservation
import ShardCache.Replication.Visibility
import ShardCache.Replication.Linearizability
import ShardCache.Replication.Expire
import ShardCache.Replication.TimeToLive
import ShardCache.Rebalance.Pass
import ShardCache.Rebalance.Entries
import ShardCache.Rebalance.LastCopy
import ShardCache.Rebalance.ConcurrentWrites
import ShardCache.Rebalance.QuorumTransfer
import ShardCache.Rebalance.Worker
import ShardCache.Membership.State
import ShardCache.Membership.FailureDetection
import ShardCache.Membership.Agreement
import ShardCache.Membership.Routing
import ShardCache.Membership.Gossip
import ShardCache.Membership.OwnEntry
import ShardCache.Membership.Join
import ShardCache.Membership.Convergence
import ShardCache.Protocol.Resp
import ShardCache.Protocol.Grammar
import ShardCache.Protocol.Request
import ShardCache.Protocol.Limits
import ShardCache.Protocol.Command
import ShardCache.Protocol.FuzzTarget
import ShardCache.Network.CommandHandler
import ShardCache.Network.ReplicaWrite
import ShardCache.Network.Deadline
import ShardCache.Network.Session
import ShardCache.Network.PeerChannel
import ShardCache.Network.PeerChannels
import ShardCache.Replication.Handoff
import ShardCache.Replication.HintQueues
import ShardCache.Replication.Eventual
import ShardCache.Replication.ReplicaRead
import ShardCache.Network.Coordinator
import ShardCache.Network.MapServer
import ShardCache.Network.GossipWire
import ShardCache.Network.GossipText
import ShardCache.Network.NodeCalls
import ShardCache.Network.PeerPool
import ShardCache.Network.Rpc
import ShardCache.Cluster.ClockThreads
import ShardCache.Cluster.ThreadRouting
import ShardCache.Protocol.Bounds
import ShardCache.Chaos.Model
import ShardCache.Chaos.Anomaly
