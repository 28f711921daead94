import Basalt.Lib.Quorum
import Basalt.Lib.ReplicatedLog.Protocol
import Basalt.Lib.ReplicatedLog.Invariant
import Basalt.Lib.ReplicatedLog.Safety
import Basalt.Lib.Election
import Basalt.Lib.Bytes
import Basalt.Lib.Framing
import Basalt.Wal.Record
import Basalt.Raft.Types
import Basalt.Raft.Log
import Basalt.Raft.Node
import Basalt.Raft.Storage
import Basalt.Raft.StorageCrash
import Basalt.Lib.Outcome
import Basalt.Lib.Run
import Basalt.Raft.Machine
import Basalt.Raft.Operations
import Basalt.Raft.PersistedPrefix
import Basalt.Raft.Persistence
import Basalt.Raft.LogView
import Basalt.Raft.Refinement
import Basalt.Raft.Cluster
import Basalt.Raft.StateMachineSafety
import Basalt.Raft.LogSafety
import Basalt.Raft.ReadIndex
import Basalt.Raft.ElectionSafety
import Basalt.Shard.Map
import Basalt.Shard.Publish
import Basalt.Lib.Varint
import Basalt.Lib.KeyRange
import Basalt.Base.InternalKey
import Basalt.Base.Varint
import Basalt.Wal.Batch
import Basalt.Engine.Command
import Basalt.Engine.StateMachine
import Basalt.Engine.Records
import Basalt.Engine.Replay
import Basalt.Cluster.FrontDoor
import Basalt.Raft.ConfChange
import Basalt.Lib.Proc
import Basalt.Lib.Keyed
import Basalt.Wal.Writer
import Basalt.Wal.Durability
import Basalt.Manifest.Edit
import Basalt.Manifest.Version
import Basalt.Manifest.VersionSet
import Basalt.Wal.Checksum
import Basalt.Manifest.TornTail
import Basalt.Manifest.Ledger
import Basalt.Manifest.Courses
import Basalt.Manifest.Recovery
import Basalt.Raft.Restart
import Basalt.Cluster.Group
import Basalt.Cluster.Reopen
import Basalt.Cluster.GroupStages
import Basalt.Raft.Snapshot
import Basalt.Raft.Backtrack
import Basalt.Raft.Acts
import Basalt.Raft.PreVote
import Basalt.Raft.PreVoteRounds
import Basalt.Raft.Progress
import Basalt.Raft.AckQuorums
import Basalt.Raft.RestoredMembers
import Basalt.Shard.Ownership
import Basalt.Cluster.Serving
import Basalt.Cluster.CopySlot
import Basalt.Lib.Ascending
import Basalt.Engine.Merge
import Basalt.Engine.Levels
import Basalt.Engine.Compaction
import Basalt.Engine.CompactionInputs
import Basalt.Engine.CompactionEdit
import Basalt.Engine.CompactionVisible
import Basalt.Engine.Cascade
import Basalt.Engine.HandleCounts
import Basalt.Engine.Core
import Basalt.Engine.Steps
import Basalt.Engine.Stall
import Basalt.Engine.Sealing
import Basalt.Engine.Holdings
import Basalt.Engine.Reopening
import Basalt.Table.Bloom
import Basalt.Wal.BatchBounds
import Basalt.Wal.ScanPrefix
import Basalt.Manifest.RoundTrip
import Basalt.Raft.StorageReplay
import Basalt.Raft.MaybeAppend
import Basalt.Engine.SkiplistRuns
import Basalt.Engine.MergeRuns
