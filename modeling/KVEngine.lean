import KVEngine.LSM.Contents
import KVEngine.LSM.Damage
import KVEngine.LSM.Flushing
import KVEngine.LSM.Reopen
import KVEngine.LinearCheck.Check
import KVEngine.Raft.Advance
import KVEngine.Raft.Availability
import KVEngine.Raft.Broadcast
import KVEngine.Raft.Compaction
import KVEngine.Raft.Convergence
import KVEngine.Raft.Disks
import KVEngine.Raft.Duo
import KVEngine.Raft.Envelope
import KVEngine.Raft.Exposed
import KVEngine.Raft.Isolation
import KVEngine.Raft.Matching
import KVEngine.Raft.Overlap
import KVEngine.Raft.Persistence
import KVEngine.Raft.Polls
import KVEngine.Raft.RaftStore
import KVEngine.Raft.SnapshotFiles
import KVEngine.Raft.Stability
import KVEngine.Raft.Tcp
import KVEngine.Replication.CatchUp
import KVEngine.Server.Responses
import KVEngine.Server.Serving
import KVEngine.Store.Concurrent
import KVEngine.Store.Linearizable
import KVEngine.Store.Recovery
import KVEngine.Store.Sessions
import KVEngine.Store.Snapshot
import KVEngine.WAL.Bursts
