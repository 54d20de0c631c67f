import KVEngine.Foundation.Run
import KVEngine.Raft.Node

/-!
# A cluster of Raft nodes

Nodes, the RPCs their goroutines have issued, and a history of what happened.
Every action is one critical section of one node: an election timer or a
heartbeat firing, a handler run by the transport, a reply processed by the
goroutine that waited for it, a proposal, one step of the apply loop, a
snapshot, or a crash followed by a restart from the files.

An RPC is issued once, handled at most once and its reply processed at most
once, in any order; one that is lost simply never moves again. A crash ends the
goroutines of that process, so a reply is processed only in the process
lifetime that asked for it.

The history is observational: no action reads it. It is kept newest first.
-/

namespace KVEngine.Raft

open Foundation.ReplicatedLog (Role)

/-! ## §1  Configuration and state -/

/-- Members with distinct ids; each one's peers are the other members. -/
structure Config where
  ids : List NodeId
  peers : NodeId → List NodeId
  /-- Increment of a term. -/
  incr : ℕ → ℕ
  ids_nodup : ids.Nodup
  peers_nodup : ∀ i ∈ ids, (peers i).Nodup
  mem_peers : ∀ i ∈ ids, ∀ j, j ∈ peers i ↔ j ∈ ids ∧ j ≠ i

/-- `currentTerm++` on a `uint64`. -/
def incrTerm (t : ℕ) : ℕ := (t + 1) % 2 ^ 64

/-- The cluster of the given members. -/
def Config.ofIds (ids : List NodeId) (incr : ℕ → ℕ) (h : ids.Nodup) : Config where
  ids := ids
  peers := fun i => ids.filter (· ≠ i)
  incr := incr
  ids_nodup := h
  peers_nodup := fun _ _ => h.filter _
  mem_peers := by simp

/-- An RPC is on its way, answered with the answer on its way, or over. -/
inductive Phase (R : Type) : Type where
  | requested
  | replied (reply : R)
  | finished
deriving DecidableEq

structure VoteRpc where
  src : NodeId
  dst : NodeId
  /-- Process lifetime of the sender that waits for the reply. -/
  life : ℕ
  election : ℕ
  args : RequestVoteArgs
  phase : Phase RequestVoteReply
deriving DecidableEq

structure AppendRpc where
  src : NodeId
  dst : NodeId
  life : ℕ
  args : AppendEntriesArgs
  phase : Phase AppendEntriesReply
deriving DecidableEq

inductive Event : Type where
  | voted (voter : NodeId) (term : ℕ) (candidate : NodeId)
  | becameLeader (i : NodeId) (term : ℕ) (log : List LogEntry)
  | proposed (i : NodeId) (term : ℕ) (log : List LogEntry)
  | accepted (i : NodeId) (term : ℕ) (upTo : ℕ)
  | advanced (i : NodeId) (term : ℕ) (commitIndex : ℕ) (log : List LogEntry)
  | taken (i : NodeId) (index : ℕ) (entry : LogEntry)
  | delivered (i : NodeId) (msg : ApplyMsg)
deriving DecidableEq

structure Cluster where
  nodes : NodeId → Node
  /-- How often each process has been restarted. -/
  lives : NodeId → ℕ
  voteRpcs : List VoteRpc
  appendRpcs : List AppendRpc
  history : List Event

/-- Fresh nodes, no files, nothing in flight. -/
def Cluster.initial (cfg : Config) : Cluster where
  nodes := fun i => Node.newNode i (cfg.peers i) none none
  lives := fun _ => 0
  voteRpcs := []
  appendRpcs := []
  history := []

inductive Action : Type where
  | startElection (i : NodeId)
  | heartbeat (i : NodeId)
  | propose (i : NodeId) (command : Option Bytes)
  | deliverVote (r : ℕ)
  | voteReply (r : ℕ)
  | deliverAppend (r : ℕ)
  | appendReply (r : ℕ)
  | applyWake (i : NodeId)
  | applyTake (i : NodeId)
  | applySend (i : NodeId)
  | takeSnapshot (i : NodeId) (upToIndex : ℕ) (data : Bytes)
  | crash (i : NodeId)
  /-- The process dies in `HandleRequestVote` after the first `persist`. -/
  | crashInVote (r : ℕ)
  /-- The process dies in `HandleAppendEntries` after the first `persist`. -/
  | crashInAppend (r : ℕ)
deriving DecidableEq

namespace Cluster

/-! ## §2  Steps -/

@[simps] def setNode (s : Cluster) (i : NodeId) (n : Node) : Cluster :=
  { s with nodes := Function.update s.nodes i n }

/-- Prepend what happened to the history. -/
@[simps] def record (s : Cluster) (evs : List Event) : Cluster :=
  { s with history := evs ++ s.history }

@[simps] def spawnVotes (s : Cluster) (i : NodeId) (calls : List VoteCall) : Cluster :=
  { s with
    voteRpcs := s.voteRpcs ++ calls.map fun c =>
      { src := i, dst := c.peer, life := s.lives i, election := c.election,
        args := c.args, phase := .requested } }

@[simps] def spawnAppends (s : Cluster) (i : NodeId) (calls : List AppendCall) : Cluster :=
  { s with
    appendRpcs := s.appendRpcs ++ calls.map fun c =>
      { src := i, dst := c.peer, life := s.lives i, args := c.args,
        phase := .requested } }

@[simps] def setVoteRpc (s : Cluster) (r : ℕ) (rpc : VoteRpc) : Cluster :=
  { s with voteRpcs := s.voteRpcs.set r rpc }

@[simps] def setAppendRpc (s : Cluster) (r : ℕ) (rpc : AppendRpc) : Cluster :=
  { s with appendRpcs := s.appendRpcs.set r rpc }

/-- The process of `i` dies with the node in state `n` and is started again. -/
@[simps] def reboot (s : Cluster) (i : NodeId) (n : Node) : Cluster :=
  { s.setNode i n.restart with lives := Function.update s.lives i (s.lives i + 1) }

@[simp] theorem record_nil (s : Cluster) : s.record [] = s := rfl

@[simp] theorem spawnAppends_nil (s : Cluster) (i : NodeId) :
    s.spawnAppends i [] = s := by
  simp [spawnAppends]

/-- Every `persist` succeeds. -/
def persistOk : ℕ → Bool := fun _ => true

/-- `electionLoop` fires: never on a leader. -/
def startElection (cfg : Config) (s : Cluster) (i : NodeId) : Option Cluster := do
  guard (i ∈ cfg.ids ∧ (s.nodes i).role ≠ .leader)
  let (n, calls) ← (s.nodes i).startElection cfg.incr true
  return ((s.setNode i n).spawnVotes i calls).record [.voted i n.currentTerm i]

/-- `heartbeatLoop` fires: only a leader broadcasts. -/
def heartbeat (cfg : Config) (s : Cluster) (i : NodeId) : Option Cluster := do
  guard (i ∈ cfg.ids ∧ (s.nodes i).role = .leader)
  let calls ← (s.nodes i).broadcastAppendEntries
  return s.spawnAppends i calls

def propose (cfg : Config) (s : Cluster) (i : NodeId) (command : Option Bytes) :
    Option Cluster := do
  guard (i ∈ cfg.ids)
  let (n, calls, idx, term, isLeader) ← (s.nodes i).propose true command
  return ((s.setNode i n).spawnAppends i calls).record
    (if isLeader then [.proposed i term n.log, .accepted i term idx] else [])

def deliverVote (s : Cluster) (r : ℕ) : Option Cluster := do
  let rpc ← s.voteRpcs[r]?
  guard (rpc.phase = .requested)
  let (n, reply) ← (s.nodes rpc.dst).handleRequestVote persistOk rpc.args
  return ((s.setNode rpc.dst n).setVoteRpc r { rpc with phase := .replied reply }).record
    (if reply.voteGranted then [.voted rpc.dst reply.term rpc.args.candidateId] else [])

/-- Reply to a vote request. Winning is seen as the change of role. -/
def voteReply (s : Cluster) (r : ℕ) : Option Cluster := do
  let rpc ← s.voteRpcs[r]?
  guard (rpc.life = s.lives rpc.src)
  match rpc.phase with
  | .replied reply =>
      let (n, calls) ←
        (s.nodes rpc.src).handleVoteReply true rpc.args.term rpc.election reply
      return (((s.setNode rpc.src n).setVoteRpc r
          { rpc with phase := .finished }).spawnAppends rpc.src calls).record
        (if (s.nodes rpc.src).role ≠ .leader ∧ n.role = .leader then
          [.becameLeader rpc.src n.currentTerm n.log,
           .accepted rpc.src n.currentTerm (n.log.length - 1)] else [])
  | _ => none

def deliverAppend (s : Cluster) (r : ℕ) : Option Cluster := do
  let rpc ← s.appendRpcs[r]?
  guard (rpc.phase = .requested)
  let (n, reply) ← (s.nodes rpc.dst).handleAppendEntries persistOk rpc.args
  return ((s.setNode rpc.dst n).setAppendRpc r { rpc with phase := .replied reply }).record
    (if reply.success then
      [.accepted rpc.dst reply.term (rpc.args.prevLogIndex + rpc.args.entries.length)]
     else [])

/-- Reply to an append request. A commit by counting replicas is seen as a
larger `commitIndex`. -/
def appendReply (s : Cluster) (r : ℕ) : Option Cluster := do
  let rpc ← s.appendRpcs[r]?
  guard (rpc.life = s.lives rpc.src)
  match rpc.phase with
  | .replied reply =>
      let (n, calls) ← (s.nodes rpc.src).handleAppendReply true rpc.dst rpc.args reply
      return (((s.setNode rpc.src n).setAppendRpc r
          { rpc with phase := .finished }).spawnAppends rpc.src calls).record
        (if (s.nodes rpc.src).commitIndex < n.commitIndex then
          [.advanced rpc.src n.currentTerm n.commitIndex n.log] else [])
  | _ => none

def applyWake (cfg : Config) (s : Cluster) (i : NodeId) : Option Cluster := do
  guard (i ∈ cfg.ids)
  let n ← (s.nodes i).applyWake
  return s.setNode i n

/-- The entry taken is the one at the new `lastApplied`. -/
def applyTake (cfg : Config) (s : Cluster) (i : NodeId) : Option Cluster := do
  guard (i ∈ cfg.ids)
  let n ← (s.nodes i).applyTake
  return (s.setNode i n).record
    (if (s.nodes i).lastApplied < n.lastApplied then
      (n.log[n.lastApplied]?.map fun e => Event.taken i n.lastApplied e).toList else [])

def applySend (cfg : Config) (s : Cluster) (i : NodeId) : Option Cluster := do
  guard (i ∈ cfg.ids)
  let (n, msg) ← (s.nodes i).applySend
  return (s.setNode i n).record [.delivered i msg]

def takeSnapshot (cfg : Config) (s : Cluster) (i : NodeId) (upToIndex : ℕ)
    (data : Bytes) : Option Cluster := do
  guard (i ∈ cfg.ids)
  let (n, _) ← (s.nodes i).takeSnapshot true true upToIndex data
  return s.setNode i n

def crash (cfg : Config) (s : Cluster) (i : NodeId) : Option Cluster := do
  guard (i ∈ cfg.ids)
  return s.reboot i (s.nodes i)

def crashInVote (s : Cluster) (r : ℕ) : Option Cluster := do
  let rpc ← s.voteRpcs[r]?
  let n := s.nodes rpc.dst
  guard (rpc.phase = .requested ∧ rpc.args.term > n.currentTerm)
  return (s.setVoteRpc r { rpc with phase := .finished }).reboot rpc.dst
    (n.becomeFollower true rpc.args.term)

def crashInAppend (s : Cluster) (r : ℕ) : Option Cluster := do
  let rpc ← s.appendRpcs[r]?
  let n := s.nodes rpc.dst
  guard (rpc.phase = .requested ∧ rpc.args.term ≥ n.currentTerm)
  return (s.setAppendRpc r { rpc with phase := .finished }).reboot rpc.dst
    (n.becomeFollower true rpc.args.term)

def step (cfg : Config) (s : Cluster) : Action → Option Cluster
  | .startElection i => s.startElection cfg i
  | .heartbeat i => s.heartbeat cfg i
  | .propose i command => s.propose cfg i command
  | .deliverVote r => s.deliverVote r
  | .voteReply r => s.voteReply r
  | .deliverAppend r => s.deliverAppend r
  | .appendReply r => s.appendReply r
  | .applyWake i => s.applyWake cfg i
  | .applyTake i => s.applyTake cfg i
  | .applySend i => s.applySend cfg i
  | .takeSnapshot i upToIndex data => s.takeSnapshot cfg i upToIndex data
  | .crash i => s.crash cfg i
  | .crashInVote r => s.crashInVote r
  | .crashInAppend r => s.crashInAppend r

end Cluster

end KVEngine.Raft
