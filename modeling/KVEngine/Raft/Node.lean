import KVEngine.Foundation.Bytes
import KVEngine.Foundation.ReplicatedLog

/-!
# A Raft node

`internal/raft/raft.go`, `persist.go` and `snapshot.go`: the state of one node
and every function that runs under its lock, as pure functions on the state.

Conventions. A function that indexes the log returns an `Option`: `none` is the
index-out-of-range panic of the source. Goroutines that call the transport are
not run here; a function returns the calls it would spawn, and `Cluster` moves
them. `persist` takes the outcome of the file operations as a flag, and a
handler that persists twice takes one flag per call. Terms and indices are
natural numbers; the one place where the source can wrap a 64-bit term, the
increment of `startElection`, takes the increment as a parameter.

Left out: `lastHeartbeat` and the timers (they only decide when an election
starts), and the `""` paths that switch persistence off.
-/

namespace KVEngine.Raft

open Foundation (splice)
open Foundation.ReplicatedLog (Role)

abbrev NodeId : Type := Bytes

/-! ## §1  Wire and log types -/

/-- A `nil` command is `none`; the sentinel at index `0` carries one. -/
structure LogEntry where
  term : ℕ
  command : Option Bytes
deriving DecidableEq

structure ApplyMsg where
  commandIndex : ℕ
  command : Bytes
deriving DecidableEq

structure RequestVoteArgs where
  term : ℕ
  candidateId : NodeId
  lastLogIndex : ℕ
  lastLogTerm : ℕ
deriving DecidableEq

structure RequestVoteReply where
  term : ℕ
  voteGranted : Bool
deriving DecidableEq

structure AppendEntriesArgs where
  term : ℕ
  leaderId : NodeId
  prevLogIndex : ℕ
  prevLogTerm : ℕ
  entries : List LogEntry
  leaderCommit : ℕ
deriving DecidableEq

structure AppendEntriesReply where
  term : ℕ
  success : Bool
  conflictIndex : ℕ
  conflictTerm : ℕ
deriving DecidableEq

/-- `persistentState`, the contents of the state file. -/
structure PersistentState where
  currentTerm : ℕ
  votedFor : NodeId
  log : List LogEntry
deriving DecidableEq

/-- The contents of the snapshot file. -/
structure Snapshot where
  lastIncludedIndex : ℕ
  lastIncludedTerm : ℕ
  data : Bytes
deriving DecidableEq

/-- Where `applyLoop` stands: blocked on `commitNotify`, about to test
`lastApplied < commitIndex` under the lock, or sending with the lock
released. -/
inductive ApplyPc : Type where
  | parked
  | looping
  | sending (msg : ApplyMsg)
deriving DecidableEq

structure Node where
  id : NodeId
  peers : List NodeId
  snapshotIndex : ℕ
  snapshotTerm : ℕ
  currentTerm : ℕ
  votedFor : NodeId
  log : List LogEntry
  commitIndex : ℕ
  lastApplied : ℕ
  role : Role
  leaderId : NodeId
  nextIndex : NodeId → ℕ
  matchIndex : NodeId → ℕ
  /-- One vote counter per election started: the `votes` variables that the
  reply goroutines capture. -/
  elections : List ℕ
  applyPc : ApplyPc
  /-- Whether the one-slot channel `commitNotify` holds its token. -/
  commitNotify : Bool
  stateFile : Option PersistentState
  snapshotFile : Option Snapshot

/-- The RPC that one goroutine of `startElection` issues, with the counter it
captures. -/
structure VoteCall where
  peer : NodeId
  args : RequestVoteArgs
  election : ℕ
deriving DecidableEq

/-- The RPC that the goroutine of `sendAppendEntries` issues. -/
structure AppendCall where
  peer : NodeId
  args : AppendEntriesArgs
deriving DecidableEq

/-- The entry at index `0` of a fresh log. -/
def sentinel : LogEntry := { term := 0, command := none }

namespace Node

/-! ## §2  Persistence and restart -/

def persistentState (n : Node) : PersistentState :=
  { currentTerm := n.currentTerm, votedFor := n.votedFor, log := n.log }

/-- `persist`: the rename either replaced the state file or it is as before. -/
def persist (ok : Bool) (n : Node) : Node :=
  if ok then { n with stateFile := some n.persistentState } else n

/-- The node literal that `NewNode` starts from. -/
def blank (id : NodeId) (peers : List NodeId) (stateFile : Option PersistentState)
    (snapshotFile : Option Snapshot) : Node :=
  { id, peers, snapshotIndex := 0, snapshotTerm := 0, currentTerm := 0,
    votedFor := [], log := [sentinel], commitIndex := 0, lastApplied := 0,
    role := .follower, leaderId := [], nextIndex := fun _ => 0,
    matchIndex := fun _ => 0, elections := [], applyPc := .parked,
    commitNotify := false, stateFile, snapshotFile }

def restoreSnapshot (n : Node) : Node :=
  match n.snapshotFile with
  | none => n
  | some snap =>
      { n with
        snapshotIndex := snap.lastIncludedIndex
        snapshotTerm := snap.lastIncludedTerm
        commitIndex := snap.lastIncludedIndex
        lastApplied := snap.lastIncludedIndex
        log := [{ term := snap.lastIncludedTerm, command := none }] }

def restoreState (n : Node) : Node :=
  match n.stateFile with
  | none => n
  | some ps =>
      { n with currentTerm := ps.currentTerm, votedFor := ps.votedFor, log := ps.log }

/-- `NewNode`: the snapshot first, then the persistent state over it. -/
def newNode (id : NodeId) (peers : List NodeId)
    (stateFile : Option PersistentState) (snapshotFile : Option Snapshot) : Node :=
  let n := (blank id peers stateFile snapshotFile).restoreSnapshot.restoreState
  if n.log.length = 0 then { n with log := [sentinel] } else n

/-- A crash loses everything but the two files. -/
def restart (n : Node) : Node :=
  newNode n.id n.peers n.stateFile n.snapshotFile

/-! ## §3  Elections -/

def lastLogIndexAndTerm (n : Node) : Option (ℕ × ℕ) := do
  let last := n.log.length - 1
  let entry ← n.log[last]?
  return (last, entry.term)

def becomeFollower (ok : Bool) (n : Node) (term : ℕ) : Node :=
  persist ok { n with role := .follower, currentTerm := term, votedFor := [] }

/-- A new term, this node a candidate that votes for itself. -/
def campaign (incr : ℕ → ℕ) (ok : Bool) (n : Node) : Node :=
  persist ok
    { n with currentTerm := incr n.currentTerm, role := .candidate, votedFor := n.id }

/-- `startElection`, with `incr` the increment of the term. The counter of the
new election starts at `1`, the vote for itself. -/
def startElection (incr : ℕ → ℕ) (ok : Bool) (n : Node) :
    Option (Node × List VoteCall) := do
  let n := n.campaign incr ok
  let (lastIdx, lastTerm) ← n.lastLogIndexAndTerm
  let calls := n.peers.map fun peer =>
    { peer, election := n.elections.length,
      args := { term := n.currentTerm, candidateId := n.id,
                lastLogIndex := lastIdx, lastLogTerm := lastTerm } : VoteCall }
  return ({ n with elections := n.elections ++ [1] }, calls)

/-- Majority of the total cluster size. -/
def needed (n : Node) : ℕ := (n.peers.length + 1) / 2 + 1

/-! ## §4  Replication, sender side -/

def sendAppendEntries (n : Node) (peer : NodeId) : Option AppendCall := do
  let nextIdx := if n.nextIndex peer < 1 then 1 else n.nextIndex peer
  let prevLogIndex := nextIdx - 1
  let prev ← n.log[prevLogIndex]?
  let entries := if n.log.length > nextIdx then n.log.drop nextIdx else []
  return { peer,
           args := { term := n.currentTerm, leaderId := n.id, prevLogIndex,
                     prevLogTerm := prev.term, entries,
                     leaderCommit := n.commitIndex } }

def broadcastAppendEntries (n : Node) : Option (List AppendCall) :=
  n.peers.mapM n.sendAppendEntries

/-- The leader's state: fresh `nextIndex` and `matchIndex` maps. -/
def lead (n : Node) (lastIdx : ℕ) : Node :=
  { n with
    role := .leader
    leaderId := n.id
    nextIndex := fun peer => if peer ∈ n.peers then lastIdx + 1 else 0
    matchIndex := fun _ => 0 }

def becomeLeader (n : Node) : Option (Node × List AppendCall) := do
  let (lastIdx, _) ← n.lastLogIndexAndTerm
  let n := n.lead lastIdx
  let calls ← n.broadcastAppendEntries
  return (n, calls)

/-- `votes++` on the counter of an election. -/
def countVote (n : Node) (election : ℕ) : Node :=
  { n with elections := n.elections.set election (n.elections.getD election 0 + 1) }

/-- The goroutine of `startElection` after a reply: `term` and `election` are
what it captured. -/
def handleVoteReply (ok : Bool) (n : Node) (term election : ℕ)
    (reply : RequestVoteReply) : Option (Node × List AppendCall) :=
  if reply.term > n.currentTerm then
    some (n.becomeFollower ok reply.term, [])
  else if n.role ≠ .candidate ∨ n.currentTerm ≠ term then
    some (n, [])
  else if reply.voteGranted then
    let n := n.countVote election
    if n.elections.getD election 0 ≥ n.needed then n.becomeLeader else some (n, [])
  else
    some (n, [])

/-- `count` of `maybeAdvanceCommitIndex`: this node and the peers whose
`matchIndex` has reached `idx`. -/
def matchCount (n : Node) (idx : ℕ) : ℕ :=
  1 + (n.peers.filter fun peer => n.matchIndex peer ≥ idx).length

/-- The loop of `maybeAdvanceCommitIndex`, downward from `idx`. -/
def advanceCommitFrom (n : Node) : ℕ → Node
  | 0 => n
  | idx + 1 =>
      if idx + 1 > n.commitIndex then
        if (n.log[idx + 1]?.map LogEntry.term) ≠ some n.currentTerm then
          advanceCommitFrom n idx
        else if n.matchCount (idx + 1) * 2 > n.peers.length + 1 then
          { n with commitIndex := idx + 1, commitNotify := true }
        else advanceCommitFrom n idx
      else n

def maybeAdvanceCommitIndex (n : Node) : Node :=
  n.advanceCommitFrom (n.log.length - 1)

/-- Last index, from `i` down to `1`, whose entry has term `t`; `0` if none. -/
def lastIndexOfTerm (log : List LogEntry) (t : ℕ) : ℕ → ℕ
  | 0 => 0
  | i + 1 =>
      if (log[i + 1]?.map LogEntry.term) = some t then i + 1
      else lastIndexOfTerm log t i

/-- `nextIndex[peer]` after a rejection: the fast-backup rule. -/
def nextIndexAfterConflict (n : Node) (peer : NodeId) (reply : AppendEntriesReply) :
    ℕ :=
  if reply.conflictTerm ≠ 0 then
    let found := lastIndexOfTerm n.log reply.conflictTerm (n.log.length - 1)
    if found > 0 then found + 1 else reply.conflictIndex
  else if reply.conflictIndex > 0 then reply.conflictIndex
  else if n.nextIndex peer > 1 then n.nextIndex peer - 1
  else n.nextIndex peer

def backUp (n : Node) (peer : NodeId) (reply : AppendEntriesReply) : Node :=
  { n with
    nextIndex := Function.update n.nextIndex peer (n.nextIndexAfterConflict peer reply) }

/-- `matchIndex[peer]` and `nextIndex[peer]` after `peer` accepted `args`. -/
def recordMatch (n : Node) (peer : NodeId) (args : AppendEntriesArgs) : Node :=
  let newMatch := args.prevLogIndex + args.entries.length
  let matched := if newMatch > n.matchIndex peer then newMatch else n.matchIndex peer
  { n with
    matchIndex := Function.update n.matchIndex peer matched
    nextIndex := Function.update n.nextIndex peer (matched + 1) }

/-- The goroutine of `sendAppendEntries` after a reply to `args`. -/
def handleAppendReply (ok : Bool) (n : Node) (peer : NodeId)
    (args : AppendEntriesArgs) (reply : AppendEntriesReply) :
    Option (Node × List AppendCall) :=
  if reply.term > n.currentTerm then
    some (n.becomeFollower ok reply.term, [])
  else if n.role ≠ .leader ∨ n.currentTerm ≠ args.term then
    some (n, [])
  else if reply.success then
    some ((n.recordMatch peer args).maybeAdvanceCommitIndex, [])
  else do
    let n := n.backUp peer reply
    let call ← n.sendAppendEntries peer
    return (n, [call])

/-! ## §5  RPC handlers -/

/-- A newer term is taken over. -/
def adoptTerm (ok : Bool) (n : Node) (term : ℕ) : Node :=
  if term > n.currentTerm then n.becomeFollower ok term else n

/-- `logOK && canVote` of `HandleRequestVote`. -/
def GrantsVote (n : Node) (args : RequestVoteArgs) (lastIdx lastTerm : ℕ) : Prop :=
  (args.lastLogTerm > lastTerm ∨
      (args.lastLogTerm = lastTerm ∧ args.lastLogIndex ≥ lastIdx)) ∧
    (n.votedFor = [] ∨ n.votedFor = args.candidateId)

instance (n : Node) (args : RequestVoteArgs) (lastIdx lastTerm : ℕ) :
    Decidable (n.GrantsVote args lastIdx lastTerm) :=
  inferInstanceAs (Decidable (_ ∧ _))

def handleRequestVote (ok : ℕ → Bool) (n : Node) (args : RequestVoteArgs) :
    Option (Node × RequestVoteReply) :=
  if args.term < n.currentTerm then
    some (n, { term := n.currentTerm, voteGranted := false })
  else do
    let n := n.adoptTerm (ok 0) args.term
    let (lastIdx, lastTerm) ← n.lastLogIndexAndTerm
    if n.GrantsVote args lastIdx lastTerm then
      let n := persist (ok 1) { n with votedFor := args.candidateId }
      return (n, { term := n.currentTerm, voteGranted := true })
    else
      return (n, { term := n.currentTerm, voteGranted := false })

/-- A request of a term not older than ours makes us its sender's follower. In
the same term too: `becomeFollower` then clears `votedFor`. -/
def follow (ok : Bool) (n : Node) (args : AppendEntriesArgs) : Node :=
  { n.becomeFollower ok args.term with leaderId := args.leaderId }

/-- First index of the run of entries of term `t` that ends at `i`, not below
`1`. -/
def firstIndexOfTerm (log : List LogEntry) (t : ℕ) : ℕ → ℕ
  | 0 => 0
  | 1 => 1
  | i + 2 =>
      if (log[i + 1]?.map LogEntry.term) = some t then firstIndexOfTerm log t (i + 1)
      else i + 2

/-- The append loop of `HandleAppendEntries`, from index `idx` on. -/
def appendLoop : List LogEntry → ℕ → List LogEntry → List LogEntry
  | log, _, [] => log
  | log, idx, entry :: rest =>
      if h : idx < log.length then
        if log[idx].term ≠ entry.term then
          -- truncate the divergent suffix, then append
          appendLoop (log.take idx ++ [entry]) (idx + 1) rest
        else appendLoop log (idx + 1) rest
      else appendLoop (log ++ [entry]) (idx + 1) rest

/-- The log part of an accepted request: run the loop and persist it. -/
def appendAndPersist (ok : Bool) (n : Node) (args : AppendEntriesArgs) : Node :=
  let n := { n with log := appendLoop n.log (args.prevLogIndex + 1) args.entries }
  if args.entries.length > 0 then persist ok n else n

/-- `commitIndex` after an accepted request. -/
def followCommit (n : Node) (args : AppendEntriesArgs) : Node :=
  if args.leaderCommit > n.commitIndex then
    let lastNew := args.prevLogIndex + args.entries.length
    { n with
      commitIndex := if args.leaderCommit < lastNew then args.leaderCommit else lastNew
      commitNotify := true }
  else n

def handleAppendEntries (ok : ℕ → Bool) (n : Node) (args : AppendEntriesArgs) :
    Option (Node × AppendEntriesReply) :=
  if args.term < n.currentTerm then
    some (n, { term := n.currentTerm, success := false,
               conflictIndex := 0, conflictTerm := 0 })
  else
    let n := n.follow (ok 0) args
    if args.prevLogIndex ≥ n.log.length then
      some (n, { term := n.currentTerm, success := false,
                 conflictIndex := n.log.length, conflictTerm := 0 })
    else do
      let prev ← n.log[args.prevLogIndex]?
      if prev.term ≠ args.prevLogTerm then
        return (n, { term := n.currentTerm, success := false,
                     conflictIndex := firstIndexOfTerm n.log prev.term args.prevLogIndex,
                     conflictTerm := prev.term })
      else
        let n := (n.appendAndPersist (ok 1) args).followCommit args
        return (n, { term := n.currentTerm, success := true,
                     conflictIndex := 0, conflictTerm := 0 })

/-! ## §6  Clients, the apply loop, snapshots -/

/-- The leader's append: its own `matchIndex` entry follows the log. -/
def appendCommand (ok : Bool) (n : Node) (command : Option Bytes) : Node :=
  let log := n.log ++ [{ term := n.currentTerm, command }]
  persist ok
    { n with log, matchIndex := Function.update n.matchIndex n.id (log.length - 1) }

/-- `Propose`: index, term and whether this node is the leader. -/
def propose (ok : Bool) (n : Node) (command : Option Bytes) :
    Option (Node × List AppendCall × ℕ × ℕ × Bool) :=
  if n.role ≠ .leader then
    some (n, [], 0, n.currentTerm, false)
  else do
    let n := n.appendCommand ok command
    let calls ← n.broadcastAppendEntries
    return (n, calls, n.log.length - 1, n.currentTerm, true)

/-- `applyLoop` receives the token. -/
def applyWake (n : Node) : Option Node :=
  if n.applyPc = .parked ∧ n.commitNotify = true then
    some { n with applyPc := .looping, commitNotify := false }
  else none

/-- One pass of `applyLoop` under the lock: park, or take the next entry. -/
def applyTake (n : Node) : Option Node := do
  guard (n.applyPc = .looping)
  if n.lastApplied < n.commitIndex then
    let entry ← n.log[n.lastApplied + 1]?
    let applyPc := match entry.command with
      | some command => .sending { commandIndex := n.lastApplied + 1, command }
      | none => .looping
    return { n with lastApplied := n.lastApplied + 1, applyPc }
  else
    return { n with applyPc := .parked }

/-- The send on `applyCh` goes through. -/
def applySend (n : Node) : Option (Node × ApplyMsg) :=
  match n.applyPc with
  | .sending msg => some ({ n with applyPc := .looping }, msg)
  | _ => none

/-- `TakeSnapshot` and whether it returned `nil`; `okSnap` and `okState` are
the outcomes of the two file replacements. -/
def takeSnapshot (okSnap okState : Bool) (n : Node) (upToIndex : ℕ)
    (stateMachineData : Bytes) : Option (Node × Bool) :=
  if upToIndex > n.commitIndex then some (n, false)
  else if upToIndex < n.snapshotIndex then some (n, true)
  else if upToIndex ≥ n.log.length then some (n, false)
  else do
    let last ← n.log[upToIndex]?
    if okSnap then
      let n := persist okState
        { n with
          snapshotFile := some { lastIncludedIndex := upToIndex,
                                 lastIncludedTerm := last.term,
                                 data := stateMachineData }
          log := { term := last.term, command := none } :: n.log.drop (upToIndex + 1)
          snapshotIndex := upToIndex
          snapshotTerm := last.term }
      return (n, okState)
    else
      return (n, false)

end Node

end KVEngine.Raft
