import KVEngine.Foundation.Replace
import KVEngine.Foundation.Stoppable
import KVEngine.Raft.Persistence
import KVEngine.Raft.Safety
import KVEngine.Raft.Senders
import KVEngine.Raft.Wire

/-!
# Clusters on files

`persist.go` down to the bytes of the state file. `persist` marshals term, vote and log
and replaces the file in five operations; the process may stop at any of them, in the
middle of a handler that persists twice as well, and `NewNode` has nothing but the bytes
to start from.

In `Cluster` a file is replaced in one step, and a process dies between two steps or at
one named point of a handler. That is enough: a cluster on files whose processes stop
anywhere runs as a cluster does (`disks_refine`), so what is proved of every run of
`Cluster` holds on files. The members' ids are taken to be well formed, as the JSON text
would hold another vote for an id that is not.

An error of an operation is in the model as well, but not in the theorem: the handlers go
on after it, and the answer is then ahead of the file (`Node.reply_ahead_of_file`). The
snapshot file is the subject of `SnapshotFiles`.
-/

namespace KVEngine.Raft

open Foundation (Run Slot Faults Stoppable Ending guard_bind_eq_some)
open Foundation.Stoppable (Meets meets_pure meets_lift lift)
open Foundation.Text (text)
open Foundation.Json (Codec uint64Member stringMember store_uint64Member store_stringMember)
open Foundation.Utf8 (coerce Valid coerce_eq_iff)

/-! ## §1  The bytes of the state file -/

def PersistentState.codec : Codec 2 PersistentState where
  members := [uint64Member (text "current_term") PersistentState.currentTerm
      fun ps n => { ps with currentTerm := n },
    stringMember (text "voted_for") PersistentState.votedFor fun ps s => { ps with votedFor := s },
    LogEntry.codec.sliceMember (text "log") PersistentState.log fun ps es => { ps with log := es }]
  zero := { currentTerm := 0, votedFor := [], log := [] }
  nodup := by decide +kernel
  valid := by decide +kernel

def PersistentState.Fits (ps : PersistentState) : Prop :=
  ps.currentTerm < 2 ^ 64 ∧ ∀ e ∈ ps.log, e.Fits

instance decidableStateFits (ps : PersistentState) : Decidable ps.Fits :=
  inferInstanceAs (Decidable (_ ∧ _))

theorem PersistentState.unmarshal_marshal (ps : PersistentState) :
    PersistentState.codec.unmarshal (PersistentState.codec.marshal ps) =
      if ps.Fits then some { ps with votedFor := coerce ps.votedFor } else none := by
  rw [Codec.unmarshal_marshal _ (by decide)]
  unfold Codec.stored PersistentState.codec
  simp only [List.foldlM_cons, List.foldlM_nil, store_uint64Member, store_stringMember,
    Codec.store_sliceMember, mapM_stored, Option.map_if, Option.bind_eq_bind, bind_ite,
    Option.bind_some, Option.pure_def, ← ite_and]
  rfl

/-- `NewNode` on the bytes of the state file; `none` is its error. -/
def bootNode (file : Option Bytes) (n : Node) : Option Node :=
  match file with
  | none => some (Node.newNode n.id n.peers none n.snapshotFile)
  | some data => (PersistentState.codec.unmarshal data).map fun ps =>
      Node.newNode n.id n.peers (some ps) n.snapshotFile

/-- The bytes of what was persisted. -/
def fileOf (saved : Option PersistentState) : Option Bytes :=
  saved.map PersistentState.codec.marshal

/-- A node that starts from the bytes is the one that starts from the struct. -/
theorem bootNode_fileOf {saved : Option PersistentState} (h : ∀ ps ∈ saved, Valid ps.votedFor)
    (n : Node) :
    (∀ m, bootNode (fileOf saved) n = some m →
      m = Node.newNode n.id n.peers saved n.snapshotFile) ∧
    ((∀ ps ∈ saved, ps.Fits) →
      bootNode (fileOf saved) n = some (Node.newNode n.id n.peers saved n.snapshotFile)) := by
  cases saved with
  | none => exact ⟨fun m hm => (Option.some.inj hm).symm, fun _ => rfl⟩
  | some ps =>
      have hread : bootNode (fileOf (some ps)) n =
          if ps.Fits then some (Node.newNode n.id n.peers (some ps) n.snapshotFile) else none := by
        show (PersistentState.codec.unmarshal (PersistentState.codec.marshal ps)).map _ = _
        rw [PersistentState.unmarshal_marshal, (coerce_eq_iff _).mpr (h ps rfl), Option.map_if]
      rw [hread]
      constructor
      · intro m hm
        split at hm
        · exact (Option.some.inj hm).symm
        · cases hm
      · intro hfits
        exact if_pos (hfits ps rfl)

/-! ## §2  Handlers on files -/

/-- The state file of a process, what goes wrong at the `persist`s to come, and whether
the critical section in progress has replaced the file. -/
structure Drive where
  slot : Slot UInt8
  faults : List (Faults UInt8)
  saved : Bool

abbrev OnDisk (α : Type) : Type := Stoppable Drive α

namespace Node

/-- `persist`. The field `stateFile`, which `Cluster` restarts from, only remembers here
what was persisted last: nothing below reads it. -/
def persistOn (n : Node) : OnDisk Node := fun d =>
  let faults := d.faults.headD fun _ => none
  match d.slot.replace faults (PersistentState.codec.marshal n.persistentState) with
  | (slot, .done) => some (.returned (n.persist true), ⟨slot, d.faults.tail, true⟩)
  | (slot, .failed) => some (.returned (n.persist false), ⟨slot, d.faults.tail, d.saved⟩)
  | (slot, .crashed) => some (.stopped, ⟨slot, d.faults.tail, d.saved⟩)

def becomeFollowerOn (n : Node) (term : ℕ) : OnDisk Node :=
  persistOn { n with role := .follower, currentTerm := term, votedFor := [] }

def startElectionOn (incr : ℕ → ℕ) (n : Node) : OnDisk (Node × List VoteCall) := do
  let n ← persistOn
    { n with currentTerm := incr n.currentTerm, role := .candidate, votedFor := n.id }
  let (lastIdx, lastTerm) ← lift n.lastLogIndexAndTerm
  let calls := n.peers.map fun peer =>
    { peer, election := n.elections.length,
      args := { term := n.currentTerm, candidateId := n.id,
                lastLogIndex := lastIdx, lastLogTerm := lastTerm } : VoteCall }
  return ({ n with elections := n.elections ++ [1] }, calls)

def adoptTermOn (n : Node) (term : ℕ) : OnDisk Node :=
  if term > n.currentTerm then n.becomeFollowerOn term else pure n

def handleRequestVoteOn (n : Node) (args : RequestVoteArgs) :
    OnDisk (Node × RequestVoteReply) :=
  if args.term < n.currentTerm then
    pure (n, { term := n.currentTerm, voteGranted := false })
  else do
    let n ← n.adoptTermOn args.term
    let (lastIdx, lastTerm) ← lift n.lastLogIndexAndTerm
    if n.GrantsVote args lastIdx lastTerm then
      let n ← persistOn { n with votedFor := args.candidateId }
      return (n, { term := n.currentTerm, voteGranted := true })
    else
      return (n, { term := n.currentTerm, voteGranted := false })

/-- A follower of the sender, as `follow`. -/
def followOn (n : Node) (args : AppendEntriesArgs) : OnDisk Node := do
  let n ← n.becomeFollowerOn args.term
  return { n with leaderId := args.leaderId }

def appendOn (n : Node) (args : AppendEntriesArgs) : OnDisk Node :=
  let n := { n with log := appendLoop n.log (args.prevLogIndex + 1) args.entries }
  if args.entries.length > 0 then n.persistOn else pure n

def handleAppendEntriesOn (n : Node) (args : AppendEntriesArgs) :
    OnDisk (Node × AppendEntriesReply) :=
  if args.term < n.currentTerm then
    pure (n, { term := n.currentTerm, success := false, conflictIndex := 0, conflictTerm := 0 })
  else do
    let n ← n.followOn args
    if args.prevLogIndex ≥ n.log.length then
      return (n, { term := n.currentTerm, success := false,
                   conflictIndex := n.log.length, conflictTerm := 0 })
    else
      let prev ← lift n.log[args.prevLogIndex]?
      if prev.term ≠ args.prevLogTerm then
        return (n, { term := n.currentTerm, success := false,
                     conflictIndex := firstIndexOfTerm n.log prev.term args.prevLogIndex,
                     conflictTerm := prev.term })
      else
        let n ← n.appendOn args
        let n := n.followCommit args
        return (n, { term := n.currentTerm, success := true,
                     conflictIndex := 0, conflictTerm := 0 })

/-- A reply is the only other place where a newer term is met; the rest of the two
goroutines persists nothing. -/
def handleVoteReplyOn (n : Node) (term election : ℕ) (reply : RequestVoteReply) :
    OnDisk (Node × List AppendCall) :=
  if reply.term > n.currentTerm then do
    let n ← n.becomeFollowerOn reply.term
    return (n, [])
  else lift (n.handleVoteReply true term election reply)

def handleAppendReplyOn (n : Node) (peer : NodeId) (args : AppendEntriesArgs)
    (reply : AppendEntriesReply) : OnDisk (Node × List AppendCall) :=
  if reply.term > n.currentTerm then do
    let n ← n.becomeFollowerOn reply.term
    return (n, [])
  else lift (n.handleAppendReply true peer args reply)

def proposeOn (n : Node) (command : Option Bytes) :
    OnDisk (Node × List AppendCall × ℕ × ℕ × Bool) :=
  if n.role ≠ .leader then
    pure (n, [], 0, n.currentTerm, false)
  else do
    let log := n.log ++ [{ term := n.currentTerm, command }]
    let n ← persistOn
      { n with log, matchIndex := Function.update n.matchIndex n.id (log.length - 1) }
    let calls ← lift n.broadcastAppendEntries
    return (n, calls, n.log.length - 1, n.currentTerm, true)

end Node

/-! ## §3  What the handlers leave -/

/-- The file holds what was persisted, and no operation to come returns an error. -/
structure Keeps (saved : Option PersistentState) (d : Drive) : Prop where
  file : d.slot.file = fileOf saved
  spares : ∀ f ∈ d.faults, Slot.Spares f

namespace Node

/-- The start of a critical section of a node, and the death of a process in one that has
not replaced the file. -/
def Untouched (n : Node) (d : Drive) : Prop := Keeps n.stateFile d ∧ d.saved = false

variable {n : Node}

theorem persistOn_meets {saved : Option PersistentState} {b : Bool} :
    Meets (fun d => Keeps saved d ∧ d.saved = b) n.persistOn
      (fun m d => m = n.persist true ∧ Keeps m.stateFile d ∧ d.saved = true)
      (fun d => Keeps saved d ∧ d.saved = b) := by
  rintro d ⟨⟨hfile, hspares⟩, hb⟩ e d' hrun
  have hhead : Slot.Spares (d.faults.headD fun _ => none) := by
    cases hd : d.faults with
    | nil => exact fun _ _ _ hnone => (by cases hnone)
    | cons f fs => exact hspares f (by rw [hd]; exact List.mem_cons_self)
  have htail : ∀ f ∈ d.faults.tail, Slot.Spares f :=
    fun f hf => hspares f (List.mem_of_mem_tail hf)
  unfold persistOn at hrun
  dsimp only at hrun
  rcases Slot.replace_of_spares hhead (PersistentState.codec.marshal n.persistentState)
    d.slot with ⟨slot, heq, hnew⟩ | ⟨slot, heq, hold⟩
  · rw [heq] at hrun
    cases hrun
    exact ⟨rfl, ⟨hnew, htail⟩, rfl⟩
  · rw [heq] at hrun
    cases hrun
    exact ⟨⟨hold.trans hfile, htail⟩, hb⟩

theorem becomeFollowerOn_meets {saved : Option PersistentState} {b : Bool} {t : ℕ} :
    Meets (fun d => Keeps saved d ∧ d.saved = b) (n.becomeFollowerOn t)
      (fun m d => m = n.becomeFollower true t ∧ Keeps m.stateFile d ∧ d.saved = true)
      (fun d => Keeps saved d ∧ d.saved = b) :=
  persistOn_meets

/-- The death of a process in a handler: before the first `persist` is through, or after it
has adopted the term `t`, which it does under the condition `p`. -/
def Dies (n : Node) (p : Prop) (t : ℕ) (d : Drive) : Prop :=
  n.Untouched d ∨ (p ∧ Keeps (n.becomeFollower true t).stateFile d ∧ d.saved = true)

theorem startElectionOn_meets {incr : ℕ → ℕ} :
    Meets n.Untouched (n.startElectionOn incr)
      (fun p d => n.startElection incr true = some p ∧ Keeps p.1.stateFile d) n.Untouched := by
  refine persistOn_meets.bind fun m => ?_
  refine Meets.bind (Q := fun p d => m = n.campaign incr true ∧ m.lastLogIndexAndTerm = some p ∧
    Keeps m.stateFile d) (meets_lift ?_) ?_
  · rintro p hp d ⟨rfl, hkeeps, -⟩
    exact ⟨rfl, hp, hkeeps⟩
  · rintro ⟨lastIdx, lastTerm⟩
    refine meets_pure ?_
    rintro d ⟨rfl, hlast, hkeeps⟩
    refine ⟨?_, hkeeps⟩
    rw [startElection]
    dsimp only
    rw [hlast]
    rfl

/-- A `persist` in a handler, wherever the process may have died before. -/
theorem persistOn_dies {m : Node} {p : Prop} {t : ℕ} :
    Meets (m.Dies p t) n.persistOn
      (fun n' d => n' = n.persist true ∧ Keeps n'.stateFile d) (m.Dies p t) := by
  rintro d (hd | ⟨hp, hd⟩) e d' hrun
  · have hend := persistOn_meets d hd e d' hrun
    cases e with
    | returned n' => exact ⟨hend.1, hend.2.1⟩
    | stopped => exact Or.inl hend
  · have hend := persistOn_meets d hd e d' hrun
    cases e with
    | returned n' => exact ⟨hend.1, hend.2.1⟩
    | stopped => exact Or.inr ⟨hp, hend⟩

theorem handleVoteReply_stateFile {n' : Node} {term election : ℕ} {reply : RequestVoteReply}
    {calls : List AppendCall} (hle : ¬ reply.term > n.currentTerm)
    (h : n.handleVoteReply true term election reply = some (n', calls)) :
    n'.stateFile = n.stateFile := by
  rcases handleVoteReply_cases h with ⟨hlt, -⟩ | ⟨rfl, -⟩ | ⟨-, -, -, ⟨-, rfl, -⟩ | ⟨-, rfl, -⟩⟩
  · exact absurd hlt hle
  · rfl
  · rfl
  · rfl

theorem handleAppendReply_stateFile {n' : Node} {peer : NodeId} {args : AppendEntriesArgs}
    {reply : AppendEntriesReply} {calls : List AppendCall} (hle : ¬ reply.term > n.currentTerm)
    (h : n.handleAppendReply true peer args reply = some (n', calls)) :
    n'.stateFile = n.stateFile := by
  rcases handleAppendReply_cases h with ⟨hlt, -⟩ | ⟨rfl, -⟩ |
    ⟨-, -, -, ⟨-, -, rfl⟩ | ⟨-, rfl, -⟩⟩
  · exact absurd hlt hle
  · rfl
  · obtain ⟨c, b, heq⟩ := maybeAdvance_eq (n.recordMatch peer args)
    rw [heq]
    rfl
  · rfl

/-- A goroutine after a reply of term `t`: a newer term is adopted, and otherwise nothing is
persisted. -/
theorem replyOn_meets {t : ℕ} {x : Option (Node × List AppendCall)}
    (hnew : t > n.currentTerm → x = some (n.becomeFollower true t, []))
    (hold : ¬ t > n.currentTerm → ∀ m calls, x = some (m, calls) → m.stateFile = n.stateFile) :
    Meets n.Untouched
      (if t > n.currentTerm then do
          let m ← n.becomeFollowerOn t
          return (m, [])
        else lift x)
      (fun p d => x = some p ∧ Keeps p.1.stateFile d) n.Untouched := by
  split
  · rename_i hlt
    refine becomeFollowerOn_meets.bind fun m => meets_pure ?_
    rintro d ⟨rfl, hkeeps, -⟩
    exact ⟨hnew hlt, hkeeps⟩
  · rename_i hle
    refine meets_lift ?_
    rintro ⟨m, calls⟩ hp d ⟨hkeeps, -⟩
    rw [hold hle m calls hp]
    exact ⟨hp, hkeeps⟩

theorem handleVoteReplyOn_meets {term election : ℕ} {reply : RequestVoteReply} :
    Meets n.Untouched (n.handleVoteReplyOn term election reply)
      (fun p d => n.handleVoteReply true term election reply = some p ∧ Keeps p.1.stateFile d)
      n.Untouched :=
  replyOn_meets (fun hlt => if_pos hlt) fun hle _ _ hp => handleVoteReply_stateFile hle hp

theorem handleAppendReplyOn_meets {peer : NodeId} {args : AppendEntriesArgs}
    {reply : AppendEntriesReply} :
    Meets n.Untouched (n.handleAppendReplyOn peer args reply)
      (fun p d => n.handleAppendReply true peer args reply = some p ∧ Keeps p.1.stateFile d)
      n.Untouched :=
  replyOn_meets (fun hlt => if_pos hlt) fun hle _ _ hp => handleAppendReply_stateFile hle hp

theorem proposeOn_meets {command : Option Bytes} :
    Meets n.Untouched (n.proposeOn command)
      (fun p d => n.propose true command = some p ∧ Keeps p.1.stateFile d) n.Untouched := by
  unfold proposeOn
  split
  · rename_i hrole
    exact meets_pure fun d hd => ⟨if_pos hrole, hd.1⟩
  · rename_i hrole
    refine persistOn_meets.bind fun m => ?_
    refine Meets.bind (Q := fun calls d => m = n.appendCommand true command ∧
      m.broadcastAppendEntries = some calls ∧ Keeps m.stateFile d) (meets_lift ?_) fun calls => ?_
    · rintro calls hcalls d ⟨rfl, hkeeps, -⟩
      exact ⟨rfl, hcalls, hkeeps⟩
    · refine meets_pure ?_
      rintro d ⟨rfl, hcalls, hkeeps⟩
      refine ⟨?_, hkeeps⟩
      rw [propose, if_neg hrole]
      dsimp only
      rw [hcalls]
      rfl

theorem adoptTermOn_meets {t : ℕ} :
    Meets n.Untouched (n.adoptTermOn t)
      (fun m d => m = n.adoptTerm true t ∧ Keeps m.stateFile d ∧ n.Dies (n.currentTerm < t) t d)
      (n.Dies (n.currentTerm < t) t) := by
  unfold adoptTermOn
  split
  · rename_i hlt
    refine becomeFollowerOn_meets.imp (fun _ hd => hd) ?_ (fun _ hd => Or.inl hd)
    rintro m d ⟨rfl, hkeeps, hsaved⟩
    exact ⟨(if_pos hlt).symm, hkeeps, Or.inr ⟨hlt, hkeeps, hsaved⟩⟩
  · rename_i hle
    exact meets_pure fun d hd => ⟨(if_neg hle).symm, hd.1, Or.inl hd⟩

theorem handleRequestVoteOn_meets {args : RequestVoteArgs} :
    Meets n.Untouched (n.handleRequestVoteOn args)
      (fun p d => n.handleRequestVote Cluster.persistOk args = some p ∧ Keeps p.1.stateFile d)
      (n.Dies (n.currentTerm < args.term) args.term) := by
  unfold handleRequestVoteOn
  split
  · rename_i hlt
    exact meets_pure fun d hd => ⟨if_pos hlt, hd.1⟩
  rename_i hle
  refine adoptTermOn_meets.bind fun m => ?_
  refine Meets.bind (Q := fun p d => m = n.adoptTerm true args.term ∧
    m.lastLogIndexAndTerm = some p ∧ Keeps m.stateFile d ∧
    n.Dies (n.currentTerm < args.term) args.term d) (meets_lift ?_) ?_
  · rintro p hp d ⟨hm, hkeeps, hdies⟩
    exact ⟨hm, hp, hkeeps, hdies⟩
  rintro ⟨lastIdx, lastTerm⟩
  dsimp only
  -- the handler of the node, up to the decision
  have hnode : m = n.adoptTerm true args.term → m.lastLogIndexAndTerm = some (lastIdx, lastTerm) →
      n.handleRequestVote Cluster.persistOk args =
        if m.GrantsVote args lastIdx lastTerm then
          some (persist true { m with votedFor := args.candidateId },
            ⟨(persist true { m with votedFor := args.candidateId }).currentTerm, true⟩)
        else some (m, ⟨m.currentTerm, false⟩) := by
    intro hm hlast
    rw [handleRequestVote, if_neg hle]
    dsimp only [Cluster.persistOk]
    rw [← hm, hlast]
    rfl
  split
  · rename_i hgrants
    rintro d ⟨hm, hlast, -, hdies⟩
    refine (persistOn_dies.bind fun m' => meets_pure ?_) d hdies
    rintro d' ⟨rfl, hkeeps⟩
    exact ⟨by rw [hnode hm hlast, if_pos hgrants], hkeeps⟩
  · rename_i hdenies
    refine meets_pure ?_
    rintro d ⟨hm, hlast, hkeeps, -⟩
    exact ⟨by rw [hnode hm hlast, if_neg hdenies], hkeeps⟩

theorem appendOn_meets {m : Node} {args : AppendEntriesArgs} {p : Prop} {t : ℕ} :
    Meets (fun d => Keeps n.stateFile d ∧ m.Dies p t d) (n.appendOn args)
      (fun n' d => n' = n.appendAndPersist true args ∧ Keeps n'.stateFile d) (m.Dies p t) := by
  unfold appendOn
  dsimp only
  split
  · rename_i hsome
    refine persistOn_dies.imp (fun _ hd => hd.2) ?_ (fun _ hd => hd)
    rintro n' d ⟨rfl, hkeeps⟩
    exact ⟨(if_pos hsome).symm, hkeeps⟩
  · rename_i hnone
    exact meets_pure fun d hd => ⟨(if_neg hnone).symm, hd.1⟩

theorem followOn_meets {args : AppendEntriesArgs} (hle : n.currentTerm ≤ args.term) :
    Meets n.Untouched (n.followOn args)
      (fun m d => m = n.follow true args ∧ Keeps m.stateFile d ∧
        n.Dies (n.currentTerm ≤ args.term) args.term d)
      (n.Dies (n.currentTerm ≤ args.term) args.term) := by
  refine Meets.bind (becomeFollowerOn_meets.imp (fun _ hd => hd) (fun _ _ hd => hd)
    (fun _ hd => Or.inl hd)) fun m => meets_pure ?_
  rintro d ⟨rfl, hkeeps, hsaved⟩
  exact ⟨rfl, hkeeps, Or.inr ⟨hle, hkeeps, hsaved⟩⟩

theorem followCommit_stateFile (n : Node) (args : AppendEntriesArgs) :
    (n.followCommit args).stateFile = n.stateFile := by
  obtain ⟨-, -, -, -, -, -, -, -, -, -, -, hst⟩ := n.followCommit_rest args
  exact hst

theorem handleAppendEntriesOn_meets {args : AppendEntriesArgs} :
    Meets n.Untouched (n.handleAppendEntriesOn args)
      (fun p d => n.handleAppendEntries Cluster.persistOk args = some p ∧ Keeps p.1.stateFile d)
      (n.Dies (n.currentTerm ≤ args.term) args.term) := by
  unfold handleAppendEntriesOn
  split
  · rename_i hlt
    exact meets_pure fun d hd => ⟨if_pos hlt, hd.1⟩
  rename_i hlt
  refine (followOn_meets (not_lt.mp hlt)).bind fun m => ?_
  -- the handler of the node behind the first `persist`
  have hnode : m = n.follow true args → n.handleAppendEntries Cluster.persistOk args =
      if args.prevLogIndex ≥ m.log.length then some (m, ⟨m.currentTerm, false, m.log.length, 0⟩)
      else m.log[args.prevLogIndex]?.bind fun prev =>
        if prev.term ≠ args.prevLogTerm then
          some (m, ⟨m.currentTerm, false,
            firstIndexOfTerm m.log prev.term args.prevLogIndex, prev.term⟩)
        else some ((m.appendAndPersist true args).followCommit args,
          ⟨((m.appendAndPersist true args).followCommit args).currentTerm, true, 0, 0⟩) := by
    rintro rfl
    exact if_neg hlt
  split
  · rename_i hshort
    refine meets_pure ?_
    rintro d ⟨hm, hkeeps, -⟩
    exact ⟨by rw [hnode hm, if_pos hshort], hkeeps⟩
  rename_i hlong
  refine Meets.bind (Q := fun prev d => m = n.follow true args ∧
    m.log[args.prevLogIndex]? = some prev ∧ Keeps m.stateFile d ∧
    n.Dies (n.currentTerm ≤ args.term) args.term d) (meets_lift ?_) fun prev => ?_
  · rintro prev hprev d ⟨hm, hkeeps, hdies⟩
    exact ⟨hm, hprev, hkeeps, hdies⟩
  split
  · rename_i hconflict
    refine meets_pure ?_
    rintro d ⟨hm, hprev, hkeeps, -⟩
    exact ⟨by rw [hnode hm, if_neg hlong, hprev, Option.bind_some, if_pos hconflict], hkeeps⟩
  · rename_i hmatch
    rintro d ⟨hm, hprev, hkeeps, hdies⟩
    refine (appendOn_meets.bind fun m' => meets_pure ?_) d ⟨hkeeps, hdies⟩
    rintro d' ⟨rfl, hkeeps'⟩
    refine ⟨by rw [hnode hm, if_neg hlong, hprev, Option.bind_some, if_neg hmatch], ?_⟩
    rw [followCommit_stateFile]
    exact hkeeps'

end Node

/-! ## §4  Clusters on files -/

structure Disks where
  cluster : Cluster
  slots : NodeId → Slot UInt8

/-- An action, and what goes wrong at each `persist` in it. -/
structure DiskAction where
  action : Action
  faults : List (Faults UInt8)

namespace Disks

/-- Fresh nodes without files. -/
def initial (cfg : Config) : Disks :=
  { cluster := Cluster.initial cfg, slots := fun _ => { file := none, tmp := none } }

def drive (d : Disks) (i : NodeId) (faults : List (Faults UInt8)) : Drive :=
  { slot := d.slots i, faults, saved := false }

/-- A critical section of `i` is over: the cluster is `s`, with its file in `slot`. -/
def settle (d : Disks) (s : Cluster) (i : NodeId) (slot : Slot UInt8) : Disks :=
  { cluster := s, slots := Function.update d.slots i slot }

/-- The process of `i` is dead and is started again from the file in `slot`. -/
def die (d : Disks) (s : Cluster) (i : NodeId) (slot : Slot UInt8) : Option Disks := do
  let n ← bootNode slot.file (s.nodes i)
  return d.settle { s.setNode i n with lives := Function.update s.lives i (s.lives i + 1) } i slot

def startElection (cfg : Config) (d : Disks) (faults : List (Faults UInt8)) (i : NodeId) :
    Option Disks := do
  let s := d.cluster
  guard (i ∈ cfg.ids ∧ (s.nodes i).role ≠ .leader)
  match ← (s.nodes i).startElectionOn cfg.incr (d.drive i faults) with
  | (.returned (n, calls), after) =>
      return d.settle (((s.setNode i n).spawnVotes i calls).record [.voted i n.currentTerm i]) i
        after.slot
  | (.stopped, after) => d.die s i after.slot

def propose (cfg : Config) (d : Disks) (faults : List (Faults UInt8)) (i : NodeId)
    (command : Option Bytes) : Option Disks := do
  let s := d.cluster
  guard (i ∈ cfg.ids)
  match ← (s.nodes i).proposeOn command (d.drive i faults) with
  | (.returned (n, calls, idx, term, isLeader), after) =>
      return d.settle (((s.setNode i n).spawnAppends i calls).record
        (if isLeader then [.proposed i term n.log, .accepted i term idx] else [])) i after.slot
  | (.stopped, after) => d.die s i after.slot

/-- A call is over when its handler dies with the file replaced. If the handler dies
before, the call is as one that has not arrived. -/
def deliverVote (d : Disks) (faults : List (Faults UInt8)) (r : ℕ) : Option Disks := do
  let s := d.cluster
  let rpc ← s.voteRpcs[r]?
  guard (rpc.phase = .requested)
  match ← (s.nodes rpc.dst).handleRequestVoteOn rpc.args (d.drive rpc.dst faults) with
  | (.returned (n, reply), after) =>
      return d.settle
        (((s.setNode rpc.dst n).setVoteRpc r { rpc with phase := .replied reply }).record
          (if reply.voteGranted then [.voted rpc.dst reply.term rpc.args.candidateId] else []))
        rpc.dst after.slot
  | (.stopped, after) =>
      d.die (if after.saved then s.setVoteRpc r { rpc with phase := .finished } else s) rpc.dst
        after.slot

def voteReply (d : Disks) (faults : List (Faults UInt8)) (r : ℕ) : Option Disks := do
  let s := d.cluster
  let rpc ← s.voteRpcs[r]?
  guard (rpc.life = s.lives rpc.src)
  match rpc.phase with
  | .replied reply =>
      match ← (s.nodes rpc.src).handleVoteReplyOn rpc.args.term rpc.election reply
        (d.drive rpc.src faults) with
      | (.returned (n, calls), after) =>
          return d.settle ((((s.setNode rpc.src n).setVoteRpc r
              { rpc with phase := .finished }).spawnAppends rpc.src calls).record
            (if (s.nodes rpc.src).role ≠ .leader ∧ n.role = .leader then
              [.becameLeader rpc.src n.currentTerm n.log,
               .accepted rpc.src n.currentTerm (n.log.length - 1)] else [])) rpc.src after.slot
      | (.stopped, after) => d.die s rpc.src after.slot
  | _ => none

def deliverAppend (d : Disks) (faults : List (Faults UInt8)) (r : ℕ) : Option Disks := do
  let s := d.cluster
  let rpc ← s.appendRpcs[r]?
  guard (rpc.phase = .requested)
  match ← (s.nodes rpc.dst).handleAppendEntriesOn rpc.args (d.drive rpc.dst faults) with
  | (.returned (n, reply), after) =>
      return d.settle
        (((s.setNode rpc.dst n).setAppendRpc r { rpc with phase := .replied reply }).record
          (if reply.success then
            [.accepted rpc.dst reply.term (rpc.args.prevLogIndex + rpc.args.entries.length)]
           else [])) rpc.dst after.slot
  | (.stopped, after) =>
      d.die (if after.saved then s.setAppendRpc r { rpc with phase := .finished } else s) rpc.dst
        after.slot

def appendReply (d : Disks) (faults : List (Faults UInt8)) (r : ℕ) : Option Disks := do
  let s := d.cluster
  let rpc ← s.appendRpcs[r]?
  guard (rpc.life = s.lives rpc.src)
  match rpc.phase with
  | .replied reply =>
      match ← (s.nodes rpc.src).handleAppendReplyOn rpc.dst rpc.args reply
        (d.drive rpc.src faults) with
      | (.returned (n, calls), after) =>
          return d.settle ((((s.setNode rpc.src n).setAppendRpc r
              { rpc with phase := .finished }).spawnAppends rpc.src calls).record
            (if (s.nodes rpc.src).commitIndex < n.commitIndex then
              [.advanced rpc.src n.currentTerm n.commitIndex n.log] else [])) rpc.src after.slot
      | (.stopped, after) => d.die s rpc.src after.slot
  | _ => none

def crash (cfg : Config) (d : Disks) (i : NodeId) : Option Disks := do
  guard (i ∈ cfg.ids)
  d.die d.cluster i (d.slots i)

/-- Deaths inside a handler come from the faults, and snapshots are not taken here. -/
def step (cfg : Config) (d : Disks) (a : DiskAction) : Option Disks :=
  match a.action with
  | .startElection i => d.startElection cfg a.faults i
  | .propose i command => d.propose cfg a.faults i command
  | .deliverVote r => d.deliverVote a.faults r
  | .voteReply r => d.voteReply a.faults r
  | .deliverAppend r => d.deliverAppend a.faults r
  | .appendReply r => d.appendReply a.faults r
  | .crash i => d.crash cfg i
  | .heartbeat i => (d.cluster.heartbeat cfg i).map fun s => { d with cluster := s }
  | .applyWake i => (d.cluster.applyWake cfg i).map fun s => { d with cluster := s }
  | .applyTake i => (d.cluster.applyTake cfg i).map fun s => { d with cluster := s }
  | .applySend i => (d.cluster.applySend cfg i).map fun s => { d with cluster := s }
  | .takeSnapshot _ _ _ | .crashInVote _ | .crashInAppend _ => none

/-- No operation returns an error that `persist` reports; the process may stop at any. -/
def OnlyStops (_ : Disks) (a : DiskAction) : Prop := ∀ f ∈ a.faults, Slot.Spares f

instance decidableOnlyStops (d : Disks) (a : DiskAction) : Decidable (OnlyStops d a) :=
  inferInstanceAs (Decidable (∀ f ∈ a.faults, Slot.Spares f))

/-! ## §5  A cluster on files is a cluster -/

/-- The files hold what the nodes have persisted. -/
def Filed (d : Disks) : Prop :=
  ∀ i, (d.slots i).file = fileOf (d.cluster.nodes i).stateFile

/-- A cluster whose files are in order, with votes that JSON gives back. -/
structure OnFiles (cfg : Config) (d : Disks) : Prop where
  known : Known cfg d.cluster
  filed : d.Filed
  vote : ∀ i ∈ cfg.ids, Valid (d.cluster.nodes i).votedFor

/-- The cluster has made a step, and the files are in order. -/
def Follows (cfg : Config) (d d' : Disks) : Prop :=
  (∃ b, b.isSnapshot = false ∧ d.cluster.step cfg b = some d'.cluster) ∧ d'.Filed

section Steps

variable {cfg : Config} {d d' : Disks} {i : NodeId} {faults : List (Faults UInt8)}

theorem onFiles_initial (cfg : Config) : OnFiles cfg (initial cfg) :=
  ⟨known_initial cfg, fun _ => rfl, fun _ _ => rfl⟩

theorem OnFiles.untouched (h : OnFiles cfg d) (hf : ∀ f ∈ faults, Slot.Spares f) (i : NodeId) :
    (d.cluster.nodes i).Untouched (d.drive i faults) :=
  ⟨⟨h.filed i, hf⟩, rfl⟩

/-- One node moves, and its file with it. -/
theorem Filed.settle (h : d.Filed) {s : Cluster} {n : Node} {slot : Slot UInt8}
    (hnodes : s.nodes = Function.update d.cluster.nodes i n)
    (hslot : slot.file = fileOf n.stateFile) : (d.settle s i slot).Filed := by
  intro j
  show (Function.update d.slots i slot j).file = fileOf (s.nodes j).stateFile
  rw [hnodes]
  by_cases hj : j = i
  · subst hj
    rw [Function.update_self, Function.update_self]
    exact hslot
  · rw [Function.update_of_ne hj, Function.update_of_ne hj]
    exact h j

/-- What is on disk when a process dies has a vote that JSON gives back. -/
theorem OnFiles.vote_of_dies (h : OnFiles cfg d) (hi : i ∈ cfg.ids) {m : Node}
    (hm : Cluster.DiesAs (d.cluster.nodes i) m) : ∀ ps ∈ m.stateFile, Valid ps.votedFor := by
  intro ps hps
  rcases hm with rfl | ⟨t, -, rfl⟩
  · rcases (h.known.wired.sound i).durable with hst | ⟨hst, -⟩
    · rw [hst] at hps
      cases hps
      exact h.vote i hi
    · rw [hst] at hps
      cases hps
  · cases hps
    rfl

/-- **Death and restart.** The process that starts from the bytes is the one that starts
from what was persisted. -/
theorem OnFiles.die (h : OnFiles cfg d) (hi : i ∈ cfg.ids) {s : Cluster} {m : Node}
    {slot : Slot UInt8} (hm : Cluster.DiesAs (d.cluster.nodes i) m)
    (hnodes : s.nodes = d.cluster.nodes) (hslot : slot.file = fileOf m.stateFile)
    (hdie : d.die s i slot = some d') : d'.cluster = s.reboot i m ∧ d'.Filed := by
  obtain ⟨n, hn, hd'⟩ := Option.bind_eq_some_iff.mp hdie
  have hsound : Sound cfg i m := hm.sound (h.known.wired.sound i)
  have hboot : n = m.restart := by
    rw [hslot, hnodes] at hn
    rw [(bootNode_fileOf (h.vote_of_dies hi hm) _).1 n hn]
    rcases hm with rfl | ⟨t, -, rfl⟩
    · rfl
    · rfl
  subst hboot
  cases hd'
  refine ⟨rfl, h.filed.settle (n := m.restart) ?_ ?_⟩
  · show Function.update s.nodes i m.restart = _
    rw [hnodes]
  · rw [hslot, hsound.restart_eq]
    rfl

/-- A process that dies in a section that has not replaced its file. -/
theorem OnFiles.crash (h : OnFiles cfg d) (hi : i ∈ cfg.ids) {slot : Slot UInt8}
    (hslot : slot.file = fileOf (d.cluster.nodes i).stateFile)
    (hdie : d.die d.cluster i slot = some d') : Follows cfg d d' := by
  obtain ⟨hcluster, hfiled⟩ := h.die hi (Or.inl rfl) rfl hslot hdie
  refine ⟨⟨.crash i, rfl, ?_⟩, hfiled⟩
  rw [hcluster]
  show d.cluster.crash cfg i = _
  simp [Cluster.crash, hi]

theorem follows_startElection (h : OnFiles cfg d) (hf : ∀ f ∈ faults, Slot.Spares f)
    (hs : d.startElection cfg faults i = some d') : Follows cfg d d' := by
  obtain ⟨⟨hi, hrole⟩, hs⟩ := guard_bind_eq_some hs
  obtain ⟨⟨e, after⟩, hrun, hs⟩ := Option.bind_eq_some_iff.mp hs
  have hend := Node.startElectionOn_meets _ (h.untouched hf i) e after hrun
  cases e with
  | returned p =>
      obtain ⟨n, calls⟩ := p
      cases hs
      refine ⟨⟨.startElection i, rfl, ?_⟩, h.filed.settle rfl hend.2.file⟩
      show d.cluster.startElection cfg i = _
      simp [Cluster.startElection, hi, hrole, hend.1, settle]
  | stopped => exact h.crash hi hend.1.file hs

theorem follows_propose {command : Option Bytes} (h : OnFiles cfg d)
    (hf : ∀ f ∈ faults, Slot.Spares f) (hs : d.propose cfg faults i command = some d') :
    Follows cfg d d' := by
  obtain ⟨hi, hs⟩ := guard_bind_eq_some hs
  obtain ⟨⟨e, after⟩, hrun, hs⟩ := Option.bind_eq_some_iff.mp hs
  have hend := Node.proposeOn_meets _ (h.untouched hf i) e after hrun
  cases e with
  | returned p =>
      obtain ⟨n, calls, idx, term, isLeader⟩ := p
      cases hs
      refine ⟨⟨.propose i command, rfl, ?_⟩, h.filed.settle rfl hend.2.file⟩
      show d.cluster.propose cfg i command = _
      simp [Cluster.propose, hi, hend.1, settle]
  | stopped => exact h.crash hi hend.1.file hs

theorem follows_deliverVote {r : ℕ} (h : OnFiles cfg d) (hf : ∀ f ∈ faults, Slot.Spares f)
    (hs : d.deliverVote faults r = some d') : Follows cfg d d' := by
  obtain ⟨rpc, hr, hs⟩ := Option.bind_eq_some_iff.mp hs
  obtain ⟨hph, hs⟩ := guard_bind_eq_some hs
  obtain ⟨⟨e, after⟩, hrun, hs⟩ := Option.bind_eq_some_iff.mp hs
  obtain ⟨hsrc, hdst, -⟩ := h.known.polls.call rpc (List.mem_of_getElem? hr)
  have hi : rpc.dst ∈ cfg.ids := ((cfg.mem_peers rpc.src hsrc rpc.dst).mp hdst).1
  have hend := Node.handleRequestVoteOn_meets _ (h.untouched hf rpc.dst) e after hrun
  cases e with
  | returned p =>
      obtain ⟨n, reply⟩ := p
      cases hs
      refine ⟨⟨.deliverVote r, rfl, ?_⟩, h.filed.settle rfl hend.2.file⟩
      show d.cluster.deliverVote r = _
      simp [Cluster.deliverVote, hr, hph, hend.1, settle]
  | stopped =>
      rcases hend with ⟨hkeeps, hsaved⟩ | ⟨hlt, hkeeps, hsaved⟩
      · dsimp only at hs
        rw [if_neg (by rw [hsaved]; exact Bool.false_ne_true)] at hs
        exact h.crash hi hkeeps.file hs
      · dsimp only at hs
        rw [if_pos hsaved] at hs
        obtain ⟨hcluster, hfiled⟩ := h.die hi (Or.inr ⟨_, hlt.le, rfl⟩) (by rfl) hkeeps.file hs
        refine ⟨⟨.crashInVote r, rfl, ?_⟩, hfiled⟩
        rw [hcluster]
        show d.cluster.crashInVote r = _
        simp [Cluster.crashInVote, hr, hph, hlt]

theorem follows_deliverAppend {r : ℕ} (h : OnFiles cfg d) (hf : ∀ f ∈ faults, Slot.Spares f)
    (hs : d.deliverAppend faults r = some d') : Follows cfg d d' := by
  obtain ⟨rpc, hr, hs⟩ := Option.bind_eq_some_iff.mp hs
  obtain ⟨hph, hs⟩ := guard_bind_eq_some hs
  obtain ⟨⟨e, after⟩, hrun, hs⟩ := Option.bind_eq_some_iff.mp hs
  have hmem := List.mem_of_getElem? hr
  have hi : rpc.dst ∈ cfg.ids := ((cfg.mem_peers rpc.src (h.known.wired.replicas.src rpc hmem)
    rpc.dst).mp (h.known.signed.dst rpc hmem)).1
  have hend := Node.handleAppendEntriesOn_meets _ (h.untouched hf rpc.dst) e after hrun
  cases e with
  | returned p =>
      obtain ⟨n, reply⟩ := p
      cases hs
      refine ⟨⟨.deliverAppend r, rfl, ?_⟩, h.filed.settle rfl hend.2.file⟩
      show d.cluster.deliverAppend r = _
      simp [Cluster.deliverAppend, hr, hph, hend.1, settle]
  | stopped =>
      rcases hend with ⟨hkeeps, hsaved⟩ | ⟨hle, hkeeps, hsaved⟩
      · dsimp only at hs
        rw [if_neg (by rw [hsaved]; exact Bool.false_ne_true)] at hs
        exact h.crash hi hkeeps.file hs
      · dsimp only at hs
        rw [if_pos hsaved] at hs
        obtain ⟨hcluster, hfiled⟩ := h.die hi (Or.inr ⟨_, hle, rfl⟩) (by rfl) hkeeps.file hs
        refine ⟨⟨.crashInAppend r, rfl, ?_⟩, hfiled⟩
        rw [hcluster]
        show d.cluster.crashInAppend r = _
        simp [Cluster.crashInAppend, hr, hph, hle]

theorem follows_voteReply {r : ℕ} (h : OnFiles cfg d) (hf : ∀ f ∈ faults, Slot.Spares f)
    (hs : d.voteReply faults r = some d') : Follows cfg d d' := by
  obtain ⟨rpc, hr, hs⟩ := Option.bind_eq_some_iff.mp hs
  obtain ⟨hlife, hs⟩ := guard_bind_eq_some hs
  have hi : rpc.src ∈ cfg.ids := (h.known.polls.call rpc (List.mem_of_getElem? hr)).1
  cases hph : rpc.phase with
  | requested =>
      rw [hph] at hs
      cases hs
  | finished =>
      rw [hph] at hs
      cases hs
  | replied reply =>
      rw [hph] at hs
      obtain ⟨⟨e, after⟩, hrun, hs⟩ := Option.bind_eq_some_iff.mp hs
      have hend := Node.handleVoteReplyOn_meets _ (h.untouched hf rpc.src) e after hrun
      cases e with
      | returned p =>
          obtain ⟨n, calls⟩ := p
          cases hs
          refine ⟨⟨.voteReply r, rfl, ?_⟩, h.filed.settle rfl hend.2.file⟩
          show d.cluster.voteReply r = _
          simp [Cluster.voteReply, hr, hlife, hph, hend.1, settle]
      | stopped => exact h.crash hi hend.1.file hs

theorem follows_appendReply {r : ℕ} (h : OnFiles cfg d) (hf : ∀ f ∈ faults, Slot.Spares f)
    (hs : d.appendReply faults r = some d') : Follows cfg d d' := by
  obtain ⟨rpc, hr, hs⟩ := Option.bind_eq_some_iff.mp hs
  obtain ⟨hlife, hs⟩ := guard_bind_eq_some hs
  have hi : rpc.src ∈ cfg.ids := h.known.wired.replicas.src rpc (List.mem_of_getElem? hr)
  cases hph : rpc.phase with
  | requested =>
      rw [hph] at hs
      cases hs
  | finished =>
      rw [hph] at hs
      cases hs
  | replied reply =>
      rw [hph] at hs
      obtain ⟨⟨e, after⟩, hrun, hs⟩ := Option.bind_eq_some_iff.mp hs
      have hend := Node.handleAppendReplyOn_meets _ (h.untouched hf rpc.src) e after hrun
      cases e with
      | returned p =>
          obtain ⟨n, calls⟩ := p
          cases hs
          refine ⟨⟨.appendReply r, rfl, ?_⟩, h.filed.settle rfl hend.2.file⟩
          show d.cluster.appendReply r = _
          simp [Cluster.appendReply, hr, hlife, hph, hend.1, settle]
      | stopped => exact h.crash hi hend.1.file hs

/-- An action that persists nothing: the node it changes keeps its file. -/
theorem follows_plain {b : Action} (h : OnFiles cfg d) (hb : b.isSnapshot = false)
    (hsame : ∀ s, d.cluster.step cfg b = some s →
      ∃ n j, s.nodes = Function.update d.cluster.nodes j n ∧
        n.stateFile = (d.cluster.nodes j).stateFile)
    (hs : ((d.cluster.step cfg b).map fun s => { d with cluster := s }) = some d') :
    Follows cfg d d' := by
  obtain ⟨s, hstep, rfl⟩ := Option.map_eq_some_iff.mp hs
  obtain ⟨n, j, hnodes, hst⟩ := hsame s hstep
  refine ⟨⟨b, hb, hstep⟩, fun k => ?_⟩
  show (d.slots k).file = fileOf (s.nodes k).stateFile
  rw [hnodes]
  by_cases hk : k = j
  · subst hk
    rw [Function.update_self, hst]
    exact h.filed k
  · rw [Function.update_of_ne hk]
    exact h.filed k

theorem follows_step {a : DiskAction} (h : OnFiles cfg d) (hC : OnlyStops d a)
    (hs : d.step cfg a = some d') : Follows cfg d d' := by
  obtain ⟨a, faults⟩ := a
  cases a with
  | startElection i => exact follows_startElection h hC hs
  | propose i command => exact follows_propose h hC hs
  | deliverVote r => exact follows_deliverVote h hC hs
  | voteReply r => exact follows_voteReply h hC hs
  | deliverAppend r => exact follows_deliverAppend h hC hs
  | appendReply r => exact follows_appendReply h hC hs
  | crash i =>
      obtain ⟨hi, hs⟩ := guard_bind_eq_some hs
      exact h.crash hi (h.filed i) hs
  | heartbeat i =>
      refine follows_plain (b := .heartbeat i) h rfl (fun s hstep => ?_) hs
      obtain ⟨-, -, calls, -, rfl⟩ := Cluster.heartbeat_some hstep
      exact ⟨_, i, (Function.update_eq_self i _).symm, rfl⟩
  | applyWake i =>
      refine follows_plain (b := .applyWake i) h rfl (fun s hstep => ?_) hs
      rw [Cluster.applyWake_some hstep]
      exact ⟨_, i, rfl, rfl⟩
  | applyTake i =>
      refine follows_plain (b := .applyTake i) h rfl (fun s hstep => ?_) hs
      rcases Cluster.applyTake_some hstep with rfl | ⟨-, e, pc, -, -, rfl⟩
      · exact ⟨_, i, rfl, rfl⟩
      · exact ⟨_, i, rfl, rfl⟩
  | applySend i =>
      refine follows_plain (b := .applySend i) h rfl (fun s hstep => ?_) hs
      obtain ⟨msg, -, rfl⟩ := Cluster.applySend_some hstep
      exact ⟨_, i, rfl, rfl⟩
  | takeSnapshot i upToIndex data => cases hs
  | crashInVote r => cases hs
  | crashInAppend r => cases hs

end Steps

/-! ## §6  Votes -/

section Votes

variable {cfg : Config} {s s' : Cluster} {a : Action} {i : NodeId}

theorem valid_of_saves {m n : Node} {asked : List NodeId} (h : Node.Saves asked m n)
    (hid : Valid m.id) (hvote : Valid m.votedFor) (hasked : ∀ c ∈ asked, Valid c) :
    Valid n.votedFor := by
  have hmem := h.vote
  simp only [List.mem_cons] at hmem
  rcases hmem with hnone | hself | hsame | hc
  · rw [hnone]
    rfl
  · rwa [hself]
  · rwa [hsame]
  · exact hasked _ hc

/-- A member votes for itself or for a member that asks. -/
theorem valid_of_changes (hids : ∀ i ∈ cfg.ids, Valid i) (hk : Known cfg s) {n : Node}
    (hvote : Valid (s.nodes i).votedFor) (hi : i ∈ cfg.ids) (h : Cluster.Changes cfg s a i n) :
    Valid n.votedFor := by
  have hid : Valid (s.nodes i).id := by
    rw [(hk.polls.known i).1]
    exact hids i hi
  have hmove : ∀ b : Input, (∀ c ∈ b.candidates, Valid c) →
      (s.nodes i).handle cfg.incr b = some n → Valid n.votedFor :=
    fun b hb hn => valid_of_saves (Node.handle_saves hn) hid hvote hb
  have hnobody : ∀ c ∈ ([] : List NodeId), Valid c := fun _ hc => absurd hc List.not_mem_nil
  cases h with
  | same => exact hvote
  | campaign h => exact hmove .startElection hnobody (by rw [Node.handle, h]; rfl)
  | command hi hrole =>
      show Valid ((s.nodes i).appendCommand true _).votedFor
      simpa [Node.appendCommand] using hvote
  | @requestVote r rpc n reply hr h =>
      obtain ⟨hsrc, -, hcand, -⟩ := hk.polls.call rpc (List.mem_of_getElem? hr)
      refine hmove (.requestVote rpc.args) ?_ ?_
      · intro c hc
        rw [List.mem_singleton.mp hc, hcand]
        exact hids rpc.src hsrc
      · show (Node.handleRequestVote Cluster.persistOk _ rpc.args).map Prod.fst = _
        rw [h]
        rfl
  | @voteReply r rpc reply n calls hr h =>
      refine hmove (.voteReply rpc.args.term rpc.election reply) hnobody ?_
      rw [Node.handle, h]
      rfl
  | @appendEntries r rpc n reply hr h =>
      refine hmove (.appendEntries rpc.args) hnobody ?_
      show (Node.handleAppendEntries Cluster.persistOk _ rpc.args).map Prod.fst = _
      rw [h]
      rfl
  | @appendReply r rpc reply n calls hr hp h =>
      exact hmove (.appendReply rpc.dst rpc.args reply) hnobody (by rw [Node.handle, h]; rfl)
  | wake => exact hvote
  | park => exact hvote
  | take => exact hvote
  | send => exact hvote
  | @snapshot i upToIndex data n b h =>
      exact hmove (.takeSnapshot true upToIndex data) hnobody (by rw [Node.handle, h]; rfl)

theorem valid_step (hids : ∀ i ∈ cfg.ids, Valid i) (hk : Known cfg s)
    (hvote : ∀ i ∈ cfg.ids, Valid (s.nodes i).votedFor) (hs : s.step cfg a = some s') :
    ∀ i ∈ cfg.ids, Valid (s'.nodes i).votedFor := by
  cases Cluster.step_nodes hs with
  | @change i n hnodes _ h =>
      exact Cluster.forall_nodes hnodes (P := fun j m => j ∈ cfg.ids → Valid m.votedFor)
        (fun hi => valid_of_changes hids hk (hvote i hi) hi h) (fun j _ => hvote j)
  | @restart i m hnodes _ hm =>
      refine Cluster.forall_nodes hnodes (P := fun j m => j ∈ cfg.ids → Valid m.votedFor)
        (fun hi => ?_) (fun j _ => hvote j)
      rw [(hm.sound (hk.wired.sound i)).restart_eq]
      rcases hm with rfl | ⟨t, -, rfl⟩
      · exact hvote i hi
      · rfl

end Votes

/-! ## §7  Runs -/

variable {cfg : Config} {d d' : Disks}

/-- **Refinement.** A cluster on files, whose processes stop at any file operation and
start again from the bytes, runs as a cluster does. At every moment, and as long as its
terms are below `2 ^ 64`, a member that started again would have its term, vote and log. -/
theorem disks_refine (hterms : ∀ t, cfg.incr t = t + 1) (hids : ∀ i ∈ cfg.ids, Valid i)
    {as : List DiskAction} (h : Run (step cfg) OnlyStops (initial cfg) as d) :
    (∃ bs, Run (Cluster.step cfg) NoSnapshot (Cluster.initial cfg) bs d.cluster) ∧
      ∀ i ∈ cfg.ids, (d.cluster.nodes i).persistentState.Fits →
        ∃ n, bootNode (d.slots i).file (d.cluster.nodes i) = some n ∧
          n.persistentState = (d.cluster.nodes i).persistentState := by
  have hnext : ∀ {u v : Disks} {a : DiskAction}, OnFiles cfg u → OnlyStops u a →
      u.step cfg a = some v → OnFiles cfg v ∧
        ∃ b, NoSnapshot u.cluster b ∧ u.cluster.step cfg b = some v.cluster := by
    intro u v a hu hC hs
    obtain ⟨⟨b, hb, hstep⟩, hfiled⟩ := follows_step hu hC hs
    have hknown := known_step hu.known (plain_of_noSnapshot hterms hb) hstep
    exact ⟨⟨hknown, hfiled, valid_step hids hu.known hu.vote hstep⟩, b, hb, hstep⟩
  constructor
  · refine h.project cluster (onFiles_initial cfg) ?_
    intro u v a hu hC hs
    exact (hnext hu hC hs).imp_right Or.inr
  · have hfiles : OnFiles cfg d :=
      h.invariant (onFiles_initial cfg) fun hu hC hs => (hnext hu hC hs).1
    intro i hi hfits
    have hsound := hfiles.known.wired.sound i
    have hboot := (bootNode_fileOf (hfiles.vote_of_dies hi (Or.inl rfl)) (d.cluster.nodes i)).2
    rw [hfiles.filed i]
    refine ⟨(d.cluster.nodes i).restart, hboot ?_, ?_⟩
    · intro ps hps
      rcases hsound.durable with hst | ⟨hst, -⟩
      · rw [hst] at hps
        cases hps
        exact hfits
      · rw [hst] at hps
        cases hps
    · rw [hsound.restart_eq]
      rfl

/-- Nothing goes wrong. -/
def calm : Faults UInt8 := fun _ => none

/-- The process stops at the operation, with a few bytes in the temporary file. -/
def stopsAt (op : Foundation.FileOp) : Faults UInt8 := fun op' =>
  if op' = op then some (.crashes (some [123, 34])) else none

/-- `B` adopts the term of `A`'s first request and stops at the rename that would have
brought its vote. `A` asks again in the next term, wins and sends a command; `B` stops
while it writes the entry, and gets it with the next heartbeat. -/
def stoppedActions : List DiskAction :=
  [⟨.startElection [65], []⟩, ⟨.deliverVote 0, [calm, stopsAt .rename]⟩,
   ⟨.startElection [65], []⟩, ⟨.deliverVote 1, []⟩, ⟨.voteReply 1, []⟩,
   ⟨.propose [65] (some [7]), []⟩, ⟨.deliverAppend 1, [calm, stopsAt .write]⟩,
   ⟨.heartbeat [65], []⟩, ⟨.deliverAppend 2, []⟩, ⟨.appendReply 2, []⟩]

def stoppedEnd : Disks := Foundation.endState (step pair) OnlyStops (initial pair) stoppedActions

theorem disks_refine_stopped :
    stoppedEnd.cluster.lives [66] = 2 ∧ (stoppedEnd.cluster.nodes [65]).commitIndex = 1 ∧
      (∃ bs, Run (Cluster.step pair) NoSnapshot (Cluster.initial pair) bs stoppedEnd.cluster) ∧
      ∃ n, bootNode (stoppedEnd.slots [66]).file (stoppedEnd.cluster.nodes [66]) = some n ∧
        n.persistentState = (stoppedEnd.cluster.nodes [66]).persistentState := by
  have hrun : Run (step pair) OnlyStops (initial pair) stoppedActions stoppedEnd :=
    Foundation.run_endState (by decide +kernel)
  obtain ⟨hruns, hboots⟩ := disks_refine (fun _ => rfl) (by decide +kernel) hrun
  exact ⟨by decide +kernel, by decide +kernel, hruns,
    hboots [66] (by decide +kernel) (by decide +kernel)⟩

end Disks

end KVEngine.Raft
