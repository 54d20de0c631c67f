import KVEngine.Raft.Cluster
import KVEngine.Raft.Merge
import KVEngine.Raft.Persistence

/-!
# A node whose peers may send anything

Nothing in `HandleRequestVote` and `HandleAppendEntries` checks that a request could
come from a member that follows the protocol. The handlers themselves never leave
the log, but they can leave `commitIndex` beyond its end, where `applyLoop` then
reads (`cut_below_commit`). `rpcs_in_range` says which requests do that.

Terms: a request may bring any term, the largest included, and the next election
wraps it to `0` (`election_wraps_term`). Nothing else makes the term smaller
(`term_decreases_iff`).
-/

namespace KVEngine.Raft.Node

open Foundation (Run Always)

/-! ## §1  Requests and the apply loop -/

/-- One call of a handler, with the outcomes of its `persist`s, or one step of
`applyLoop`. -/
inductive Call : Type where
  | requestVote (ok : ℕ → Bool) (args : RequestVoteArgs)
  | appendEntries (ok : ℕ → Bool) (args : AppendEntriesArgs)
  | applyWake
  | applyTake
  | applySend

def receive (n : Node) : Call → Option Node
  | .requestVote ok args => (n.handleRequestVote ok args).map Prod.fst
  | .appendEntries ok args => (n.handleAppendEntries ok args).map Prod.fst
  | .applyWake => n.applyWake
  | .applyTake => n.applyTake
  | .applySend => n.applySend.map Prod.fst

/-- The call can happen: a request always, a step of `applyLoop` where it stands.
Without a result it is an index outside the log. -/
def Due (n : Node) : Call → Prop
  | .requestVote _ _ | .appendEntries _ _ => True
  | .applyWake => n.applyPc = .parked ∧ n.commitNotify = true
  | .applyTake => n.applyPc = .looping
  | .applySend => ∃ msg, n.applyPc = .sending msg

/-- What `applyLoop` goes by lies in the log. -/
def InRange (n : Node) : Prop := n.lastApplied ≤ n.commitIndex ∧ n.commitIndex < n.log.length

instance (n : Node) : Decidable n.InRange := inferInstanceAs (Decidable (_ ∧ _))

/-- An accepted request that raises `commitIndex` reaches as far as entries were
applied; one that does not, and replaces part of the log, reaches as far as entries
are committed. -/
def Tame (n : Node) : Call → Prop
  | .appendEntries _ args => n.Accepts args →
      if n.commitIndex < args.leaderCommit then n.lastApplied ≤ args.last
      else args.AllStored n.log ∨ n.commitIndex ≤ args.last
  | _ => True

instance (n : Node) : ∀ c, Decidable (n.Tame c)
  | .appendEntries _ args => inferInstanceAs (Decidable (n.Accepts args → ite _ _ _))
  | .requestVote _ _ | .applyWake | .applyTake | .applySend => isTrue trivial

/-! ## §2  Which requests keep the indices in range -/

section InRange

variable {n n' : Node} {args : AppendEntriesArgs}

/-- Only indices count. -/
theorem InRange.congr (hlog : n'.log = n.log) (hcommit : n'.commitIndex = n.commitIndex)
    (happlied : n'.lastApplied = n.lastApplied) : n'.InRange ↔ n.InRange := by
  rw [InRange, InRange, hlog, hcommit, happlied]

theorem inRange_follow (ok : Bool) (n : Node) (args : AppendEntriesArgs) :
    (n.follow ok args).InRange ↔ n.InRange :=
  InRange.congr (follow_log ok n args) (by simp [follow, becomeFollower])
    (by simp [follow, becomeFollower])

theorem inRange_requestVote {ok : ℕ → Bool} {args : RequestVoteArgs} {reply : RequestVoteReply}
    (h : n.handleRequestVote ok args = some (n', reply)) : n'.InRange ↔ n.InRange := by
  have hadopt : (n.adoptTerm (ok 0) args.term).InRange ↔ n.InRange :=
    adoptTerm_rule (P := fun m => m.InRange ↔ n.InRange)
      (fun _ => InRange.congr (by simp [becomeFollower]) (by simp [becomeFollower])
        (by simp [becomeFollower])) Iff.rfl
  rcases handleRequestVote_cases h with ⟨-, rfl, -⟩ | ⟨-, _, _, -, ⟨-, rfl, -⟩ | ⟨-, rfl, -⟩⟩
  · exact Iff.rfl
  · exact (InRange.congr (by simp) (by simp) (by simp)).trans hadopt
  · exact hadopt

/-- The log stays as long as it was, or ends with the request's last entry. -/
theorem merged_length (ok : ℕ → Bool) (h : n.Accepts args) :
    (args.AllStored n.log ∧ args.last < n.log.length ∧
        (n.merged ok args).log.length = n.log.length) ∨
      ¬ args.AllStored n.log ∧ (n.merged ok args).log.length = args.last + 1 := by
  rw [merged_log, AppendEntriesArgs.last]
  rcases Foundation.length_splice LogEntry.term args.entries h.length with
    ⟨hall, hle, hlen⟩ | ⟨hmiss, hlen⟩
  · exact Or.inl ⟨hall, by omega, hlen⟩
  · exact Or.inr ⟨hmiss, by omega⟩

theorem inRange_merged_iff (ok : ℕ → Bool) (hn : n.InRange) (h : n.Accepts args) :
    (n.merged ok args).InRange ↔
      if n.commitIndex < args.leaderCommit then n.lastApplied ≤ args.last
      else args.AllStored n.log ∨ n.commitIndex ≤ args.last := by
  obtain ⟨happlied, hcommit⟩ := hn
  rw [InRange, merged_lastApplied, merged_commitIndex]
  rcases merged_length ok h with ⟨hall, hlast, hlen⟩ | ⟨hmiss, hlen⟩
  · rw [hlen]
    split
    · omega
    · simp only [hall, true_or, iff_true]
      exact ⟨happlied, hcommit⟩
  · rw [hlen]
    split
    · omega
    · simp only [hmiss, false_or]
      omega

/-- **One call.** It keeps the indices in range exactly if it is tame. -/
theorem inRange_receive_iff {c : Call} (hn : n.InRange) (h : n.receive c = some n') :
    n'.InRange ↔ n.Tame c := by
  cases c with
  | requestVote ok args =>
      obtain ⟨⟨m, reply⟩, hm, rfl⟩ := Option.map_eq_some_iff.mp h
      exact iff_of_true ((inRange_requestVote hm).mpr hn) trivial
  | appendEntries ok args =>
      obtain ⟨⟨m, reply⟩, hm, rfl⟩ := Option.map_eq_some_iff.mp h
      by_cases hacc : n.Accepts args
      · rw [handleAppendEntries_accept n args ok hacc] at hm
        cases hm
        exact (inRange_merged_iff ok hn hacc).trans ⟨fun h _ => h, fun h => h hacc⟩
      · refine iff_of_true ?_ fun h => absurd h hacc
        rcases handleAppendEntries_cases hm with ⟨-, rfl, -⟩ |
          ⟨hle, ⟨-, rfl, -⟩ | ⟨prev, hprev, ⟨-, rfl, -⟩ | ⟨hkey, -⟩⟩⟩
        · exact hn
        · exact (inRange_follow _ _ _).mpr hn
        · exact (inRange_follow _ _ _).mpr hn
        · exact absurd ⟨hle, by rw [hprev, ← hkey]; rfl⟩ hacc
  | applyWake =>
      rw [receive, applyWake] at h
      split at h
      · cases h
        exact iff_of_true hn trivial
      · cases h
  | applyTake =>
      refine iff_of_true ?_ trivial
      obtain ⟨-, ⟨hlt, e, pc, -, rfl, -⟩ | ⟨-, rfl⟩⟩ := applyTake_cases h
      · exact ⟨hlt, hn.2⟩
      · exact hn
  | applySend =>
      obtain ⟨⟨m, msg⟩, hm, rfl⟩ := Option.map_eq_some_iff.mp h
      obtain ⟨-, rfl⟩ := applySend_some hm
      exact iff_of_true hn trivial

/-- In range, nothing that can happen leaves the log. -/
theorem receive_isSome {c : Call} (hn : n.InRange) (hdue : n.Due c) :
    ∃ n', n.receive c = some n' := by
  have hmap : ∀ {α : Type} {x : Option (Node × α)}, (∃ y, x = some y) →
      ∃ n', x.map Prod.fst = some n' := by
    rintro α x ⟨y, rfl⟩
    exact ⟨y.1, rfl⟩
  cases c with
  | requestVote ok args =>
      exact hmap (handleRequestVote_isSome (lt_of_le_of_lt (Nat.zero_le _) hn.2) ok args)
  | appendEntries ok args => exact hmap (handleAppendEntries_isSome n ok args)
  | applyWake => exact ⟨_, if_pos hdue⟩
  | applyTake => exact applyTake_isSome hn.2 hdue
  | applySend =>
      obtain ⟨msg, hpc⟩ := hdue
      exact hmap ⟨({ n with applyPc := .looping }, msg), by rw [applySend, hpc]⟩

/-- **Arbitrary requests.** From a fresh node, as long as every request is tame,
`lastApplied ≤ commitIndex < len(log)` and no handler and no step of `applyLoop`
leaves the log; and the first request that is not tame breaks the bounds. -/
theorem rpcs_in_range {id : NodeId} {peers : List NodeId} {calls : List Call} {n : Node}
    (h : Run receive Tame (newNode id peers none none) calls n) :
    n.InRange ∧ (∀ c, n.Due c → ∃ n', n.receive c = some n') ∧
      ∀ c n', n.receive c = some n' → (n'.InRange ↔ n.Tame c) := by
  have hn : n.InRange := by
    refine h.invariant (I := InRange) ⟨le_refl 0, Nat.zero_lt_one⟩ fun hu hC hs => ?_
    exact (inRange_receive_iff hu hs).mpr hC
  exact ⟨hn, fun c hdue => receive_isSome hn hdue, fun c n' hs => inRange_receive_iff hn hs⟩

end InRange

/-- Two entries of term `1`, both committed. -/
def twoCommitted : Call :=
  .appendEntries (fun _ => true)
    { term := 1, leaderId := [1], prevLogIndex := 0, prevLogTerm := 0,
      entries := [⟨1, some [10]⟩, ⟨1, some [11]⟩], leaderCommit := 2 }

/-- Another log of term `2`, shorter. -/
def shorterLog : Call :=
  .appendEntries (fun _ => true)
    { term := 2, leaderId := [3], prevLogIndex := 0, prevLogTerm := 0,
      entries := [⟨2, some [20]⟩], leaderCommit := 0 }

/-- A heartbeat that starts at `0` and claims a commit beyond the log. -/
def earlyHeartbeat : Call :=
  .appendEntries (fun _ => true)
    { term := 1, leaderId := [1], prevLogIndex := 0, prevLogTerm := 0, entries := [],
      leaderCommit := 3 }

theorem twoCommitted_in_range :
    ∃ n, Run receive Tame (newNode [2] [[1], [3]] none none) [twoCommitted] n ∧ n.InRange ∧
      ¬ n.Tame shorterLog := by
  have hrun : Run receive Tame (newNode [2] [[1], [3]] none none) [twoCommitted] _ :=
    Foundation.run_endState (by decide +kernel)
  exact ⟨_, hrun, (rpcs_in_range hrun).1, by decide +kernel⟩

/-- The second log replaces both committed entries by one. `commitIndex` stays at
`2`, and `applyLoop`, having taken the entry at `1`, reads index `2` of a log of
length `2`. The heartbeat takes `commitIndex` back to `0` after both entries were
applied. -/
theorem cut_below_commit :
    (∃ n, Run receive Always (newNode [2] [[1], [3]] none none)
        [twoCommitted, shorterLog, .applyWake, .applyTake, .applySend] n ∧
      n.log.length = 2 ∧ n.commitIndex = 2 ∧ n.Due .applyTake ∧
      n.receive .applyTake = none) ∧
    ∃ n, Run receive Always (newNode [2] [[1], [3]] none none)
        [twoCommitted, .applyWake, .applyTake, .applySend, .applyTake, .applySend,
          earlyHeartbeat] n ∧
      n.lastApplied = 2 ∧ n.commitIndex = 0 := by
  refine ⟨⟨_, Foundation.run_endState (by decide +kernel), by decide +kernel, by decide +kernel,
    ?_, ?_⟩, _, Foundation.run_endState (by decide +kernel), by decide +kernel, by decide +kernel⟩
  · rfl
  · rfl

/-! ## §3  Terms -/

/-- The terms that an input brings from outside. -/
def broughtTerms : Input → List ℕ
  | .requestVote args => [args.term]
  | .appendEntries args => [args.term]
  | .voteReply _ _ reply => [reply.term]
  | .appendReply _ _ reply => [reply.term]
  | .startElection | .propose _ | .takeSnapshot _ _ _ | .applyWake | .applyTake
  | .applySend => []

/-- A critical section with every file operation succeeding, or a restart from the
files. -/
def move (n : Node) : Process.Action → Option Node
  | .input a => n.handle incrTerm a
  | .restart => some n.restart

/-- Fields are 64-bit words. -/
def Words (_ : Node) : Process.Action → Prop
  | .input a => ∀ t ∈ broughtTerms a, t < 2 ^ 64
  | .restart => True

instance (n : Node) : ∀ a, Decidable (n.Words a)
  | .input a => inferInstanceAs (Decidable (∀ t ∈ broughtTerms a, t < 2 ^ 64))
  | .restart => isTrue trivial

section Terms

variable {n n' : Node}

/-- The term of the state file, `0` without one. -/
def fileTerm (stateFile : Option PersistentState) : ℕ :=
  (stateFile.map PersistentState.currentTerm).getD 0

theorem newNode_term (id : NodeId) (peers : List NodeId) (stateFile : Option PersistentState)
    (snapshotFile : Option Snapshot) :
    (newNode id peers stateFile snapshotFile).currentTerm = fileTerm stateFile ∧
      (newNode id peers stateFile snapshotFile).stateFile = stateFile := by
  unfold newNode
  dsimp only
  split <;> cases stateFile <;> cases snapshotFile <;> exact ⟨rfl, rfl⟩

/-- **One critical section.** An election increments the term; everything else
keeps it or takes over a larger one that came from outside. -/
theorem handle_term {incr : ℕ → ℕ} {a : Input} (h : n.handle incr a = some n') :
    (a = .startElection ∧ n'.currentTerm = incr n.currentTerm) ∨
      a ≠ .startElection ∧ n.currentTerm ≤ n'.currentTerm ∧
        n'.currentTerm ∈ n.currentTerm :: broughtTerms a := by
  have hsame : ∀ {b : Input}, b ≠ .startElection → n'.currentTerm = n.currentTerm →
      b ≠ .startElection ∧ n.currentTerm ≤ n'.currentTerm ∧
        n'.currentTerm ∈ n.currentTerm :: broughtTerms b :=
    fun hb ht => ⟨hb, ht.ge, by rw [ht]; exact List.mem_cons_self⟩
  cases a with
  | startElection =>
      obtain ⟨⟨m, calls⟩, hm, rfl⟩ := Option.map_eq_some_iff.mp h
      obtain ⟨e, -, rfl, -⟩ := startElection_some hm
      exact Or.inl ⟨rfl, rfl⟩
  | requestVote args =>
      obtain ⟨⟨m, reply⟩, hm, rfl⟩ := Option.map_eq_some_iff.mp h
      right
      rcases handleRequestVote_cases hm with ⟨-, rfl, -⟩ | ⟨hle, _, _, -, hgrant⟩
      · exact hsame (by simp) rfl
      · have ht : m.currentTerm = args.term := by
          rcases hgrant with ⟨-, rfl, -⟩ | ⟨-, rfl, -⟩
          · exact (persist_currentTerm _ _).trans (adoptTerm_currentTerm hle)
          · exact adoptTerm_currentTerm hle
        exact ⟨by simp, ht ▸ hle, by simp [broughtTerms, ht]⟩
  | appendEntries args =>
      obtain ⟨⟨m, reply⟩, hm, rfl⟩ := Option.map_eq_some_iff.mp h
      right
      rcases handleAppendEntries_cases hm with ⟨-, rfl, -⟩ |
        ⟨hle, ⟨-, rfl, -⟩ | ⟨_, -, ⟨-, rfl, -⟩ | ⟨-, rfl, -⟩⟩⟩
      · exact hsame (by simp) rfl
      · exact ⟨by simp, hle, by simp [broughtTerms]⟩
      · exact ⟨by simp, hle, by simp [broughtTerms]⟩
      · have ht := merged_currentTerm (fun _ => true) n args
        rw [merged] at ht
        exact ⟨by simp, ht ▸ hle, by simp [broughtTerms, ht]⟩
  | voteReply term election reply =>
      obtain ⟨⟨m, calls⟩, hm, rfl⟩ := Option.map_eq_some_iff.mp h
      right
      rcases handleVoteReply_cases hm with ⟨hlt, rfl, -⟩ | ⟨rfl, -⟩ |
        ⟨-, -, -, ⟨-, rfl, -⟩ | ⟨-, rfl, -⟩⟩
      · exact ⟨by simp, hlt.le, by simp [broughtTerms]⟩
      · exact hsame (by simp) rfl
      · exact hsame (by simp) rfl
      · exact hsame (by simp) rfl
  | appendReply peer args reply =>
      obtain ⟨⟨m, calls⟩, hm, rfl⟩ := Option.map_eq_some_iff.mp h
      right
      rcases handleAppendReply_cases hm with ⟨hlt, rfl, -⟩ | ⟨rfl, -⟩ |
        ⟨-, -, -, ⟨-, -, rfl⟩ | ⟨-, rfl, -⟩⟩
      · exact ⟨by simp, hlt.le, by simp [broughtTerms]⟩
      · exact hsame (by simp) rfl
      · refine hsame (by simp) ?_
        unfold maybeAdvanceCommitIndex
        rcases (n.recordMatch peer args).advanceCommitFrom_cases _ with
          hc | ⟨k, -, -, -, -, hc⟩ <;> rw [hc] <;> rfl
      · exact hsame (by simp) rfl
  | propose command =>
      obtain ⟨⟨m, calls, idx, term, isLeader⟩, hm, rfl⟩ := Option.map_eq_some_iff.mp h
      right
      rcases propose_cases hm with ⟨-, rfl, -⟩ | ⟨-, rfl, -⟩
      · exact hsame (by simp) rfl
      · exact hsame (by simp) rfl
  | takeSnapshot marshals upToIndex data =>
      obtain ⟨⟨m, b⟩, hm, rfl⟩ := Option.map_eq_some_iff.mp h
      exact Or.inr (hsame (by simp) (takeSnapshot_currentTerm hm))
  | applyWake =>
      rw [handle, applyWake] at h
      split at h
      · cases h
        exact Or.inr (hsame (by simp) rfl)
      · cases h
  | applyTake =>
      obtain ⟨-, ⟨-, e, pc, -, rfl, -⟩ | ⟨-, rfl⟩⟩ := applyTake_cases h
      · exact Or.inr (hsame (by simp) rfl)
      · exact Or.inr (hsame (by simp) rfl)
  | applySend =>
      obtain ⟨⟨m, msg⟩, hm, rfl⟩ := Option.map_eq_some_iff.mp h
      obtain ⟨-, rfl⟩ := applySend_some hm
      exact Or.inr (hsame (by simp) rfl)

/-- The term fits into a word and is the one in the state file. -/
structure TermKept (n : Node) : Prop where
  lt : n.currentTerm < 2 ^ 64
  file : n.currentTerm = fileTerm n.stateFile

theorem termKept_newNode (id : NodeId) (peers : List NodeId) {stateFile : Option PersistentState}
    (snapshotFile : Option Snapshot) (h : fileTerm stateFile < 2 ^ 64) :
    TermKept (newNode id peers stateFile snapshotFile) := by
  obtain ⟨hterm, hfile⟩ := newNode_term id peers stateFile snapshotFile
  exact ⟨by rw [hterm]; exact h, by rw [hterm, hfile]⟩

theorem TermKept.move {a : Process.Action} (h : TermKept n) (hw : n.Words a)
    (hs : n.move a = some n') : TermKept n' := by
  cases a with
  | input a =>
      refine ⟨?_, ?_⟩
      · rcases handle_term hs with ⟨-, ht⟩ | ⟨-, -, ht⟩
        · rw [ht]
          exact Nat.mod_lt _ (Nat.two_pow_pos 64)
        · rcases List.mem_cons.mp ht with ht | ht
          · rw [ht]
            exact h.lt
          · exact hw _ ht
      · rcases (handle_saves hs).files with hnew | ⟨hst, hps, -⟩
        · rw [hnew]
          rfl
        · rw [hst, ← h.file]
          exact congrArg PersistentState.currentTerm hps
  | restart =>
      cases hs
      exact termKept_newNode _ _ _ (h.file ▸ h.lt)

/-- **Terms.** Whatever 64-bit values a node receives, with every file operation
succeeding: a step makes the term smaller exactly if it starts an election in the
largest term. -/
theorem term_decreases_iff {id : NodeId} {peers : List NodeId}
    {stateFile : Option PersistentState} {snapshotFile : Option Snapshot}
    {as : List Process.Action} {a : Process.Action} (hfile : fileTerm stateFile < 2 ^ 64)
    (h : Run move Words (newNode id peers stateFile snapshotFile) as n)
    (hs : n.move a = some n') :
    n'.currentTerm < n.currentTerm ↔
      a = .input .startElection ∧ n.currentTerm = 2 ^ 64 - 1 := by
  have hn : TermKept n :=
    h.invariant (termKept_newNode id peers snapshotFile hfile) TermKept.move
  have hlt := hn.lt
  cases a with
  | input a =>
      rcases handle_term hs with ⟨rfl, ht⟩ | ⟨hne, hle, -⟩
      · rw [ht, incrTerm]
        simp only [true_and]
        omega
      · refine iff_of_false (not_lt.mpr hle) ?_
        rintro ⟨heq, -⟩
        cases heq
        exact hne rfl
  | restart =>
      cases hs
      have ht : n.restart.currentTerm = n.currentTerm :=
        (newNode_term _ _ _ _).1.trans hn.file.symm
      refine iff_of_false ?_ ?_
      · rw [ht]
        exact lt_irrefl _
      · rintro ⟨heq, -⟩
        cases heq

end Terms

/-- A request in the largest term, answered by a vote. -/
def lastTermVote : Process.Action := .input (.requestVote ⟨2 ^ 64 - 1, [1], 0, 0⟩)

/-- The node takes over the largest term, restarts in it, and its next election
leads back to term `0`. -/
theorem election_wraps_term :
    ∃ n n', Run move Words (newNode [2] [[1]] none none) [lastTermVote, .restart] n ∧
      n.currentTerm = 2 ^ 64 - 1 ∧ n.move (.input .startElection) = some n' ∧
      n'.currentTerm = 0 :=
  ⟨_, _, Foundation.run_endState (by decide +kernel), by decide +kernel, rfl, by decide +kernel⟩

theorem lastTerm_survives_restart :
    ∃ n, Run move Words (newNode [2] [[1]] none none) [lastTermVote] n ∧
      n.currentTerm = 2 ^ 64 - 1 ∧ ¬ n.restart.currentTerm < n.currentTerm := by
  have hrun : Run move Words (newNode [2] [[1]] none none) [lastTermVote] _ :=
    Foundation.run_endState (by decide +kernel)
  refine ⟨_, hrun, by decide +kernel, fun hlt => ?_⟩
  have hs : ∀ n : Node, n.move .restart = some n.restart := fun _ => rfl
  obtain ⟨h, -⟩ := (term_decreases_iff (by decide) hrun (hs _)).mp hlt
  cases h

end KVEngine.Raft.Node
