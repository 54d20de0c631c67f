import KVEngine.Foundation.Simulation
import KVEngine.Raft.Node

/-!
# What each node function can do

One specification per function of `Node`: field lemmas for the updates every
handler is built from, and for each handler an inversion lemma that lists its
outcomes with their guards. Later files cite these and do not unfold the
handlers again.
-/

namespace KVEngine.Raft.Node

open Foundation (splice bind_isSome guard_isSome)
open Foundation.ReplicatedLog (Role)

/-! ## §1  Field lemmas -/

section Fields

variable (ok : Bool) (n : Node) (t : ℕ)

@[simp] theorem persist_id : (persist ok n).id = n.id := by
  unfold persist; split <;> rfl

@[simp] theorem persist_peers : (persist ok n).peers = n.peers := by
  unfold persist; split <;> rfl

@[simp] theorem persist_currentTerm : (persist ok n).currentTerm = n.currentTerm := by
  unfold persist; split <;> rfl

@[simp] theorem persist_votedFor : (persist ok n).votedFor = n.votedFor := by
  unfold persist; split <;> rfl

@[simp] theorem persist_log : (persist ok n).log = n.log := by
  unfold persist; split <;> rfl

@[simp] theorem persist_role : (persist ok n).role = n.role := by
  unfold persist; split <;> rfl

@[simp] theorem persist_commitIndex : (persist ok n).commitIndex = n.commitIndex := by
  unfold persist; split <;> rfl

@[simp] theorem persist_lastApplied : (persist ok n).lastApplied = n.lastApplied := by
  unfold persist; split <;> rfl

@[simp] theorem persist_nextIndex : (persist ok n).nextIndex = n.nextIndex := by
  unfold persist; split <;> rfl

@[simp] theorem persist_matchIndex : (persist ok n).matchIndex = n.matchIndex := by
  unfold persist; split <;> rfl

@[simp] theorem persist_elections : (persist ok n).elections = n.elections := by
  unfold persist; split <;> rfl

@[simp] theorem persist_applyPc : (persist ok n).applyPc = n.applyPc := by
  unfold persist; split <;> rfl

@[simp] theorem persist_commitNotify : (persist ok n).commitNotify = n.commitNotify := by
  unfold persist; split <;> rfl

@[simp] theorem persist_snapshotFile :
    (persist ok n).snapshotFile = n.snapshotFile := by
  unfold persist; split <;> rfl

@[simp] theorem persist_snapshotIndex :
    (persist ok n).snapshotIndex = n.snapshotIndex := by
  unfold persist; split <;> rfl

@[simp] theorem persist_true_stateFile :
    (persist true n).stateFile = some n.persistentState := rfl

end Fields

@[simp] theorem becomeFollower_currentTerm (ok : Bool) (n : Node) (t : ℕ) :
    (n.becomeFollower ok t).currentTerm = t := by
  simp [becomeFollower]

@[simp] theorem becomeFollower_role (ok : Bool) (n : Node) (t : ℕ) :
    (n.becomeFollower ok t).role = .follower := by
  simp [becomeFollower]

@[simp] theorem becomeFollower_votedFor (ok : Bool) (n : Node) (t : ℕ) :
    (n.becomeFollower ok t).votedFor = [] := by
  simp [becomeFollower]

/-- A newer term makes a follower; otherwise nothing happens. -/
theorem adoptTerm_rule {P : Node → Prop} {ok : Bool} {n : Node} {t : ℕ}
    (hnew : n.currentTerm < t → P (n.becomeFollower ok t)) (hold : P n) :
    P (n.adoptTerm ok t) := by
  unfold adoptTerm
  split
  · rename_i hlt
    exact hnew hlt
  · exact hold

theorem adoptTerm_currentTerm {ok : Bool} {n : Node} {t : ℕ} (h : n.currentTerm ≤ t) :
    (n.adoptTerm ok t).currentTerm = t := by
  unfold adoptTerm
  split
  · simp
  · omega

theorem lastLogIndexAndTerm_eq_some {n : Node} {p : ℕ × ℕ}
    (h : n.lastLogIndexAndTerm = some p) :
    ∃ e, n.log[n.log.length - 1]? = some e ∧ p = (n.log.length - 1, e.term) := by
  unfold lastLogIndexAndTerm at h
  obtain ⟨e, he, hp⟩ := Option.bind_eq_some_iff.mp h
  exact ⟨e, he, (Option.some.inj hp).symm⟩

/-! ## §2  The append loop is a splice -/

theorem appendLoop_eq_splice : ∀ (es log : List LogEntry) (idx : ℕ),
    appendLoop log idx es = splice LogEntry.term log idx es
  | [], log, idx => by simp [appendLoop]
  | e :: es, log, idx => by
      rw [appendLoop]
      split
      · rename_i h
        have hx : log[idx]? = some log[idx] := List.getElem?_eq_getElem h
        by_cases ht : log[idx].term = e.term
        · rw [if_neg (by simpa using ht), appendLoop_eq_splice es,
            Foundation.splice_cons_keep hx ht]
        · rw [if_pos ht, appendLoop_eq_splice es, Foundation.splice_cons_cut hx ht]
      · rename_i h
        have hx : log[idx]? = none := List.getElem?_eq_none_iff.mpr (by omega)
        rw [appendLoop_eq_splice es, Foundation.splice_cons_grow hx]

/-! ## §3  RPC handlers -/

theorem handleRequestVote_cases {ok : ℕ → Bool} {n n' : Node}
    {args : RequestVoteArgs} {reply : RequestVoteReply}
    (h : n.handleRequestVote ok args = some (n', reply)) :
    (args.term < n.currentTerm ∧ n' = n ∧ reply = ⟨n.currentTerm, false⟩) ∨
    (n.currentTerm ≤ args.term ∧ ∃ lastIdx lastTerm,
      (n.adoptTerm (ok 0) args.term).lastLogIndexAndTerm = some (lastIdx, lastTerm) ∧
      (((n.adoptTerm (ok 0) args.term).GrantsVote args lastIdx lastTerm ∧
          n' = persist (ok 1)
            { n.adoptTerm (ok 0) args.term with votedFor := args.candidateId } ∧
          reply = ⟨args.term, true⟩) ∨
        (¬ (n.adoptTerm (ok 0) args.term).GrantsVote args lastIdx lastTerm ∧
          n' = n.adoptTerm (ok 0) args.term ∧ reply = ⟨args.term, false⟩))) := by
  unfold handleRequestVote at h
  split at h
  · rename_i hlt
    simp only [Option.some.injEq, Prod.mk.injEq] at h
    exact Or.inl ⟨hlt, h.1.symm, h.2.symm⟩
  · rename_i hge
    have hle : n.currentTerm ≤ args.term := by omega
    have hterm : (n.adoptTerm (ok 0) args.term).currentTerm = args.term :=
      adoptTerm_currentTerm hle
    obtain ⟨⟨lastIdx, lastTerm⟩, hlast, h⟩ := Option.bind_eq_some_iff.mp h
    refine Or.inr ⟨hle, lastIdx, lastTerm, hlast, ?_⟩
    dsimp only at h
    split at h
    · rename_i hg
      simp only [Option.pure_def, Option.some.injEq, Prod.mk.injEq] at h
      exact Or.inl ⟨hg, h.1.symm, by rw [← h.2, persist_currentTerm, hterm]⟩
    · rename_i hg
      simp only [Option.pure_def, Option.some.injEq, Prod.mk.injEq] at h
      exact Or.inr ⟨hg, h.1.symm, by rw [← h.2, hterm]⟩

@[simp] theorem follow_currentTerm (ok : Bool) (n : Node) (args : AppendEntriesArgs) :
    (n.follow ok args).currentTerm = args.term := by
  simp [follow]

@[simp] theorem follow_log (ok : Bool) (n : Node) (args : AppendEntriesArgs) :
    (n.follow ok args).log = n.log := by
  simp [follow, becomeFollower]

theorem handleAppendEntries_cases {ok : ℕ → Bool} {n n' : Node}
    {args : AppendEntriesArgs} {reply : AppendEntriesReply}
    (h : n.handleAppendEntries ok args = some (n', reply)) :
    (args.term < n.currentTerm ∧ n' = n ∧ reply = ⟨n.currentTerm, false, 0, 0⟩) ∨
    (n.currentTerm ≤ args.term ∧
      ((n.log.length ≤ args.prevLogIndex ∧ n' = n.follow (ok 0) args ∧
          reply = ⟨args.term, false, n.log.length, 0⟩) ∨
        ∃ prev, n.log[args.prevLogIndex]? = some prev ∧
          ((prev.term ≠ args.prevLogTerm ∧ n' = n.follow (ok 0) args ∧
              reply = ⟨args.term, false,
                firstIndexOfTerm n.log prev.term args.prevLogIndex, prev.term⟩) ∨
            (prev.term = args.prevLogTerm ∧
              n' = ((n.follow (ok 0) args).appendAndPersist (ok 1) args).followCommit args ∧
              reply.success = true ∧ reply.term = n'.currentTerm)))) := by
  unfold handleAppendEntries at h
  split at h
  · rename_i hlt
    simp only [Option.some.injEq, Prod.mk.injEq] at h
    exact Or.inl ⟨hlt, h.1.symm, h.2.symm⟩
  · rename_i hge
    refine Or.inr ⟨by omega, ?_⟩
    dsimp only at h
    split at h
    · rename_i hlen
      simp only [Option.some.injEq, Prod.mk.injEq, follow_log, follow_currentTerm] at h hlen
      exact Or.inl ⟨hlen, h.1.symm, h.2.symm⟩
    · obtain ⟨prev, hprev, h⟩ := Option.bind_eq_some_iff.mp h
      rw [follow_log] at hprev
      refine Or.inr ⟨prev, hprev, ?_⟩
      split at h
      · rename_i hne
        simp only [Option.pure_def, Option.some.injEq, Prod.mk.injEq, follow_log,
          follow_currentTerm] at h
        exact Or.inl ⟨hne, h.1.symm, h.2.symm⟩
      · rename_i heq
        simp only [Option.pure_def, Option.some.injEq, Prod.mk.injEq] at h
        refine Or.inr ⟨by simpa using heq, h.1.symm, ?_, ?_⟩
        · rw [← h.2]
        · rw [← h.2, ← h.1]

/-! ### The accepted request -/

section Accept

variable (ok : Bool) (n : Node) (args : AppendEntriesArgs)

@[simp] theorem appendAndPersist_log : (n.appendAndPersist ok args).log =
    splice LogEntry.term n.log (args.prevLogIndex + 1) args.entries := by
  unfold appendAndPersist
  dsimp only
  split <;> simp [appendLoop_eq_splice]

/-- The commit index does not decide what is spliced, nor the other way round:
the rest of the node is as it was. -/
theorem appendAndPersist_rest :
    let n' := n.appendAndPersist ok args
    n'.id = n.id ∧ n'.peers = n.peers ∧ n'.currentTerm = n.currentTerm ∧
      n'.votedFor = n.votedFor ∧ n'.role = n.role ∧ n'.commitIndex = n.commitIndex ∧
      n'.lastApplied = n.lastApplied ∧ n'.elections = n.elections ∧
      n'.applyPc = n.applyPc ∧ n'.snapshotFile = n.snapshotFile ∧
      n'.snapshotIndex = n.snapshotIndex := by
  unfold appendAndPersist
  dsimp only
  split <;> simp

theorem followCommit_rest :
    let n' := n.followCommit args
    n'.id = n.id ∧ n'.peers = n.peers ∧ n'.currentTerm = n.currentTerm ∧
      n'.votedFor = n.votedFor ∧ n'.role = n.role ∧ n'.log = n.log ∧
      n'.lastApplied = n.lastApplied ∧ n'.elections = n.elections ∧
      n'.applyPc = n.applyPc ∧ n'.snapshotFile = n.snapshotFile ∧
      n'.snapshotIndex = n.snapshotIndex ∧ n'.stateFile = n.stateFile := by
  unfold followCommit
  split <;> simp

theorem followCommit_commitIndex : (n.followCommit args).commitIndex =
    if n.commitIndex < args.leaderCommit then
      min args.leaderCommit (args.prevLogIndex + args.entries.length)
    else n.commitIndex := by
  unfold followCommit
  split
  · dsimp only
    split <;> omega
  · rfl

/-- A request of no older term whose previous entry matches is accepted. -/
def Accepts : Prop :=
  n.currentTerm ≤ args.term ∧
    n.log[args.prevLogIndex]?.map LogEntry.term = some args.prevLogTerm

instance : Decidable (n.Accepts args) := inferInstanceAs (Decidable (_ ∧ _))

theorem handleAppendEntries_accept (ok : ℕ → Bool) (h : n.Accepts args) :
    n.handleAppendEntries ok args =
      some (((n.follow (ok 0) args).appendAndPersist (ok 1) args).followCommit args,
        ⟨args.term, true, 0, 0⟩) := by
  obtain ⟨hterm, hprev⟩ := h
  obtain ⟨prev, hprev, hkey⟩ := Option.map_eq_some_iff.mp hprev
  have hlt : args.prevLogIndex < n.log.length := (List.getElem?_eq_some_iff.mp hprev).1
  obtain ⟨-, -, hT, -⟩ :=
    followCommit_rest ((n.follow (ok 0) args).appendAndPersist (ok 1) args) args
  obtain ⟨-, -, hT', -⟩ := appendAndPersist_rest (ok 1) (n.follow (ok 0) args) args
  unfold handleAppendEntries
  rw [if_neg (Nat.not_lt.mpr hterm)]
  dsimp only
  rw [if_neg (by simpa using hlt), follow_log, hprev, Option.bind_eq_bind, Option.bind_some,
    if_neg (by simpa using hkey), hT, hT', follow_currentTerm]
  rfl

end Accept

/-! ## §4  The sender side -/

theorem sendAppendEntries_some {n : Node} {peer : NodeId} {call : AppendCall}
    (h : n.sendAppendEntries peer = some call) :
    ∃ prev, n.log[call.args.prevLogIndex]? = some prev ∧
      call.peer = peer ∧
      call.args.prevLogIndex = max (n.nextIndex peer) 1 - 1 ∧
      call.args.prevLogTerm = prev.term ∧ call.args.term = n.currentTerm ∧
      call.args.leaderId = n.id ∧
      call.args.entries = n.log.drop (call.args.prevLogIndex + 1) ∧
      call.args.leaderCommit = n.commitIndex := by
  unfold sendAppendEntries at h
  obtain ⟨prev, hprev, h⟩ := Option.bind_eq_some_iff.mp h
  simp only [Option.pure_def, Option.some.injEq] at h
  subst h
  refine ⟨prev, hprev, rfl, ?_, rfl, rfl, rfl, ?_, rfl⟩
  · dsimp only
    split <;> omega
  · have hnext : ∀ k, 1 ≤ k → (if n.log.length > k then n.log.drop k else []) =
        n.log.drop (k - 1 + 1) := by
      intro k hk
      rw [Nat.sub_add_cancel hk]
      split
      · rfl
      · rw [List.drop_eq_nil_of_le (by omega)]
    exact hnext _ (by split <;> omega)

theorem mem_of_mapM_eq_some {α β : Type} {f : α → Option β} :
    ∀ {l : List α} {ys : List β}, l.mapM f = some ys →
      ∀ y ∈ ys, ∃ x ∈ l, f x = some y
  | [], ys, h, y, hy => by
      simp only [List.mapM_nil, Option.pure_def, Option.some.injEq] at h
      subst h
      exact absurd hy (by simp)
  | x :: l, ys, h, y, hy => by
      rw [List.mapM_cons] at h
      obtain ⟨z, hz, h⟩ := Option.bind_eq_some_iff.mp h
      obtain ⟨zs, hzs, h⟩ := Option.bind_eq_some_iff.mp h
      simp only [Option.pure_def, Option.some.injEq] at h
      subst h
      rcases List.mem_cons.mp hy with rfl | hy
      · exact ⟨x, List.mem_cons_self, hz⟩
      · obtain ⟨x', hx', hf⟩ := mem_of_mapM_eq_some hzs y hy
        exact ⟨x', List.mem_cons_of_mem _ hx', hf⟩

/-- A broadcast consists of calls that `sendAppendEntries` makes to peers. -/
theorem broadcast_mem {n : Node} {calls : List AppendCall}
    (h : n.broadcastAppendEntries = some calls) :
    ∀ c ∈ calls, c.peer ∈ n.peers ∧ n.sendAppendEntries c.peer = some c := by
  intro c hc
  obtain ⟨p, hp, hs⟩ := mem_of_mapM_eq_some h c hc
  obtain ⟨-, -, hpeer, -⟩ := sendAppendEntries_some hs
  rw [hpeer]
  exact ⟨hp, hs⟩

theorem becomeLeader_some {n n' : Node} {calls : List AppendCall}
    (h : n.becomeLeader = some (n', calls)) :
    n' = n.lead (n.log.length - 1) ∧ n'.broadcastAppendEntries = some calls := by
  unfold becomeLeader at h
  obtain ⟨p, hp, h⟩ := Option.bind_eq_some_iff.mp h
  obtain ⟨e, -, rfl⟩ := lastLogIndexAndTerm_eq_some hp
  obtain ⟨cs, hcs, h⟩ := Option.bind_eq_some_iff.mp h
  simp only [Option.pure_def, Option.some.injEq, Prod.mk.injEq] at h
  obtain ⟨rfl, rfl⟩ := h
  exact ⟨rfl, hcs⟩

theorem handleVoteReply_cases {ok : Bool} {n n' : Node} {term election : ℕ}
    {reply : RequestVoteReply} {calls : List AppendCall}
    (h : n.handleVoteReply ok term election reply = some (n', calls)) :
    (n.currentTerm < reply.term ∧ n' = n.becomeFollower ok reply.term ∧ calls = []) ∨
    (n' = n ∧ calls = []) ∨
    (n.role = .candidate ∧ n.currentTerm = term ∧ reply.voteGranted = true ∧
      (((n.countVote election).elections.getD election 0 < n.needed ∧
          n' = n.countVote election ∧ calls = []) ∨
        (n.needed ≤ (n.countVote election).elections.getD election 0 ∧
          n' = (n.countVote election).lead (n.log.length - 1) ∧
          n'.broadcastAppendEntries = some calls))) := by
  unfold handleVoteReply at h
  split at h
  · rename_i hgt
    simp only [Option.some.injEq, Prod.mk.injEq] at h
    exact Or.inl ⟨hgt, h.1.symm, h.2.symm⟩
  · split at h
    · simp only [Option.some.injEq, Prod.mk.injEq] at h
      exact Or.inr (Or.inl ⟨h.1.symm, h.2.symm⟩)
    · rename_i hcur
      rw [not_or, not_not, not_not] at hcur
      split at h
      · rename_i hgr
        refine Or.inr (Or.inr ⟨hcur.1, hcur.2, hgr, ?_⟩)
        dsimp only at h
        split at h
        · rename_i hwon
          exact Or.inr ⟨hwon, becomeLeader_some h⟩
        · rename_i hwon
          simp only [Option.some.injEq, Prod.mk.injEq] at h
          exact Or.inl ⟨Nat.lt_of_not_le hwon, h.1.symm, h.2.symm⟩
      · simp only [Option.some.injEq, Prod.mk.injEq] at h
        exact Or.inr (Or.inl ⟨h.1.symm, h.2.symm⟩)

theorem handleAppendReply_cases {ok : Bool} {n n' : Node} {peer : NodeId}
    {args : AppendEntriesArgs} {reply : AppendEntriesReply} {calls : List AppendCall}
    (h : n.handleAppendReply ok peer args reply = some (n', calls)) :
    (n.currentTerm < reply.term ∧ n' = n.becomeFollower ok reply.term ∧ calls = []) ∨
    (n' = n ∧ calls = []) ∨
    (n.role = .leader ∧ n.currentTerm = args.term ∧ reply.term ≤ n.currentTerm ∧
      ((reply.success = true ∧ calls = [] ∧
          n' = (n.recordMatch peer args).maybeAdvanceCommitIndex) ∨
        (reply.success = false ∧ n' = n.backUp peer reply ∧
          ∃ call, n'.sendAppendEntries peer = some call ∧ calls = [call]))) := by
  unfold handleAppendReply at h
  split at h
  · rename_i hgt
    simp only [Option.some.injEq, Prod.mk.injEq] at h
    exact Or.inl ⟨hgt, h.1.symm, h.2.symm⟩
  · rename_i hle
    split at h
    · simp only [Option.some.injEq, Prod.mk.injEq] at h
      exact Or.inr (Or.inl ⟨h.1.symm, h.2.symm⟩)
    · rename_i hcur
      rw [not_or, not_not, not_not] at hcur
      refine Or.inr (Or.inr ⟨hcur.1, hcur.2, by omega, ?_⟩)
      split at h
      · rename_i hs
        simp only [Option.some.injEq, Prod.mk.injEq] at h
        exact Or.inl ⟨hs, h.2.symm, h.1.symm⟩
      · rename_i hs
        obtain ⟨call, hcall, h⟩ := Option.bind_eq_some_iff.mp h
        simp only [Option.pure_def, Option.some.injEq, Prod.mk.injEq] at h
        obtain ⟨rfl, rfl⟩ := h
        exact Or.inr ⟨by simpa using hs, rfl, call, hcall, rfl⟩

/-- A new leader sends to its peers. -/
theorem handleVoteReply_calls {ok : Bool} {n n' : Node} {term election : ℕ}
    {reply : RequestVoteReply} {calls : List AppendCall}
    (h : n.handleVoteReply ok term election reply = some (n', calls)) :
    ∀ c ∈ calls, c.peer ∈ n'.peers ∧ n'.sendAppendEntries c.peer = some c := by
  rcases handleVoteReply_cases h with ⟨-, -, rfl⟩ | ⟨-, rfl⟩ |
    ⟨-, -, -, ⟨-, -, rfl⟩ | ⟨-, -, hb⟩⟩
  · simp
  · simp
  · simp
  · exact broadcast_mem hb

/-- A leader that was rejected sends to the same peer again. -/
theorem handleAppendReply_calls {ok : Bool} {n n' : Node} {peer : NodeId}
    {args : AppendEntriesArgs} {reply : AppendEntriesReply} {calls : List AppendCall}
    (h : n.handleAppendReply ok peer args reply = some (n', calls)) :
    ∀ c ∈ calls, c.peer = peer ∧ n'.sendAppendEntries c.peer = some c := by
  rcases handleAppendReply_cases h with ⟨-, -, rfl⟩ | ⟨-, rfl⟩ |
    ⟨-, -, -, ⟨-, rfl, -⟩ | ⟨-, -, call, hcall, rfl⟩⟩
  · simp
  · simp
  · simp
  · intro c hc
    obtain ⟨_, -, hpeer, -⟩ := sendAppendEntries_some hcall
    rw [List.mem_singleton.mp hc, hpeer]
    exact ⟨rfl, hcall⟩

theorem startElection_some {incr : ℕ → ℕ} {ok : Bool} {n n' : Node}
    {calls : List VoteCall} (h : n.startElection incr ok = some (n', calls)) :
    ∃ e, n.log[n.log.length - 1]? = some e ∧
      n' = { n.campaign incr ok with elections := n.elections ++ [1] } ∧
      calls = n.peers.map fun peer =>
        { peer, election := n.elections.length,
          args := { term := incr n.currentTerm, candidateId := n.id,
                    lastLogIndex := n.log.length - 1, lastLogTerm := e.term } } := by
  unfold startElection at h
  obtain ⟨p, hp, h⟩ := Option.bind_eq_some_iff.mp h
  obtain ⟨e, he, rfl⟩ := lastLogIndexAndTerm_eq_some hp
  simp only [Option.pure_def, Option.some.injEq, Prod.mk.injEq] at h
  obtain ⟨rfl, rfl⟩ := h
  refine ⟨e, by simpa [campaign] using he, by simp [campaign], by simp [campaign]⟩

theorem propose_cases {ok : Bool} {n n' : Node} {command : Option Bytes}
    {calls : List AppendCall} {idx term : ℕ} {isLeader : Bool}
    (h : n.propose ok command = some (n', calls, idx, term, isLeader)) :
    (n.role ≠ .leader ∧ n' = n ∧ calls = [] ∧ isLeader = false) ∨
    (n.role = .leader ∧ n' = n.appendCommand ok command ∧
      n'.broadcastAppendEntries = some calls ∧ idx = n'.log.length - 1 ∧
      term = n'.currentTerm ∧ isLeader = true) := by
  unfold propose at h
  split at h
  · rename_i hne
    simp only [Option.some.injEq, Prod.mk.injEq] at h
    exact Or.inl ⟨hne, h.1.symm, h.2.1.symm, h.2.2.2.2.symm⟩
  · rename_i hl
    obtain ⟨cs, hcs, h⟩ := Option.bind_eq_some_iff.mp h
    simp only [Option.pure_def, Option.some.injEq, Prod.mk.injEq] at h
    obtain ⟨rfl, rfl, rfl, rfl, rfl⟩ := h
    exact Or.inr ⟨by simpa using hl, rfl, hcs, rfl, rfl, rfl⟩

/-- **Commit advance.** The commit index stays, or moves up to an index of the
node's current term that more than half of the cluster has matched. -/
theorem advanceCommitFrom_cases (n : Node) : ∀ idx,
    n.advanceCommitFrom idx = n ∨
      ∃ k, n.commitIndex < k ∧ k ≤ idx ∧
        n.log[k]?.map LogEntry.term = some n.currentTerm ∧
        n.peers.length + 1 < n.matchCount k * 2 ∧
        n.advanceCommitFrom idx = { n with commitIndex := k, commitNotify := true }
  | 0 => Or.inl rfl
  | idx + 1 => by
      rw [advanceCommitFrom]
      split
      · rename_i hgt
        split
        · rcases advanceCommitFrom_cases n idx with h | ⟨k, h1, h2, h3⟩
          · exact Or.inl h
          · exact Or.inr ⟨k, h1, by omega, h3⟩
        · rename_i hterm
          split
          · rename_i hmaj
            exact Or.inr ⟨idx + 1, hgt, le_refl _, by simpa using hterm, hmaj, rfl⟩
          · rcases advanceCommitFrom_cases n idx with h | ⟨k, h1, h2, h3⟩
            · exact Or.inl h
            · exact Or.inr ⟨k, h1, by omega, h3⟩
      · exact Or.inl rfl

/-- An index that may be committed is reached. -/
theorem advanceCommitFrom_ge {n : Node} {k : ℕ}
    (hk : n.log[k]?.map LogEntry.term = some n.currentTerm)
    (hcount : n.peers.length + 1 < n.matchCount k * 2) :
    ∀ {idx : ℕ}, k ≤ idx → k ≤ (n.advanceCommitFrom idx).commitIndex
  | 0, h => by
      rw [Nat.le_zero.mp h]
      exact Nat.zero_le _
  | idx + 1, h => by
      rw [advanceCommitFrom]
      split
      · rcases Nat.eq_or_lt_of_le h with rfl | hlt
        · rw [if_neg (not_not.mpr hk), if_pos hcount]
        · have ih := advanceCommitFrom_ge hk hcount (Nat.lt_succ_iff.mp hlt)
          split
          · exact ih
          · split
            · exact h
            · exact ih
      · rename_i hle
        exact h.trans (not_lt.mp hle)

theorem maybeAdvance_eq (n : Node) : ∃ k b,
    n.maybeAdvanceCommitIndex = { n with commitIndex := k, commitNotify := b } := by
  rcases n.advanceCommitFrom_cases (n.log.length - 1) with h | ⟨k, -, -, -, -, h⟩
  · exact ⟨n.commitIndex, n.commitNotify, h⟩
  · exact ⟨k, true, h⟩

/-! ## §5  The apply loop and snapshots -/

/-- A snapshot is refused, or everything up to its index is discarded. -/
theorem takeSnapshot_cases {n n' : Node} {k : ℕ} {data : Bytes} {b : Bool}
    (h : n.takeSnapshot true true k data = some (n', b)) :
    (n' = n ∧ (n.commitIndex < k ∨ k < n.snapshotIndex ∨ n.log.length ≤ k)) ∨
    ∃ last, n.log[k]? = some last ∧ k ≤ n.commitIndex ∧ n.snapshotIndex ≤ k ∧
      n' = persist true
        { n with
          snapshotFile := some { lastIncludedIndex := k, lastIncludedTerm := last.term, data }
          log := { term := last.term, command := none } :: n.log.drop (k + 1)
          snapshotIndex := k
          snapshotTerm := last.term } := by
  unfold takeSnapshot at h
  split at h
  · rename_i hcommit
    cases h
    exact Or.inl ⟨rfl, Or.inl hcommit⟩
  · rename_i hcommit
    split at h
    · rename_i hold
      cases h
      exact Or.inl ⟨rfl, Or.inr (Or.inl hold)⟩
    · rename_i hold
      split at h
      · rename_i hlen
        cases h
        exact Or.inl ⟨rfl, Or.inr (Or.inr hlen)⟩
      · obtain ⟨last, hlast, h⟩ := Option.bind_eq_some_iff.mp h
        cases h
        exact Or.inr ⟨last, hlast, not_lt.mp hcommit, not_lt.mp hold, rfl⟩

/-- Whatever the file operations do, a snapshot touches the log and the snapshot's own
fields if anything. -/
theorem takeSnapshot_outcome {okSnap okState : Bool} {n n' : Node} {k : ℕ} {data : Bytes}
    {b : Bool} (h : n.takeSnapshot okSnap okState k data = some (n', b)) :
    n' = n ∨ ∃ last : LogEntry, n' = persist okState
      { n with
        snapshotFile := some { lastIncludedIndex := k, lastIncludedTerm := last.term, data }
        log := { term := last.term, command := none } :: n.log.drop (k + 1)
        snapshotIndex := k
        snapshotTerm := last.term } := by
  unfold takeSnapshot at h
  split at h
  · cases h
    exact Or.inl rfl
  · split at h
    · cases h
      exact Or.inl rfl
    · split at h
      · cases h
        exact Or.inl rfl
      · obtain ⟨last, -, h⟩ := Option.bind_eq_some_iff.mp h
        split at h
        · cases h
          exact Or.inr ⟨last, rfl⟩
        · cases h
          exact Or.inl rfl

theorem takeSnapshot_currentTerm {okSnap okState : Bool} {n n' : Node} {k : ℕ} {data : Bytes}
    {b : Bool} (h : n.takeSnapshot okSnap okState k data = some (n', b)) :
    n'.currentTerm = n.currentTerm := by
  rcases takeSnapshot_outcome h with rfl | ⟨last, rfl⟩
  · rfl
  · rw [persist_currentTerm]

theorem applyWake_some {n n' : Node} (h : n.applyWake = some n') :
    n.applyPc = .parked ∧ n' = { n with applyPc := .looping, commitNotify := false } := by
  unfold applyWake at h
  split at h
  · rename_i hparked
    cases h
    exact ⟨hparked.1, rfl⟩
  · cases h

/-- One pass under the lock takes the next entry below the commit index, or parks
because there is none. -/
theorem applyTake_cases {n n' : Node} (h : n.applyTake = some n') :
    n.applyPc = .looping ∧
      ((n.lastApplied < n.commitIndex ∧ ∃ e pc, n.log[n.lastApplied + 1]? = some e ∧
          n' = { n with lastApplied := n.lastApplied + 1, applyPc := pc } ∧
          (e.command = none ∧ pc = .looping ∨
            ∃ c, e.command = some c ∧ pc = .sending ⟨n.lastApplied + 1, c⟩)) ∨
        (n.commitIndex ≤ n.lastApplied ∧ n' = { n with applyPc := .parked })) := by
  obtain ⟨hpc, h⟩ := Foundation.guard_bind_eq_some h
  refine ⟨hpc, ?_⟩
  split at h
  · rename_i hlt
    obtain ⟨e, he, h⟩ := Option.bind_eq_some_iff.mp h
    cases h
    refine Or.inl ⟨hlt, e, _, he, rfl, ?_⟩
    cases e.command with
    | none => exact Or.inl ⟨rfl, rfl⟩
    | some c => exact Or.inr ⟨c, rfl, rfl⟩
  · rename_i hge
    cases h
    exact Or.inr ⟨not_lt.mp hge, rfl⟩

theorem applySend_some {n n' : Node} {msg : ApplyMsg} (h : n.applySend = some (n', msg)) :
    n.applyPc = .sending msg ∧ n' = { n with applyPc := .looping } := by
  unfold applySend at h
  split at h
  · rename_i hpc
    cases h
    exact ⟨hpc, rfl⟩
  · cases h

/-! ## §6  When a function has a result -/

section Results

variable {n : Node}

/-- What a leader sends exists. -/
theorem sendAppendEntries_isSome {n : Node} {p : NodeId} (h0 : 0 < n.log.length)
    (hp : n.nextIndex p ≤ n.log.length) : ∃ call, n.sendAppendEntries p = some call := by
  unfold sendAppendEntries
  have hlt : (if n.nextIndex p < 1 then 1 else n.nextIndex p) - 1 < n.log.length := by
    split <;> omega
  dsimp only
  rw [List.getElem?_eq_getElem hlt]
  exact ⟨_, rfl⟩

theorem broadcast_isSome {n : Node} (h0 : 0 < n.log.length)
    (hnext : ∀ p ∈ n.peers, n.nextIndex p ≤ n.log.length) :
    ∃ calls, n.broadcastAppendEntries = some calls := by
  have hall : ∀ ps : List NodeId, (∀ p ∈ ps, n.nextIndex p ≤ n.log.length) →
      ∃ calls, ps.mapM n.sendAppendEntries = some calls := by
    intro ps
    induction ps with
    | nil => exact fun _ => ⟨[], rfl⟩
    | cons p ps ih =>
        intro hps
        obtain ⟨call, hcall⟩ := sendAppendEntries_isSome h0 (hps p List.mem_cons_self)
        obtain ⟨calls, hcalls⟩ := ih fun q hq => hps q (List.mem_cons_of_mem _ hq)
        exact ⟨call :: calls, by rw [List.mapM_cons, hcall, hcalls]; rfl⟩
  exact hall n.peers hnext

theorem lastLogIndexAndTerm_isSome (h : 0 < n.log.length) :
    ∃ p, n.lastLogIndexAndTerm = some p :=
  bind_isSome ⟨_, List.getElem?_eq_getElem (Nat.sub_one_lt_of_lt h)⟩ fun _ _ => ⟨_, rfl⟩

theorem startElection_isSome (h : 0 < n.log.length) (incr : ℕ → ℕ) (ok : Bool) :
    ∃ x, n.startElection incr ok = some x :=
  bind_isSome (lastLogIndexAndTerm_isSome (n := n.campaign incr ok) (by simpa [campaign] using h))
    fun _ _ => ⟨_, rfl⟩

theorem handleRequestVote_isSome (h : 0 < n.log.length) (ok : ℕ → Bool)
    (args : RequestVoteArgs) : ∃ x, n.handleRequestVote ok args = some x := by
  unfold handleRequestVote
  split
  · exact ⟨_, rfl⟩
  · have hlen : 0 < (n.adoptTerm (ok 0) args.term).log.length :=
      adoptTerm_rule (P := fun k => 0 < k.log.length)
        (fun _ => by simpa [becomeFollower] using h) h
    refine bind_isSome (lastLogIndexAndTerm_isSome hlen) fun p _ => ?_
    dsimp only
    split <;> exact ⟨_, rfl⟩

theorem becomeLeader_isSome (h : 0 < n.log.length) : ∃ x, n.becomeLeader = some x := by
  refine bind_isSome (lastLogIndexAndTerm_isSome h) fun p hp => ?_
  obtain ⟨e, -, rfl⟩ := lastLogIndexAndTerm_eq_some hp
  refine bind_isSome (broadcast_isSome (n := n.lead _) h fun q hq => ?_) fun _ _ => ⟨_, rfl⟩
  show (if q ∈ n.peers then n.log.length - 1 + 1 else 0) ≤ n.log.length
  split <;> omega

theorem handleVoteReply_isSome (h : 0 < n.log.length) (ok : Bool) (term election : ℕ)
    (reply : RequestVoteReply) : ∃ x, n.handleVoteReply ok term election reply = some x := by
  unfold handleVoteReply
  split
  · exact ⟨_, rfl⟩
  · split
    · exact ⟨_, rfl⟩
    · split
      · dsimp only
        split
        · exact becomeLeader_isSome (n := n.countVote election) h
        · exact ⟨_, rfl⟩
      · exact ⟨_, rfl⟩

/-- The handler tests the length of the log before it looks. -/
theorem handleAppendEntries_isSome (n : Node) (ok : ℕ → Bool) (args : AppendEntriesArgs) :
    ∃ x, n.handleAppendEntries ok args = some x := by
  unfold handleAppendEntries
  split
  · exact ⟨_, rfl⟩
  · dsimp only
    split
    · exact ⟨_, rfl⟩
    · rename_i hlen
      refine bind_isSome ⟨_, List.getElem?_eq_getElem (not_le.mp hlen)⟩ fun prev _ => ?_
      split <;> exact ⟨_, rfl⟩

theorem handleAppendReply_isSome {peer : NodeId} {args : AppendEntriesArgs}
    {reply : AppendEntriesReply} (h : 0 < n.log.length) (ok : Bool)
    (hback : n.role = .leader → n.currentTerm = args.term → reply.success = false →
      (n.backUp peer reply).nextIndex peer ≤ n.log.length) :
    ∃ x, n.handleAppendReply ok peer args reply = some x := by
  unfold handleAppendReply
  split
  · exact ⟨_, rfl⟩
  · split
    · exact ⟨_, rfl⟩
    · rename_i hrole
      rw [not_or, not_not, not_not] at hrole
      split
      · exact ⟨_, rfl⟩
      · rename_i hrej
        have hnext := hback hrole.1 hrole.2 (Bool.eq_false_iff.mpr hrej)
        exact bind_isSome (sendAppendEntries_isSome (n := n.backUp peer reply) h hnext)
          fun _ _ => ⟨_, rfl⟩

theorem applyTake_isSome (h : n.commitIndex < n.log.length) (hpc : n.applyPc = .looping) :
    ∃ x, n.applyTake = some x := by
  unfold applyTake
  refine guard_isSome hpc ?_
  split
  · rename_i hlt
    exact bind_isSome ⟨_, List.getElem?_eq_getElem (lt_of_le_of_lt hlt h)⟩ fun _ _ => ⟨_, rfl⟩
  · exact ⟨_, rfl⟩

/-- `TakeSnapshot` too tests the length of the log first. -/
theorem takeSnapshot_isSome (n : Node) (upToIndex : ℕ) (data : Bytes) :
    ∃ x, n.takeSnapshot true true upToIndex data = some x := by
  unfold takeSnapshot
  split
  · exact ⟨_, rfl⟩
  · split
    · exact ⟨_, rfl⟩
    · split
      · exact ⟨_, rfl⟩
      · rename_i hlen
        exact bind_isSome ⟨_, List.getElem?_eq_getElem (not_le.mp hlen)⟩ fun _ _ => ⟨_, rfl⟩

end Results

end KVEngine.Raft.Node
