import KVEngine.Raft.Merge
import KVEngine.Raft.Progress

/-!
# Bounds on the indices of a cluster

In runs without snapshots and with one leader a term: what a node has applied is
committed and what is committed is in its log, a leader's `nextIndex` and
`matchIndex` stay in its log, what a request says is committed lies within the
request, and a `commitIndex` goes down only with its process (`index_bounds`).

That a follower's `commitIndex` does not go down is the one place where the bound on
requests matters: `HandleAppendEntries` sets it to the end of the request, which
might lie before what the node knows to be committed.
-/

namespace KVEngine.Raft

open Foundation (Run)
open Foundation.ReplicatedLog

/-! ## §1  One node -/

/-- What a leader will send starts after the sentinel. -/
def NextPos (n : Node) : Prop := n.role = .leader → ∀ p ∈ n.peers, 1 ≤ n.nextIndex p

/-- A change within one process: the commit index does not go down, and what is
applied stays committed. -/
structure Climbs (n n' : Node) : Prop where
  commit : n.commitIndex ≤ n'.commitIndex
  applied : n.lastApplied ≤ n.commitIndex → n'.lastApplied ≤ n'.commitIndex
  next : NextPos n → NextPos n'

section Climbing

variable {n n' : Node}

theorem Climbs.of_commit (hcommit : n.commitIndex ≤ n'.commitIndex)
    (happlied : n'.lastApplied = n.lastApplied) (hnext : NextPos n → NextPos n') :
    Climbs n n' :=
  ⟨hcommit, fun h => happlied ▸ h.trans hcommit, hnext⟩

/-- The node is no leader any more. -/
theorem Climbs.of_follower (hcommit : n.commitIndex ≤ n'.commitIndex)
    (happlied : n'.lastApplied = n.lastApplied) (hrole : n'.role ≠ .leader) : Climbs n n' :=
  .of_commit hcommit happlied fun _ hl => absurd hl hrole

/-- Nothing about the indices has changed. -/
theorem Climbs.of_same (hcommit : n'.commitIndex = n.commitIndex)
    (happlied : n'.lastApplied = n.lastApplied) (hrole : n'.role = n.role)
    (hpeers : n'.peers = n.peers) (hnext : n'.nextIndex = n.nextIndex) : Climbs n n' :=
  .of_commit hcommit.ge happlied fun h => by rwa [NextPos, hrole, hpeers, hnext]

theorem Climbs.refl (n : Node) : Climbs n n := .of_same rfl rfl rfl rfl rfl

theorem climbs_becomeFollower (n : Node) (t : ℕ) : Climbs n (n.becomeFollower true t) :=
  .of_follower le_rfl rfl (by simp)

theorem climbs_handleRequestVote {args : RequestVoteArgs} {reply : RequestVoteReply}
    (h : n.handleRequestVote Cluster.persistOk args = some (n', reply)) : Climbs n n' := by
  have hadopt : Climbs n (n.adoptTerm true args.term) :=
    Node.adoptTerm_rule (fun _ => climbs_becomeFollower n _) (Climbs.refl n)
  rcases Node.handleRequestVote_cases h with ⟨-, rfl, -⟩ | ⟨-, _, _, -, ⟨-, rfl, -⟩ | ⟨-, rfl, -⟩⟩
  · exact Climbs.refl n'
  · exact ⟨hadopt.commit, hadopt.applied, hadopt.next⟩
  · exact hadopt

theorem climbs_handleVoteReply {term election : ℕ} {reply : RequestVoteReply}
    {calls : List AppendCall}
    (h : n.handleVoteReply true term election reply = some (n', calls)) : Climbs n n' := by
  rcases Node.handleVoteReply_cases h with ⟨-, rfl, -⟩ | ⟨rfl, -⟩ |
    ⟨-, -, -, ⟨-, rfl, -⟩ | ⟨-, rfl, -⟩⟩
  · exact climbs_becomeFollower n _
  · exact Climbs.refl n'
  · exact .of_same rfl rfl rfl rfl rfl
  · refine .of_commit le_rfl rfl fun _ _ p hp => ?_
    show 1 ≤ if p ∈ n.peers then n.log.length - 1 + 1 else 0
    rw [if_pos (show p ∈ n.peers from hp)]
    exact Nat.le_add_left _ _

/-- A request that says no more is committed than it covers. -/
theorem climbs_handleAppendEntries {args : AppendEntriesArgs} {reply : AppendEntriesReply}
    (hbound : args.leaderCommit ≤ args.last)
    (h : n.handleAppendEntries Cluster.persistOk args = some (n', reply)) : Climbs n n' := by
  rcases Node.handleAppendEntries_cases h with ⟨-, rfl, -⟩ |
    ⟨-, ⟨-, rfl, -⟩ | ⟨_, -, ⟨-, rfl, -⟩ | ⟨-, hn', -⟩⟩⟩
  · exact Climbs.refl n'
  · exact .of_follower le_rfl rfl (by simp [Node.follow])
  · exact .of_follower le_rfl rfl (by simp [Node.follow])
  · have hmerged : n' = n.merged Cluster.persistOk args := hn'
    have hrole : n'.role = .follower := by
      rw [hn']
      exact (accept_follower n args).1
    refine .of_follower ?_ ?_ (by simp [hrole])
    · rw [hmerged, Node.merged_commitIndex]
      split <;> omega
    · rw [hmerged, Node.merged_lastApplied]

/-- A rejection names no index but one that the leader can back up to. -/
theorem climbs_handleAppendReply {peer : NodeId} {args : AppendEntriesArgs}
    {reply : AppendEntriesReply} {calls : List AppendCall}
    (hhint : reply.success = false → reply.conflictTerm ≠ 0 → 1 ≤ reply.conflictIndex)
    (h : n.handleAppendReply true peer args reply = some (n', calls)) : Climbs n n' := by
  rcases Node.handleAppendReply_cases h with ⟨-, rfl, -⟩ | ⟨rfl, -⟩ |
    ⟨hl, -, -, ⟨-, -, rfl⟩ | ⟨hrej, rfl, -⟩⟩
  · exact climbs_becomeFollower n _
  · exact Climbs.refl n'
  · have hrec : Climbs n (n.recordMatch peer args) := by
      refine .of_commit le_rfl rfl fun hnext hl p hp => ?_
      show 1 ≤ Function.update n.nextIndex peer _ p
      by_cases hpeer : p = peer
      · subst hpeer
        rw [Function.update_self]
        exact Nat.le_add_left _ _
      · rw [Function.update_of_ne hpeer]
        exact hnext hl p hp
    unfold Node.maybeAdvanceCommitIndex
    rcases (n.recordMatch peer args).advanceCommitFrom_cases _ with hc | ⟨k, hk, -, -, -, hc⟩
    · rw [hc]
      exact hrec
    · rw [hc]
      exact ⟨hk.le, fun happ => happ.trans hk.le, hrec.next⟩
  · refine .of_commit le_rfl rfl fun hnext _ p hp => ?_
    show 1 ≤ Function.update n.nextIndex peer (n.nextIndexAfterConflict peer reply) p
    by_cases hpeer : p = peer
    · subst hpeer
      rw [Function.update_self]
      have hold := hnext hl p hp
      unfold Node.nextIndexAfterConflict
      split
      · rename_i hterm
        have := hhint hrej hterm
        dsimp only
        split <;> omega
      · split
        · omega
        · split <;> omega
    · rw [Function.update_of_ne hpeer]
      exact hnext hl p hp

theorem Node.firstIndexOfTerm_pos (log : List LogEntry) (t : ℕ) :
    ∀ i, 1 ≤ i → 1 ≤ firstIndexOfTerm log t i
  | 1, _ => le_rfl
  | i + 2, _ => by
      rw [firstIndexOfTerm]
      split
      · exact firstIndexOfTerm_pos log t (i + 1) (Nat.le_add_left _ _)
      · omega

/-- A conflicting term is found above the sentinel. -/
theorem Node.handleAppendEntries_hint {ok : ℕ → Bool} {args : AppendEntriesArgs}
    {reply : AppendEntriesReply} (hhead : n.log[0]? = some sentinel)
    (h : n.handleAppendEntries ok args = some (n', reply)) (hrej : reply.success = false)
    (hterm : reply.conflictTerm ≠ 0) : 1 ≤ reply.conflictIndex := by
  rcases handleAppendEntries_cases h with ⟨-, -, rfl⟩ |
    ⟨-, ⟨-, -, rfl⟩ | ⟨prev, hprev, ⟨-, -, rfl⟩ | ⟨-, -, hsucc, -⟩⟩⟩
  · exact absurd rfl hterm
  · exact absurd rfl hterm
  · apply firstIndexOfTerm_pos
    rcases Nat.eq_zero_or_pos args.prevLogIndex with h0 | hpos
    · rw [h0, hhead] at hprev
      cases hprev
      exact absurd rfl hterm
    · exact hpos
  · rw [hrej] at hsucc
    cases hsucc

end Climbing

/-! ## §2  One step of the cluster -/

structure Bounded (s : Cluster) : Prop where
  applied : ∀ i, (s.nodes i).lastApplied ≤ (s.nodes i).commitIndex
  next : ∀ i, NextPos (s.nodes i)
  hint : ∀ rpc ∈ s.appendRpcs, ∀ reply, rpc.phase = .replied reply → reply.success = false →
    reply.conflictTerm ≠ 0 → 1 ≤ reply.conflictIndex

/-- What a step does to the indices: one node climbs, or is restarted. -/
inductive IndexStep (s s' : Cluster) : Prop where
  | climb (i : NodeId) (n : Node) (hnodes : s'.nodes = Function.update s.nodes i n)
      (hlives : s'.lives = s.lives) (h : Climbs (s.nodes i) n)
  | restart (i : NodeId) (n : Node) (hnodes : s'.nodes = Function.update s.nodes i n)
      (hlives : s'.lives = Function.update s.lives i (s.lives i + 1))
      (happlied : n.lastApplied ≤ n.commitIndex) (hrole : n.role = .follower)

section Steps

variable {cfg : Config} {s s' : Cluster} {A : State NodeId LogEntry} {a : Action}

/-- What a request says is committed lies within it. -/
theorem leaderCommit_le (hi : Inv (params cfg) A) (habs : Abstracts s A) {rpc : AppendRpc}
    (hr : rpc ∈ s.appendRpcs) : rpc.args.leaderCommit ≤ rpc.args.last :=
  (hi.sent _ (habs.sent rpc hr)).bound

theorem index_step (hw : Wired cfg s) (hi : Inv (params cfg) A) (habs : Abstracts s A)
    (h : Bounded s) (hC : Plain cfg s a) (hs : s.step cfg a = some s') : IndexStep s s' := by
  cases Cluster.step_nodes hs with
  | restart hnodes hlives hm =>
      -- a restart applies and commits from `0`
      have heq := (hm.sound (hw.sound _)).restart_eq
      exact .restart _ _ hnodes hlives (by rw [heq]; exact le_rfl) (by rw [heq]; rfl)
  | change hnodes hlives hchange =>
      refine .climb _ _ hnodes hlives ?_
      cases hchange with
      | same => exact Climbs.refl _
      | campaign hn =>
          obtain ⟨e, -, rfl, -⟩ := Node.startElection_some hn
          exact .of_follower le_rfl rfl (by simp [Node.campaign])
      | command _ _ => exact .of_same rfl rfl rfl rfl rfl
      | requestVote _ hn => exact climbs_handleRequestVote hn
      | voteReply _ hn => exact climbs_handleVoteReply hn
      | appendEntries hr hn =>
          exact climbs_handleAppendEntries
            (leaderCommit_le hi habs (List.mem_of_getElem? hr)) hn
      | appendReply hr hp hn =>
          exact climbs_handleAppendReply (h.hint _ (List.mem_of_getElem? hr) _ hp) hn
      | wake => exact .of_same rfl rfl rfl rfl rfl
      | park => exact .of_same rfl rfl rfl rfl rfl
      | take hlt => exact ⟨le_rfl, fun _ => hlt, fun hnext => hnext⟩
      | send => exact .of_same rfl rfl rfl rfl rfl
      | snapshot hn =>
          have h0 : _ = 0 := hC
          subst h0
          obtain rfl := (hw.sound _).takeSnapshot_zero hn
          exact .of_same rfl rfl rfl rfl rfl

theorem bounded_step (hw : Wired cfg s) (h : Bounded s) (hstep : IndexStep s s')
    (hs : s.step cfg a = some s') : Bounded s' := by
  have hhint : ∀ rpc ∈ s'.appendRpcs, ∀ reply, rpc.phase = .replied reply →
      reply.success = false → reply.conflictTerm ≠ 0 → 1 ≤ reply.conflictIndex := by
    intro rpc hr reply hp hrej hterm
    rcases Cluster.step_appends hs rpc hr with ⟨old, hold, ph, rfl, hph⟩ | hnew
    · rcases hph.reply hp with hold' | ⟨n, hn⟩
      · exact h.hint old hold reply hold' hrej hterm
      · exact Node.handleAppendEntries_hint (hw.sound old.dst).head hn hrej hterm
    · cases hnew.requested.symm.trans hp
  cases hstep with
  | climb i n hnodes hlives hn =>
      exact ⟨Cluster.forall_nodes hnodes (P := fun _ m => m.lastApplied ≤ m.commitIndex)
          (hn.applied (h.applied i)) fun j _ => h.applied j,
        Cluster.forall_nodes hnodes (P := fun _ m => NextPos m) (hn.next (h.next i))
          fun j _ => h.next j, hhint⟩
  | restart i n hnodes hlives happlied hrole =>
      refine ⟨Cluster.forall_nodes hnodes (P := fun _ m => m.lastApplied ≤ m.commitIndex)
          happlied fun j _ => h.applied j,
        Cluster.forall_nodes hnodes (P := fun _ m => NextPos m) (fun hl => ?_)
          fun j _ => h.next j, hhint⟩
      cases hrole.symm.trans hl

/-- Within one process lifetime the commit index does not go down. -/
def CommitGrows (s s' : Cluster) : Prop :=
  ∀ i, s.lives i ≤ s'.lives i ∧
    (s'.lives i = s.lives i → (s.nodes i).commitIndex ≤ (s'.nodes i).commitIndex)

theorem CommitGrows.trans {t : Cluster} (h : CommitGrows s t) (h' : CommitGrows t s') :
    CommitGrows s s' := by
  intro i
  obtain ⟨hle, hc⟩ := h i
  obtain ⟨hle', hc'⟩ := h' i
  refine ⟨hle.trans hle', fun heq => ?_⟩
  exact (hc (by omega)).trans (hc' (by omega))

theorem IndexStep.commitGrows (h : IndexStep s s') : CommitGrows s s' := by
  intro j
  cases h with
  | climb i n hnodes hlives hn =>
      rw [hlives, hnodes]
      refine ⟨le_rfl, fun _ => ?_⟩
      by_cases hj : j = i
      · subst hj
        rw [Function.update_self]
        exact hn.commit
      · rw [Function.update_of_ne hj]
  | restart i n hnodes hlives happlied hrole =>
      rw [hlives, hnodes]
      by_cases hj : j = i
      · subst hj
        rw [Function.update_self]
        exact ⟨Nat.le_succ _, fun heq => by omega⟩
      · rw [Function.update_of_ne hj, Function.update_of_ne hj]
        exact ⟨le_rfl, fun _ => le_rfl⟩

end Steps

/-! ## §3  Runs -/

section Runs

variable {cfg : Config} {as bs : List Action} {s t : Cluster}

theorem bounded_run (h : Run (Cluster.step cfg) (Plain cfg) (Cluster.initial cfg) as s)
    (huniq : UniqueLeaders s.history) : Bounded s := by
  induction h with
  | nil =>
      refine ⟨fun _ => le_rfl, fun i hl => ?_, ?_⟩
      · cases hl
      · simp [Cluster.initial]
  | snoc hrun hC hs ih =>
      have huniq' := huniq.anti (history_mono hs)
      obtain ⟨A, hi, habs⟩ := refine_run hrun huniq'
      have hw := wired_run hrun
      exact bounded_step hw (ih huniq') (index_step hw hi habs (ih huniq') hC hs) hs

theorem commitGrows_run (h : Run (Cluster.step cfg) (Plain cfg) (Cluster.initial cfg) as s)
    (h' : Run (Cluster.step cfg) (Plain cfg) s bs t) (huniq : UniqueLeaders t.history) :
    CommitGrows s t := by
  induction h' with
  | nil => exact fun i => ⟨le_rfl, fun _ => le_rfl⟩
  | snoc hrun hC hs ih =>
      have huniq' := huniq.anti (history_mono hs)
      have hreach := h.trans hrun
      obtain ⟨A, hi, habs⟩ := refine_run hreach huniq'
      refine (ih huniq').trans (IndexStep.commitGrows ?_)
      exact index_step (wired_run hreach) hi habs (bounded_run hreach huniq') hC hs

/-- **Bounds.** In every run without snapshots and with one leader a term:
`lastApplied ≤ commitIndex < len(log)` for every node, a leader's `nextIndex` lies
between `1` and the length of its log and its `matchIndex` in the log, an append
request covers what it says is committed, no enabled action indexes a log out of
range, and no commit index goes down within a process lifetime. -/
theorem index_bounds (hterms : ∀ t, cfg.incr t = t + 1)
    (h : Run (Cluster.step cfg) NoSnapshot (Cluster.initial cfg) as s)
    (huniq : UniqueLeaders s.history) :
    (∀ i, (s.nodes i).lastApplied ≤ (s.nodes i).commitIndex ∧
      (s.nodes i).commitIndex < (s.nodes i).log.length) ∧
    (∀ i, (s.nodes i).role = .leader → ∀ p ∈ cfg.peers i,
      1 ≤ (s.nodes i).nextIndex p ∧ (s.nodes i).nextIndex p ≤ (s.nodes i).log.length ∧
        (s.nodes i).matchIndex p < (s.nodes i).log.length) ∧
    (∀ rpc ∈ s.appendRpcs,
      rpc.args.leaderCommit ≤ rpc.args.prevLogIndex + rpc.args.entries.length) ∧
    (∀ a, Enabled cfg s a → ∃ s', s.step cfg a = some s') ∧
    ∀ bs cs u, Run (Cluster.step cfg) NoSnapshot (Cluster.initial cfg) bs u →
      Run (Cluster.step cfg) NoSnapshot u cs s → ∀ i, s.lives i = u.lives i →
        (u.nodes i).commitIndex ≤ (s.nodes i).commitIndex := by
  have hplain := plain_run hterms h
  have hw := wired_run hplain
  obtain ⟨A, hi, habs⟩ := refine_run hplain huniq
  have hord := orderly_of_unique hplain huniq
  have hb := bounded_run hplain huniq
  refine ⟨fun i => ⟨hb.applied i, commitIndex_lt hw hi habs i⟩, fun i hl p hp => ?_,
    fun rpc hr => leaderCommit_le hi habs hr,
    fun a ha => isSome_of_enabled hw hi habs hord ha, fun bs cs u hu hrest i hlife => ?_⟩
  · have hp' : p ∈ (s.nodes i).peers := by rwa [(hw.sound i).peers]
    exact ⟨hb.next i hl p hp', (hord.leading i hl).next p hp', matchIndex_lt hw hi habs hl p⟩
  · have hrest' := hrest.mono fun hC hs => ⟨plain_of_noSnapshot hterms hC, hs⟩
    exact (commitGrows_run (plain_run hterms hu) hrest' huniq i).2 hlife

/-- At the end of the run of the pair `B` leads and may fire a heartbeat. -/
theorem index_bounds_pair :
    (pairEnd.nodes [66]).role = .leader ∧ 1 ≤ (pairEnd.nodes [66]).nextIndex [65] ∧
      (pairEnd.nodes [66]).nextIndex [65] ≤ (pairEnd.nodes [66]).log.length ∧
      ∃ s, pairEnd.step pair (.heartbeat [66]) = some s := by
  obtain ⟨-, hlead, -, hsome, -⟩ := index_bounds (fun _ => rfl) pair_run (by decide +kernel)
  have hl : (pairEnd.nodes [66]).role = .leader := by decide +kernel
  obtain ⟨h1, h2, -⟩ := hlead [66] hl [65] (by decide)
  exact ⟨hl, h1, h2, hsome _ ⟨by decide, hl⟩⟩

end Runs

end KVEngine.Raft
