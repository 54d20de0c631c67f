import KVEngine.Raft.Wiring

/-!
# Clusters whose disks fail

`persist` and the snapshot file are written by replacing a file, and every caller but
`TakeSnapshot` goes on when that fails. Here each action comes with the outcomes of
the replacements it attempts. `Cluster.step` is the case where all succeed
(`attempt_persistOk`).

What any action does to elections, votes and counters is said once, in
`ElectionStep`: nothing, a restart, a new election, or one vote counted.
-/

namespace KVEngine.Raft

open Foundation (Run Always guard_bind_eq_some)
open Foundation.ReplicatedLog (Role)

/-! ## §1  Attempts -/

/-- An action and the outcomes of the file replacements in it, in order. -/
structure Attempt where
  action : Action
  ok : ℕ → Bool

namespace Cluster

def attempt (cfg : Config) (s : Cluster) (a : Attempt) : Option Cluster :=
  match a.action with
  | .startElection i => do
      guard (i ∈ cfg.ids ∧ (s.nodes i).role ≠ .leader)
      let (n, calls) ← (s.nodes i).startElection cfg.incr (a.ok 0)
      return ((s.setNode i n).spawnVotes i calls).record [.voted i n.currentTerm i]
  | .propose i command => do
      guard (i ∈ cfg.ids)
      let (n, calls, idx, term, isLeader) ← (s.nodes i).propose (a.ok 0) command
      return ((s.setNode i n).spawnAppends i calls).record
        (if isLeader then [.proposed i term n.log, .accepted i term idx] else [])
  | .deliverVote r => do
      let rpc ← s.voteRpcs[r]?
      guard (rpc.phase = .requested)
      let (n, reply) ← (s.nodes rpc.dst).handleRequestVote a.ok rpc.args
      return ((s.setNode rpc.dst n).setVoteRpc r { rpc with phase := .replied reply }).record
        (if reply.voteGranted then [.voted rpc.dst reply.term rpc.args.candidateId] else [])
  | .voteReply r => do
      let rpc ← s.voteRpcs[r]?
      guard (rpc.life = s.lives rpc.src)
      match rpc.phase with
      | .replied reply =>
          let (n, calls) ←
            (s.nodes rpc.src).handleVoteReply (a.ok 0) rpc.args.term rpc.election reply
          return (((s.setNode rpc.src n).setVoteRpc r
              { rpc with phase := .finished }).spawnAppends rpc.src calls).record
            (if (s.nodes rpc.src).role ≠ .leader ∧ n.role = .leader then
              [.becameLeader rpc.src n.currentTerm n.log,
               .accepted rpc.src n.currentTerm (n.log.length - 1)] else [])
      | _ => none
  | .deliverAppend r => do
      let rpc ← s.appendRpcs[r]?
      guard (rpc.phase = .requested)
      let (n, reply) ← (s.nodes rpc.dst).handleAppendEntries a.ok rpc.args
      return ((s.setNode rpc.dst n).setAppendRpc r
          { rpc with phase := .replied reply }).record
        (if reply.success then
          [.accepted rpc.dst reply.term (rpc.args.prevLogIndex + rpc.args.entries.length)]
         else [])
  | .appendReply r => do
      let rpc ← s.appendRpcs[r]?
      guard (rpc.life = s.lives rpc.src)
      match rpc.phase with
      | .replied reply =>
          let (n, calls) ←
            (s.nodes rpc.src).handleAppendReply (a.ok 0) rpc.dst rpc.args reply
          return (((s.setNode rpc.src n).setAppendRpc r
              { rpc with phase := .finished }).spawnAppends rpc.src calls).record
            (if (s.nodes rpc.src).commitIndex < n.commitIndex then
              [.advanced rpc.src n.currentTerm n.commitIndex n.log] else [])
      | _ => none
  | .takeSnapshot i upToIndex data => do
      guard (i ∈ cfg.ids)
      let (n, _) ← (s.nodes i).takeSnapshot (a.ok 0) (a.ok 1) upToIndex data
      return s.setNode i n
  | .crashInVote r => do
      let rpc ← s.voteRpcs[r]?
      let n := s.nodes rpc.dst
      guard (rpc.phase = .requested ∧ rpc.args.term > n.currentTerm)
      return (s.setVoteRpc r { rpc with phase := .finished }).reboot rpc.dst
        (n.becomeFollower (a.ok 0) rpc.args.term)
  | .crashInAppend r => do
      let rpc ← s.appendRpcs[r]?
      let n := s.nodes rpc.dst
      guard (rpc.phase = .requested ∧ rpc.args.term ≥ n.currentTerm)
      return (s.setAppendRpc r { rpc with phase := .finished }).reboot rpc.dst
        (n.becomeFollower (a.ok 0) rpc.args.term)
  -- the other actions replace no file
  | .heartbeat i => s.heartbeat cfg i
  | .applyWake i => s.applyWake cfg i
  | .applyTake i => s.applyTake cfg i
  | .applySend i => s.applySend cfg i
  | .crash i => s.crash cfg i

theorem attempt_persistOk (cfg : Config) (s : Cluster) (a : Action) :
    s.attempt cfg ⟨a, persistOk⟩ = s.step cfg a := by
  cases a <;> rfl

end Cluster

/-- A run in which every replacement succeeds is one of those considered here. -/
theorem attempts_of_run {cfg : Config} {C : Cluster → Action → Prop} {s t : Cluster}
    {as : List Action} (h : Run (Cluster.step cfg) C s as t) :
    Run (Cluster.attempt cfg) Always s (as.map fun a => ⟨a, Cluster.persistOk⟩) t := by
  induction h with
  | nil => exact Run.nil
  | snoc _ _ hs ih =>
      rw [List.map_append]
      exact ih.snoc trivial ((Cluster.attempt_persistOk _ _ _).trans hs)

/-! ## §2  Nodes that count no vote -/

/-- The node starts no election and counts no vote, and becomes nothing but a
follower. -/
structure Idle (n n' : Node) : Prop where
  id : n'.id = n.id
  peers : n'.peers = n.peers
  elections : n'.elections = n.elections
  role : n'.role = .follower ∨ n'.role = n.role ∧ n'.currentTerm = n.currentTerm

section IdleNodes

variable {n n' : Node}

theorem Idle.refl (n : Node) : Idle n n := ⟨rfl, rfl, rfl, Or.inr ⟨rfl, rfl⟩⟩

theorem idle_becomeFollower (ok : Bool) (n : Node) (t : ℕ) : Idle n (n.becomeFollower ok t) := by
  refine ⟨?_, ?_, ?_, Or.inl (Node.becomeFollower_role ok n t)⟩ <;> simp [Node.becomeFollower]

theorem idle_follow (ok : Bool) (n : Node) (args : AppendEntriesArgs) :
    Idle n (n.follow ok args) := by
  have h := idle_becomeFollower ok n args.term
  exact ⟨h.id, h.peers, h.elections, h.role⟩

theorem idle_handleRequestVote {ok : ℕ → Bool} {args : RequestVoteArgs}
    {reply : RequestVoteReply} (h : n.handleRequestVote ok args = some (n', reply)) :
    Idle n n' := by
  have hadopt : Idle n (n.adoptTerm (ok 0) args.term) :=
    Node.adoptTerm_rule (fun _ => idle_becomeFollower _ n _) (Idle.refl n)
  rcases Node.handleRequestVote_cases h with ⟨-, rfl, -⟩ | ⟨-, _, _, -, ⟨-, rfl, -⟩ | ⟨-, rfl, -⟩⟩
  · exact Idle.refl n'
  · refine ⟨?_, ?_, ?_, ?_⟩
    · simpa using hadopt.id
    · simpa using hadopt.peers
    · simpa using hadopt.elections
    · simpa using hadopt.role
  · exact hadopt

theorem idle_handleAppendEntries {ok : ℕ → Bool} {args : AppendEntriesArgs}
    {reply : AppendEntriesReply} (h : n.handleAppendEntries ok args = some (n', reply)) :
    Idle n n' := by
  have hfollow := idle_follow (ok 0) n args
  rcases Node.handleAppendEntries_cases h with ⟨-, rfl, -⟩ |
    ⟨-, ⟨-, rfl, -⟩ | ⟨_, -, ⟨-, rfl, -⟩ | ⟨-, rfl, -⟩⟩⟩
  · exact Idle.refl n'
  · exact hfollow
  · exact hfollow
  · obtain ⟨h1, h2, h3, -, h5, -, -, h8, -⟩ :=
      Node.appendAndPersist_rest (ok 1) (n.follow (ok 0) args) args
    obtain ⟨k1, k2, k3, -, k5, -, -, k8, -⟩ :=
      Node.followCommit_rest ((n.follow (ok 0) args).appendAndPersist (ok 1) args) args
    refine ⟨k1.trans (h1.trans hfollow.id), k2.trans (h2.trans hfollow.peers),
      k8.trans (h8.trans hfollow.elections), Or.inl (k5.trans (h5.trans ?_))⟩
    simp [Node.follow]

theorem idle_handleAppendReply {ok : Bool} {peer : NodeId} {args : AppendEntriesArgs}
    {reply : AppendEntriesReply} {calls : List AppendCall}
    (h : n.handleAppendReply ok peer args reply = some (n', calls)) : Idle n n' := by
  rcases Node.handleAppendReply_cases h with ⟨-, rfl, -⟩ | ⟨rfl, -⟩ |
    ⟨-, -, -, ⟨-, -, rfl⟩ | ⟨-, rfl, -⟩⟩
  · exact idle_becomeFollower ok n _
  · exact Idle.refl n'
  · obtain ⟨c, b, heq⟩ := Node.maybeAdvance_eq (n.recordMatch peer args)
    rw [heq]
    exact ⟨rfl, rfl, rfl, Or.inr ⟨rfl, rfl⟩⟩
  · exact ⟨rfl, rfl, rfl, Or.inr ⟨rfl, rfl⟩⟩

theorem idle_propose {ok : Bool} {command : Option Bytes} {calls : List AppendCall}
    {idx term : ℕ} {isLeader : Bool}
    (h : n.propose ok command = some (n', calls, idx, term, isLeader)) : Idle n n' := by
  rcases Node.propose_cases h with ⟨-, rfl, -⟩ | ⟨-, rfl, -⟩
  · exact Idle.refl n'
  · refine ⟨?_, ?_, ?_, Or.inr ⟨?_, ?_⟩⟩ <;> simp [Node.appendCommand]

theorem idle_takeSnapshot {okSnap okState b : Bool} {k : ℕ} {data : Bytes}
    (h : n.takeSnapshot okSnap okState k data = some (n', b)) : Idle n n' := by
  rcases Node.takeSnapshot_outcome h with rfl | ⟨last, rfl⟩
  · exact Idle.refl n'
  · refine ⟨?_, ?_, ?_, Or.inr ⟨?_, ?_⟩⟩ <;> simp

/-- A process that starts has no election under way. -/
structure Fresh (n n' : Node) : Prop where
  id : n'.id = n.id
  peers : n'.peers = n.peers
  elections : n'.elections = []
  role : n'.role = .follower

theorem fresh_restart (n : Node) : Fresh n n.restart := by
  unfold Node.restart Node.newNode Node.restoreState Node.restoreSnapshot Node.blank
  constructor <;> dsimp only <;> split <;> split <;> split <;> rfl

end IdleNodes

/-! ## §3  What an action does to elections -/

/-- No node becomes leader in the step. -/
def NoLeader (s s' : Cluster) : Prop :=
  ∀ j T L, Event.becameLeader j T L ∈ s'.history → Event.becameLeader j T L ∈ s.history

inductive ElectionStep (cfg : Config) (s s' : Cluster) : Prop where
  | idle {i : NodeId} {n : Node} (hnodes : s'.nodes = Function.update s.nodes i n)
      (hlives : s'.lives = s.lives) (hn : Idle (s.nodes i) n) (hvotes : VotesMove s s')
      (hhist : s.history ⊆ s'.history) (hlead : NoLeader s s')
  | restart {i : NodeId} {n : Node} (hnodes : s'.nodes = Function.update s.nodes i n)
      (hlives : s'.lives = Function.update s.lives i (s.lives i + 1))
      (hn : Fresh (s.nodes i) n) (hvotes : VotesMove s s') (hhist : s'.history = s.history)
  | campaign {i : NodeId} {n : Node} (args : RequestVoteArgs) (hi : i ∈ cfg.ids)
      (hnodes : s'.nodes = Function.update s.nodes i n) (hlives : s'.lives = s.lives)
      (hid : n.id = (s.nodes i).id) (hpeers : n.peers = (s.nodes i).peers)
      (hrole : n.role = .candidate) (helections : n.elections = (s.nodes i).elections ++ [1])
      (hcand : args.candidateId = (s.nodes i).id) (hterm : args.term = n.currentTerm)
      (hvotes : s'.voteRpcs = s.voteRpcs ++ (s.nodes i).peers.map
        (.ask i (s.lives i) (s.nodes i).elections.length args))
      (hhist : s'.history = .voted i n.currentTerm i :: s.history)
  | count {r : ℕ} {rpc : VoteRpc} {reply : RequestVoteReply} {n : Node}
      (hr : s.voteRpcs[r]? = some rpc) (hlife : rpc.life = s.lives rpc.src)
      (hphase : rpc.phase = .replied reply) (hgranted : reply.voteGranted = true)
      (hcand : (s.nodes rpc.src).role = .candidate)
      (hterm : (s.nodes rpc.src).currentTerm = rpc.args.term)
      (hnodes : s'.nodes = Function.update s.nodes rpc.src n) (hlives : s'.lives = s.lives)
      (hid : n.id = (s.nodes rpc.src).id) (hpeers : n.peers = (s.nodes rpc.src).peers)
      (hsame : n.currentTerm = (s.nodes rpc.src).currentTerm)
      (helections : n.elections = ((s.nodes rpc.src).countVote rpc.election).elections)
      (hvotes : s'.voteRpcs = s.voteRpcs.set r { rpc with phase := .finished })
      (hresult : n.role = .candidate ∧ n.elections.getD rpc.election 0 < (s.nodes rpc.src).needed ∧
          s'.history = s.history ∨
        n.role = .leader ∧ (s.nodes rpc.src).needed ≤ n.elections.getD rpc.election 0 ∧
          s'.history = .becameLeader rpc.src n.currentTerm n.log ::
            .accepted rpc.src n.currentTerm (n.log.length - 1) :: s.history)

section Steps

variable {cfg : Config} {s s' : Cluster}

/-- Only the history grows, by no leader. -/
theorem noLeader_of_append {evs : List Event} (hhist : s'.history = evs ++ s.history)
    (hevs : ∀ j T L, Event.becameLeader j T L ∉ evs) : NoLeader s s' := by
  intro j T L hev
  rw [hhist] at hev
  exact (List.mem_append.mp hev).resolve_left (hevs j T L)

/-- An action that leaves the votes alone. -/
theorem ElectionStep.of_idle {i : NodeId} {n : Node} {evs : List Event}
    (hnodes : s'.nodes = Function.update s.nodes i n) (hlives : s'.lives = s.lives)
    (hn : Idle (s.nodes i) n) (hvotes : s'.voteRpcs = s.voteRpcs)
    (hhist : s'.history = evs ++ s.history)
    (hevs : ∀ j T L, Event.becameLeader j T L ∉ evs) : ElectionStep cfg s s' :=
  .idle hnodes hlives hn (.of_eq hvotes) (hhist ▸ List.subset_append_right _ _)
    (noLeader_of_append hhist hevs)

theorem electionStep_startElection {i : NodeId} {ok : Bool} {n : Node} {calls : List VoteCall}
    (hi : i ∈ cfg.ids) (hn : (s.nodes i).startElection cfg.incr ok = some (n, calls)) :
    ElectionStep cfg s
      (((s.setNode i n).spawnVotes i calls).record [.voted i n.currentTerm i]) := by
  obtain ⟨e, -, rfl, rfl⟩ := Node.startElection_some hn
  refine .campaign ⟨cfg.incr (s.nodes i).currentTerm, (s.nodes i).id, (s.nodes i).log.length - 1,
    e.term⟩ hi rfl rfl ?_ ?_ ?_ rfl rfl ?_ ?_ rfl
  · simp [Node.campaign]
  · simp [Node.campaign]
  · simp [Node.campaign]
  · simp [Node.campaign]
  · simp only [Cluster.record_voteRpcs, Cluster.spawnVotes_voteRpcs, List.map_map]
    rfl

theorem electionStep_deliverVote {r : ℕ} {rpc : VoteRpc} {ok : ℕ → Bool} {n : Node}
    {reply : RequestVoteReply} (hr : s.voteRpcs[r]? = some rpc) (hp : rpc.phase = .requested)
    (hcand : rpc.args.candidateId = rpc.src)
    (hn : (s.nodes rpc.dst).handleRequestVote ok rpc.args = some (n, reply)) :
    ElectionStep cfg s
      (((s.setNode rpc.dst n).setVoteRpc r { rpc with phase := .replied reply }).record
        (if reply.voteGranted then [.voted rpc.dst reply.term rpc.args.candidateId] else [])) := by
  have hterm : reply.voteGranted = true → reply.term = rpc.args.term := by
    intro hg
    rcases Node.handleRequestVote_cases hn with ⟨-, -, rfl⟩ |
      ⟨-, _, _, -, ⟨-, -, rfl⟩ | ⟨-, -, rfl⟩⟩
    · cases hg
    · rfl
    · cases hg
  refine .idle rfl rfl (idle_handleRequestVote hn) (.set hr rfl (Or.inr (Or.inr ⟨hp, ?_⟩)))
    (List.subset_append_right _ _) (noLeader_of_append rfl ?_)
  · rintro _ ⟨⟩ hg
    rw [Cluster.record_history, if_pos hg, hterm hg, hcand]
    exact List.mem_cons_self
  · intro j T L
    split <;> simp

theorem electionStep_voteReply {r : ℕ} {rpc : VoteRpc} {ok : Bool} {reply : RequestVoteReply}
    {n : Node} {calls : List AppendCall} (hr : s.voteRpcs[r]? = some rpc)
    (hlife : rpc.life = s.lives rpc.src) (hp : rpc.phase = .replied reply)
    (hn : (s.nodes rpc.src).handleVoteReply ok rpc.args.term rpc.election reply =
      some (n, calls)) :
    ElectionStep cfg s
      ((((s.setNode rpc.src n).setVoteRpc r
          { rpc with phase := .finished }).spawnAppends rpc.src calls).record
        (if (s.nodes rpc.src).role ≠ .leader ∧ n.role = .leader then
          [.becameLeader rpc.src n.currentTerm n.log,
           .accepted rpc.src n.currentTerm (n.log.length - 1)] else [])) := by
  have hidle : Idle (s.nodes rpc.src) n → ElectionStep cfg s
      ((((s.setNode rpc.src n).setVoteRpc r
          { rpc with phase := .finished }).spawnAppends rpc.src calls).record
        (if (s.nodes rpc.src).role ≠ .leader ∧ n.role = .leader then
          [.becameLeader rpc.src n.currentTerm n.log,
           .accepted rpc.src n.currentTerm (n.log.length - 1)] else [])) := by
    intro hidle
    -- an idle node does not become leader
    have hno : ¬ ((s.nodes rpc.src).role ≠ .leader ∧ n.role = .leader) := by
      rintro ⟨hne, hl⟩
      rcases hidle.role with hf | ⟨hsame, -⟩
      · cases hf.symm.trans hl
      · exact hne (hsame.symm.trans hl)
    rw [if_neg hno]
    exact .idle rfl rfl hidle (.set hr rfl (Or.inr (Or.inl rfl))) (List.Subset.refl _)
      (fun _ _ _ h => h)
  rcases Node.handleVoteReply_cases hn with ⟨-, rfl, -⟩ | ⟨rfl, -⟩ |
    ⟨hc, ht, hg, ⟨hlt, rfl, -⟩ | ⟨hge, rfl, -⟩⟩
  · exact hidle (idle_becomeFollower ok _ _)
  · exact hidle (Idle.refl _)
  · refine .count hr hlife hp hg hc ht rfl rfl rfl rfl rfl rfl rfl (Or.inl ⟨hc, hlt, ?_⟩)
    have hno : ((s.nodes rpc.src).countVote rpc.election).role ≠ .leader := by
      show (s.nodes rpc.src).role ≠ .leader
      rw [hc]
      simp
    rw [Cluster.record_history, if_neg fun h => hno h.2]
    rfl
  · refine .count hr hlife hp hg hc ht rfl rfl rfl rfl rfl rfl rfl (Or.inr ⟨rfl, hge, ?_⟩)
    rw [Cluster.record_history, if_pos ⟨by rw [hc]; simp, rfl⟩]
    rfl

/-- **Every action** leaves elections alone, restarts a node, starts an election or
counts a vote. -/
theorem electionStep_of_attempt {a : Attempt}
    (hcand : ∀ rpc ∈ s.voteRpcs, rpc.args.candidateId = rpc.src)
    (hs : s.attempt cfg a = some s') : ElectionStep cfg s s' := by
  obtain ⟨action, ok⟩ := a
  have hnone : ∀ j T L, Event.becameLeader j T L ∉ ([] : List Event) :=
    fun _ _ _ => List.not_mem_nil
  cases action with
  | startElection i =>
      obtain ⟨⟨hi, -⟩, h⟩ := guard_bind_eq_some hs
      obtain ⟨⟨n, calls⟩, hn, h⟩ := Option.bind_eq_some_iff.mp h
      rw [← Option.some.inj h]
      exact electionStep_startElection hi hn
  | heartbeat i =>
      obtain ⟨-, -, calls, -, rfl⟩ := Cluster.heartbeat_some hs
      exact .of_idle (i := i) (Function.update_eq_self i s.nodes).symm rfl (Idle.refl _) rfl
        (List.nil_append _).symm hnone
  | propose i command =>
      obtain ⟨-, h⟩ := guard_bind_eq_some hs
      obtain ⟨⟨n, calls, idx, term, isLeader⟩, hn, h⟩ := Option.bind_eq_some_iff.mp h
      rw [← Option.some.inj h]
      refine .of_idle rfl rfl (idle_propose hn) rfl rfl fun j T L => ?_
      split <;> simp
  | deliverVote r =>
      obtain ⟨rpc, hr, h⟩ := Option.bind_eq_some_iff.mp hs
      obtain ⟨hp, h⟩ := guard_bind_eq_some h
      obtain ⟨⟨n, reply⟩, hn, h⟩ := Option.bind_eq_some_iff.mp h
      rw [← Option.some.inj h]
      exact electionStep_deliverVote hr hp (hcand rpc (List.mem_of_getElem? hr)) hn
  | voteReply r =>
      obtain ⟨rpc, hr, h⟩ := Option.bind_eq_some_iff.mp hs
      obtain ⟨hlife, h⟩ := guard_bind_eq_some h
      split at h
      · rename_i reply hp
        obtain ⟨⟨n, calls⟩, hn, h⟩ := Option.bind_eq_some_iff.mp h
        rw [← Option.some.inj h]
        exact electionStep_voteReply hr hlife hp hn
      · cases h
  | deliverAppend r =>
      obtain ⟨rpc, hr, h⟩ := Option.bind_eq_some_iff.mp hs
      obtain ⟨-, h⟩ := guard_bind_eq_some h
      obtain ⟨⟨n, reply⟩, hn, h⟩ := Option.bind_eq_some_iff.mp h
      rw [← Option.some.inj h]
      refine .of_idle rfl rfl (idle_handleAppendEntries hn) rfl rfl fun j T L => ?_
      split <;> simp
  | appendReply r =>
      obtain ⟨rpc, hr, h⟩ := Option.bind_eq_some_iff.mp hs
      obtain ⟨-, h⟩ := guard_bind_eq_some h
      split at h
      · obtain ⟨⟨n, calls⟩, hn, h⟩ := Option.bind_eq_some_iff.mp h
        rw [← Option.some.inj h]
        refine .of_idle rfl rfl (idle_handleAppendReply hn) rfl rfl fun j T L => ?_
        split <;> simp
      · cases h
  | applyWake i =>
      rw [Cluster.applyWake_some hs]
      exact .of_idle rfl rfl ⟨rfl, rfl, rfl, Or.inr ⟨rfl, rfl⟩⟩ rfl (List.nil_append _).symm hnone
  | applyTake i =>
      rcases Cluster.applyTake_some hs with rfl | ⟨-, e, pc, -, -, rfl⟩
      · exact .of_idle rfl rfl ⟨rfl, rfl, rfl, Or.inr ⟨rfl, rfl⟩⟩ rfl (List.nil_append _).symm
          hnone
      · exact .of_idle rfl rfl ⟨rfl, rfl, rfl, Or.inr ⟨rfl, rfl⟩⟩ rfl rfl fun j T L => by simp
  | applySend i =>
      obtain ⟨msg, -, rfl⟩ := Cluster.applySend_some hs
      exact .of_idle rfl rfl ⟨rfl, rfl, rfl, Or.inr ⟨rfl, rfl⟩⟩ rfl rfl fun j T L => by simp
  | takeSnapshot i upToIndex data =>
      obtain ⟨-, h⟩ := guard_bind_eq_some hs
      obtain ⟨⟨n, b⟩, hn, h⟩ := Option.bind_eq_some_iff.mp h
      rw [← Option.some.inj h]
      exact .of_idle rfl rfl (idle_takeSnapshot hn) rfl (List.nil_append _).symm hnone
  | crash i =>
      rw [Cluster.crash_some hs]
      exact .restart rfl rfl (fresh_restart _) (.of_eq rfl) rfl
  | crashInVote r =>
      obtain ⟨rpc, hr, h⟩ := Option.bind_eq_some_iff.mp hs
      obtain ⟨-, h⟩ := guard_bind_eq_some h
      rw [← Option.some.inj h]
      have hfresh := fresh_restart ((s.nodes rpc.dst).becomeFollower (ok 0) rpc.args.term)
      have hidle := idle_becomeFollower (ok 0) (s.nodes rpc.dst) rpc.args.term
      exact .restart rfl rfl ⟨hfresh.id.trans hidle.id, hfresh.peers.trans hidle.peers,
        hfresh.elections, hfresh.role⟩ (.set hr rfl (Or.inr (Or.inl rfl))) rfl
  | crashInAppend r =>
      obtain ⟨rpc, hr, h⟩ := Option.bind_eq_some_iff.mp hs
      obtain ⟨-, h⟩ := guard_bind_eq_some h
      rw [← Option.some.inj h]
      have hfresh := fresh_restart ((s.nodes rpc.dst).becomeFollower (ok 0) rpc.args.term)
      have hidle := idle_becomeFollower (ok 0) (s.nodes rpc.dst) rpc.args.term
      exact .restart rfl rfl ⟨hfresh.id.trans hidle.id, hfresh.peers.trans hidle.peers,
        hfresh.elections, hfresh.role⟩ (.of_eq rfl) rfl

end Steps

end KVEngine.Raft
