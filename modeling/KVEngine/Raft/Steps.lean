import KVEngine.Raft.Cluster
import KVEngine.Raft.NodeSpec

/-!
# What one action of the cluster does

An inversion lemma per action, and two node-level facts every later invariant
is built from. `Sound` ties a node's memory to its files while nothing has been
compacted. `Passive` is a change of a node that wins nothing: the term does not
decrease, and a candidate or leader afterwards was the same candidate or leader
before, with the same log.
-/

namespace KVEngine.Raft

open Foundation (splice guard_bind_eq_some)
open Foundation.ReplicatedLog (Role)

/-! ## §1  Sound nodes -/

/-- Memory and files of node `i` while no entry has been compacted: the log
starts with the sentinel, a snapshot covers index `0` at most, and the state
file holds term, vote and log as they are in memory. -/
structure Sound (cfg : Config) (i : NodeId) (n : Node) : Prop where
  id : n.id = i
  peers : n.peers = cfg.peers i
  head : n.log[0]? = some sentinel
  snapshotIndex : n.snapshotIndex = 0
  snapshotFile : ∀ snap, n.snapshotFile = some snap →
    snap.lastIncludedIndex = 0 ∧ snap.lastIncludedTerm = 0
  durable : n.stateFile = some n.persistentState ∨
    n.stateFile = none ∧ n.persistentState = ⟨0, [], [sentinel]⟩

section SoundNodes

variable {cfg : Config} {i : NodeId} {n n' : Node}

/-- A node is none of its own peers. -/
theorem Sound.id_notMem_peers (h : Sound cfg i n) (hi : i ∈ cfg.ids) : n.id ∉ n.peers := by
  rw [h.id, h.peers]
  exact fun hself => ((cfg.mem_peers i hi i).mp hself).2 rfl

theorem Sound.length_pos (h : Sound cfg i n) : 0 < n.log.length :=
  (List.getElem?_eq_some_iff.mp h.head).1

theorem sound_newNode (cfg : Config) (i : NodeId) :
    Sound cfg i (Node.newNode i (cfg.peers i) none none) :=
  ⟨rfl, rfl, rfl, rfl, by simp [Node.newNode, Node.blank, Node.restoreSnapshot,
    Node.restoreState], Or.inr ⟨rfl, rfl⟩⟩

/-- Only memory that is not persisted has changed. -/
theorem Sound.volatile (h : Sound cfg i n) (hid : n'.id = n.id)
    (hpeers : n'.peers = n.peers) (hps : n'.persistentState = n.persistentState)
    (hsi : n'.snapshotIndex = n.snapshotIndex)
    (hsf : n'.snapshotFile = n.snapshotFile)
    (hst : n'.stateFile = n.stateFile) : Sound cfg i n' where
  id := hid.trans h.id
  peers := hpeers.trans h.peers
  head := by
    have hlog : n'.log = n.log := congrArg PersistentState.log hps
    rw [hlog, h.head]
  snapshotIndex := hsi.trans h.snapshotIndex
  snapshotFile := by rw [hsf]; exact h.snapshotFile
  durable := by rw [hst, hps]; exact h.durable

/-- The new state has been persisted. -/
theorem Sound.persisted (h : Sound cfg i n) (hid : n'.id = n.id)
    (hpeers : n'.peers = n.peers) (hhead : n'.log[0]? = some sentinel)
    (hsi : n'.snapshotIndex = n.snapshotIndex)
    (hsf : n'.snapshotFile = n.snapshotFile)
    (hst : n'.stateFile = some n'.persistentState) : Sound cfg i n' where
  id := hid.trans h.id
  peers := hpeers.trans h.peers
  head := hhead
  snapshotIndex := hsi.trans h.snapshotIndex
  snapshotFile := by rw [hsf]; exact h.snapshotFile
  durable := Or.inl hst

theorem Sound.becomeFollower (h : Sound cfg i n) (t : ℕ) :
    Sound cfg i (n.becomeFollower true t) :=
  h.persisted rfl rfl h.head rfl rfl rfl

theorem Sound.adoptTerm (h : Sound cfg i n) (t : ℕ) :
    Sound cfg i (n.adoptTerm true t) :=
  Node.adoptTerm_rule (fun _ => h.becomeFollower t) h

theorem Sound.vote (h : Sound cfg i n) (c : NodeId) :
    Sound cfg i (Node.persist true { n with votedFor := c }) :=
  h.persisted rfl rfl h.head rfl rfl rfl

theorem Sound.follow (h : Sound cfg i n) (args : AppendEntriesArgs) :
    Sound cfg i (n.follow true args) :=
  h.persisted rfl rfl h.head rfl rfl rfl

theorem Sound.followCommit (h : Sound cfg i n) (args : AppendEntriesArgs) :
    Sound cfg i (n.followCommit args) := by
  unfold Node.followCommit
  split
  · exact h.volatile rfl rfl rfl rfl rfl rfl
  · exact h

theorem Sound.appendAndPersist (h : Sound cfg i n) {args : AppendEntriesArgs}
    (hprev : args.prevLogIndex < n.log.length) :
    Sound cfg i (n.appendAndPersist true args) := by
  have hhead : (n.appendAndPersist true args).log[0]? = some sentinel := by
    rw [Node.appendAndPersist_log,
      Foundation.splice_getElem?_lt hprev (Nat.succ_pos _), h.head]
  cases hes : args.entries with
  | nil =>
      have hsame : n.appendAndPersist true args = n := by
        simp [Node.appendAndPersist, hes, Node.appendLoop]
      rw [hsame]
      exact h
  | cons e es =>
      obtain ⟨h1, h2, -, -, -, -, -, -, -, h10, h11⟩ :=
        Node.appendAndPersist_rest true n args
      refine h.persisted h1 h2 hhead h11 h10 ?_
      simp [Node.appendAndPersist, hes, Node.persistentState]

theorem Sound.campaign (h : Sound cfg i n) (incr : ℕ → ℕ) (el : List ℕ) :
    Sound cfg i { n.campaign incr true with elections := el } :=
  h.persisted rfl rfl h.head rfl rfl rfl

theorem Sound.appendCommand (h : Sound cfg i n) (command : Option Bytes) :
    Sound cfg i (n.appendCommand true command) := by
  refine h.persisted rfl rfl ?_ rfl rfl rfl
  change (n.log ++ [_])[0]? = some sentinel
  rw [List.getElem?_append_left h.length_pos, h.head]

theorem Sound.maybeAdvance (h : Sound cfg i n) :
    Sound cfg i n.maybeAdvanceCommitIndex := by
  unfold Node.maybeAdvanceCommitIndex
  rcases n.advanceCommitFrom_cases (n.log.length - 1) with h' | ⟨k, -, -, -, -, h'⟩
  · rw [h']
    exact h
  · rw [h']
    exact h.volatile rfl rfl rfl rfl rfl rfl

/-- **Restart.** The files of a sound node bring back term, vote and log; the
rest starts blank. -/
theorem Sound.restart_eq (h : Sound cfg i n) :
    n.restart = { Node.blank n.id n.peers n.stateFile n.snapshotFile with
                  currentTerm := n.currentTerm
                  votedFor := n.votedFor
                  log := n.log } := by
  have hne : n.log.length ≠ 0 := Nat.ne_of_gt h.length_pos
  have hsnap : (Node.blank n.id n.peers n.stateFile n.snapshotFile).restoreSnapshot =
      Node.blank n.id n.peers n.stateFile n.snapshotFile := by
    unfold Node.restoreSnapshot
    split
    · rfl
    · rename_i snap hsf
      obtain ⟨h0, h1⟩ := h.snapshotFile snap hsf
      simp [Node.blank, h0, h1, sentinel]
  have hstate : (Node.blank n.id n.peers n.stateFile n.snapshotFile).restoreState =
      { Node.blank n.id n.peers n.stateFile n.snapshotFile with
        currentTerm := n.currentTerm
        votedFor := n.votedFor
        log := n.log } := by
    rcases h.durable with hst | ⟨hst, hps⟩
    · simp [Node.restoreState, Node.blank, hst, Node.persistentState]
    · simp only [Node.persistentState, PersistentState.mk.injEq] at hps
      simp [Node.restoreState, Node.blank, hst, hps]
  unfold Node.restart Node.newNode
  rw [hsnap, hstate]
  exact if_neg hne

theorem Sound.restart (h : Sound cfg i n) : Sound cfg i n.restart := by
  rw [h.restart_eq]
  exact h.volatile rfl rfl rfl h.snapshotIndex.symm rfl rfl

/-- A snapshot at index `0` discards nothing: only the files are written. -/
theorem Sound.takeSnapshot_zero (h : Sound cfg i n) {data : Bytes} {b : Bool}
    (hs : n.takeSnapshot true true 0 data = some (n', b)) :
    n' = { n with
           snapshotFile := some ⟨0, 0, data⟩
           snapshotTerm := 0
           stateFile := some n.persistentState } := by
  rcases Node.takeSnapshot_cases hs with ⟨-, hlt | hlt | hlen⟩ | ⟨last, hlast, -, -, rfl⟩
  · exact absurd hlt (Nat.not_lt_zero _)
  · rw [h.snapshotIndex] at hlt
    exact absurd hlt (lt_irrefl 0)
  · exact absurd h.length_pos (not_lt.mpr hlen)
  · obtain rfl := Option.some.inj (h.head.symm.trans hlast)
    have hlog : sentinel :: n.log.drop (0 + 1) = n.log := by
      obtain ⟨hpos, hhead⟩ := List.getElem?_eq_some_iff.mp h.head
      rw [← hhead]
      exact List.cons_getElem_drop_succ (h := hpos)
    have hfields : ∀ k l, k = n.snapshotIndex → l = n.log →
        Node.persist true { n with
            snapshotFile := some ⟨0, 0, data⟩, log := l, snapshotIndex := k, snapshotTerm := 0 } =
          { n with
            snapshotFile := some ⟨0, 0, data⟩, snapshotTerm := 0,
            stateFile := some n.persistentState } := by
      rintro k l rfl rfl
      rfl
    exact hfields 0 _ h.snapshotIndex.symm hlog

theorem Sound.takeSnapshot (h : Sound cfg i n) {data : Bytes} {b : Bool}
    (hs : n.takeSnapshot true true 0 data = some (n', b)) : Sound cfg i n' := by
  rw [h.takeSnapshot_zero hs]
  refine ⟨h.id, h.peers, h.head, h.snapshotIndex, ?_, Or.inl rfl⟩
  intro snap hsnap
  rw [← Option.some.inj hsnap]
  exact ⟨rfl, rfl⟩

end SoundNodes

/-! ## §2  Passive changes -/

structure Passive (n n' : Node) : Prop where
  term_le : n.currentTerm ≤ n'.currentTerm
  elections : n'.elections = n.elections
  candidate : n'.role = .candidate →
    n.role = .candidate ∧ n'.currentTerm = n.currentTerm ∧ n'.log = n.log
  leader : n'.role = .leader →
    n.role = .leader ∧ n'.currentTerm = n.currentTerm ∧ n'.log = n.log ∧
      n'.matchIndex = n.matchIndex
  applying : ∀ msg, n'.applyPc = .sending msg → n.applyPc = .sending msg

section PassiveNodes

variable {n n' : Node}

theorem Passive.of_follower (ht : n.currentTerm ≤ n'.currentTerm)
    (he : n'.elections = n.elections) (hr : n'.role = .follower)
    (ha : n'.applyPc = n.applyPc) : Passive n n' where
  term_le := ht
  elections := he
  candidate := fun h => Role.noConfusion (hr.symm.trans h)
  leader := fun h => Role.noConfusion (hr.symm.trans h)
  applying := fun _ h => ha.symm.trans h

theorem Passive.of_same (ht : n'.currentTerm = n.currentTerm)
    (he : n'.elections = n.elections) (hr : n'.role = n.role) (hl : n'.log = n.log)
    (hm : n'.matchIndex = n.matchIndex)
    (ha : ∀ msg, n'.applyPc = .sending msg → n.applyPc = .sending msg) :
    Passive n n' where
  term_le := Nat.le_of_eq ht.symm
  elections := he
  candidate := fun h => ⟨hr.symm.trans h, ht, hl⟩
  leader := fun h => ⟨hr.symm.trans h, ht, hl, hm⟩
  applying := ha

theorem Passive.refl (n : Node) : Passive n n :=
  Passive.of_same rfl rfl rfl rfl rfl fun _ h => h

theorem passive_becomeFollower {t : ℕ} (h : n.currentTerm ≤ t) :
    Passive n (n.becomeFollower true t) :=
  Passive.of_follower h rfl rfl rfl

theorem passive_adoptTerm (n : Node) (t : ℕ) : Passive n (n.adoptTerm true t) :=
  Node.adoptTerm_rule (fun hlt => passive_becomeFollower (Nat.le_of_lt hlt)) (Passive.refl n)

theorem passive_vote (t : ℕ) (c : NodeId) :
    Passive n (Node.persist true { n.adoptTerm true t with votedFor := c }) := by
  have h := passive_adoptTerm n t
  exact ⟨h.term_le, h.elections, h.candidate, h.leader, h.applying⟩

theorem passive_follow {args : AppendEntriesArgs} (h : n.currentTerm ≤ args.term) :
    Passive n (n.follow true args) :=
  Passive.of_follower h rfl rfl rfl

end PassiveNodes

/-! ### Handlers -/

section Handlers

variable {cfg : Config} {i : NodeId} {n n' : Node}

theorem handleRequestVote_passive {args : RequestVoteArgs} {reply : RequestVoteReply}
    (h : n.handleRequestVote Cluster.persistOk args = some (n', reply)) :
    Passive n n' := by
  rcases Node.handleRequestVote_cases h with ⟨-, rfl, -⟩ | ⟨-, _, _, -, ⟨-, rfl, -⟩ | ⟨-, rfl, -⟩⟩
  · exact Passive.refl n'
  · exact passive_vote _ _
  · exact passive_adoptTerm n args.term

theorem handleRequestVote_sound {args : RequestVoteArgs} {reply : RequestVoteReply}
    (hs : Sound cfg i n)
    (h : n.handleRequestVote Cluster.persistOk args = some (n', reply)) :
    Sound cfg i n' := by
  rcases Node.handleRequestVote_cases h with ⟨-, rfl, -⟩ | ⟨-, _, _, -, ⟨-, rfl, -⟩ | ⟨-, rfl, -⟩⟩
  · exact hs
  · exact (hs.adoptTerm _).vote _
  · exact hs.adoptTerm _

theorem handleRequestVote_commitIndex {n' : Node} {args : RequestVoteArgs}
    {reply : RequestVoteReply} (h : n.handleRequestVote Cluster.persistOk args = some (n', reply)) :
    n'.commitIndex = n.commitIndex := by
  have hadopt : (n.adoptTerm true args.term).commitIndex = n.commitIndex :=
    Node.adoptTerm_rule (P := fun m => m.commitIndex = n.commitIndex) (fun _ => rfl) rfl
  rcases Node.handleRequestVote_cases h with ⟨-, rfl, -⟩ | ⟨-, _, _, -, ⟨-, rfl, -⟩ | ⟨-, rfl, -⟩⟩
  · rfl
  · exact hadopt
  · exact hadopt

theorem handleVoteReply_commitIndex {n' : Node} {term election : ℕ} {reply : RequestVoteReply}
    {calls : List AppendCall} (h : n.handleVoteReply true term election reply = some (n', calls)) :
    n'.commitIndex = n.commitIndex := by
  rcases Node.handleVoteReply_cases h with ⟨-, rfl, -⟩ | ⟨rfl, -⟩ |
    ⟨-, -, -, ⟨-, rfl, -⟩ | ⟨-, rfl, -⟩⟩ <;> rfl

/-- The node after an accepted append request. -/
theorem accept_follower (n : Node) (args : AppendEntriesArgs) :
    let n' := ((n.follow true args).appendAndPersist true args).followCommit args
    n'.role = .follower ∧ n'.currentTerm = args.term ∧ n'.elections = n.elections ∧
      n'.applyPc = n.applyPc ∧
      n'.log = splice LogEntry.term n.log (args.prevLogIndex + 1) args.entries ∧
      n'.commitIndex = (if n.commitIndex < args.leaderCommit then
        min args.leaderCommit (args.prevLogIndex + args.entries.length)
        else n.commitIndex) := by
  obtain ⟨-, -, t1, -, r1, c1, -, e1, a1, -, -⟩ :=
    Node.appendAndPersist_rest true (n.follow true args) args
  obtain ⟨-, -, t2, -, r2, l2, -, e2, a2, -, -⟩ :=
    Node.followCommit_rest ((n.follow true args).appendAndPersist true args) args
  refine ⟨r2.trans r1, t2.trans t1, e2.trans e1, a2.trans a1, l2.trans ?_, ?_⟩
  · rw [Node.appendAndPersist_log, Node.follow_log]
  · rw [Node.followCommit_commitIndex, c1]
    rfl

theorem handleAppendEntries_passive {args : AppendEntriesArgs}
    {reply : AppendEntriesReply}
    (h : n.handleAppendEntries Cluster.persistOk args = some (n', reply)) :
    Passive n n' := by
  rcases Node.handleAppendEntries_cases h with ⟨-, rfl, -⟩ |
    ⟨hle, ⟨-, rfl, -⟩ | ⟨_, -, ⟨-, rfl, -⟩ | ⟨-, rfl, -⟩⟩⟩
  · exact Passive.refl n'
  · exact passive_follow hle
  · exact passive_follow hle
  · obtain ⟨hr, ht, he, ha, -⟩ := accept_follower n args
    exact Passive.of_follower (ht ▸ hle) he hr ha

theorem handleAppendEntries_sound {args : AppendEntriesArgs}
    {reply : AppendEntriesReply} (hs : Sound cfg i n)
    (h : n.handleAppendEntries Cluster.persistOk args = some (n', reply)) :
    Sound cfg i n' := by
  rcases Node.handleAppendEntries_cases h with ⟨-, rfl, -⟩ |
    ⟨-, ⟨-, rfl, -⟩ | ⟨_, hprev, ⟨-, rfl, -⟩ | ⟨-, rfl, -⟩⟩⟩
  · exact hs
  · exact hs.follow args
  · exact hs.follow args
  · refine ((hs.follow args).appendAndPersist ?_).followCommit args
    rw [Node.follow_log]
    exact (List.getElem?_eq_some_iff.mp hprev).1

theorem handleVoteReply_sound {term election : ℕ} {reply : RequestVoteReply}
    {calls : List AppendCall} (hs : Sound cfg i n)
    (h : n.handleVoteReply true term election reply = some (n', calls)) :
    Sound cfg i n' := by
  rcases Node.handleVoteReply_cases h with ⟨-, rfl, -⟩ | ⟨rfl, -⟩ |
    ⟨-, -, -, ⟨-, rfl, -⟩ | ⟨-, rfl, -⟩⟩
  · exact hs.becomeFollower _
  · exact hs
  · exact hs.volatile rfl rfl rfl rfl rfl rfl
  · exact hs.volatile rfl rfl rfl rfl rfl rfl

theorem handleAppendReply_sound {peer : NodeId} {args : AppendEntriesArgs}
    {reply : AppendEntriesReply} {calls : List AppendCall} (hs : Sound cfg i n)
    (h : n.handleAppendReply true peer args reply = some (n', calls)) :
    Sound cfg i n' := by
  rcases Node.handleAppendReply_cases h with ⟨-, rfl, -⟩ | ⟨rfl, -⟩ |
    ⟨-, -, -, ⟨-, -, rfl⟩ | ⟨-, rfl, -⟩⟩
  · exact hs.becomeFollower _
  · exact hs
  · have hrec : Sound cfg i (n.recordMatch peer args) :=
      hs.volatile rfl rfl rfl rfl rfl rfl
    exact hrec.maybeAdvance
  · exact hs.volatile rfl rfl rfl rfl rfl rfl

end Handlers

/-! ## §3  Inversion of the actions -/

namespace Cluster

variable {cfg : Config} {s s' : Cluster} {i : NodeId} {r : ℕ}

/-- **One node changes.** What holds of its new state, and of the others as they were,
holds of all. -/
theorem forall_nodes {n : Node} (hnodes : s'.nodes = Function.update s.nodes i n)
    {P : NodeId → Node → Prop} (hi : P i n) (hother : ∀ j, j ≠ i → P j (s.nodes j)) :
    ∀ j, P j (s'.nodes j) := by
  rw [hnodes]
  exact (Function.forall_update_iff s.nodes P).mpr ⟨hi, hother⟩

theorem startElection_some (h : s.startElection cfg i = some s') :
    i ∈ cfg.ids ∧ (s.nodes i).role ≠ .leader ∧ ∃ n calls,
      (s.nodes i).startElection cfg.incr true = some (n, calls) ∧
      s' = ((s.setNode i n).spawnVotes i calls).record [.voted i n.currentTerm i] := by
  obtain ⟨⟨hi, hr⟩, h⟩ := guard_bind_eq_some h
  obtain ⟨⟨n, calls⟩, hn, h⟩ := Option.bind_eq_some_iff.mp h
  exact ⟨hi, hr, n, calls, hn, (Option.some.inj h).symm⟩

theorem heartbeat_some (h : s.heartbeat cfg i = some s') :
    i ∈ cfg.ids ∧ (s.nodes i).role = .leader ∧ ∃ calls,
      (s.nodes i).broadcastAppendEntries = some calls ∧ s' = s.spawnAppends i calls := by
  obtain ⟨⟨hi, hr⟩, h⟩ := guard_bind_eq_some h
  obtain ⟨calls, hc, h⟩ := Option.bind_eq_some_iff.mp h
  exact ⟨hi, hr, calls, hc, (Option.some.inj h).symm⟩

theorem propose_some {command : Option Bytes} (h : s.propose cfg i command = some s') :
    i ∈ cfg.ids ∧
      (s' = s ∨ (s.nodes i).role = .leader ∧ ∃ calls,
        ((s.nodes i).appendCommand true command).broadcastAppendEntries = some calls ∧
        s' = ((s.setNode i ((s.nodes i).appendCommand true command)).spawnAppends i
          calls).record
            [.proposed i (s.nodes i).currentTerm
              ((s.nodes i).appendCommand true command).log,
             .accepted i (s.nodes i).currentTerm (s.nodes i).log.length]) := by
  obtain ⟨hi, h⟩ := guard_bind_eq_some h
  obtain ⟨⟨n, calls, idx, term, isLeader⟩, hn, h⟩ := Option.bind_eq_some_iff.mp h
  refine ⟨hi, ?_⟩
  have hs' := (Option.some.inj h).symm
  rcases Node.propose_cases hn with ⟨-, rfl, rfl, rfl⟩ | ⟨hl, rfl, hb, rfl, rfl, rfl⟩
  · left
    rw [hs']
    simp [setNode]
  · right
    refine ⟨hl, calls, hb, hs'.trans ?_⟩
    simp [Node.appendCommand]

theorem deliverVote_some (h : s.deliverVote r = some s') : ∃ rpc n reply,
    s.voteRpcs[r]? = some rpc ∧ rpc.phase = .requested ∧
    (s.nodes rpc.dst).handleRequestVote persistOk rpc.args = some (n, reply) ∧
    s' = ((s.setNode rpc.dst n).setVoteRpc r { rpc with phase := .replied reply }).record
      (if reply.voteGranted then [.voted rpc.dst reply.term rpc.args.candidateId]
       else []) := by
  obtain ⟨rpc, hr, h⟩ := Option.bind_eq_some_iff.mp h
  obtain ⟨hp, h⟩ := guard_bind_eq_some h
  obtain ⟨⟨n, reply⟩, hn, h⟩ := Option.bind_eq_some_iff.mp h
  exact ⟨rpc, n, reply, hr, hp, hn, (Option.some.inj h).symm⟩

theorem voteReply_some (h : s.voteReply r = some s') : ∃ rpc reply n calls,
    s.voteRpcs[r]? = some rpc ∧ rpc.life = s.lives rpc.src ∧
    rpc.phase = .replied reply ∧
    (s.nodes rpc.src).handleVoteReply true rpc.args.term rpc.election reply =
      some (n, calls) ∧
    s' = (((s.setNode rpc.src n).setVoteRpc r
        { rpc with phase := .finished }).spawnAppends rpc.src calls).record
      (if (s.nodes rpc.src).role ≠ .leader ∧ n.role = .leader then
        [.becameLeader rpc.src n.currentTerm n.log,
         .accepted rpc.src n.currentTerm (n.log.length - 1)] else []) := by
  obtain ⟨rpc, hr, h⟩ := Option.bind_eq_some_iff.mp h
  obtain ⟨hl, h⟩ := guard_bind_eq_some h
  split at h
  · rename_i reply hp
    obtain ⟨⟨n, calls⟩, hn, h⟩ := Option.bind_eq_some_iff.mp h
    exact ⟨rpc, reply, n, calls, hr, hl, hp, hn, (Option.some.inj h).symm⟩
  · cases h

theorem deliverAppend_some (h : s.deliverAppend r = some s') : ∃ rpc n reply,
    s.appendRpcs[r]? = some rpc ∧ rpc.phase = .requested ∧
    (s.nodes rpc.dst).handleAppendEntries persistOk rpc.args = some (n, reply) ∧
    s' = ((s.setNode rpc.dst n).setAppendRpc r
        { rpc with phase := .replied reply }).record
      (if reply.success then
        [.accepted rpc.dst reply.term (rpc.args.prevLogIndex + rpc.args.entries.length)]
       else []) := by
  obtain ⟨rpc, hr, h⟩ := Option.bind_eq_some_iff.mp h
  obtain ⟨hp, h⟩ := guard_bind_eq_some h
  obtain ⟨⟨n, reply⟩, hn, h⟩ := Option.bind_eq_some_iff.mp h
  exact ⟨rpc, n, reply, hr, hp, hn, (Option.some.inj h).symm⟩

theorem appendReply_some (h : s.appendReply r = some s') : ∃ rpc reply n calls,
    s.appendRpcs[r]? = some rpc ∧ rpc.life = s.lives rpc.src ∧
    rpc.phase = .replied reply ∧
    (s.nodes rpc.src).handleAppendReply true rpc.dst rpc.args reply = some (n, calls) ∧
    s' = (((s.setNode rpc.src n).setAppendRpc r
        { rpc with phase := .finished }).spawnAppends rpc.src calls).record
      (if (s.nodes rpc.src).commitIndex < n.commitIndex then
        [.advanced rpc.src n.currentTerm n.commitIndex n.log] else []) := by
  obtain ⟨rpc, hr, h⟩ := Option.bind_eq_some_iff.mp h
  obtain ⟨hl, h⟩ := guard_bind_eq_some h
  split at h
  · rename_i reply hp
    obtain ⟨⟨n, calls⟩, hn, h⟩ := Option.bind_eq_some_iff.mp h
    exact ⟨rpc, reply, n, calls, hr, hl, hp, hn, (Option.some.inj h).symm⟩
  · cases h

theorem applyWake_some (h : s.applyWake cfg i = some s') :
    s' = s.setNode i { s.nodes i with applyPc := .looping, commitNotify := false } := by
  obtain ⟨-, h⟩ := guard_bind_eq_some h
  obtain ⟨n, hn, h⟩ := Option.bind_eq_some_iff.mp h
  obtain ⟨-, rfl⟩ := Node.applyWake_some hn
  exact (Option.some.inj h).symm

theorem applySend_some (h : s.applySend cfg i = some s') : ∃ msg,
    (s.nodes i).applyPc = .sending msg ∧
    s' = (s.setNode i { s.nodes i with applyPc := .looping }).record
      [.delivered i msg] := by
  obtain ⟨-, h⟩ := guard_bind_eq_some h
  obtain ⟨⟨n, msg⟩, hn, h⟩ := Option.bind_eq_some_iff.mp h
  obtain ⟨hpc, rfl⟩ := Node.applySend_some hn
  exact ⟨msg, hpc, (Option.some.inj h).symm⟩

/-- `applyTake` takes the entry after `lastApplied`, or parks. -/
theorem applyTake_some (h : s.applyTake cfg i = some s') :
    (s' = s.setNode i { s.nodes i with applyPc := .parked }) ∨
    ((s.nodes i).lastApplied < (s.nodes i).commitIndex ∧ ∃ e pc,
      (s.nodes i).log[(s.nodes i).lastApplied + 1]? = some e ∧
      (pc = .looping ∨ ∃ c, e.command = some c ∧
        pc = .sending ⟨(s.nodes i).lastApplied + 1, c⟩) ∧
      s' = (s.setNode i { s.nodes i with
          lastApplied := (s.nodes i).lastApplied + 1, applyPc := pc }).record
        [.taken i ((s.nodes i).lastApplied + 1) e]) := by
  obtain ⟨-, h⟩ := guard_bind_eq_some h
  obtain ⟨n, hn, h⟩ := Option.bind_eq_some_iff.mp h
  rw [← Option.some.inj h]
  obtain ⟨-, ⟨hlt, e, pc, he, rfl, hpc⟩ | ⟨-, rfl⟩⟩ := Node.applyTake_cases hn
  · right
    refine ⟨hlt, e, pc, he, hpc.imp_left And.right, ?_⟩
    simp [he]
  · left
    simp

theorem takeSnapshot_some {k : ℕ} {data : Bytes}
    (h : s.takeSnapshot cfg i k data = some s') : ∃ n b,
    (s.nodes i).takeSnapshot true true k data = some (n, b) ∧ s' = s.setNode i n := by
  obtain ⟨-, h⟩ := guard_bind_eq_some h
  obtain ⟨⟨n, b⟩, hn, h⟩ := Option.bind_eq_some_iff.mp h
  exact ⟨n, b, hn, (Option.some.inj h).symm⟩

theorem crash_some (h : s.crash cfg i = some s') : s' = s.reboot i (s.nodes i) := by
  obtain ⟨-, h⟩ := guard_bind_eq_some h
  exact (Option.some.inj h).symm

theorem crashInVote_some (h : s.crashInVote r = some s') : ∃ rpc,
    s.voteRpcs[r]? = some rpc ∧ (s.nodes rpc.dst).currentTerm < rpc.args.term ∧
    s' = (s.setVoteRpc r { rpc with phase := .finished }).reboot rpc.dst
      ((s.nodes rpc.dst).becomeFollower true rpc.args.term) := by
  obtain ⟨rpc, hr, h⟩ := Option.bind_eq_some_iff.mp h
  obtain ⟨⟨-, hp⟩, h⟩ := guard_bind_eq_some h
  exact ⟨rpc, hr, hp, (Option.some.inj h).symm⟩

theorem crashInAppend_some (h : s.crashInAppend r = some s') : ∃ rpc,
    s.appendRpcs[r]? = some rpc ∧ (s.nodes rpc.dst).currentTerm ≤ rpc.args.term ∧
    s' = (s.setAppendRpc r { rpc with phase := .finished }).reboot rpc.dst
      ((s.nodes rpc.dst).becomeFollower true rpc.args.term) := by
  obtain ⟨rpc, hr, h⟩ := Option.bind_eq_some_iff.mp h
  obtain ⟨⟨-, hp⟩, h⟩ := guard_bind_eq_some h
  exact ⟨rpc, hr, hp, (Option.some.inj h).symm⟩

/-! ### The node of a step -/

/-- What an action other than a crash does to the node it runs on. -/
inductive Changes (cfg : Config) (s : Cluster) : Action → NodeId → Node → Prop where
  | same (a : Action) (i : NodeId) : Changes cfg s a i (s.nodes i)
  | campaign {i : NodeId} {n : Node} {calls : List VoteCall}
      (h : (s.nodes i).startElection cfg.incr true = some (n, calls)) :
      Changes cfg s (.startElection i) i n
  | command {i : NodeId} {command : Option Bytes} (hi : i ∈ cfg.ids)
      (hrole : (s.nodes i).role = .leader) :
      Changes cfg s (.propose i command) i ((s.nodes i).appendCommand true command)
  | requestVote {r : ℕ} {rpc : VoteRpc} {n : Node} {reply : RequestVoteReply}
      (hr : s.voteRpcs[r]? = some rpc)
      (h : (s.nodes rpc.dst).handleRequestVote persistOk rpc.args = some (n, reply)) :
      Changes cfg s (.deliverVote r) rpc.dst n
  | voteReply {r : ℕ} {rpc : VoteRpc} {reply : RequestVoteReply} {n : Node}
      {calls : List AppendCall} (hr : s.voteRpcs[r]? = some rpc)
      (h : (s.nodes rpc.src).handleVoteReply true rpc.args.term rpc.election reply =
        some (n, calls)) : Changes cfg s (.voteReply r) rpc.src n
  | appendEntries {r : ℕ} {rpc : AppendRpc} {n : Node} {reply : AppendEntriesReply}
      (hr : s.appendRpcs[r]? = some rpc)
      (h : (s.nodes rpc.dst).handleAppendEntries persistOk rpc.args = some (n, reply)) :
      Changes cfg s (.deliverAppend r) rpc.dst n
  | appendReply {r : ℕ} {rpc : AppendRpc} {reply : AppendEntriesReply} {n : Node}
      {calls : List AppendCall} (hr : s.appendRpcs[r]? = some rpc)
      (hp : rpc.phase = .replied reply)
      (h : (s.nodes rpc.src).handleAppendReply true rpc.dst rpc.args reply = some (n, calls)) :
      Changes cfg s (.appendReply r) rpc.src n
  | wake {i : NodeId} : Changes cfg s (.applyWake i) i
      { s.nodes i with applyPc := .looping, commitNotify := false }
  | park {i : NodeId} : Changes cfg s (.applyTake i) i { s.nodes i with applyPc := .parked }
  | take {i : NodeId} {pc : ApplyPc} (hlt : (s.nodes i).lastApplied < (s.nodes i).commitIndex) :
      Changes cfg s (.applyTake i) i
        { s.nodes i with lastApplied := (s.nodes i).lastApplied + 1, applyPc := pc }
  | send {i : NodeId} : Changes cfg s (.applySend i) i { s.nodes i with applyPc := .looping }
  | snapshot {i : NodeId} {upToIndex : ℕ} {data : Bytes} {n : Node} {b : Bool}
      (h : (s.nodes i).takeSnapshot true true upToIndex data = some (n, b)) :
      Changes cfg s (.takeSnapshot i upToIndex data) i n

/-- The states in which the process of a node may die: between two actions, or in a handler
that has adopted a term. -/
def DiesAs (n m : Node) : Prop :=
  m = n ∨ ∃ t, n.currentTerm ≤ t ∧ m = n.becomeFollower true t

/-- A step changes one node, or starts it again. -/
inductive NodeStep (cfg : Config) (s : Cluster) (a : Action) (s' : Cluster) : Prop where
  | change {i : NodeId} {n : Node} (hnodes : s'.nodes = Function.update s.nodes i n)
      (hlives : s'.lives = s.lives) (h : Changes cfg s a i n)
  | restart {i : NodeId} {m : Node} (hnodes : s'.nodes = Function.update s.nodes i m.restart)
      (hlives : s'.lives = Function.update s.lives i (s.lives i + 1))
      (hm : DiesAs (s.nodes i) m)

theorem step_nodes {a : Action} (hs : s.step cfg a = some s') : NodeStep cfg s a s' := by
  cases a with
  | startElection i =>
      obtain ⟨-, -, n, calls, hn, rfl⟩ := startElection_some hs
      exact .change rfl rfl (.campaign hn)
  | heartbeat i =>
      obtain ⟨-, -, calls, -, rfl⟩ := heartbeat_some hs
      exact .change (Function.update_eq_self i s.nodes).symm rfl (.same _ i)
  | propose i command =>
      obtain ⟨hi, rfl | ⟨hrole, calls, -, rfl⟩⟩ := propose_some hs
      · exact .change (Function.update_eq_self i _).symm rfl (.same _ i)
      · exact .change rfl rfl (.command hi hrole)
  | deliverVote r =>
      obtain ⟨rpc, n, reply, hr, -, hn, rfl⟩ := deliverVote_some hs
      exact .change rfl rfl (.requestVote hr hn)
  | voteReply r =>
      obtain ⟨rpc, reply, n, calls, hr, -, -, hn, rfl⟩ := voteReply_some hs
      exact .change rfl rfl (.voteReply hr hn)
  | deliverAppend r =>
      obtain ⟨rpc, n, reply, hr, -, hn, rfl⟩ := deliverAppend_some hs
      exact .change rfl rfl (.appendEntries hr hn)
  | appendReply r =>
      obtain ⟨rpc, reply, n, calls, hr, -, hp, hn, rfl⟩ := appendReply_some hs
      exact .change rfl rfl (.appendReply hr hp hn)
  | applyWake i =>
      rw [applyWake_some hs]
      exact .change rfl rfl .wake
  | applyTake i =>
      rcases applyTake_some hs with rfl | ⟨hlt, e, pc, -, -, rfl⟩
      · exact .change rfl rfl .park
      · exact .change rfl rfl (.take hlt)
  | applySend i =>
      obtain ⟨msg, -, rfl⟩ := applySend_some hs
      exact .change rfl rfl .send
  | takeSnapshot i upToIndex data =>
      obtain ⟨n, b, hn, rfl⟩ := takeSnapshot_some hs
      exact .change rfl rfl (.snapshot hn)
  | crash i =>
      rw [crash_some hs]
      exact .restart rfl rfl (Or.inl rfl)
  | crashInVote r =>
      obtain ⟨rpc, -, hlt, rfl⟩ := crashInVote_some hs
      exact .restart rfl rfl (Or.inr ⟨_, hlt.le, rfl⟩)
  | crashInAppend r =>
      obtain ⟨rpc, -, hle, rfl⟩ := crashInAppend_some hs
      exact .restart rfl rfl (Or.inr ⟨_, hle, rfl⟩)

theorem DiesAs.sound {n m : Node} (hm : DiesAs n m) (h : Sound cfg i n) : Sound cfg i m := by
  rcases hm with rfl | ⟨t, -, rfl⟩
  · exact h
  · exact h.becomeFollower t

/-! ### The history -/

/-- **A step extends the history**, and whoever accepts an entry in it does so in its
current term. -/
theorem step_history {a : Action} (hs : s.step cfg a = some s') :
    ∃ evs, s'.history = evs ++ s.history ∧
      ∀ {q T m}, Event.accepted q T m ∈ evs → (s'.nodes q).currentTerm = T := by
  cases a with
  | startElection i =>
      obtain ⟨-, -, n, calls, -, rfl⟩ := startElection_some hs
      exact ⟨_, rfl, by simp⟩
  | heartbeat i =>
      obtain ⟨-, -, calls, -, rfl⟩ := heartbeat_some hs
      exact ⟨[], rfl, by simp⟩
  | propose i command =>
      obtain ⟨-, rfl | ⟨-, calls, -, rfl⟩⟩ := propose_some hs
      · exact ⟨[], rfl, by simp⟩
      · refine ⟨_, rfl, fun hev => ?_⟩
        simp only [List.mem_cons, reduceCtorEq, false_or, Event.accepted.injEq,
          List.not_mem_nil, or_false] at hev
        obtain ⟨rfl, rfl, -⟩ := hev
        simp [Node.appendCommand]
  | deliverVote r =>
      obtain ⟨rpc, n, reply, -, -, -, rfl⟩ := deliverVote_some hs
      refine ⟨_, rfl, fun hev => ?_⟩
      split at hev <;> simp at hev
  | voteReply r =>
      obtain ⟨rpc, reply, n, calls, -, -, -, -, rfl⟩ := voteReply_some hs
      refine ⟨_, rfl, fun hev => ?_⟩
      split at hev
      · simp only [List.mem_cons, reduceCtorEq, false_or, Event.accepted.injEq,
          List.not_mem_nil, or_false] at hev
        obtain ⟨rfl, rfl, -⟩ := hev
        simp
      · simp at hev
  | deliverAppend r =>
      obtain ⟨rpc, n, reply, -, -, hn, rfl⟩ := deliverAppend_some hs
      refine ⟨_, rfl, fun hev => ?_⟩
      split at hev
      · rename_i hsucc
        simp only [List.mem_singleton, Event.accepted.injEq] at hev
        obtain ⟨rfl, rfl, -⟩ := hev
        -- only the branch that merges the entries replies with success
        rcases Node.handleAppendEntries_cases hn with ⟨-, -, rfl⟩ |
          ⟨-, ⟨-, -, rfl⟩ | ⟨_, -, ⟨-, -, rfl⟩ | ⟨-, -, -, hterm⟩⟩⟩
        · cases hsucc
        · cases hsucc
        · cases hsucc
        · simp [hterm]
      · simp at hev
  | appendReply r =>
      obtain ⟨rpc, reply, n, calls, -, -, -, -, rfl⟩ := appendReply_some hs
      refine ⟨_, rfl, fun hev => ?_⟩
      split at hev <;> simp at hev
  | applyWake i =>
      rw [applyWake_some hs]
      exact ⟨[], rfl, by simp⟩
  | applyTake i =>
      rcases applyTake_some hs with rfl | ⟨-, e, pc, -, -, rfl⟩
      · exact ⟨[], rfl, by simp⟩
      · exact ⟨_, rfl, by simp⟩
  | applySend i =>
      obtain ⟨msg, -, rfl⟩ := applySend_some hs
      exact ⟨_, rfl, by simp⟩
  | takeSnapshot i upToIndex data =>
      obtain ⟨n, b, -, rfl⟩ := takeSnapshot_some hs
      exact ⟨[], rfl, by simp⟩
  | crash i =>
      rw [crash_some hs]
      exact ⟨[], rfl, by simp⟩
  | crashInVote r =>
      obtain ⟨rpc, -, -, rfl⟩ := crashInVote_some hs
      exact ⟨[], rfl, by simp⟩
  | crashInAppend r =>
      obtain ⟨rpc, -, -, rfl⟩ := crashInAppend_some hs
      exact ⟨[], rfl, by simp⟩

end Cluster

/-- Histories only grow. -/
theorem history_mono {cfg : Config} {s s' : Cluster} {a : Action}
    (hs : s.step cfg a = some s') : s.history ⊆ s'.history := by
  obtain ⟨evs, hH, -⟩ := Cluster.step_history hs
  rw [hH]
  exact List.subset_append_right evs s.history

end KVEngine.Raft
