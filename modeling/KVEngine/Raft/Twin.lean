import KVEngine.Foundation.Simulation
import KVEngine.Raft.Leaders

/-!
# A compacted node and its uncompacted twin

`TakeSnapshot` replaces the entries up to an index by one entry that keeps the
term, and everything else in the source goes on indexing the log as if it were
whole. The twin of a node is the node as it would be without its snapshots. A
function that uses no position of the log cannot tell the two apart; one that
does needs the whole log.
-/

namespace KVEngine.Raft

open Foundation (rel_bind rel_bind_same rel_guard rel_ite rel_mono)
open Foundation.ReplicatedLog (Role)

/-! ## §1  Twins -/

/-- All of a node that no snapshot touches. -/
def Node.core (n : Node) : Node :=
  { n with
    log := []
    snapshotIndex := 0
    snapshotTerm := 0
    stateFile := none
    snapshotFile := none }

/-- The node with other files. The term of the snapshot is read by nobody. -/
@[simps] def Node.withFiles (n : Node) (snapshotTerm : ℕ) (stateFile : Option PersistentState)
    (snapshotFile : Option Snapshot) : Node :=
  { n with snapshotTerm, stateFile, snapshotFile }

/-- `P` is `L` with the entries up to `k` replaced by one. -/
def Compacted (k : ℕ) (P L : List LogEntry) : Prop :=
  ∃ e, L[k]? = some e ∧ P = ⟨e.term, none⟩ :: L.drop (k + 1)

structure Twin (cfg : Config) (i : NodeId) (n m : Node) : Prop where
  core : n.core = m.core
  log : Compacted n.snapshotIndex n.log m.log
  sound : n.snapshotIndex = 0 → Sound cfg i n

/-- Twins with the same answer. -/
def SameAnswer (cfg : Config) (i : NodeId) {α : Type} (x y : Node × α) : Prop :=
  Twin cfg i x.1 y.1 ∧ x.2 = y.2

section Logs

variable {k : ℕ} {P L : List LogEntry}

theorem Compacted.length (h : Compacted k P L) : P.length + k = L.length := by
  obtain ⟨e, he, rfl⟩ := h
  have hlt := (List.getElem?_eq_some_iff.mp he).1
  simp only [List.length_cons, List.length_drop]
  omega

theorem Compacted.pos (h : Compacted k P L) : 0 < P.length := by
  obtain ⟨e, -, rfl⟩ := h
  exact Nat.succ_pos _

/-- Above the snapshot an index moves by `k`; the entry at `k` keeps its
term. -/
theorem Compacted.term (h : Compacted k P L) (j : ℕ) :
    P[j]?.map LogEntry.term = L[j + k]?.map LogEntry.term := by
  obtain ⟨e, he, rfl⟩ := h
  cases j with
  | zero => simp [he]
  | succ j =>
      rw [List.getElem?_cons_succ, List.getElem?_drop]
      congr 2
      omega

theorem compacted_zero (h : L[0]? = some sentinel) : Compacted 0 L L := by
  cases L with
  | nil => cases h
  | cons e L =>
      cases h
      exact ⟨sentinel, rfl, rfl⟩

theorem Compacted.eq (h : Compacted 0 P L) (hL : L[0]? = some sentinel) : P = L := by
  obtain ⟨e, he, rfl⟩ := h
  obtain ⟨e', he', heq⟩ := compacted_zero hL
  rw [he] at he'
  cases he'
  exact heq.symm

end Logs

namespace Twin

variable {cfg : Config} {i : NodeId} {n m n' m' : Node}

theorem peers (h : Twin cfg i n m) : n.peers = m.peers := congrArg (fun c => c.peers) h.core

theorem currentTerm (h : Twin cfg i n m) : n.currentTerm = m.currentTerm :=
  congrArg (fun c => c.currentTerm) h.core

theorem votedFor (h : Twin cfg i n m) : n.votedFor = m.votedFor :=
  congrArg (fun c => c.votedFor) h.core

theorem role (h : Twin cfg i n m) : n.role = m.role := congrArg (fun c => c.role) h.core

theorem commitIndex (h : Twin cfg i n m) : n.commitIndex = m.commitIndex :=
  congrArg (fun c => c.commitIndex) h.core

theorem lastApplied (h : Twin cfg i n m) : n.lastApplied = m.lastApplied :=
  congrArg (fun c => c.lastApplied) h.core

theorem elections (h : Twin cfg i n m) : n.elections = m.elections :=
  congrArg (fun c => c.elections) h.core

theorem applyPc (h : Twin cfg i n m) : n.applyPc = m.applyPc :=
  congrArg (fun c => c.applyPc) h.core

theorem commitNotify (h : Twin cfg i n m) : n.commitNotify = m.commitNotify :=
  congrArg (fun c => c.commitNotify) h.core

/-- Before any compaction twins have the same log. -/
theorem log_eq (h : Twin cfg i n m) (hm : Sound cfg i m) (h0 : n.snapshotIndex = 0) :
    n.log = m.log := by
  have hlog := h.log
  rw [h0] at hlog
  exact hlog.eq hm.head

/-- Before any compaction twins differ in their files only. -/
theorem eq_files (h : Twin cfg i n m) (hm : Sound cfg i m) (h0 : n.snapshotIndex = 0) :
    ∃ t x y, n = m.withFiles t x y := by
  refine ⟨n.snapshotTerm, n.stateFile, n.snapshotFile, ?_⟩
  calc n = { n.core with
             log := n.log, snapshotIndex := n.snapshotIndex, snapshotTerm := n.snapshotTerm,
             stateFile := n.stateFile, snapshotFile := n.snapshotFile } := rfl
    _ = { m.core with
          log := m.log, snapshotIndex := m.snapshotIndex, snapshotTerm := n.snapshotTerm,
          stateFile := n.stateFile, snapshotFile := n.snapshotFile } := by
        rw [h.core, h.log_eq hm h0, h0, hm.snapshotIndex]

theorem of_sound (hn : Sound cfg i n) (hm : Sound cfg i m) (hcore : n.core = m.core)
    (hlog : n.log = m.log) : Twin cfg i n m where
  core := hcore
  log := by
    rw [hn.snapshotIndex, hlog]
    exact compacted_zero hm.head
  sound := fun _ => hn

/-- The step left log and snapshot alone. -/
theorem keep (h : Twin cfg i n m) (hcore : n'.core = m'.core) (hlog : n'.log = n.log)
    (hlog' : m'.log = m.log) (hk : n'.snapshotIndex = n.snapshotIndex)
    (hsound : Sound cfg i n → Sound cfg i n') : Twin cfg i n' m' where
  core := hcore
  log := by
    rw [hlog, hlog', hk]
    exact h.log
  sound := fun h0 => hsound (h.sound (hk.symm.trans h0))

theorem becomeFollower (h : Twin cfg i n m) (t : ℕ) :
    Twin cfg i (n.becomeFollower true t) (m.becomeFollower true t) :=
  h.keep
    (congrArg (fun c => { c with role := .follower, currentTerm := t, votedFor := [] }) h.core)
    rfl rfl rfl fun hn => hn.becomeFollower t

theorem adoptTerm (h : Twin cfg i n m) (t : ℕ) :
    Twin cfg i (n.adoptTerm true t) (m.adoptTerm true t) := by
  unfold Node.adoptTerm
  rw [h.currentTerm]
  split
  · exact h.becomeFollower t
  · exact h

theorem vote (h : Twin cfg i n m) (c : NodeId) :
    Twin cfg i (Node.persist true { n with votedFor := c })
      (Node.persist true { m with votedFor := c }) :=
  h.keep (congrArg (fun d => { d with votedFor := c }) h.core) rfl rfl rfl fun hn => hn.vote c

theorem countVote (h : Twin cfg i n m) (e : ℕ) : Twin cfg i (n.countVote e) (m.countVote e) :=
  h.keep (congrArg (fun c => c.countVote e) h.core) rfl rfl rfl
    fun hn => hn.volatile rfl rfl rfl rfl rfl rfl

/-- A restart of a node without compaction. -/
theorem restart (h : Twin cfg i n m) (hm : Sound cfg i m) (h0 : n.snapshotIndex = 0) :
    Twin cfg i n.restart m.restart := by
  have hn := h.sound h0
  refine of_sound hn.restart hm.restart ?_ ?_
  · rw [hn.restart_eq, hm.restart_eq]
    obtain ⟨t, x, y, rfl⟩ := h.eq_files hm h0
    rfl
  · rw [hn.restart_eq, hm.restart_eq]
    exact h.log_eq hm h0

end Twin

/-! ## §2  Elections -/

section Elections

variable {cfg : Config} {i : NodeId} {n m : Node}

theorem startElection_twin (h : Twin cfg i n m) (hm : Sound cfg i m)
    (h0 : n.snapshotIndex = 0) (incr : ℕ → ℕ) :
    Option.Rel (SameAnswer cfg i) (n.startElection incr true) (m.startElection incr true) := by
  have hn := h.sound h0
  obtain ⟨t, x, y, rfl⟩ := h.eq_files hm h0
  unfold Node.startElection
  refine rel_bind_same (x := (m.campaign incr true).lastLogIndexAndTerm) fun p _ => .some ?_
  exact ⟨.of_sound (hn.campaign incr _) (hm.campaign incr _) rfl rfl, rfl⟩

/-- The position of the last entry decides the vote neither way: the terms
differ, or the candidate's index is below what is left of the log, or at least the
index of the whole one. -/
def ComparesAlike (n : Node) (args : RequestVoteArgs) : Prop :=
  n.log[n.log.length - 1]?.map LogEntry.term ≠ some args.lastLogTerm ∨
    args.lastLogIndex < n.log.length - 1 ∨
    n.log.length - 1 + n.snapshotIndex ≤ args.lastLogIndex

instance (n : Node) (args : RequestVoteArgs) : Decidable (ComparesAlike n args) :=
  inferInstanceAs (Decidable (_ ∨ _))

/-- Twins have the same last term; the last index differs by what was
compacted. -/
theorem lastLogIndexAndTerm_twin (h : Twin cfg i n m) : ∃ T,
    n.log[n.log.length - 1]?.map LogEntry.term = some T ∧
    n.lastLogIndexAndTerm = some (n.log.length - 1, T) ∧
    m.lastLogIndexAndTerm = some (n.log.length - 1 + n.snapshotIndex, T) := by
  have hpos := h.log.pos
  have hlen := h.log.length
  have hlast : m.log.length - 1 = n.log.length - 1 + n.snapshotIndex := by omega
  have hterm := h.log.term (n.log.length - 1)
  rw [← hlast] at hterm
  have hn : n.log[n.log.length - 1]? = some n.log[n.log.length - 1] :=
    List.getElem?_eq_getElem (by omega)
  rw [hn, Option.map_some] at hterm
  obtain ⟨e, he, heT⟩ := Option.map_eq_some_iff.mp hterm.symm
  refine ⟨_, by rw [hn, Option.map_some], ?_, ?_⟩
  · unfold Node.lastLogIndexAndTerm
    dsimp only
    rw [hn]
    rfl
  · unfold Node.lastLogIndexAndTerm
    dsimp only
    rw [he, ← hlast, ← heT]
    rfl

theorem grantsVote_twin {args : RequestVoteArgs} {T : ℕ} (h : Twin cfg i n m)
    (hcmp : ComparesAlike n args)
    (hT : n.log[n.log.length - 1]?.map LogEntry.term = some T) :
    n.GrantsVote args (n.log.length - 1) T ↔
      m.GrantsVote args (n.log.length - 1 + n.snapshotIndex) T := by
  unfold ComparesAlike at hcmp
  rw [hT, ne_eq, Option.some.injEq] at hcmp
  unfold Node.GrantsVote
  rw [h.votedFor]
  have hindex : (args.lastLogTerm = T ∧ args.lastLogIndex ≥ n.log.length - 1) ↔
      (args.lastLogTerm = T ∧
        args.lastLogIndex ≥ n.log.length - 1 + n.snapshotIndex) := by
    omega
  rw [hindex]

theorem handleRequestVote_twin {args : RequestVoteArgs} (h : Twin cfg i n m)
    (hcmp : ComparesAlike n args) :
    Option.Rel (SameAnswer cfg i) (n.handleRequestVote Cluster.persistOk args)
      (m.handleRequestVote Cluster.persistOk args) := by
  unfold Node.handleRequestVote
  rw [h.currentTerm]
  split
  · exact .some ⟨h, rfl⟩
  · have h' := h.adoptTerm args.term
    have hcmp' : ComparesAlike (n.adoptTerm true args.term) args :=
      Node.adoptTerm_rule (P := fun k => ComparesAlike k args) (fun _ => hcmp) hcmp
    obtain ⟨T, hT, hlast, hlast'⟩ := lastLogIndexAndTerm_twin h'
    dsimp only [Cluster.persistOk]
    rw [hlast, hlast']
    exact rel_ite (grantsVote_twin h' hcmp' hT)
      (fun _ => .some
        ⟨h'.vote _, congrArg (fun t => RequestVoteReply.mk t true) h'.currentTerm⟩)
      fun _ => .some ⟨h', congrArg (fun t => RequestVoteReply.mk t false) h'.currentTerm⟩

/-- A winner's log must be whole: its length and entries go to everybody. -/
theorem becomeLeader_twin (h : Twin cfg i n m) (hm : Sound cfg i m)
    (h0 : n.snapshotIndex = 0) :
    Option.Rel (fun x y => SameAnswer cfg i x y ∧ x.1.log = y.1.log) n.becomeLeader
      m.becomeLeader := by
  have hn := h.sound h0
  obtain ⟨t, x, y, rfl⟩ := h.eq_files hm h0
  unfold Node.becomeLeader
  refine rel_bind_same (x := m.lastLogIndexAndTerm) fun p _ => ?_
  refine rel_bind_same (x := (m.lead p.1).broadcastAppendEntries) fun calls _ => .some ?_
  exact ⟨⟨.of_sound (hn.volatile rfl rfl rfl rfl rfl rfl)
    (hm.volatile rfl rfl rfl rfl rfl rfl) rfl rfl, rfl⟩, rfl⟩

theorem countVote_getD_le (n : Node) (e : ℕ) :
    (n.countVote e).elections.getD e 0 ≤ n.elections.getD e 0 + 1 := by
  show (n.elections.set e (n.elections.getD e 0 + 1)).getD e 0 ≤ _
  rcases Nat.lt_or_ge e n.elections.length with hlt | hge
  · rw [List.getD_eq_getElem?_getD, List.getElem?_set_self hlt, Option.getD_some]
  · rw [List.set_eq_of_length_le hge]
    exact Nat.le_succ _

theorem handleVoteReply_twin {term election : ℕ} {reply : RequestVoteReply}
    (h : Twin cfg i n m) (hm : Sound cfg i m)
    (hwin : n.snapshotIndex = 0 ∨ n.role ≠ .candidate ∨ n.currentTerm ≠ term ∨
      n.elections.getD election 0 + 1 < n.needed) :
    Option.Rel (fun x y => SameAnswer cfg i x y ∧
        (n.role ≠ .leader → x.1.role = .leader → x.1.log = y.1.log))
      (n.handleVoteReply true term election reply)
      (m.handleVoteReply true term election reply) := by
  have hneeded : n.needed = m.needed := by
    unfold Node.needed
    rw [h.peers]
  have hsame : Option.Rel (fun x y => SameAnswer cfg i x y ∧
      (n.role ≠ .leader → x.1.role = .leader → x.1.log = y.1.log))
      (some (n, ([] : List AppendCall))) (some (m, [])) :=
    .some ⟨⟨h, rfl⟩, fun hne hl => absurd hl hne⟩
  unfold Node.handleVoteReply
  refine rel_ite (by rw [h.currentTerm])
    (fun _ => .some ⟨⟨h.becomeFollower _, rfl⟩, fun _ hl => by cases hl⟩) fun _ => ?_
  refine rel_ite (by rw [h.currentTerm, h.role]) (fun _ => hsame) fun hcand => ?_
  refine rel_ite Iff.rfl (fun _ => ?_) fun _ => hsame
  have hcount := h.countVote election
  refine rel_ite (by rw [hcount.elections]; exact hneeded ▸ Iff.rfl) (fun hge => ?_)
    fun _ => .some ⟨⟨hcount, rfl⟩, fun hne hl => absurd hl hne⟩
  have h0 : n.snapshotIndex = 0 := by
    rw [not_or, not_not, not_not] at hcand
    have hle := countVote_getD_le n election
    have hge' : n.needed ≤ (n.countVote election).elections.getD election 0 := hge
    rcases hwin with h0 | hrole | hterm | hlt
    · exact h0
    · exact absurd hcand.1 hrole
    · exact absurd hcand.2 hterm
    · omega
  exact rel_mono (becomeLeader_twin hcount (hm.volatile rfl rfl rfl rfl rfl rfl) h0)
    fun x y hxy => ⟨hxy.1, fun _ _ => hxy.2⟩

end Elections

/-! ## §3  Replication -/

section Replication

variable {cfg : Config} {i : NodeId} {n m : Node}

theorem broadcast_twin (h : Twin cfg i n m) (hm : Sound cfg i m) (h0 : n.snapshotIndex = 0) :
    n.broadcastAppendEntries = m.broadcastAppendEntries := by
  obtain ⟨t, x, y, rfl⟩ := h.eq_files hm h0
  rfl

theorem appendAndPersist_core (n : Node) (args : AppendEntriesArgs) :
    (n.appendAndPersist true args).core = n.core := by
  unfold Node.appendAndPersist
  dsimp only
  split <;> rfl

theorem followCommit_core (n : Node) (args : AppendEntriesArgs) :
    (n.followCommit args).core = n.core.followCommit args := by
  have hcommit : n.core.commitIndex = n.commitIndex := rfl
  unfold Node.followCommit
  rw [hcommit]
  split <;> rfl

theorem accept_twin {args : AppendEntriesArgs} (hn : Sound cfg i n) (hm : Sound cfg i m)
    (hcore : n.core = m.core) (hlog : n.log = m.log)
    (hprev : args.prevLogIndex < m.log.length) :
    Twin cfg i ((n.appendAndPersist true args).followCommit args)
      ((m.appendAndPersist true args).followCommit args) := by
  refine .of_sound ((hn.appendAndPersist (hlog ▸ hprev)).followCommit args)
    ((hm.appendAndPersist hprev).followCommit args) ?_ ?_
  · rw [followCommit_core, followCommit_core, appendAndPersist_core, appendAndPersist_core,
      hcore]
  · have hrest : ∀ k : Node, (k.followCommit args).log = k.log :=
      fun k => (Node.followCommit_rest k args).2.2.2.2.2.1
    rw [hrest, hrest, Node.appendAndPersist_log, Node.appendAndPersist_log, hlog]

theorem handleAppendEntries_twin {args : AppendEntriesArgs} (h : Twin cfg i n m)
    (hm : Sound cfg i m) (hstale : n.snapshotIndex = 0 ∨ args.term < n.currentTerm) :
    Option.Rel (SameAnswer cfg i) (n.handleAppendEntries Cluster.persistOk args)
      (m.handleAppendEntries Cluster.persistOk args) := by
  unfold Node.handleAppendEntries
  rw [h.currentTerm]
  refine rel_ite Iff.rfl (fun _ => .some ⟨h, rfl⟩) fun hcur => ?_
  have h0 : n.snapshotIndex = 0 := hstale.resolve_right (by rw [h.currentTerm]; exact hcur)
  have hn := (h.sound h0).follow args
  have hm' := hm.follow args
  obtain ⟨t, x, y, rfl⟩ := h.eq_files hm h0
  refine rel_ite Iff.rfl (fun _ => .some ⟨.of_sound hn hm' rfl rfl, rfl⟩) fun hlen => ?_
  refine rel_bind_same (x := m.log[args.prevLogIndex]?) fun prev _ => ?_
  refine rel_ite Iff.rfl (fun _ => .some ⟨.of_sound hn hm' rfl rfl, rfl⟩) fun _ => ?_
  have hacc := accept_twin hn hm' rfl rfl (not_le.mp hlen)
  exact .some ⟨hacc, congrArg (fun t => AppendEntriesReply.mk t true 0 0) hacc.currentTerm⟩

theorem advanceCommitFrom_withFiles (m : Node) (t : ℕ) (x : Option PersistentState)
    (y : Option Snapshot) : ∀ idx,
    (m.withFiles t x y).advanceCommitFrom idx = (m.advanceCommitFrom idx).withFiles t x y
  | 0 => rfl
  | idx + 1 => by
      have hcount : (m.withFiles t x y).matchCount (idx + 1) = m.matchCount (idx + 1) := rfl
      have ih := advanceCommitFrom_withFiles m t x y idx
      simp only [Node.advanceCommitFrom, Node.withFiles_commitIndex, Node.withFiles_log,
        Node.withFiles_currentTerm, Node.withFiles_peers, hcount, ih]
      split_ifs <;> rfl

theorem handleAppendReply_twin {peer : NodeId} {args : AppendEntriesArgs}
    {reply : AppendEntriesReply} (h : Twin cfg i n m) (hm : Sound cfg i m)
    (hdrop : n.snapshotIndex = 0 ∨ n.currentTerm < reply.term ∨ n.role ≠ .leader ∨
      n.currentTerm ≠ args.term) :
    Option.Rel (fun x y => SameAnswer cfg i x y ∧
        (n.commitIndex < x.1.commitIndex → x.1.log = y.1.log))
      (n.handleAppendReply true peer args reply)
      (m.handleAppendReply true peer args reply) := by
  unfold Node.handleAppendReply
  refine rel_ite (by rw [h.currentTerm])
    (fun _ => .some ⟨⟨h.becomeFollower _, rfl⟩, fun hlt => absurd hlt (lt_irrefl _)⟩)
    fun hterm => ?_
  refine rel_ite (by rw [h.currentTerm, h.role])
    (fun _ => .some ⟨⟨h, rfl⟩, fun hlt => absurd hlt (lt_irrefl _)⟩) fun hlead => ?_
  have h0 : n.snapshotIndex = 0 := by
    rw [not_or, not_not, not_not] at hlead
    rcases hdrop with h0 | hlt | hrole | hne
    · exact h0
    · exact absurd hlt hterm
    · exact absurd hlead.1 hrole
    · exact absurd hlead.2 hne
  have hn := h.sound h0
  obtain ⟨t, x, y, rfl⟩ := h.eq_files hm h0
  refine rel_ite Iff.rfl (fun _ => ?_) fun _ => ?_
  · have hadv : ((m.withFiles t x y).recordMatch peer args).maybeAdvanceCommitIndex =
        ((m.recordMatch peer args).maybeAdvanceCommitIndex).withFiles t x y :=
      advanceCommitFrom_withFiles (m.recordMatch peer args) t x y (m.log.length - 1)
    have hn' : Sound cfg i ((m.withFiles t x y).recordMatch peer args) :=
      hn.volatile rfl rfl rfl rfl rfl rfl
    have hm' : Sound cfg i (m.recordMatch peer args) := hm.volatile rfl rfl rfl rfl rfl rfl
    have htwin := Twin.of_sound hn'.maybeAdvance hm'.maybeAdvance
      (by rw [hadv]; rfl) (by rw [hadv]; rfl)
    exact .some ⟨⟨htwin, rfl⟩, fun _ => by rw [hadv]; rfl⟩
  · refine rel_bind_same (x := (m.backUp peer reply).sendAppendEntries peer)
      fun call _ => .some ⟨⟨?_, rfl⟩, fun _ => rfl⟩
    exact .of_sound (hn.volatile rfl rfl rfl rfl rfl rfl)
      (hm.volatile rfl rfl rfl rfl rfl rfl) rfl rfl

end Replication

/-! ## §4  Clients and the apply loop -/

section Clients

variable {cfg : Config} {i : NodeId} {n m : Node}

theorem propose_twin {command : Option Bytes} (h : Twin cfg i n m) (hm : Sound cfg i m)
    (hl : n.snapshotIndex = 0 ∨ n.role ≠ .leader) :
    Option.Rel (fun x y => SameAnswer cfg i x y ∧ (x.2.2.2.2 = true → x.1.log = y.1.log))
      (n.propose true command) (m.propose true command) := by
  unfold Node.propose
  refine rel_ite (by rw [h.role])
    (fun _ => .some ⟨⟨h, by rw [h.currentTerm]⟩, fun hok => by cases hok⟩) fun hlead => ?_
  have h0 : n.snapshotIndex = 0 := hl.resolve_right hlead
  have hn := h.sound h0
  obtain ⟨t, x, y, rfl⟩ := h.eq_files hm h0
  refine rel_bind_same (x := (m.appendCommand true command).broadcastAppendEntries)
    fun calls _ => .some ⟨⟨?_, rfl⟩, fun _ => rfl⟩
  exact .of_sound (hn.appendCommand command) (hm.appendCommand command) rfl rfl

theorem applyWake_twin (h : Twin cfg i n m) :
    Option.Rel (Twin cfg i) n.applyWake m.applyWake := by
  unfold Node.applyWake
  refine rel_ite (by rw [h.applyPc, h.commitNotify]) (fun _ => .some ?_) fun _ => .none
  exact h.keep
    (congrArg (fun c => { c with applyPc := .looping, commitNotify := false }) h.core)
    rfl rfl rfl fun hn => hn.volatile rfl rfl rfl rfl rfl rfl

theorem applyTake_twin (h : Twin cfg i n m) (hm : Sound cfg i m)
    (hpos : n.snapshotIndex = 0 ∨ n.commitIndex ≤ n.lastApplied) :
    Option.Rel (fun x y => Twin cfg i x y ∧ (n.lastApplied < x.lastApplied → x.log = y.log))
      n.applyTake m.applyTake := by
  unfold Node.applyTake
  refine rel_guard (by rw [h.applyPc]) fun _ => ?_
  refine rel_ite (by rw [h.lastApplied, h.commitIndex]) (fun hlt => ?_) fun _ => ?_
  · have h0 : n.snapshotIndex = 0 := hpos.resolve_right (not_le.mpr hlt)
    have hn := h.sound h0
    obtain ⟨t, x, y, rfl⟩ := h.eq_files hm h0
    refine rel_bind_same (x := m.log[m.lastApplied + 1]?) fun entry _ =>
      .some ⟨?_, fun _ => rfl⟩
    exact .of_sound (hn.volatile rfl rfl rfl rfl rfl rfl)
      (hm.volatile rfl rfl rfl rfl rfl rfl) rfl rfl
  · refine .some ⟨?_, fun hlt => absurd hlt (lt_irrefl _)⟩
    exact h.keep (congrArg (fun c => { c with applyPc := .parked }) h.core) rfl rfl rfl
      fun hn => hn.volatile rfl rfl rfl rfl rfl rfl

theorem applySend_twin (h : Twin cfg i n m) :
    Option.Rel (SameAnswer cfg i) n.applySend m.applySend := by
  unfold Node.applySend
  rw [h.applyPc]
  split
  · refine .some ⟨?_, rfl⟩
    exact h.keep (congrArg (fun c => { c with applyPc := .looping }) h.core) rfl rfl rfl
      fun hn => hn.volatile rfl rfl rfl rfl rfl rfl
  · exact .none

/-- **Compaction.** `TakeSnapshot` on a node that has not compacted yet, or one
that is refused, leaves the twin a twin. -/
theorem takeSnapshot_twin {k : ℕ} {data : Bytes} {n' : Node} {b : Bool} (h : Twin cfg i n m)
    (hm : Sound cfg i m)
    (hk : n.snapshotIndex = 0 ∨ k < n.snapshotIndex ∨ n.commitIndex < k ∨ n.log.length ≤ k)
    (hn : n.takeSnapshot true true k data = some (n', b)) : Twin cfg i n' m := by
  rcases Node.takeSnapshot_cases hn with ⟨rfl, -⟩ | ⟨last, hlast, hcommit, hold, rfl⟩
  · exact h
  · have hlen := (List.getElem?_eq_some_iff.mp hlast).1
    have h0 : n.snapshotIndex = 0 := by omega
    have hlog := h.log_eq hm h0
    refine ⟨h.core, ⟨last, hlog ▸ hlast, ?_⟩, fun hk0 => ?_⟩
    · rw [← hlog]
      rfl
    · obtain rfl : k = 0 := hk0
      exact (h.sound h0).takeSnapshot hn

end Clients

end KVEngine.Raft
