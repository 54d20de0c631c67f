import KVEngine.Raft.Election

/-!
# What a leader knows

Bounds on the indices of nodes and requests in runs with one leader a term. A
leader's `nextIndex` stays within its log, so that what it sends exists, and an
entry of its own term that a majority has acknowledged is committed: every
change of `matchIndex` runs the commit rule.
-/

namespace KVEngine.Raft

open Foundation (Run)
open Foundation.ReplicatedLog

/-! ## §1  Bounds from the protocol -/

section Bounds

variable {cfg : Config} {as : List Action} {s : Cluster} {A : State NodeId LogEntry}
  {i : NodeId}

/-- A run with one vote a term keeps the books and follows the protocol. -/
theorem protocol_run
    (h : Run (Cluster.step cfg) (VotesOnce cfg) (Cluster.initial cfg) as s) :
    Wired cfg s ∧ ∃ A, Inv (params cfg) A ∧ Abstracts s A := by
  obtain ⟨hw, hv⟩ := voting_run h
  exact ⟨hw, refine_run (VotesOnce.plain_run h) (uniqueLeaders_of_voting hw hv)⟩

theorem commitIndex_lt (hw : Wired cfg s) (hi : Inv (params cfg) A) (habs : Abstracts s A)
    (i : NodeId) : (s.nodes i).commitIndex < (s.nodes i).log.length := by
  rcases hi.commit i with h0 | ⟨hlt, -⟩
  · rw [habs.commit] at h0
    rw [h0]
    exact (hw.sound i).length_pos
  · rwa [habs.commit, habs.log] at hlt

/-- A leader's log is the log of its term. -/
theorem leaderLog_eq (hi : Inv (params cfg) A) (habs : Abstracts s A)
    (hl : (s.nodes i).role = .leader) :
    A.leaderLog (s.nodes i).currentTerm = (s.nodes i).log := by
  have hlead := (hi.leader i ((habs.role i).trans hl)).2
  rw [habs.log, habs.term] at hlead
  exact hlead.symm

theorem accepted_lt (hi : Inv (params cfg) A) (habs : Abstracts s A)
    (hl : (s.nodes i).role = .leader) {q : NodeId} {m : ℕ}
    (hacc : Event.accepted q (s.nodes i).currentTerm m ∈ s.history) :
    m < (s.nodes i).log.length := by
  rw [← leaderLog_eq hi habs hl]
  exact (hi.accepted _ _ _ (habs.ledger _ hacc)).2.1

/-- A node that accepted a prefix in a term it has not left has that part of the log of
the term's leader. -/
theorem log_of_accepted (hi : Inv (params cfg) A) (habs : Abstracts s A) {q : NodeId} {T m : ℕ}
    (hacc : Event.accepted q T m ∈ s.history) (hq : (s.nodes q).currentTerm ≤ T) :
    m < (A.leaderLog T).length ∧ ∀ k ≤ m, (s.nodes q).log[k]? = (A.leaderLog T)[k]? := by
  obtain ⟨-, hlen, hkept⟩ := hi.accepted q T m (habs.ledger _ hacc)
  refine ⟨hlen, fun k hk => ?_⟩
  rcases hkept k hk with hpre | ⟨V, L, hTV, hV, -⟩
  · obtain ⟨e, he⟩ : ∃ e, (A.leaderLog T)[k]? = some e :=
      ⟨_, List.getElem?_eq_getElem (lt_of_le_of_lt hk hlen)⟩
    rw [← habs.log, he]
    apply Foundation.prefix_getElem? hpre
    rw [List.getElem?_take_of_lt (Nat.lt_succ_self k)]
    exact he
  · -- no leader of a later term can have taken the prefix away
    rw [habs.term] at hV
    omega

theorem matchIndex_lt (hw : Wired cfg s) (hi : Inv (params cfg) A) (habs : Abstracts s A)
    (hl : (s.nodes i).role = .leader) (p : NodeId) :
    (s.nodes i).matchIndex p < (s.nodes i).log.length := by
  rcases Nat.eq_zero_or_pos ((s.nodes i).matchIndex p) with h0 | hpos
  · rw [h0]
    exact (hw.sound i).length_pos
  · obtain ⟨m, hm, hacc⟩ := (hw.replicas.leader i hl).peer p hpos
    exact lt_of_le_of_lt hm (accepted_lt hi habs hl hacc)

/-- A leader still holds the entry before those it sent in its term. -/
theorem prevLogIndex_lt (hi : Inv (params cfg) A) (habs : Abstracts s A)
    (hl : (s.nodes i).role = .leader) {rpc : AppendRpc} (hr : rpc ∈ s.appendRpcs)
    (ht : (s.nodes i).currentTerm = rpc.args.term) :
    rpc.args.prevLogIndex < (s.nodes i).log.length := by
  have hprev := (hi.sent _ (habs.sent rpc hr)).prev
  obtain ⟨e, he, -⟩ := Option.map_eq_some_iff.mp hprev
  have hlog : A.leaderLog rpc.args.term = (s.nodes i).log := ht ▸ leaderLog_eq hi habs hl
  rw [← hlog]
  exact (List.getElem?_eq_some_iff.mp he).1

end Bounds

/-! ## §2  Leading nodes -/

/-- What holds of a leader. -/
structure Leading (n : Node) : Prop where
  peers : n.peers ≠ []
  next : ∀ p ∈ n.peers, n.nextIndex p ≤ n.log.length
  settled : ∀ k, n.log[k]?.map LogEntry.term = some n.currentTerm →
    n.peers.length + 1 < n.matchCount k * 2 → k ≤ n.commitIndex

namespace Node

theorem lastIndexOfTerm_le (log : List LogEntry) (t : ℕ) :
    ∀ i, lastIndexOfTerm log t i ≤ i
  | 0 => le_refl 0
  | i + 1 => by
      rw [lastIndexOfTerm]
      split
      · exact le_refl _
      · exact (lastIndexOfTerm_le log t i).trans (Nat.le_succ i)

theorem firstIndexOfTerm_le (log : List LogEntry) (t : ℕ) :
    ∀ i, firstIndexOfTerm log t i ≤ i
  | 0 => le_refl 0
  | 1 => le_refl 1
  | i + 2 => by
      rw [firstIndexOfTerm]
      split
      · exact (firstIndexOfTerm_le log t (i + 1)).trans (Nat.le_succ _)
      · exact le_refl _

/-- The hint of a rejection does not point beyond the entry that was tested. -/
theorem handleAppendEntries_conflict {ok : ℕ → Bool} {n n' : Node} {args : AppendEntriesArgs}
    {reply : AppendEntriesReply} (h : n.handleAppendEntries ok args = some (n', reply))
    (hrej : reply.success = false) : reply.conflictIndex ≤ args.prevLogIndex := by
  rcases handleAppendEntries_cases h with ⟨-, -, rfl⟩ |
    ⟨-, ⟨hlen, -, rfl⟩ | ⟨_, -, ⟨-, -, rfl⟩ | ⟨-, -, hsucc, -⟩⟩⟩
  · exact Nat.zero_le _
  · exact hlen
  · exact firstIndexOfTerm_le _ _ _
  · rw [hrej] at hsucc
    cases hsucc

end Node

namespace Leading

variable {n n' : Node}

/-- Nothing a leader goes by has changed. -/
theorem same (h : Leading n) (hpeers : n'.peers = n.peers)
    (hnext : n'.nextIndex = n.nextIndex) (hmatch : n'.matchIndex = n.matchIndex)
    (hlog : n'.log = n.log) (hterm : n'.currentTerm = n.currentTerm)
    (hcommit : n'.commitIndex = n.commitIndex) : Leading n' := by
  obtain ⟨h1, h2, h3⟩ := h
  unfold Node.matchCount at h3
  refine ⟨?_, ?_, ?_⟩
  · rwa [hpeers]
  · rwa [hpeers, hnext, hlog]
  · unfold Node.matchCount
    rwa [hpeers, hmatch, hlog, hterm, hcommit]

/-- A count of one, the leader itself, is no majority. -/
theorem not_majority_of_lt (hpeers : n.peers ≠ []) {k : ℕ}
    (hlt : ∀ p ∈ n.peers, n.matchIndex p < k) :
    ¬ n.peers.length + 1 < n.matchCount k * 2 := by
  have hnone : (n.peers.filter fun p => n.matchIndex p ≥ k) = [] := by
    rw [List.filter_eq_nil_iff]
    intro p hp
    simpa using hlt p hp
  have hpos := List.length_pos_iff.mpr hpeers
  rw [Node.matchCount, hnone, List.length_nil]
  omega

/-- A fresh leader. -/
theorem lead (hpeers : n.peers ≠ []) (hlog : 0 < n.log.length) :
    Leading (n.lead (n.log.length - 1)) where
  peers := hpeers
  next := by
    intro p hp
    show (if p ∈ n.peers then n.log.length - 1 + 1 else 0) ≤ n.log.length
    split <;> omega
  settled := by
    intro k _ hcount
    rcases Nat.eq_zero_or_pos k with rfl | hpos
    · exact Nat.zero_le _
    · exact absurd hcount
        (not_majority_of_lt (n := n.lead (n.log.length - 1)) hpeers fun _ _ => hpos)

/-- The new entry is acknowledged by nobody yet. -/
theorem appendCommand (h : Leading n) (hid : n.id ∉ n.peers)
    (hmatch : ∀ p, n.matchIndex p < n.log.length) (command : Option Bytes) :
    Leading (n.appendCommand true command) := by
  set n' := n.appendCommand true command with hn'
  have hlog : n'.log = n.log ++ [{ term := n.currentTerm, command }] := rfl
  -- the leader's own entry of `matchIndex` is not counted
  have hpeer : ∀ p ∈ n.peers, n'.matchIndex p = n.matchIndex p := by
    intro p hp
    have hne : p ≠ n.id := fun heq => hid (heq ▸ hp)
    exact Function.update_of_ne hne _ _
  refine ⟨h.peers, fun p hp => ?_, fun k hk hcount => ?_⟩
  · rw [hlog, List.length_append]
    exact (h.next p hp).trans (Nat.le_add_right _ _)
  · have hcountEq : n'.matchCount k = n.matchCount k := by
      unfold Node.matchCount
      congr 2
      exact List.filter_congr fun p hp => by rw [hpeer p hp]
    rw [hcountEq] at hcount
    rw [hlog] at hk
    rcases Nat.lt_or_ge k n.log.length with hlt | hge
    · rw [List.getElem?_append_left hlt] at hk
      exact h.settled k hk hcount
    · exact absurd hcount
        (not_majority_of_lt h.peers fun p _ => lt_of_lt_of_le (hmatch p) hge)

/-- An acknowledgement, followed by the commit rule. -/
theorem recordMatch (h : Leading n) (hmatch : ∀ p, n.matchIndex p < n.log.length)
    {peer : NodeId} {args : AppendEntriesArgs}
    (hnew : args.prevLogIndex + args.entries.length < n.log.length) :
    Leading (n.recordMatch peer args).maybeAdvanceCommitIndex := by
  set m := n.recordMatch peer args with hm
  obtain ⟨c, b, heq⟩ := Node.maybeAdvance_eq m
  refine ⟨?_, ?_, ?_⟩
  · rw [heq]
    exact h.peers
  · rw [heq]
    intro p hp
    show Function.update n.nextIndex peer _ p ≤ n.log.length
    by_cases hpeer : p = peer
    · subst hpeer
      rw [Function.update_self]
      have := hmatch p
      split <;> omega
    · rw [Function.update_of_ne hpeer]
      exact h.next p hp
  · intro k hk hcount
    have hk' : m.log[k]?.map LogEntry.term = some m.currentTerm := by
      rw [heq] at hk
      exact hk
    have hcount' : m.peers.length + 1 < m.matchCount k * 2 := by
      rw [heq] at hcount
      exact hcount
    obtain ⟨e, he, -⟩ := Option.map_eq_some_iff.mp hk'
    have hlt := (List.getElem?_eq_some_iff.mp he).1
    exact Node.advanceCommitFrom_ge hk' hcount' (Nat.le_sub_one_of_lt hlt)

/-- A rejection moves `nextIndex` back, at most to where the log ends. -/
theorem backUp (h : Leading n) {peer : NodeId} {reply : AppendEntriesReply}
    (hlog : 0 < n.log.length) (hpeer : peer ∈ n.peers)
    (hconf : reply.conflictIndex < n.log.length) :
    Leading (n.backUp peer reply) := by
  refine ⟨h.peers, fun p hp => ?_, h.settled⟩
  show Function.update n.nextIndex peer _ p ≤ n.log.length
  by_cases heq : p = peer
  · subst heq
    rw [Function.update_self]
    have hfound := Node.lastIndexOfTerm_le n.log reply.conflictTerm (n.log.length - 1)
    have hnext := h.next p hpeer
    unfold Node.nextIndexAfterConflict
    split
    · dsimp only
      split <;> omega
    · split
      · omega
      · split <;> omega
  · rw [Function.update_of_ne heq]
    exact h.next p hp

end Leading

/-! ## §3  Every step keeps its leaders in order -/

structure Orderly (s : Cluster) : Prop where
  leading : ∀ i, (s.nodes i).role = .leader → Leading (s.nodes i)
  conflict : ∀ rpc ∈ s.appendRpcs, ∀ reply, rpc.phase = .replied reply →
    reply.success = false → reply.conflictIndex ≤ rpc.args.prevLogIndex
  dst : ∀ rpc ∈ s.appendRpcs, rpc.dst ∈ (s.nodes rpc.src).peers

/-- What a step does to the append requests: they stay or end, get a reply with a
hint in range, or are new and go to a peer. -/
def HintsMove (s s' : Cluster) : Prop :=
  ∀ rpc' ∈ s'.appendRpcs,
    (∃ rpc ∈ s.appendRpcs, ∃ ph, rpc' = { rpc with phase := ph } ∧
      rpc.phase.Moves (fun reply => reply.success = false →
        reply.conflictIndex ≤ rpc.args.prevLogIndex) ph) ∨
    rpc'.phase = .requested ∧ rpc'.dst ∈ (s'.nodes rpc'.src).peers

section Steps

variable {cfg : Config} {s s' : Cluster} {A : State NodeId LogEntry} {a : Action} {i : NodeId}

theorem hintsMove_step (h : Orderly s) (hs : s.step cfg a = some s')
    (hpeers : ∀ j, (s'.nodes j).peers = (s.nodes j).peers) : HintsMove s s' := by
  intro rpc' hr
  rcases Cluster.step_appends hs rpc' hr with ⟨rpc, hm, ph, rfl, hph⟩ | hnew
  · refine Or.inl ⟨rpc, hm, ph, rfl, hph.imp ?_⟩
    rintro reply ⟨m, hanswer⟩ hrej
    exact Node.handleAppendEntries_conflict hanswer hrej
  · refine Or.inr ⟨hnew.requested, ?_⟩
    rcases hnew.dst with hdst | ⟨rpc, hm, hsrc, hdst⟩
    · exact hdst
    · rw [hpeers, ← hsrc, ← hdst]
      exact h.dst rpc hm

/-- **Frame.** One node changes, and if it leads then in order. -/
theorem Orderly.frame {n : Node} (h : Orderly s) (hw : Wired cfg s)
    (hs : s.step cfg a = some s') (hC : Plain cfg s a)
    (hnodes : s'.nodes = Function.update s.nodes i n) (hn : n.role = .leader → Leading n) :
    Orderly s' := by
  have hw' := wired_step hw hC hs
  have hpeers : ∀ j, (s'.nodes j).peers = (s.nodes j).peers := fun j =>
    (hw'.sound j).peers.trans (hw.sound j).peers.symm
  have hA := hintsMove_step h hs hpeers
  have hlead : ∀ j, (s'.nodes j).role = .leader → Leading (s'.nodes j) :=
    Cluster.forall_nodes hnodes (P := fun _ m => m.role = .leader → Leading m) hn
      fun j _ => h.leading j
  refine ⟨hlead, fun rpc' hr reply hp hrej => ?_, fun rpc' hr => ?_⟩
  · rcases hA rpc' hr with ⟨rpc, hm, ph, rfl, hph⟩ | ⟨hreq, -⟩
    · rcases hph.reply hp with hold | hnew
      · exact h.conflict rpc hm reply hold hrej
      · exact hnew hrej
    · cases hreq.symm.trans hp
  · rcases hA rpc' hr with ⟨rpc, hm, ph, rfl, -⟩ | ⟨-, hdst⟩
    · rw [hpeers]
      exact h.dst rpc hm
    · exact hdst

theorem handleRequestVote_leading {n n' : Node} {args : RequestVoteArgs}
    {reply : RequestVoteReply} (h : n.role = .leader → Leading n)
    (hn : n.handleRequestVote Cluster.persistOk args = some (n', reply)) :
    n'.role = .leader → Leading n' := by
  -- a leader that adopts a term is none any more
  have hadopt : (n.adoptTerm true args.term).role = .leader →
      Leading (n.adoptTerm true args.term) :=
    Node.adoptTerm_rule (P := fun m => m.role = .leader → Leading m)
      (fun _ hl => by cases hl) h
  rcases Node.handleRequestVote_cases hn with ⟨-, rfl, -⟩ | ⟨-, _, _, -, ⟨-, rfl, -⟩ | ⟨-, rfl, -⟩⟩
  · exact h
  · exact fun hl => (hadopt hl).same rfl rfl rfl rfl rfl rfl
  · exact hadopt

theorem handleAppendEntries_leading {n n' : Node} {args : AppendEntriesArgs}
    {reply : AppendEntriesReply} (h : n.role = .leader → Leading n)
    (hn : n.handleAppendEntries Cluster.persistOk args = some (n', reply)) :
    n'.role = .leader → Leading n' := by
  intro hl
  rcases Node.handleAppendEntries_cases hn with ⟨-, rfl, -⟩ |
    ⟨-, ⟨-, rfl, -⟩ | ⟨_, -, ⟨-, rfl, -⟩ | ⟨-, rfl, -⟩⟩⟩
  · exact h hl
  · cases hl
  · cases hl
  · cases (accept_follower n args).1.symm.trans hl

theorem handleVoteReply_leading {n : Node} {rpc : VoteRpc} {reply : RequestVoteReply}
    {calls : List AppendCall} (hw : Wired cfg s) (h : Orderly s) (hr : rpc ∈ s.voteRpcs)
    (hn : (s.nodes rpc.src).handleVoteReply true rpc.args.term rpc.election reply =
      some (n, calls)) : n.role = .leader → Leading n := by
  intro hl
  have hsound := hw.sound rpc.src
  obtain ⟨-, hdst, -⟩ := hw.ballots.call rpc hr
  have hne : (s.nodes rpc.src).peers ≠ [] := by
    rw [hsound.peers]
    exact List.ne_nil_of_mem hdst
  rcases Node.handleVoteReply_cases hn with ⟨-, rfl, -⟩ | ⟨rfl, -⟩ |
    ⟨hc, -, -, ⟨-, rfl, -⟩ | ⟨-, rfl, -⟩⟩
  · cases hl
  · exact h.leading _ hl
  · cases hc.symm.trans hl
  · exact Leading.lead (n := (s.nodes rpc.src).countVote rpc.election) hne hsound.length_pos

theorem handleAppendReply_leading {n : Node} {rpc : AppendRpc} {reply : AppendEntriesReply}
    {calls : List AppendCall} (hw : Wired cfg s) (hi : Inv (params cfg) A) (habs : Abstracts s A)
    (h : Orderly s) (hr : rpc ∈ s.appendRpcs) (hp : rpc.phase = .replied reply)
    (hn : (s.nodes rpc.src).handleAppendReply true rpc.dst rpc.args reply = some (n, calls)) :
    n.role = .leader → Leading n := by
  intro hl
  rcases Node.handleAppendReply_cases hn with ⟨-, rfl, -⟩ | ⟨rfl, -⟩ |
    ⟨hl', ht, -, ⟨hsucc, -, rfl⟩ | ⟨hrej, rfl, -⟩⟩
  · cases hl
  · exact h.leading _ hl
  · refine (h.leading _ hl').recordMatch (matchIndex_lt hw hi habs hl') ?_
    refine accepted_lt (q := rpc.dst) hi habs hl' ?_
    rw [ht]
    exact hw.replicas.success rpc hr reply hp hsucc
  · exact (h.leading _ hl').backUp (hw.sound rpc.src).length_pos (h.dst rpc hr)
      (lt_of_le_of_lt (h.conflict rpc hr reply hp hrej) (prevLogIndex_lt hi habs hl' hr ht))

theorem orderly_step (hw : Wired cfg s) (hi : Inv (params cfg) A) (habs : Abstracts s A)
    (h : Orderly s) (hC : Plain cfg s a) (hs : s.step cfg a = some s') : Orderly s' := by
  -- a change of the apply loop or the files
  have hsame : ∀ (j : NodeId) {n : Node}, n.peers = (s.nodes j).peers →
      n.nextIndex = (s.nodes j).nextIndex → n.matchIndex = (s.nodes j).matchIndex →
      n.log = (s.nodes j).log → n.currentTerm = (s.nodes j).currentTerm →
      n.commitIndex = (s.nodes j).commitIndex → n.role = (s.nodes j).role →
      n.role = .leader → Leading n :=
    fun j _ h1 h2 h3 h4 h5 h6 h7 hl => (h.leading j (h7.symm.trans hl)).same h1 h2 h3 h4 h5 h6
  cases Cluster.step_nodes hs with
  | restart hnodes _ hm =>
      -- a restart leads nothing
      refine h.frame hw hs hC hnodes fun hl => ?_
      rw [(hm.sound (hw.sound _)).restart_eq] at hl
      cases hl
  | change hnodes _ hchange =>
      refine h.frame hw hs hC hnodes ?_
      cases hchange with
      | same => exact h.leading _
      | campaign hn =>
          obtain ⟨e, -, rfl, -⟩ := Node.startElection_some hn
          exact fun hl => by cases hl
      | command hmem hrole =>
          exact fun _ => (h.leading _ hrole).appendCommand ((hw.sound _).id_notMem_peers hmem)
            (matchIndex_lt hw hi habs hrole) _
      | requestVote _ hn => exact handleRequestVote_leading (h.leading _) hn
      | voteReply hr hn => exact handleVoteReply_leading hw h (List.mem_of_getElem? hr) hn
      | appendEntries _ hn => exact handleAppendEntries_leading (h.leading _) hn
      | appendReply hr hp hn =>
          exact handleAppendReply_leading hw hi habs h (List.mem_of_getElem? hr) hp hn
      | wake => exact hsame _ rfl rfl rfl rfl rfl rfl rfl
      | park => exact hsame _ rfl rfl rfl rfl rfl rfl rfl
      | take _ => exact hsame _ rfl rfl rfl rfl rfl rfl rfl
      | send => exact hsame _ rfl rfl rfl rfl rfl rfl rfl
      | snapshot hn =>
          have h0 : _ = 0 := hC
          subst h0
          obtain rfl := (hw.sound _).takeSnapshot_zero hn
          exact hsame _ rfl rfl rfl rfl rfl rfl rfl

/-- **In every run** with one leader a term, leaders are in order. -/
theorem orderly_of_unique {as : List Action}
    (h : Run (Cluster.step cfg) (Plain cfg) (Cluster.initial cfg) as s)
    (huniq : UniqueLeaders s.history) : Orderly s := by
  induction h with
  | nil =>
      refine ⟨fun i hl => ?_, ?_, ?_⟩
      · cases hl
      · simp [Cluster.initial]
      · simp [Cluster.initial]
  | snoc hrun hC hs ih =>
      have huniq' := huniq.anti (history_mono hs)
      obtain ⟨A, hi, habs⟩ := refine_run hrun huniq'
      exact orderly_step (wired_run hrun) hi habs (ih huniq') hC hs

theorem orderly_run {as : List Action}
    (h : Run (Cluster.step cfg) (VotesOnce cfg) (Cluster.initial cfg) as s) : Orderly s := by
  obtain ⟨hw, hv⟩ := voting_run h
  exact orderly_of_unique (VotesOnce.plain_run h) (uniqueLeaders_of_voting hw hv)

end Steps

/-! ## §4  What is committed stays -/

section Runs

variable {cfg : Config} {as bs : List Action} {s s' : Cluster}

/-- **What a leader has committed stays.** In every continuation of the run,
whoever leads the same or a later term has the entry. -/
theorem committed_stays {i j : NodeId} {idx : ℕ} {e : LogEntry}
    (h : Run (Cluster.step cfg) (VotesOnce cfg) (Cluster.initial cfg) as s)
    (h' : Run (Cluster.step cfg) (VotesOnce cfg) s bs s')
    (hpos : 0 < idx) (hidx : idx ≤ (s.nodes i).commitIndex)
    (he : (s.nodes i).log[idx]? = some e) (hl : (s'.nodes j).role = .leader)
    (hterm : (s.nodes i).currentTerm ≤ (s'.nodes j).currentTerm) :
    (s'.nodes j).log[idx]? = some e := by
  obtain ⟨hw, A, hi, habs⟩ := protocol_run h
  obtain ⟨hw', hv'⟩ := voting_run (h.trans h')
  obtain ⟨A', hA', habs'⟩ := refine_from hi hw habs
    (h'.mono fun hC hs => ⟨hC.1, hs⟩) (uniqueLeaders_of_voting hw' hv')
  have hi' := inv_steps hi hA'
  -- the entry is committed in the abstraction of `s` …
  rcases hi.commit i with h0 | ⟨-, hsafe⟩
  · rw [habs.commit] at h0
    omega
  rw [habs.commit, habs.log, habs.term] at hsafe
  -- … and committed entries are in the log of every later leader
  have hsafe' := hsafe.grow (steps_retain hi hA').toGrows hterm
  obtain ⟨⟨L, hL⟩, hlog⟩ := hi'.leader j ((habs'.role j).trans hl)
  rw [habs'.term] at hL hlog
  have hpre := hsafe'.isPrefix hi' (le_refl _) hL
  rw [← habs'.log j, hlog]
  apply Foundation.prefix_getElem? hpre
  rw [List.getElem?_take_of_lt (Nat.lt_succ_of_le hidx)]
  exact he

end Runs

end KVEngine.Raft
