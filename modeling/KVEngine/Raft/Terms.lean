import KVEngine.Raft.Election

/-!
# The order of terms in the logs

Without snapshots and with unbounded terms, a log starts with the sentinel of term `0`,
its terms never go down, and those after the sentinel lie between `1` and the current
term; the terms of an append request, from `PrevLogTerm` on, are ordered too and bounded
by the term of the request (`log_terms_ordered`).

Nothing is said about who leads. With two leaders in a term a follower may put its old
entries before those of a stale request whose log it never matched: the terms are still in
order, because the change-over is at a term that both have (`Ordered.glue`).
-/

namespace KVEngine.Raft

open Foundation (Run splice)
open Foundation.ReplicatedLog (Role)

/-! ## §1  Ordered terms -/

/-- Terms that do not go down and are at most `T`; those after the first are positive. -/
structure Ordered (T : ℕ) (terms : List ℕ) : Prop where
  sorted : terms.Pairwise (· ≤ ·)
  bounded : ∀ t ∈ terms, t ≤ T
  positive : ∀ t ∈ terms.tail, 1 ≤ t

namespace Ordered

variable {T T' : ℕ} {xs ys : List ℕ}

theorem mono (h : Ordered T xs) (hT : T ≤ T') : Ordered T' xs :=
  ⟨h.sorted, fun t ht => (h.bounded t ht).trans hT, h.positive⟩

theorem drop (h : Ordered T xs) (k : ℕ) : Ordered T (xs.drop k) where
  sorted := h.sorted.drop
  bounded := fun t ht => h.bounded t (List.mem_of_mem_drop ht)
  positive := by
    intro t ht
    rw [List.tail_drop, ← List.drop_tail] at ht
    exact h.positive t (List.mem_of_mem_drop ht)

theorem snoc (h : Ordered T xs) (hT : 1 ≤ T) : Ordered T (xs ++ [T]) where
  sorted := by
    refine List.pairwise_append.mpr ⟨h.sorted, List.pairwise_singleton _ _, ?_⟩
    intro t ht u hu
    rw [List.mem_singleton.mp hu]
    exact h.bounded t ht
  bounded := by
    intro t ht
    rcases List.mem_append.mp ht with hold | hnew
    · exact h.bounded t hold
    · exact (List.mem_singleton.mp hnew).le
  positive := by
    intro t ht
    cases xs with
    | nil => cases ht
    | cons x xs =>
        rcases List.mem_append.mp ht with hold | hnew
        · exact h.positive t hold
        · rwa [List.mem_singleton.mp hnew]

/-- The one list up to a term that both have, then the other. -/
theorem glue (hx : Ordered T xs) (hy : Ordered T ys) {p k z : ℕ} (hxz : xs[p]? = some z)
    (hyz : ys[k]? = some z) : Ordered T (xs.take (p + 1) ++ ys.drop (k + 1)) where
  sorted := Foundation.pairwise_glue hx.sorted hy.sorted hxz hyz
  bounded := by
    intro t ht
    rcases List.mem_append.mp ht with hleft | hright
    · exact hx.bounded t (List.mem_of_mem_take hleft)
    · exact hy.bounded t (List.mem_of_mem_drop hright)
  positive := by
    intro t ht
    cases xs with
    | nil => cases hxz
    | cons x xs =>
        rw [List.take_succ_cons, List.cons_append, List.tail_cons] at ht
        rcases List.mem_append.mp ht with hleft | hright
        · exact hx.positive t (List.mem_of_mem_take hleft)
        · rw [← List.drop_tail] at hright
          exact hy.positive t (List.mem_of_mem_drop hright)

end Ordered

def Node.terms (n : Node) : List ℕ := n.log.map LogEntry.term

/-- The terms of a request, that of the entry before it first. -/
def AppendEntriesArgs.terms (args : AppendEntriesArgs) : List ℕ :=
  args.prevLogTerm :: args.entries.map LogEntry.term

/-- What an accepted request makes of a log: it stays ordered. -/
theorem Ordered.splice {T : ℕ} {log : List LogEntry} {args : AppendEntriesArgs}
    (hlog : Ordered T (log.map LogEntry.term)) (hargs : Ordered T args.terms)
    (hprev : log[args.prevLogIndex]?.map LogEntry.term = some args.prevLogTerm) :
    Ordered T ((splice LogEntry.term log (args.prevLogIndex + 1) args.entries).map
      LogEntry.term) := by
  rcases Foundation.map_splice_cases hprev with h | ⟨k, z, hlogz, hargsz, h⟩
  · rwa [h]
  · rw [h]
    exact hlog.glue hargs hlogz hargsz

/-! ## §2  One node -/

/-- The log is ordered up to the current term, and who is no follower has seen a term
other than `0`. -/
structure InOrder (n : Node) : Prop where
  log : Ordered n.currentTerm n.terms
  active : n.role ≠ .follower → 1 ≤ n.currentTerm

namespace InOrder

variable {cfg : Config} {i : NodeId} {n n' : Node}

/-- The log is as it was, in the same term or a later one. -/
theorem later (h : InOrder n) (hT : n.currentTerm ≤ n'.currentTerm) (hlog : n'.log = n.log)
    (hrole : n'.role ≠ .follower → n.role ≠ .follower) : InOrder n' where
  log := by
    rw [Node.terms, hlog]
    exact h.log.mono hT
  active := fun hr => (h.active (hrole hr)).trans hT

theorem newNode (i : NodeId) (peers : List NodeId) :
    InOrder (Node.newNode i peers none none) where
  log := by
    change Ordered 0 [0]
    exact ⟨by decide, by decide, by decide⟩
  active := fun h => absurd rfl h

theorem becomeFollower (h : InOrder n) {t : ℕ} (ht : n.currentTerm ≤ t) :
    InOrder (n.becomeFollower true t) :=
  h.later ht rfl fun hr => absurd rfl hr

theorem adoptTerm (h : InOrder n) (t : ℕ) : InOrder (n.adoptTerm true t) :=
  Node.adoptTerm_rule (fun hlt => h.becomeFollower hlt.le) h

theorem dies (h : InOrder n) (hm : Cluster.DiesAs n n') : InOrder n' := by
  rcases hm with rfl | ⟨t, ht, rfl⟩
  · exact h
  · exact h.becomeFollower ht

theorem restart (h : InOrder n) (hs : Sound cfg i n) : InOrder n.restart := by
  rw [hs.restart_eq]
  exact h.later le_rfl rfl fun hr => absurd rfl hr

theorem appendCommand (h : InOrder n) (hrole : n.role = .leader) (command : Option Bytes) :
    InOrder (n.appendCommand true command) where
  log := by
    change Ordered n.currentTerm ((n.log ++ [LogEntry.mk n.currentTerm command]).map _)
    rw [List.map_append]
    exact h.log.snoc (h.active (by rw [hrole]; decide))
  active := h.active

theorem startElection {incr : ℕ → ℕ} {calls : List VoteCall}
    (hincr : incr n.currentTerm = n.currentTerm + 1) (h : InOrder n)
    (hn : n.startElection incr true = some (n', calls)) : InOrder n' := by
  obtain ⟨e, -, rfl, -⟩ := Node.startElection_some hn
  have hterm : (n.campaign incr true).currentTerm = n.currentTerm + 1 := hincr
  refine ⟨?_, fun _ => ?_⟩
  · exact h.log.mono (by rw [hterm]; exact Nat.le_succ _)
  · exact hterm ▸ Nat.succ_pos _

theorem handleRequestVote {args : RequestVoteArgs} {reply : RequestVoteReply} (h : InOrder n)
    (hn : n.handleRequestVote Cluster.persistOk args = some (n', reply)) : InOrder n' := by
  rcases Node.handleRequestVote_cases hn with ⟨-, rfl, -⟩ |
    ⟨-, _, _, -, ⟨-, rfl, -⟩ | ⟨-, rfl, -⟩⟩
  · exact h
  · exact (h.adoptTerm args.term).later le_rfl rfl fun hr => hr
  · exact h.adoptTerm args.term

theorem handleAppendEntries {args : AppendEntriesArgs} {reply : AppendEntriesReply}
    (h : InOrder n) (hargs : Ordered args.term args.terms)
    (hn : n.handleAppendEntries Cluster.persistOk args = some (n', reply)) : InOrder n' := by
  have hfollow : n.currentTerm ≤ args.term → InOrder (n.follow true args) := fun hle =>
    h.later hle rfl fun hr => absurd rfl hr
  rcases Node.handleAppendEntries_cases hn with ⟨-, rfl, -⟩ |
    ⟨hle, ⟨-, rfl, -⟩ | ⟨prev, hprev, ⟨-, rfl, -⟩ | ⟨hterm, rfl, -⟩⟩⟩
  · exact h
  · exact hfollow hle
  · exact hfollow hle
  · obtain ⟨hrole, hT, -, -, hlog, -⟩ := accept_follower n args
    have hprev' : n.log[args.prevLogIndex]?.map LogEntry.term = some args.prevLogTerm := by
      rw [hprev, ← hterm]
      rfl
    have hord := (h.log.mono hle).splice hargs hprev'
    rw [← hlog, ← hT] at hord
    exact ⟨hord, fun hr => absurd hrole hr⟩

/-- A request is a part of the sender's log. -/
theorem sent (h : InOrder n) {peer : NodeId} {call : AppendCall}
    (hc : n.sendAppendEntries peer = some call) : Ordered call.args.term call.args.terms := by
  obtain ⟨prev, hprev, -, -, hterm, hT, -, hes, -⟩ := Node.sendAppendEntries_some hc
  have hterms : call.args.terms = n.terms.drop call.args.prevLogIndex := by
    obtain ⟨hlt, hget⟩ := List.getElem?_eq_some_iff.mp hprev
    rw [AppendEntriesArgs.terms, hterm, hes, Node.terms, ← List.map_drop,
      ← List.cons_getElem_drop_succ (h := hlt), hget, List.map_cons]
  rw [hterms, hT]
  exact h.log.drop _

theorem handleVoteReply {term election : ℕ} {reply : RequestVoteReply}
    {calls : List AppendCall} (h : InOrder n)
    (hn : n.handleVoteReply true term election reply = some (n', calls)) : InOrder n' := by
  rcases Node.handleVoteReply_cases hn with ⟨hlt, rfl, -⟩ | ⟨rfl, -⟩ |
    ⟨hcand, -, -, ⟨-, rfl, -⟩ | ⟨-, rfl, -⟩⟩
  · exact h.becomeFollower hlt.le
  · exact h
  · exact h.later le_rfl rfl fun hr => hr
  · exact h.later le_rfl rfl fun _ => by rw [hcand]; decide

theorem handleAppendReply {peer : NodeId} {args : AppendEntriesArgs}
    {reply : AppendEntriesReply} {calls : List AppendCall} (h : InOrder n)
    (hn : n.handleAppendReply true peer args reply = some (n', calls)) : InOrder n' := by
  rcases Node.handleAppendReply_cases hn with ⟨hlt, rfl, -⟩ | ⟨rfl, -⟩ |
    ⟨-, -, -, ⟨-, -, rfl⟩ | ⟨-, rfl, -⟩⟩
  · exact h.becomeFollower hlt.le
  · exact h
  · obtain ⟨k, b, heq⟩ := (n.recordMatch peer args).maybeAdvance_eq
    rw [heq]
    exact h.later le_rfl rfl fun hr => hr
  · exact h.later le_rfl rfl fun hr => hr

end InOrder

/-! ## §3  The cluster -/

/-- Every log is in order, and so is every append request that was ever sent. -/
structure OrderedLogs (s : Cluster) : Prop where
  node : ∀ i, InOrder (s.nodes i)
  sent : ∀ rpc ∈ s.appendRpcs, Ordered rpc.args.term rpc.args.terms

theorem orderedLogs_initial (cfg : Config) : OrderedLogs (Cluster.initial cfg) :=
  ⟨fun i => InOrder.newNode i _, by simp [Cluster.initial]⟩

section Steps

variable {cfg : Config} {as : List Action} {s s' : Cluster} {a : Action} {i : NodeId} {n : Node}

/-- **Frame.** One node changes; what a node sends is a part of its log. -/
theorem OrderedLogs.frame (h : OrderedLogs s) (hs : s.step cfg a = some s')
    (hnodes : s'.nodes = Function.update s.nodes i n) (hn : InOrder n) : OrderedLogs s' := by
  have hnode : ∀ j, InOrder (s'.nodes j) :=
    Cluster.forall_nodes (P := fun _ => InOrder) hnodes hn fun j _ => h.node j
  refine ⟨hnode, fun rpc' hr => ?_⟩
  rcases Cluster.step_appends hs rpc' hr with ⟨rpc, hm, ph, rfl, -⟩ | hnew
  · exact h.sent rpc hm
  · exact (hnode rpc'.src).sent hnew.sent

theorem orderedLogs_step (h : OrderedLogs s) (hw : Wired cfg s)
    (hterms : ∀ t, cfg.incr t = t + 1) (hC : NoSnapshot s a) (hs : s.step cfg a = some s') :
    OrderedLogs s' := by
  cases Cluster.step_nodes hs with
  | restart hnodes _ hm =>
      exact h.frame hs hnodes (((h.node _).dies hm).restart (hm.sound (hw.sound _)))
  | change hnodes _ hchange =>
      refine h.frame hs hnodes ?_
      cases hchange with
      | same => exact h.node _
      | campaign hn => exact (h.node _).startElection (hterms _) hn
      | command _ hrole => exact (h.node _).appendCommand hrole _
      | requestVote _ hn => exact (h.node _).handleRequestVote hn
      | voteReply _ hn => exact (h.node _).handleVoteReply hn
      | appendEntries hr hn =>
          exact (h.node _).handleAppendEntries (h.sent _ (List.mem_of_getElem? hr)) hn
      | appendReply _ _ hn => exact (h.node _).handleAppendReply hn
      | wake => exact (h.node _).later le_rfl rfl fun hr => hr
      | park => exact (h.node _).later le_rfl rfl fun hr => hr
      | take _ => exact (h.node _).later le_rfl rfl fun hr => hr
      | send => exact (h.node _).later le_rfl rfl fun hr => hr
      | snapshot _ => exact Bool.noConfusion hC

theorem orderedLogs_run (hterms : ∀ t, cfg.incr t = t + 1)
    (h : Run (Cluster.step cfg) NoSnapshot (Cluster.initial cfg) as s) :
    OrderedLogs s ∧ Wired cfg s :=
  h.invariant (I := fun s => OrderedLogs s ∧ Wired cfg s)
    ⟨orderedLogs_initial cfg, wired_initial cfg⟩
    fun ⟨hlogs, hw⟩ hC hs => ⟨orderedLogs_step hlogs hw hterms hC hs,
      wired_step hw (plain_of_noSnapshot hterms hC) hs⟩

/-- **Terms are ordered.** Every log starts with the sentinel, its terms do not go down and
those after the sentinel lie between `1` and the current term; the terms of every append
request do not go down either and are at most the term of the request. -/
theorem log_terms_ordered (hterms : ∀ t, cfg.incr t = t + 1)
    (h : Run (Cluster.step cfg) NoSnapshot (Cluster.initial cfg) as s) :
    (∀ i, (s.nodes i).log[0]?.map LogEntry.term = some 0 ∧
      ((s.nodes i).log.map LogEntry.term).Pairwise (· ≤ ·) ∧
      ∀ e ∈ (s.nodes i).log.tail, 1 ≤ e.term ∧ e.term ≤ (s.nodes i).currentTerm) ∧
    ∀ rpc ∈ s.appendRpcs,
      (rpc.args.prevLogTerm :: rpc.args.entries.map LogEntry.term).Pairwise (· ≤ ·) ∧
      ∀ t ∈ rpc.args.prevLogTerm :: rpc.args.entries.map LogEntry.term, t ≤ rpc.args.term := by
  obtain ⟨hlogs, hw⟩ := orderedLogs_run hterms h
  constructor
  · intro i
    have hlog := (hlogs.node i).log
    refine ⟨?_, hlog.sorted, fun e he => ⟨?_, ?_⟩⟩
    · rw [(hw.sound i).head]
      rfl
    · refine hlog.positive _ ?_
      rw [Node.terms, ← List.map_tail]
      exact List.mem_map_of_mem he
    · exact hlog.bounded _ (List.mem_map_of_mem (List.mem_of_mem_tail he))
  · exact fun rpc hr => ⟨(hlogs.sent rpc hr).sorted, (hlogs.sent rpc hr).bounded⟩

end Steps

/-- `A` and `C` both lead term `1`, with the second vote of `B`. Both propose, and `B`
accepts from either: what it has of `A` stays in front of what `C` sends. -/
def rivalsActions : List Action :=
  trioActions ++ [.propose [65] (some [1]), .propose [67] (some [2]), .propose [67] (some [3]),
    .deliverAppend 4, .deliverAppend 9]

def rivalsEnd : Cluster :=
  Foundation.endState (Cluster.step triple) NoSnapshot (Cluster.initial triple) rivalsActions

/-- The log of `B` is that of neither leader, its terms are in order all the same. -/
theorem log_terms_ordered_rivals :
    (rivalsEnd.nodes [66]).log = [sentinel, ⟨1, some [1]⟩, ⟨1, some [3]⟩] ∧
      (rivalsEnd.nodes [67]).log = [sentinel, ⟨1, some [2]⟩, ⟨1, some [3]⟩] ∧
      (∀ e ∈ (rivalsEnd.nodes [66]).log.tail,
        1 ≤ e.term ∧ e.term ≤ (rivalsEnd.nodes [66]).currentTerm) ∧
      ∀ rpc ∈ rivalsEnd.appendRpcs,
        (rpc.args.prevLogTerm :: rpc.args.entries.map LogEntry.term).Pairwise (· ≤ ·) := by
  have hrun : Run (Cluster.step triple) NoSnapshot (Cluster.initial triple) rivalsActions
      rivalsEnd := Foundation.run_endState (by decide +kernel)
  obtain ⟨hlogs, hsent⟩ := log_terms_ordered (fun _ => rfl) hrun
  exact ⟨by decide +kernel, by decide +kernel, (hlogs [66]).2.2,
    fun rpc hr => (hsent rpc hr).1⟩

end KVEngine.Raft
