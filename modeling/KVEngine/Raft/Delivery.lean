import KVEngine.Raft.Persistence

/-!
# The apply loop

`applyLoop` of `raft.go` beside the other critical sections of its node. The lock is
free while a message is being sent, and a change of the commit index puts one token into
`commitNotify`, which may hold one already.

As long as the commit index does not go back, stays inside the log and what is below it
is not rewritten, every entry is delivered once and in order, and the loop never sleeps
over an entry (`delivered_once`).
-/

namespace KVEngine.Raft

open Foundation (Run endState run_endState)

/-! ## §1  What the loop sends -/

/-- What `applyLoop` sends for an entry; a `nil` command is skipped. -/
def LogEntry.message (e : LogEntry) (k : ℕ) : List ApplyMsg :=
  (e.command.map fun command => { commandIndex := k, command }).toList

/-- The messages for the entries behind index `k`. -/
def messages : ℕ → List LogEntry → List ApplyMsg
  | _, [] => []
  | k, e :: es => e.message (k + 1) ++ messages (k + 1) es

theorem messages_append (k : ℕ) (es fs : List LogEntry) :
    messages k (es ++ fs) = messages k es ++ messages (k + es.length) fs := by
  induction es generalizing k with
  | nil => rfl
  | cons e es ih =>
      rw [List.cons_append, messages, messages, ih, List.append_assoc, List.length_cons,
        Nat.add_right_comm]
      rfl

theorem commandIndex_of_mem_message {e : LogEntry} {k : ℕ} {msg : ApplyMsg}
    (h : msg ∈ e.message k) : msg.commandIndex = k := by
  obtain ⟨c, -, rfl⟩ := Option.map_eq_some_iff.mp (Option.mem_toList.mp h)
  rfl

theorem lt_of_mem_messages {es : List LogEntry} {k : ℕ} {msg : ApplyMsg}
    (h : msg ∈ messages k es) : k < msg.commandIndex := by
  induction es generalizing k with
  | nil => cases h
  | cons e es ih =>
      rcases List.mem_append.mp h with h | h
      · rw [commandIndex_of_mem_message h]
        exact Nat.lt_succ_self k
      · exact lt_of_le_of_lt (Nat.le_succ k) (ih h)

/-- In increasing order, and none twice. -/
theorem messages_pairwise (k : ℕ) (es : List LogEntry) :
    (messages k es).Pairwise fun a b => a.commandIndex < b.commandIndex := by
  induction es generalizing k with
  | nil => exact .nil
  | cons e es ih =>
      refine List.pairwise_append.mpr ⟨?_, ih (k + 1), ?_⟩
      · unfold LogEntry.message
        cases e.command with
        | none => exact .nil
        | some c => exact List.pairwise_singleton _ _
      · intro a ha b hb
        rw [commandIndex_of_mem_message ha]
        exact lt_of_mem_messages hb

/-- The message `applyLoop` is sending. -/
def Node.outgoing (n : Node) : List ApplyMsg :=
  match n.applyPc with
  | .sending msg => [msg]
  | .parked | .looping => []

/-- What is to be sent for the entries up to `lastApplied`. -/
def Node.due (n : Node) : List ApplyMsg := messages 0 ((n.log.drop 1).take n.lastApplied)

/-! ## §2  Steps and the loop -/

/-- The apply loop stands where it stood. -/
def KeepsLoop (n n' : Node) : Prop :=
  n'.lastApplied = n.lastApplied ∧ n'.outgoing = n.outgoing

/-- The next entry has been taken. -/
def Takes (n n' : Node) : Prop :=
  ∃ e, n.lastApplied < n.commitIndex ∧ n.log[n.lastApplied + 1]? = some e ∧
    n.outgoing = [] ∧ n'.lastApplied = n.lastApplied + 1 ∧
    n'.outgoing = e.message (n.lastApplied + 1)

/-- A critical section of another goroutine: it does not touch the loop, and leaves a
token if it moves the commit index. -/
structure Notifies (n n' : Node) : Prop where
  lastApplied : n'.lastApplied = n.lastApplied
  applyPc : n'.applyPc = n.applyPc
  token : n'.commitNotify = true ∨
    (n'.commitNotify = n.commitNotify ∧ n'.commitIndex = n.commitIndex)

theorem KeepsLoop.of_eq {n n' : Node} (h : n'.lastApplied = n.lastApplied)
    (hpc : n'.applyPc = n.applyPc) : KeepsLoop n n' := by
  refine ⟨h, ?_⟩
  unfold Node.outgoing
  rw [hpc]

namespace Notifies

variable {n n' : Node}

theorem keeps (h : Notifies n n') : KeepsLoop n n' := .of_eq h.lastApplied h.applyPc

theorem refl (n : Node) : Notifies n n := ⟨rfl, rfl, Or.inr ⟨rfl, rfl⟩⟩

/-- The commit index stays. -/
theorem of_eq (h : n'.lastApplied = n.lastApplied) (hpc : n'.applyPc = n.applyPc)
    (htoken : n'.commitNotify = n.commitNotify) (hcommit : n'.commitIndex = n.commitIndex) :
    Notifies n n' :=
  ⟨h, hpc, Or.inr ⟨htoken, hcommit⟩⟩

theorem trans {m : Node} (h : Notifies n m) (h' : Notifies m n') : Notifies n n' := by
  refine ⟨h'.lastApplied.trans h.lastApplied, h'.applyPc.trans h.applyPc, ?_⟩
  rcases h'.token with htoken | ⟨htoken, hcommit⟩
  · exact Or.inl htoken
  · rw [htoken, hcommit]
    exact h.token

theorem persist {m : Node} (ok : Bool) (h : Notifies n m) : Notifies n (m.persist ok) :=
  h.trans (.of_eq (by simp) (by simp) (by simp) (by simp))

theorem becomeFollower (ok : Bool) (n : Node) (term : ℕ) :
    Notifies n (n.becomeFollower ok term) :=
  persist ok (.of_eq rfl rfl rfl rfl)

theorem startElection {incr : ℕ → ℕ} {ok : Bool} {calls : List VoteCall}
    (h : n.startElection incr ok = some (n', calls)) : Notifies n n' := by
  obtain ⟨e, -, rfl, -⟩ := Node.startElection_some h
  have hcampaign : Notifies n (n.campaign incr ok) := persist ok (.of_eq rfl rfl rfl rfl)
  exact hcampaign.trans (.of_eq rfl rfl rfl rfl)

theorem propose {ok : Bool} {command : Option Bytes} {calls : List AppendCall} {idx term : ℕ}
    {isLeader : Bool} (h : n.propose ok command = some (n', calls, idx, term, isLeader)) :
    Notifies n n' := by
  rcases Node.propose_cases h with ⟨-, rfl, -⟩ | ⟨-, rfl, -⟩
  · exact .refl _
  · exact persist ok (.of_eq rfl rfl rfl rfl)

theorem handleRequestVote {ok : ℕ → Bool} {args : RequestVoteArgs} {reply : RequestVoteReply}
    (h : n.handleRequestVote ok args = some (n', reply)) : Notifies n n' := by
  have hadopt : Notifies n (n.adoptTerm (ok 0) args.term) :=
    Node.adoptTerm_rule (fun _ => becomeFollower _ _ _) (.refl n)
  rcases Node.handleRequestVote_cases h with ⟨-, rfl, -⟩ | ⟨-, _, _, -, ⟨-, rfl, -⟩ | ⟨-, rfl, -⟩⟩
  · exact .refl _
  · exact persist (ok 1) (hadopt.trans (.of_eq rfl rfl rfl rfl))
  · exact hadopt

theorem handleVoteReply {ok : Bool} {term election : ℕ} {reply : RequestVoteReply}
    {calls : List AppendCall}
    (h : n.handleVoteReply ok term election reply = some (n', calls)) : Notifies n n' := by
  rcases Node.handleVoteReply_cases h with ⟨-, rfl, -⟩ | ⟨rfl, -⟩ |
    ⟨-, -, -, ⟨-, rfl, -⟩ | ⟨-, rfl, -⟩⟩
  · exact becomeFollower _ _ _
  · exact .refl _
  · exact .of_eq rfl rfl rfl rfl
  · exact .of_eq rfl rfl rfl rfl

theorem handleAppendReply {ok : Bool} {peer : NodeId} {args : AppendEntriesArgs}
    {reply : AppendEntriesReply} {calls : List AppendCall}
    (h : n.handleAppendReply ok peer args reply = some (n', calls)) : Notifies n n' := by
  rcases Node.handleAppendReply_cases h with ⟨-, rfl, -⟩ | ⟨rfl, -⟩ |
    ⟨-, -, -, ⟨-, -, rfl⟩ | ⟨-, rfl, -⟩⟩
  · exact becomeFollower _ _ _
  · exact .refl _
  · rw [Node.maybeAdvanceCommitIndex]
    rcases (n.recordMatch peer args).advanceCommitFrom_cases
      ((n.recordMatch peer args).log.length - 1) with heq | ⟨k, -, -, -, -, heq⟩
    · rw [heq]
      exact .of_eq rfl rfl rfl rfl
    · rw [heq]
      exact ⟨rfl, rfl, Or.inl rfl⟩
  · exact .of_eq rfl rfl rfl rfl

theorem appendAndPersist (ok : Bool) (n : Node) (args : AppendEntriesArgs) :
    Notifies n (n.appendAndPersist ok args) := by
  unfold Node.appendAndPersist
  dsimp only
  split
  · exact persist ok (.of_eq rfl rfl rfl rfl)
  · exact .of_eq rfl rfl rfl rfl

theorem followCommit (n : Node) (args : AppendEntriesArgs) : Notifies n (n.followCommit args) := by
  unfold Node.followCommit
  split
  · exact ⟨rfl, rfl, Or.inl rfl⟩
  · exact .refl n

theorem handleAppendEntries {ok : ℕ → Bool} {args : AppendEntriesArgs}
    {reply : AppendEntriesReply} (h : n.handleAppendEntries ok args = some (n', reply)) :
    Notifies n n' := by
  have hfollow : Notifies n (n.follow (ok 0) args) :=
    (becomeFollower (ok 0) n args.term).trans (.of_eq rfl rfl rfl rfl)
  rcases Node.handleAppendEntries_cases h with ⟨-, rfl, -⟩ |
    ⟨-, ⟨-, rfl, -⟩ | ⟨_, -, ⟨-, rfl, -⟩ | ⟨-, rfl, -⟩⟩⟩
  · exact .refl _
  · exact hfollow
  · exact hfollow
  · exact (hfollow.trans (appendAndPersist (ok 1) _ args)).trans (followCommit _ args)

end Notifies

section Loop

variable {n n' : Node}

theorem outgoing_eq_nil (h : n.applyPc = .parked ∨ n.applyPc = .looping) :
    n.outgoing = [] := by
  unfold Node.outgoing
  rcases h with h | h <;> rw [h]

theorem KeepsLoop.applyWake (h : n.applyWake = some n') : KeepsLoop n n' := by
  obtain ⟨hpc, rfl⟩ := Node.applyWake_some h
  exact ⟨rfl, (outgoing_eq_nil (Or.inl hpc)).symm⟩

/-- What is taken is sent next, and nothing is being sent when it is taken. -/
theorem applyTake_outgoing (h : n.applyTake = some n') :
    n.outgoing = [] ∧
      ((∃ e pc, n.lastApplied < n.commitIndex ∧ n.log[n.lastApplied + 1]? = some e ∧
          n' = { n with lastApplied := n.lastApplied + 1, applyPc := pc } ∧ pc ≠ .parked ∧
          n'.outgoing = e.message (n.lastApplied + 1)) ∨
        (n.commitIndex ≤ n.lastApplied ∧ n' = { n with applyPc := .parked })) := by
  obtain ⟨hpc, ⟨hlt, e, pc, he, rfl, hnext⟩ | hpark⟩ := Node.applyTake_cases h
  · refine ⟨outgoing_eq_nil (Or.inr hpc), Or.inl ⟨e, pc, hlt, he, rfl, ?_⟩⟩
    rcases hnext with ⟨hnone, rfl⟩ | ⟨c, hsome, rfl⟩
    · exact ⟨nofun, by rw [LogEntry.message, hnone]; rfl⟩
    · exact ⟨nofun, by rw [LogEntry.message, hsome]; rfl⟩
  · exact ⟨outgoing_eq_nil (Or.inr hpc), Or.inr hpark⟩

theorem applyTake_loop (h : n.applyTake = some n') : KeepsLoop n n' ∨ Takes n n' := by
  obtain ⟨hout, ⟨e, pc, hlt, he, rfl, -, hout'⟩ | ⟨-, rfl⟩⟩ := applyTake_outgoing h
  · exact Or.inr ⟨e, hlt, he, hout, rfl, hout'⟩
  · exact Or.inl ⟨rfl, hout.symm⟩

end Loop

/-! ## §3  One life of a process -/

/-- A critical section that sends nothing on `applyCh`. -/
def silent {β : Type} (r : Option (Node × β)) : Option (Node × List ApplyMsg) :=
  r.map fun x => (x.1, [])

theorem silent_eq_some {β : Type} {r : Option (Node × β)} {n : Node} {out : List ApplyMsg}
    (h : silent r = some (n, out)) : out = [] ∧ ∃ b, r = some (n, b) := by
  obtain ⟨x, rfl, heq⟩ := Option.map_eq_some_iff.mp h
  cases heq
  exact ⟨rfl, x.2, rfl⟩

/-- One critical section, with the outcomes of its file operations, and what it sends on
`applyCh`. -/
def Node.handleWith (incr : ℕ → ℕ) (ok : ℕ → Bool) (n : Node) :
    Input → Option (Node × List ApplyMsg)
  | .startElection => silent (n.startElection incr (ok 0))
  | .requestVote args => silent (n.handleRequestVote ok args)
  | .appendEntries args => silent (n.handleAppendEntries ok args)
  | .voteReply term election reply => silent (n.handleVoteReply (ok 0) term election reply)
  | .appendReply peer args reply => silent (n.handleAppendReply (ok 0) peer args reply)
  | .propose command => silent (n.propose (ok 0) command)
  | .takeSnapshot marshals upToIndex data =>
      silent (n.takeSnapshot marshals (ok 0) upToIndex data)
  | .applyWake => n.applyWake.map fun n => (n, [])
  | .applyTake => n.applyTake.map fun n => (n, [])
  | .applySend => n.applySend.map fun r => (r.1, [r.2])

def Input.isSnapshot : Input → Bool
  | .takeSnapshot _ _ _ => true
  | _ => false

/-- **What one critical section does to the loop**, snapshots apart. -/
theorem handleWith_cases {incr : ℕ → ℕ} {ok : ℕ → Bool} {n n' : Node} {a : Input}
    {out : List ApplyMsg} (ha : a.isSnapshot = false)
    (h : n.handleWith incr ok a = some (n', out)) :
    (out = [] ∧ Notifies n n') ∨ (out = [] ∧ n.applyWake = some n') ∨
      (out = [] ∧ n.applyTake = some n') ∨ ∃ msg, out = [msg] ∧ n.applySend = some (n', msg) := by
  cases a with
  | startElection =>
      obtain ⟨rfl, calls, hr⟩ := silent_eq_some h
      exact Or.inl ⟨rfl, .startElection hr⟩
  | requestVote args =>
      obtain ⟨rfl, reply, hr⟩ := silent_eq_some h
      exact Or.inl ⟨rfl, .handleRequestVote hr⟩
  | appendEntries args =>
      obtain ⟨rfl, reply, hr⟩ := silent_eq_some h
      exact Or.inl ⟨rfl, .handleAppendEntries hr⟩
  | voteReply term election reply =>
      obtain ⟨rfl, calls, hr⟩ := silent_eq_some h
      exact Or.inl ⟨rfl, .handleVoteReply hr⟩
  | appendReply peer args reply =>
      obtain ⟨rfl, calls, hr⟩ := silent_eq_some h
      exact Or.inl ⟨rfl, .handleAppendReply hr⟩
  | propose command =>
      obtain ⟨rfl, res, hr⟩ := silent_eq_some h
      exact Or.inl ⟨rfl, .propose hr⟩
  | takeSnapshot marshals upToIndex data => cases ha
  | applyWake =>
      obtain ⟨m, hm, heq⟩ := Option.map_eq_some_iff.mp h
      cases heq
      exact Or.inr (Or.inl ⟨rfl, hm⟩)
  | applyTake =>
      obtain ⟨m, hm, heq⟩ := Option.map_eq_some_iff.mp h
      cases heq
      exact Or.inr (Or.inr (Or.inl ⟨rfl, hm⟩))
  | applySend =>
      obtain ⟨⟨m, msg⟩, hm, heq⟩ := Option.map_eq_some_iff.mp h
      cases heq
      exact Or.inr (Or.inr (Or.inr ⟨msg, rfl, hm⟩))

/-- A node and all that it has sent on `applyCh`. -/
structure Delivery where
  node : Node
  sent : List ApplyMsg

namespace Delivery

def step (incr : ℕ → ℕ) (d : Delivery) (a : Input × (ℕ → Bool)) : Option Delivery :=
  (d.node.handleWith incr a.2 a.1).map fun r => { node := r.1, sent := d.sent ++ r.2 }

/-- A process that starts with a state file, or none, and without a snapshot. -/
def initial (id : NodeId) (peers : List NodeId) (stateFile : Option PersistentState) : Delivery :=
  { node := Node.newNode id peers stateFile none, sent := [] }

/-- The commit index does not go back and stays inside the log, and entries up to it are
not rewritten. -/
def Advances (n n' : Node) : Prop :=
  n.commitIndex ≤ n'.commitIndex ∧ n'.commitIndex < n'.log.length ∧
    n'.log.take (n.commitIndex + 1) = n.log.take (n.commitIndex + 1)

instance (n n' : Node) : Decidable (Advances n n') := inferInstanceAs (Decidable (_ ∧ _ ∧ _))

/-- No snapshot is taken, and the step advances. -/
def Steady (incr : ℕ → ℕ) (d : Delivery) (a : Input × (ℕ → Bool)) : Prop :=
  a.1.isSnapshot = false ∧ ∀ d' ∈ d.step incr a, Advances d.node d'.node

instance (incr : ℕ → ℕ) (d : Delivery) (a : Input × (ℕ → Bool)) : Decidable (Steady incr d a) :=
  inferInstanceAs (Decidable (_ ∧ _))

/-- What was sent and is being sent is what is due, the last of it for `lastApplied`; and
the loop is not parked without a token below the commit index. -/
structure Delivered (d : Delivery) : Prop where
  sent : d.sent ++ d.node.outgoing = d.node.due
  sending : ∀ msg ∈ d.node.outgoing, msg.commandIndex = d.node.lastApplied
  applied : d.node.lastApplied ≤ d.node.commitIndex
  inside : d.node.commitIndex < d.node.log.length
  idle : d.node.applyPc = .parked → d.node.commitNotify = false →
    d.node.lastApplied = d.node.commitIndex

variable {incr : ℕ → ℕ} {d d' : Delivery}

theorem newNode_loop (id : NodeId) (peers : List NodeId) (stateFile : Option PersistentState) :
    let n := Node.newNode id peers stateFile none
    n.lastApplied = 0 ∧ n.commitIndex = 0 ∧ n.applyPc = .parked ∧ 0 < n.log.length := by
  intro n
  cases stateFile with
  | none => exact ⟨rfl, rfl, rfl, Nat.zero_lt_one⟩
  | some ps =>
      by_cases hlen : ps.log.length = 0
      · have hn : n = { (Node.blank id peers (some ps) none).restoreState with
            log := [sentinel] } := if_pos hlen
        rw [hn]
        exact ⟨rfl, rfl, rfl, Nat.zero_lt_one⟩
      · have hn : n = (Node.blank id peers (some ps) none).restoreState := if_neg hlen
        rw [hn]
        exact ⟨rfl, rfl, rfl, Nat.pos_of_ne_zero hlen⟩

theorem delivered_initial (id : NodeId) (peers : List NodeId)
    (stateFile : Option PersistentState) : Delivered (initial id peers stateFile) := by
  obtain ⟨hlast, hcommit, hpc, hlen⟩ := newNode_loop id peers stateFile
  have hout := outgoing_eq_nil (Or.inl hpc)
  refine ⟨?_, ?_, ?_, ?_, fun _ _ => ?_⟩ <;> dsimp only [initial]
  · rw [hout, Node.due, hlast]
    rfl
  · rw [hout]
    exact fun _ h => absurd h List.not_mem_nil
  · rw [hlast]
    exact Nat.zero_le _
  · rwa [hcommit]
  · rw [hlast, hcommit]

/-- Entries up to the commit index are not rewritten, so what is due for them stays. -/
theorem due_eq {n n' : Node} (h : Advances n n') (hlast : n'.lastApplied = n.lastApplied)
    (happlied : n.lastApplied ≤ n.commitIndex) : n'.due = n.due := by
  have htake : ∀ log : List LogEntry, (log.drop 1).take n.lastApplied =
      ((log.take (n.commitIndex + 1)).drop 1).take n.lastApplied := by
    intro log
    rw [List.drop_take, List.take_take, min_eq_left (by omega)]
  rw [Node.due, Node.due, hlast, htake, h.2.2, ← htake]

/-- The message for one entry more. -/
theorem due_succ {n : Node} {e : LogEntry} (he : n.log[n.lastApplied + 1]? = some e) :
    messages 0 ((n.log.drop 1).take (n.lastApplied + 1)) =
      n.due ++ e.message (n.lastApplied + 1) := by
  have hlt : n.lastApplied + 1 < n.log.length := (List.getElem?_eq_some_iff.mp he).1
  have hnext : (n.log.drop 1)[n.lastApplied]? = some e := by
    rw [List.getElem?_drop, Nat.add_comm, he]
  have hlen : ((n.log.drop 1).take n.lastApplied).length = n.lastApplied := by
    rw [List.length_take, List.length_drop]
    omega
  rw [List.take_add_one, hnext, messages_append, hlen, Nat.zero_add]
  show n.due ++ (e.message (n.lastApplied + 1) ++ []) = _
  rw [List.append_nil]

/-- The node moves and the loop does not. -/
theorem Delivered.notifies {n' : Node} (h : Delivered d) (hn : Notifies d.node n')
    (hadv : Advances d.node n') : Delivered { node := n', sent := d.sent } := by
  obtain ⟨hlast, hout⟩ := hn.keeps
  refine ⟨?_, ?_, ?_, hadv.2.1, ?_⟩
  · show d.sent ++ n'.outgoing = n'.due
    rw [hout, due_eq hadv hlast h.applied, h.sent]
  · show ∀ msg ∈ n'.outgoing, msg.commandIndex = n'.lastApplied
    rw [hout, hlast]
    exact h.sending
  · show n'.lastApplied ≤ n'.commitIndex
    rw [hlast]
    exact h.applied.trans hadv.1
  · intro hpc htoken
    show n'.lastApplied = n'.commitIndex
    rcases hn.token with htrue | ⟨hsame, hcommit⟩
    · cases htoken.symm.trans htrue
    · rw [hlast, hcommit]
      exact h.idle (hn.applyPc.symm.trans hpc) (hsame.symm.trans htoken)

theorem Delivered.wake {n' : Node} (h : Delivered d) (hn : d.node.applyWake = some n') :
    Delivered { node := n', sent := d.sent } := by
  obtain ⟨hpc, rfl⟩ := Node.applyWake_some hn
  have hout := outgoing_eq_nil (Or.inl hpc)
  have hsent := h.sent
  have hsending := h.sending
  rw [hout] at hsent hsending
  exact ⟨hsent, hsending, h.applied, h.inside, nofun⟩

/-- Nothing is being sent when an entry is taken, and its message comes next. -/
theorem Delivered.take {n' : Node} (h : Delivered d) (hn : d.node.applyTake = some n') :
    Delivered { node := n', sent := d.sent } := by
  obtain ⟨hout, ⟨e, pc, hlt, he, rfl, hpc, hout'⟩ | ⟨hge, rfl⟩⟩ := applyTake_outgoing hn
  · have hsent := h.sent
    rw [hout, List.append_nil] at hsent
    refine ⟨?_, ?_, hlt, h.inside, fun hparked => absurd hparked hpc⟩
    · dsimp only
      rw [hout', hsent]
      exact (due_succ he).symm
    · dsimp only
      rw [hout']
      exact fun msg hmsg => commandIndex_of_mem_message hmsg
  · have hsent := h.sent
    have hsending := h.sending
    rw [hout] at hsent hsending
    exact ⟨hsent, hsending, h.applied, h.inside, fun _ _ => le_antisymm h.applied hge⟩

theorem Delivered.send {n' : Node} {msg : ApplyMsg} (h : Delivered d)
    (hn : d.node.applySend = some (n', msg)) :
    Delivered { node := n', sent := d.sent ++ [msg] } := by
  obtain ⟨hpc, rfl⟩ := Node.applySend_some hn
  have hsent := h.sent
  rw [Node.outgoing, hpc] at hsent
  refine ⟨?_, fun _ hm => absurd hm List.not_mem_nil, h.applied, h.inside, nofun⟩
  exact (List.append_nil _).trans hsent

/-- **One step.** -/
theorem Delivered.step {a : Input × (ℕ → Bool)} (h : Delivered d) (hC : Steady incr d a)
    (hs : d.step incr a = some d') : Delivered d' := by
  have hadv := hC.2 d' hs
  obtain ⟨⟨n', out⟩, hn, rfl⟩ := Option.map_eq_some_iff.mp hs
  have hquiet : ∀ {m : Node}, Delivered { node := m, sent := d.sent } →
      Delivered { node := m, sent := d.sent ++ [] } := by
    intro m hm
    rwa [List.append_nil]
  rcases handleWith_cases hC.1 hn with ⟨rfl, hnotifies⟩ | ⟨rfl, hwake⟩ | ⟨rfl, htake⟩ |
    ⟨msg, rfl, hsend⟩
  · exact hquiet (h.notifies hnotifies hadv)
  · exact hquiet (h.wake hwake)
  · exact hquiet (h.take htake)
  · exact h.send hsend

/-- **Exactly once, in order.** In every interleaving what has been sent, with the message
being sent, is what is due up to `lastApplied`; the indices increase; and when the loop is
parked without a token, everything committed has been applied. -/
theorem delivered_once {id : NodeId} {peers : List NodeId} {stateFile : Option PersistentState}
    {as : List (Input × (ℕ → Bool))}
    (h : Run (step incr) (Steady incr) (initial id peers stateFile) as d) :
    d.sent ++ d.node.outgoing = messages 0 ((d.node.log.drop 1).take d.node.lastApplied) ∧
      (∀ msg ∈ d.node.outgoing, msg.commandIndex = d.node.lastApplied) ∧
      (d.sent ++ d.node.outgoing).Pairwise (fun a b => a.commandIndex < b.commandIndex) ∧
      d.node.lastApplied ≤ d.node.commitIndex ∧ d.node.commitIndex < d.node.log.length ∧
      (d.node.applyPc = .parked → d.node.commitNotify = false →
        d.node.lastApplied = d.node.commitIndex) := by
  have hd : Delivered d := h.invariant (delivered_initial id peers stateFile)
    fun hu hC hs => hu.step hC hs
  refine ⟨hd.sent, hd.sending, ?_, hd.applied, hd.inside, hd.idle⟩
  rw [hd.sent]
  exact messages_pairwise 0 _

/-- A leader sends three entries, the second without a command, and commits the first. -/
def firstRequest : AppendEntriesArgs :=
  { term := 1, leaderId := [1], prevLogIndex := 0, prevLogTerm := 0,
    entries := [⟨1, some [10]⟩, ⟨1, none⟩, ⟨1, some [30]⟩], leaderCommit := 1 }

/-- The commit index goes on while the first message is being sent. -/
def interleaved : List (Input × (ℕ → Bool)) :=
  [.appendEntries firstRequest, .applyWake, .applyTake,
    .appendEntries { firstRequest with leaderCommit := 3 }, .applySend, .applyTake, .applyTake,
    .applySend, .applyTake, .applyWake, .applyTake].map fun a => (a, fun _ => true)

theorem delivered_once_interleaved :
    let d := endState (step (· + 1)) (Steady (· + 1)) (initial [2] [[1]] none) interleaved
    d.sent ++ d.node.outgoing = messages 0 ((d.node.log.drop 1).take d.node.lastApplied) ∧
      d.sent = [⟨1, [10]⟩, ⟨3, [30]⟩] ∧ d.node.applyPc = .parked ∧ d.node.lastApplied = 3 :=
  ⟨(delivered_once (run_endState (by decide +kernel))).1, by decide +kernel⟩

end Delivery

end KVEngine.Raft
