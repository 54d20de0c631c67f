import KVEngine.Raft.Bounds

/-!
# Fast backup

A leader and a peer whose log differs from its own, exchanging append requests and
answers. A rejection names the end of the peer's log, or the term the peer has where
the leader has another; the leader then goes back to behind its own last entry of
that term, or to the first one of the peer's. Either way it goes back (`round_cases`),
so after finitely many rounds the peer accepts, and then it has the leader's whole
log (`Meeting.converges`). Here the rounds follow one another; what answers that
overtake each other do is in `Overlap`.

That the leader does not go *forward* rests on where a term's entries begin: the two
logs have the entries of a term from the log of that term's leader, so where the
leader has another term than the peer, it has the peer's term further down if at all.
-/

namespace KVEngine.Raft

open Foundation (Run splice AgreeByKey)
open Foundation.ReplicatedLog

/-! ## §1  One round -/

/-- The leader sends what it thinks the peer lacks, the peer answers, the leader
processes the answer. The flag is whether the peer accepted. -/
def exchange (p : NodeId) (n m : Node) : Option (Node × Node × Bool) := do
  let call ← n.sendAppendEntries p
  let (m, reply) ← m.handleAppendEntries Cluster.persistOk call.args
  let (n, _) ← n.handleAppendReply true p call.args reply
  return (n, m, reply.success)

/-- Between two rounds the leader stays leader and neither log changes, nor what the
leader knows of the peer's. Other fields may change: what the two commit and apply,
what the leader knows of its other peers. -/
structure Quiet (p : NodeId) (old new : Node × Node) : Prop where
  role : new.1.role = old.1.role
  term : new.1.currentTerm = old.1.currentTerm
  log : new.1.log = old.1.log
  next : new.1.nextIndex p = old.1.nextIndex p
  matched : new.1.matchIndex p = old.1.matchIndex p
  peerTerm : new.2.currentTerm ≤ new.1.currentTerm
  peerLog : new.2.log = old.2.log

/-- A round that starts in `now` and in which the peer rejects. -/
def rejection (p : NodeId) (_ now : Node × Node) : Option (Node × Node) :=
  match exchange p now.1 now.2 with
  | some (n, m, false) => some (n, m)
  | _ => none

theorem rejection_eq_some {p : NodeId} {old now new : Node × Node} :
    rejection p old now = some new ↔ exchange p now.1 now.2 = some (new.1, new.2, false) := by
  unfold rejection
  constructor
  · intro h
    split at h
    · rename_i n m hx
      cases h
      exact hx
    · cases h
  · intro h
    rw [h]

namespace Node

theorem lastIndexOfTerm_spec (log : List LogEntry) (t : ℕ) :
    ∀ i, 0 < lastIndexOfTerm log t i →
      log[lastIndexOfTerm log t i]?.map LogEntry.term = some t
  | 0, h => absurd h (lt_irrefl 0)
  | i + 1, h => by
      rw [lastIndexOfTerm] at h ⊢
      split
      · rename_i hterm
        exact hterm
      · rename_i hterm
        rw [if_neg hterm] at h
        exact lastIndexOfTerm_spec log t i h

section Replies

variable {ok : Bool} {n : Node} {peer : NodeId} {args : AppendEntriesArgs}
  {reply : AppendEntriesReply}

theorem handleAppendReply_accepted (hl : n.role = .leader) (ht : n.currentTerm = args.term)
    (hr : reply.term ≤ n.currentTerm) (hs : reply.success = true) :
    n.handleAppendReply ok peer args reply =
      some ((n.recordMatch peer args).maybeAdvanceCommitIndex, []) := by
  unfold handleAppendReply
  rw [if_neg (not_lt.mpr hr), if_neg (by simp [hl, ht]), if_pos hs]

theorem handleAppendReply_rejected (hl : n.role = .leader) (ht : n.currentTerm = args.term)
    (hr : reply.term ≤ n.currentTerm) (hs : reply.success = false) {call : AppendCall}
    (hcall : (n.backUp peer reply).sendAppendEntries peer = some call) :
    n.handleAppendReply ok peer args reply = some (n.backUp peer reply, [call]) := by
  unfold handleAppendReply
  rw [if_neg (not_lt.mpr hr), if_neg (by simp [hl, ht]), if_neg (by simp [hs])]
  dsimp only
  rw [hcall]
  rfl

end Replies

end Node

/-! ## §2  A leader and a peer -/

/-- What is known of a leader's log `L` and a peer's log `M`. -/
structure Comparable (L M : List LogEntry) : Prop where
  head : L[0]? = some sentinel
  peerHead : M[0]? = some sentinel
  positive : ∀ {k : ℕ} {y : LogEntry}, 0 < k → M[k]? = some y → 0 < y.term
  agree : AgreeByKey LogEntry.term M L
  /-- Where `L` has not the term that `M` has, it has it further down if at all. -/
  before : ∀ {j k : ℕ} {x y : LogEntry}, 0 < k → L[j]? = some x → M[k]? = some y →
    x.term = y.term → L[k]?.map LogEntry.term ≠ some y.term → j < k

/-- What the rejection of a request tells of the log `M` it was tested against: where
the log ends, or which term it has there and where the entries of that term begin. -/
def Tells (M : List LogEntry) (args : AppendEntriesArgs) (reply : AppendEntriesReply) : Prop :=
  (M.length ≤ args.prevLogIndex ∧ reply.conflictTerm = 0 ∧ reply.conflictIndex = M.length) ∨
    ∃ x, M[args.prevLogIndex]? = some x ∧ x.term ≠ args.prevLogTerm ∧
      reply.conflictTerm = x.term ∧
      reply.conflictIndex = Node.firstIndexOfTerm M x.term args.prevLogIndex

/-- Leader `n` and peer `m` between two rounds; the logs `L` and `M` do not change
until the peer accepts. -/
structure Meeting (p : NodeId) (L M : List LogEntry) (n m : Node) : Prop where
  role : n.role = .leader
  log : n.log = L
  peerLog : m.log = M
  term : m.currentTerm ≤ n.currentTerm
  next : 1 ≤ n.nextIndex p ∧ n.nextIndex p ≤ L.length
  matched : n.matchIndex p < L.length

/-- The peer has the leader's log, and the leader knows. -/
structure Caught (p : NodeId) (L : List LogEntry) (n m : Node) : Prop where
  next : n.nextIndex p = L.length
  log : ∀ k < L.length, m.log[k]? = L[k]?

/-- The request that leader `n` cuts from its log `L` for `p`. -/
structure Asks (p : NodeId) (L : List LogEntry) (n : Node) (args : AppendEntriesArgs) :
    Prop where
  term : n.currentTerm = args.term
  index : args.prevLogIndex + 1 = n.nextIndex p
  prev : L[args.prevLogIndex]?.map LogEntry.term = some args.prevLogTerm
  entries : args.entries = L.drop (args.prevLogIndex + 1)

section Round

variable {p : NodeId} {L M : List LogEntry} {n m : Node} {args : AppendEntriesArgs}

theorem Node.handleAppendEntries_tells {ok : ℕ → Bool} {m' : Node} {reply : AppendEntriesReply}
    (h : m.handleAppendEntries ok args = some (m', reply)) (hrej : reply.success = false)
    (hterm : reply.term ≤ args.term) : Tells m.log args reply := by
  rcases handleAppendEntries_cases h with ⟨hlt, -, rfl⟩ |
    ⟨-, ⟨hlen, -, rfl⟩ | ⟨x, hx, ⟨hne, -, rfl⟩ | ⟨-, -, hsucc, -⟩⟩⟩
  · exact absurd hlt (not_lt.mpr hterm)
  · exact Or.inl ⟨hlen, rfl, rfl⟩
  · exact Or.inr ⟨x, hx, hne, rfl, rfl⟩
  · rw [hrej] at hsucc
    cases hsucc

/-- **A rejection takes the leader back**, though not to the sentinel: to the end of the
log it tells of, to behind the leader's last entry of the term found there, or to where
that term begins. -/
theorem Comparable.back (hcmp : Comparable n.log M)
    (hprev : n.log[args.prevLogIndex]?.map LogEntry.term = some args.prevLogTerm)
    {reply : AppendEntriesReply} (htells : Tells M args reply) :
    1 ≤ n.nextIndexAfterConflict p reply ∧
      n.nextIndexAfterConflict p reply ≤ args.prevLogIndex := by
  unfold Node.nextIndexAfterConflict
  rcases htells with ⟨hlen, hterm, hindex⟩ | ⟨x, hx, hne, hterm, hindex⟩
  · have hpos : 0 < M.length := (List.getElem?_eq_some_iff.mp hcmp.peerHead).1
    rw [hterm, hindex, if_neg (not_not.mpr rfl), if_pos hpos]
    exact ⟨hpos, hlen⟩
  · -- the sentinels do not differ
    have hk : 0 < args.prevLogIndex := by
      refine Nat.pos_of_ne_zero fun h0 => hne ?_
      rw [h0, hcmp.head] at hprev
      rw [h0, hcmp.peerHead] at hx
      rw [← Option.some.inj hx]
      exact Option.some.inj hprev
    rw [hterm, hindex, if_pos (hcmp.positive hk hx).ne']
    dsimp only
    split
    · rename_i hfound
      obtain ⟨z, hz, hzx⟩ :=
        Option.map_eq_some_iff.mp (Node.lastIndexOfTerm_spec n.log x.term _ hfound)
      have hother : n.log[args.prevLogIndex]?.map LogEntry.term ≠ some x.term := by
        rw [hprev]
        exact fun heq => hne (Option.some.inj heq).symm
      exact ⟨Nat.le_add_left _ _, hcmp.before hk hz hx hzx hother⟩
    · exact ⟨Node.firstIndexOfTerm_pos _ _ _ hk, Node.firstIndexOfTerm_le _ _ _⟩

theorem Meeting.quiet {old new : Node × Node} (h : Meeting p L M old.1 old.2)
    (hq : Quiet p old new) : Meeting p L M new.1 new.2 where
  role := hq.role.trans h.role
  log := hq.log.trans h.log
  peerLog := hq.peerLog.trans h.peerLog
  term := hq.peerTerm
  next := by
    rw [hq.next]
    exact h.next
  matched := by
    rw [hq.matched]
    exact h.matched

theorem Meeting.send (h : Meeting p L M n m) :
    ∃ call, n.sendAppendEntries p = some call ∧ Asks p L n call.args := by
  obtain ⟨hpos, hle⟩ := h.next
  rw [← h.log] at hle
  obtain ⟨call, hcall⟩ := Node.sendAppendEntries_isSome (hpos.trans hle) hle
  obtain ⟨prev, hprev, -, hidx, hkey, hterm, -, hentries, -⟩ := Node.sendAppendEntries_some hcall
  rw [h.log] at hprev hentries
  refine ⟨call, hcall, hterm.symm, by omega, ?_, hentries⟩
  rw [hprev, hkey]
  rfl

/-- A leader that processes such a rejection of a request from below `nextIndex[p]`. -/
theorem Comparable.reject (hcmp : Comparable n.log M) (hl : n.role = .leader)
    (ht : n.currentTerm = args.term)
    (hprev : n.log[args.prevLogIndex]?.map LogEntry.term = some args.prevLogTerm)
    {reply : AppendEntriesReply} (htells : Tells M args reply)
    (hreply : reply.term ≤ n.currentTerm) (hrej : reply.success = false)
    (hlt : args.prevLogIndex < n.nextIndex p) (hle : n.nextIndex p ≤ n.log.length) :
    ∃ call, n.handleAppendReply true p args reply = some (n.backUp p reply, [call]) ∧
      1 ≤ (n.backUp p reply).nextIndex p ∧ (n.backUp p reply).nextIndex p < n.nextIndex p := by
  obtain ⟨hpos, hback⟩ := hcmp.back (p := p) hprev htells
  have hnext : (n.backUp p reply).nextIndex p = n.nextIndexAfterConflict p reply :=
    Function.update_self _ _ _
  rw [← hnext] at hpos hback
  have hdec : (n.backUp p reply).nextIndex p < n.nextIndex p := hback.trans_lt hlt
  have hlog : (n.backUp p reply).nextIndex p ≤ (n.backUp p reply).log.length :=
    hdec.le.trans hle
  obtain ⟨call, hcall⟩ := Node.sendAppendEntries_isSome (hpos.trans hlog) hlog
  exact ⟨call, Node.handleAppendReply_rejected hl ht hreply hrej hcall, hpos, hdec⟩

/-- A leader that processes an acceptance. -/
theorem Node.handleAppendReply_matched (hl : n.role = .leader) (ht : n.currentTerm = args.term)
    {reply : AppendEntriesReply} (hreply : reply.term ≤ n.currentTerm)
    (hsucc : reply.success = true) :
    ∃ n', n.handleAppendReply true p args reply = some (n', []) ∧ n'.log = n.log ∧
      n'.nextIndex p = max (args.prevLogIndex + args.entries.length) (n.matchIndex p) + 1 := by
  refine ⟨_, handleAppendReply_accepted hl ht hreply hsucc, ?_⟩
  obtain ⟨c, b, hadv⟩ := maybeAdvance_eq (n.recordMatch p args)
  rw [hadv]
  refine ⟨rfl, ?_⟩
  show Function.update n.nextIndex p _ p = _
  rw [Function.update_self]
  split <;> omega

theorem Meeting.reject (h : Meeting p L M n m) (hcmp : Comparable L M) (hask : Asks p L n args)
    {m' : Node} {reply : AppendEntriesReply} (htells : Tells M args reply)
    (hlog : m'.log = m.log) (hterm : m'.currentTerm = args.term)
    (hreply : reply.term = args.term) (hrej : reply.success = false) :
    ∃ n' calls, n.handleAppendReply true p args reply = some (n', calls) ∧
      Meeting p L M n' m' ∧ n'.nextIndex p < n.nextIndex p := by
  obtain rfl := h.log
  obtain ⟨call, hn, hpos, hdec⟩ := hcmp.reject h.role hask.term hask.prev htells
    (hreply.trans hask.term.symm).le hrej (by rw [← hask.index]; exact Nat.lt_succ_self _) h.next.2
  exact ⟨_, _, hn,
    { role := h.role
      log := rfl
      peerLog := hlog.trans h.peerLog
      term := (hterm.trans hask.term.symm).le
      next := ⟨hpos, hdec.le.trans h.next.2⟩
      matched := h.matched }, hdec⟩

/-- The peer takes the rest of the leader's log. -/
theorem Meeting.accept (h : Meeting p L M n m) (hcmp : Comparable L M) (hask : Asks p L n args)
    (hacc : m.Accepts args) {reply : AppendEntriesReply} (hreply : reply.term = args.term)
    (hsucc : reply.success = true) :
    ∃ n' calls, n.handleAppendReply true p args reply = some (n', calls) ∧
      Caught p L n' (m.merged Cluster.persistOk args) := by
  obtain rfl := h.log
  have hnext : args.prevLogIndex + 1 ≤ n.log.length := hask.index ▸ h.next.2
  have hend : args.prevLogIndex + 1 + args.entries.length = n.log.length := by
    rw [hask.entries, List.length_drop]
    omega
  obtain ⟨n', hn, -, hn'⟩ := Node.handleAppendReply_matched (p := p) h.role hask.term
    (hreply.trans hask.term.symm).le hsucc
  have hmatched := h.matched
  refine ⟨n', [], hn, by omega, ?_⟩
  have hlen := hacc.length
  obtain ⟨x, hx, hkey⟩ := Option.map_eq_some_iff.mp hacc.2
  obtain ⟨prev, hprev, hprevTerm⟩ := Option.map_eq_some_iff.mp hask.prev
  rw [h.peerLog] at hlen hx
  have hsame := hcmp.agree _ x prev hx hprev (hkey.trans hprevTerm.symm)
  intro k hk
  rw [Node.merged_log, h.peerLog]
  rcases Foundation.splice_segment hcmp.agree args.entries _ hlen hnext hsame
    (hask.entries ▸ List.prefix_refl _) with ⟨heq, htake, -⟩ | ⟨heq, -⟩
  · rw [hend] at htake
    rw [heq, ← List.getElem?_take_of_lt hk, htake, List.getElem?_take_of_lt hk]
  · rw [heq, hend, List.take_length]

/-- **One round.** It completes, and either the leader goes back or the peer has
caught up. -/
theorem round_cases (hcmp : Comparable L M) (h : Meeting p L M n m) :
    (∃ n' m', exchange p n m = some (n', m', false) ∧ Meeting p L M n' m' ∧
        n'.nextIndex p < n.nextIndex p) ∨
      ∃ n' m', exchange p n m = some (n', m', true) ∧ Caught p L n' m' := by
  obtain ⟨call, hcall, hask⟩ := h.send
  obtain ⟨⟨m', reply⟩, hm⟩ := Node.handleAppendEntries_isSome m Cluster.persistOk call.args
  have hround : ∀ {n' : Node} {calls : List AppendCall},
      n.handleAppendReply true p call.args reply = some (n', calls) →
      exchange p n m = some (n', m', reply.success) := by
    intro n' calls hn
    unfold exchange
    simp only [hcall, hm, hn, Option.bind_eq_bind, Option.bind_some, Option.pure_def]
  have hle : m.currentTerm ≤ call.args.term := hask.term ▸ h.term
  have htells : reply.success = false → reply.term ≤ call.args.term → Tells M call.args reply :=
    fun hrej hterm => h.peerLog ▸ Node.handleAppendEntries_tells hm hrej hterm
  rcases Node.handleAppendEntries_cases hm with ⟨hlt, -⟩ |
    ⟨-, ⟨-, rfl, rfl⟩ | ⟨x, hx, ⟨-, rfl, rfl⟩ | ⟨hkey, rfl, hsucc, hterm⟩⟩⟩
  · exact absurd hlt (not_lt.mpr hle)
  · obtain ⟨n', calls, hn, hmeet, hdec⟩ := h.reject hcmp hask (htells rfl le_rfl)
      (Node.follow_log _ _ _) (Node.follow_currentTerm _ _ _) rfl rfl
    exact Or.inl ⟨n', _, hround hn, hmeet, hdec⟩
  · obtain ⟨n', calls, hn, hmeet, hdec⟩ := h.reject hcmp hask (htells rfl le_rfl)
      (Node.follow_log _ _ _) (Node.follow_currentTerm _ _ _) rfl rfl
    exact Or.inl ⟨n', _, hround hn, hmeet, hdec⟩
  · right
    have hacc : m.Accepts call.args := ⟨hle, by rw [hx, ← hkey]; rfl⟩
    obtain ⟨n', calls, hn, hcaught⟩ := h.accept hcmp hask hacc
      (hterm.trans (Node.merged_currentTerm Cluster.persistOk m call.args)) hsucc
    exact ⟨n', _, hsucc ▸ hround hn, hcaught⟩

/-- Nothing at all happens between two rounds. -/
theorem Meeting.quiet_refl {st : Node × Node} (h : Meeting p L M st.1 st.2) : Quiet p st st :=
  ⟨rfl, rfl, rfl, rfl, rfl, h.term, rfl⟩

/-- However many rejections there have been, each took the leader back. -/
theorem meeting_run (hcmp : Comparable L M) {start st : Node × Node}
    {rounds : List (Node × Node)} (h0 : Meeting p L M start.1 start.2)
    (h : Run (rejection p) (Quiet p) start rounds st) :
    Meeting p L M st.1 st.2 ∧ rounds.length + st.1.nextIndex p ≤ start.1.nextIndex p := by
  induction h with
  | nil => exact ⟨h0, by simp⟩
  | snoc _ hq hs ih =>
      obtain ⟨hmeet, hlen⟩ := ih
      have hx := rejection_eq_some.mp hs
      have hsame := hq.next
      rcases round_cases hcmp (hmeet.quiet hq) with ⟨n, m, hx', hmeet', hdec⟩ | ⟨n, m, hx', -⟩
      · cases hx.symm.trans hx'
        refine ⟨hmeet', ?_⟩
        rw [List.length_append, List.length_singleton]
        omega
      · cases hx.symm.trans hx'

/-- The leader cannot go back forever. -/
theorem accepted_of_meeting (hcmp : Comparable L M) {start : Node × Node}
    (h0 : Meeting p L M start.1 start.2) :
    ∃ rounds st n m, Run (rejection p) (Quiet p) start rounds st ∧
      exchange p st.1 st.2 = some (n, m, true) := by
  have hstep : ∀ st : Node × Node, Meeting p L M st.1 st.2 →
      (∃ n m, exchange p st.1 st.2 = some (n, m, true)) ∨
        ∃ now new, Quiet p st now ∧ rejection p st now = some new ∧
          Meeting p L M new.1 new.2 ∧ new.1.nextIndex p < st.1.nextIndex p := by
    intro st hst
    rcases round_cases hcmp hst with ⟨n, m, hx, hmeet, hdec⟩ | ⟨n, m, hx, -⟩
    · exact Or.inr ⟨st, (n, m), hst.quiet_refl, rejection_eq_some.mpr hx, hmeet, hdec⟩
    · exact Or.inl ⟨n, m, hx⟩
  obtain ⟨rounds, st, hrun, -, ⟨n, m, hx⟩, -⟩ :=
    Run.exists_of_measure (fun st : Node × Node => st.1.nextIndex p) hstep h0
  exact ⟨rounds, st, n, m, hrun, hx⟩

/-- Leader and peer, in rounds that follow one another: after any number of rejections
the next round completes, a rejection takes `nextIndex[p]` back to no less than `1`, an
acceptance leaves the peer with the leader's log `L` and `nextIndex[p]` at its end. There
are fewer than `nextIndex[p]` rejections in a row, and an acceptance comes. -/
structure Converges (p : NodeId) (L : List LogEntry) (start : Node × Node) : Prop where
  few : ∀ rounds st, Run (rejection p) (Quiet p) start rounds st →
    rounds.length < start.1.nextIndex p
  round : ∀ rounds old now, Run (rejection p) (Quiet p) start rounds old → Quiet p old now →
    ∃ n m accepted, exchange p now.1 now.2 = some (n, m, accepted) ∧
      (accepted = false → 1 ≤ n.nextIndex p ∧ n.nextIndex p < now.1.nextIndex p ∧
        n.log = L ∧ m.log = start.2.log) ∧
      (accepted = true → n.nextIndex p = L.length ∧ ∀ k < L.length, m.log[k]? = L[k]?)
  ends : ∃ rounds st n m, Run (rejection p) (Quiet p) start rounds st ∧
    exchange p st.1 st.2 = some (n, m, true)

/-- **Fast backup converges** where the rounds follow one another. -/
theorem Meeting.converges (hcmp : Comparable L M) {start : Node × Node}
    (h0 : Meeting p L M start.1 start.2) : Converges p L start where
  few := by
    intro rounds st hrun
    obtain ⟨hst, hlen⟩ := meeting_run hcmp h0 hrun
    have := hst.next.1
    omega
  round := by
    intro rounds old now hrun hq
    obtain ⟨hold, -⟩ := meeting_run hcmp h0 hrun
    rcases round_cases hcmp (hold.quiet hq) with ⟨n, m, hx, hnew, hdec⟩ | ⟨n, m, hx, hcaught⟩
    · exact ⟨n, m, false, hx,
        fun _ => ⟨hnew.next.1, hdec, hnew.log, hnew.peerLog.trans h0.peerLog.symm⟩, by simp⟩
    · exact ⟨n, m, true, hx, by simp, fun _ => ⟨hcaught.next, hcaught.log⟩⟩
  ends := accepted_of_meeting hcmp h0

end Round

/-! ## §3  In a run -/

section Runs

variable {cfg : Config} {s : Cluster} {A : State NodeId LogEntry}

theorem comparable_of_good {L M : List LogEntry} (hi : Inv (params cfg) A)
    (hL : Good (params cfg) A L) (hM : Good (params cfg) A M) : Comparable L M where
  head := hL.1
  peerHead := hM.1
  positive := fun hk hy => hM.term_pos hi.ledger hk hy
  agree := hM.agree hL
  before := fun hk hx hy hxy hne => hL.before hM hk hx hy hxy hne

theorem good_log (hi : Inv (params cfg) A) (habs : Abstracts s A) (i : NodeId) :
    Good (params cfg) A (s.nodes i).log :=
  habs.log i ▸ hi.good i

theorem comparable_logs (hi : Inv (params cfg) A) (habs : Abstracts s A) (i p : NodeId) :
    Comparable (s.nodes i).log (s.nodes p).log :=
  comparable_of_good hi (good_log hi habs i) (good_log hi habs p)

theorem meeting_of_inv (hw : Wired cfg s) (hi : Inv (params cfg) A) (habs : Abstracts s A)
    {i p : NodeId} (hl : (s.nodes i).role = .leader)
    (hterm : (s.nodes p).currentTerm ≤ (s.nodes i).currentTerm)
    (hpos : 1 ≤ (s.nodes i).nextIndex p)
    (hle : (s.nodes i).nextIndex p ≤ (s.nodes i).log.length) :
    Meeting p (s.nodes i).log (s.nodes p).log (s.nodes i) (s.nodes p) where
  role := hl
  log := rfl
  peerLog := rfl
  term := hterm
  next := ⟨hpos, hle⟩
  matched := matchIndex_lt hw hi habs hl p

end Runs

end KVEngine.Raft
