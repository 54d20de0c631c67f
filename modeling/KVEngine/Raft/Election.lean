import KVEngine.Raft.Safety

/-!
# Election safety

`HandleAppendEntries` calls `becomeFollower` also for a request of the current
term, and `becomeFollower` clears `votedFor`. A voter that has heard from the
leader it elected can therefore vote again in the same term, for somebody else
(`two_leaders`).

What is true: in every run in which no voter whose vote was cleared gives another
one, and no term wraps, a term has at most one leader (`election_safety`).
A node then votes for one candidate a term, a leader has the votes of a
majority, and two majorities meet.
-/

namespace KVEngine.Raft

open Foundation (Run)
open Foundation.ReplicatedLog (Role)

/-! ## §1  Two leaders in one term -/

/-- Three members with 64-bit terms. -/
def trio : Config := Config.ofIds [[65], [66], [67]] incrTerm (by decide)

/-- Its members, with unbounded terms. -/
def triple : Config := { trio with incr := (· + 1) }

/-- `A` and `C` both start an election for term `1`. `B` votes for `A`, which
becomes leader; its first heartbeat clears the vote of `B`, and `B` answers the
request of `C`, long delayed, with a second vote. -/
def trioActions : List Action :=
  [.startElection [65], .startElection [67], .deliverVote 0, .voteReply 0,
   .deliverAppend 0, .deliverVote 3, .voteReply 3]

def trioEnd : Cluster :=
  Foundation.endState (Cluster.step trio) NoSnapshot (Cluster.initial trio) trioActions

theorem two_leaders :
    Run (Cluster.step trio) NoSnapshot (Cluster.initial trio) trioActions trioEnd ∧
      Event.becameLeader [65] 1 [sentinel] ∈ trioEnd.history ∧
      Event.becameLeader [67] 1 [sentinel] ∈ trioEnd.history ∧
      ¬ UniqueLeaders trioEnd.history :=
  ⟨Foundation.run_endState (by decide +kernel), by decide +kernel, by decide +kernel,
    by decide +kernel⟩

/-! ## §2  The condition -/

/-- The history has a vote of `v` in term `T` for somebody other than `c`. -/
def votedElsewhere (H : List Event) (v : NodeId) (T : ℕ) (c : NodeId) : Bool :=
  H.any fun
    | .voted v' T' c' => v' == v && T' == T && c' != c
    | _ => false

/-- A voter whose vote for somebody else has been cleared grants no vote request of its
current term. -/
def NoRevote (s : Cluster) : Action → Prop
  | .deliverVote r => ∀ rpc ∈ s.voteRpcs[r]?,
      rpc.args.term = (s.nodes rpc.dst).currentTerm → (s.nodes rpc.dst).votedFor = [] →
      ∀ last ∈ (s.nodes rpc.dst).lastLogIndexAndTerm,
        (s.nodes rpc.dst).GrantsVote rpc.args last.1 last.2 →
        votedElsewhere s.history rpc.dst rpc.args.term rpc.args.candidateId = false
  | _ => True

/-- Terms do not wrap, snapshots discard nothing, and nobody gives a second vote. -/
def VotesOnce (cfg : Config) (s : Cluster) (a : Action) : Prop :=
  Plain cfg s a ∧ NoRevote s a

instance (s : Cluster) (a : Action) : Decidable (NoRevote s a) :=
  match a with
  | .deliverVote r => inferInstanceAs (Decidable (∀ rpc ∈ s.voteRpcs[r]?, _ → _ → ∀ last ∈ _, _))
  | .startElection _ | .heartbeat _ | .propose _ _ | .voteReply _ | .deliverAppend _
  | .appendReply _ | .applyWake _ | .applyTake _ | .applySend _ | .takeSnapshot _ _ _
  | .crash _ | .crashInVote _ | .crashInAppend _ => isTrue trivial

instance (cfg : Config) (s : Cluster) (a : Action) : Decidable (VotesOnce cfg s a) :=
  inferInstanceAs (Decidable (_ ∧ _))

theorem eq_of_votedElsewhere {H : List Event} {v c c' : NodeId} {T : ℕ}
    (h : votedElsewhere H v T c = false) (hv : Event.voted v T c' ∈ H) : c' = c := by
  have := List.any_eq_false.mp h _ hv
  simpa using this

/-! ## §3  One vote a term -/

/-- A node has voted for one candidate a term, and in its current term
`votedFor` is that candidate or has been cleared. -/
structure Voting (s : Cluster) : Prop where
  bound : ∀ v T c, Event.voted v T c ∈ s.history → T ≤ (s.nodes v).currentTerm
  unique : ∀ v T c c', Event.voted v T c ∈ s.history → Event.voted v T c' ∈ s.history →
    c = c'
  kept : ∀ v c, Event.voted v (s.nodes v).currentTerm c ∈ s.history →
    (s.nodes v).votedFor = c ∨ (s.nodes v).votedFor = []

/-- What a step that casts no vote may do to a node: move to a later term, or
stay and keep or clear `votedFor`. -/
def KeepsVote (n n' : Node) : Prop :=
  n.currentTerm < n'.currentTerm ∨
    n'.currentTerm = n.currentTerm ∧ (n'.votedFor = n.votedFor ∨ n'.votedFor = [])

theorem KeepsVote.refl (n : Node) : KeepsVote n n := Or.inr ⟨rfl, Or.inl rfl⟩

theorem KeepsVote.term_le {n n' : Node} (h : KeepsVote n n') :
    n.currentTerm ≤ n'.currentTerm := by
  rcases h with h | ⟨h, -⟩ <;> omega

theorem keepsVote_becomeFollower {n : Node} {t : ℕ} (h : n.currentTerm ≤ t) :
    KeepsVote n (n.becomeFollower true t) := by
  rcases Nat.eq_or_lt_of_le h with h | h
  · exact Or.inr ⟨h.symm, Or.inr rfl⟩
  · exact Or.inl h

section Frames

variable {s s' : Cluster} {i : NodeId} {n : Node}

theorem keepsVote_update (hn : KeepsVote (s.nodes i) n)
    (hnodes : s'.nodes = Function.update s.nodes i n) :
    ∀ v, KeepsVote (s.nodes v) (s'.nodes v) :=
  Cluster.forall_nodes hnodes (P := fun v => KeepsVote (s.nodes v)) hn fun _ _ => KeepsVote.refl _

/-- **Frame.** A step that casts no vote. -/
theorem Voting.frame (h : Voting s) (hnodes : s'.nodes = Function.update s.nodes i n)
    (hn : KeepsVote (s.nodes i) n)
    (hH : ∀ v T c, Event.voted v T c ∈ s'.history → Event.voted v T c ∈ s.history) :
    Voting s' where
  bound := fun v T c hv =>
    (h.bound v T c (hH v T c hv)).trans (keepsVote_update hn hnodes v).term_le
  unique := fun v T c c' hv hv' => h.unique v T c c' (hH v T c hv) (hH v T c' hv')
  kept := by
    intro v c hv
    have hold := hH _ _ _ hv
    rcases keepsVote_update hn hnodes v with hlt | ⟨ht, hf⟩
    · have := h.bound _ _ _ hold
      omega
    · rw [ht] at hold
      rcases hf with hf | hf
      · rw [hf]
        exact h.kept v c hold
      · exact Or.inr hf

/-- A vote of `i` for `c` in the term it is now in, where every earlier vote of
`i` in that term was for `c` too. -/
theorem Voting.cast {c : NodeId} {U : ℕ} (h : Voting s)
    (hnodes : s'.nodes = Function.update s.nodes i n) (hU : n.currentTerm = U)
    (hf : n.votedFor = c) (hhist : s'.history = Event.voted i U c :: s.history)
    (hle : (s.nodes i).currentTerm ≤ U)
    (hold : ∀ c', Event.voted i U c' ∈ s.history → c' = c) : Voting s' := by
  have hself : s'.nodes i = n := by rw [hnodes, Function.update_self]
  have hother : ∀ v, v ≠ i → s'.nodes v = s.nodes v := by
    intro v hv
    rw [hnodes, Function.update_of_ne hv]
  have hmem : ∀ {v T d}, Event.voted v T d ∈ s'.history →
      (v = i ∧ T = U ∧ d = c) ∨ Event.voted v T d ∈ s.history := by
    intro v T d hv
    rw [hhist] at hv
    simpa using hv
  refine ⟨?_, ?_, ?_⟩
  · intro v T d hv
    rcases hmem hv with ⟨rfl, rfl, -⟩ | hv
    · rw [hself, hU]
    · by_cases hvi : v = i
      · subst hvi
        rw [hself, hU]
        exact (h.bound v T d hv).trans hle
      · rw [hother v hvi]
        exact h.bound v T d hv
  · intro v T d d' hd hd'
    rcases hmem hd with ⟨rfl, rfl, rfl⟩ | hd <;> rcases hmem hd' with ⟨h1, h2, h3⟩ | hd'
    · exact h3.symm
    · exact (hold d' hd').symm
    · rw [h1, h2] at hd
      rw [h3]
      exact hold d hd
    · exact h.unique v T d d' hd hd'
  · intro v d hv
    by_cases hvi : v = i
    · subst hvi
      rw [hself, hU] at hv
      rw [hself]
      left
      rcases hmem hv with ⟨-, -, rfl⟩ | hv
      · exact hf
      · rw [hf, hold d hv]
    · rw [hother v hvi] at hv ⊢
      rcases hmem hv with ⟨rfl, -, -⟩ | hv
      · exact absurd rfl hvi
      · exact h.kept v d hv

end Frames

/-! ## §4  Every step keeps one vote a term -/

section Steps

variable {cfg : Config} {s s' : Cluster} {i : NodeId} {r : ℕ}

theorem voting_startElection (hw : Wired cfg s) (h : Voting s)
    (hincr : cfg.incr (s.nodes i).currentTerm = (s.nodes i).currentTerm + 1)
    (hs : s.startElection cfg i = some s') : Voting s' := by
  obtain ⟨-, -, n, calls, hn, rfl⟩ := Cluster.startElection_some hs
  obtain ⟨e, -, rfl, rfl⟩ := Node.startElection_some hn
  refine h.cast rfl hincr (hw.sound i).id ?_ (Nat.le_succ _) fun c' hc' => ?_
  · rw [← hincr]
    rfl
  · -- no vote has been cast in the new term
    have hb := h.bound _ _ _ hc'
    omega

theorem voting_deliverVote (h : Voting s)
    (hC : NoRevote s (.deliverVote r)) (hs : s.deliverVote r = some s') : Voting s' := by
  obtain ⟨rpc, n, reply, hr, -, hn, rfl⟩ := Cluster.deliverVote_some hs
  have hask := hC rpc hr
  rcases Node.handleRequestVote_cases hn with ⟨-, rfl, rfl⟩ |
    ⟨hterm, lastIdx, lastTerm, hlast, ⟨hg, rfl, rfl⟩ | ⟨-, rfl, rfl⟩⟩
  · exact h.frame rfl (KeepsVote.refl _) fun _ _ _ hv => hv
  · set n := (s.nodes rpc.dst).adoptTerm true rpc.args.term with hadopt
    have hnterm : n.currentTerm = rpc.args.term := Node.adoptTerm_currentTerm hterm
    refine h.cast rfl hnterm rfl rfl hterm fun c' hc' => ?_
    rcases Nat.eq_or_lt_of_le hterm with heq | hlt
    · -- same term: the node keeps its vote, or has lost it and gives no other
      have hsame : n = s.nodes rpc.dst := if_neg (by omega)
      change n.lastLogIndexAndTerm = some (lastIdx, lastTerm) at hlast
      change n.GrantsVote rpc.args lastIdx lastTerm at hg
      rw [hsame] at hlast hg
      by_cases hempty : (s.nodes rpc.dst).votedFor = []
      · exact eq_of_votedElsewhere (hask heq.symm hempty _ hlast hg) hc'
      · have hcand := hg.2.resolve_left hempty
        have hkept := (h.kept _ c' (by rw [heq]; exact hc')).resolve_right hempty
        exact hkept.symm.trans hcand
    · have hb := h.bound _ _ _ hc'
      omega
  · exact h.frame rfl
      (Node.adoptTerm_rule (fun _ => keepsVote_becomeFollower hterm) (KeepsVote.refl _))
      fun _ _ _ hv => hv

theorem keepsVote_handleAppendEntries {n n' : Node} {args : AppendEntriesArgs}
    {reply : AppendEntriesReply}
    (h : n.handleAppendEntries Cluster.persistOk args = some (n', reply)) :
    KeepsVote n n' := by
  have hfollow : n.currentTerm ≤ args.term → ∀ m : Node, m.currentTerm = args.term →
      m.votedFor = [] → KeepsVote n m := by
    intro hle m ht hf
    rcases Nat.eq_or_lt_of_le hle with heq | hlt
    · exact Or.inr ⟨ht.trans heq.symm, Or.inr hf⟩
    · exact Or.inl (ht ▸ hlt)
  rcases Node.handleAppendEntries_cases h with ⟨-, rfl, -⟩ |
    ⟨hle, ⟨-, rfl, -⟩ | ⟨_, -, ⟨-, rfl, -⟩ | ⟨-, rfl, -⟩⟩⟩
  · exact KeepsVote.refl _
  · exact hfollow hle _ rfl rfl
  · exact hfollow hle _ rfl rfl
  · obtain ⟨-, ht, -⟩ := accept_follower n args
    refine hfollow hle _ ht ?_
    obtain ⟨-, -, -, h1, -⟩ := Node.appendAndPersist_rest true (n.follow true args) args
    obtain ⟨-, -, -, h2, -⟩ :=
      Node.followCommit_rest ((n.follow true args).appendAndPersist true args) args
    exact h2.trans h1

theorem keepsVote_handleVoteReply {n n' : Node} {term election : ℕ}
    {reply : RequestVoteReply} {calls : List AppendCall}
    (h : n.handleVoteReply true term election reply = some (n', calls)) :
    KeepsVote n n' := by
  rcases Node.handleVoteReply_cases h with ⟨hlt, rfl, -⟩ | ⟨rfl, -⟩ |
    ⟨-, -, -, ⟨-, rfl, -⟩ | ⟨-, rfl, -⟩⟩
  · exact Or.inl hlt
  · exact KeepsVote.refl _
  · exact Or.inr ⟨rfl, Or.inl rfl⟩
  · exact Or.inr ⟨rfl, Or.inl rfl⟩

theorem keepsVote_handleAppendReply {n n' : Node} {peer : NodeId}
    {args : AppendEntriesArgs} {reply : AppendEntriesReply} {calls : List AppendCall}
    (h : n.handleAppendReply true peer args reply = some (n', calls)) :
    KeepsVote n n' := by
  rcases Node.handleAppendReply_cases h with ⟨hlt, rfl, -⟩ | ⟨rfl, -⟩ |
    ⟨-, -, -, ⟨-, -, rfl⟩ | ⟨-, rfl, -⟩⟩
  · exact Or.inl hlt
  · exact KeepsVote.refl _
  · obtain ⟨k, b, heq⟩ := Node.maybeAdvance_eq (n.recordMatch peer args)
    rw [heq]
    exact Or.inr ⟨rfl, Or.inl rfl⟩
  · exact Or.inr ⟨rfl, Or.inl rfl⟩

theorem keepsVote_restart {n m : Node} (hs : Sound cfg i m) (h : KeepsVote n m) :
    KeepsVote n m.restart := by
  rw [hs.restart_eq]
  exact h

theorem voting_step {a : Action} (hw : Wired cfg s) (h : Voting s)
    (hC : VotesOnce cfg s a) (hs : s.step cfg a = some s') : Voting s' := by
  have hsame : ∀ (j : NodeId) {n : Node}, n.currentTerm = (s.nodes j).currentTerm →
      n.votedFor = (s.nodes j).votedFor → KeepsVote (s.nodes j) n :=
    fun _ _ ht hf => Or.inr ⟨ht, Or.inl hf⟩
  cases a with
  | startElection i => exact voting_startElection hw h hC.1 hs
  | deliverVote r => exact voting_deliverVote h hC.2 hs
  | heartbeat i =>
      obtain ⟨-, -, calls, -, rfl⟩ := Cluster.heartbeat_some hs
      exact h.frame (Function.update_eq_self i s.nodes).symm (KeepsVote.refl _)
        fun _ _ _ hv => hv
  | propose i command =>
      obtain ⟨-, rfl | ⟨-, calls, -, rfl⟩⟩ := Cluster.propose_some hs
      · exact h
      · exact h.frame rfl (hsame i rfl rfl) fun v T c hv => by simpa using hv
  | voteReply r =>
      obtain ⟨rpc, reply, n, calls, -, -, -, hn, rfl⟩ := Cluster.voteReply_some hs
      refine h.frame rfl (keepsVote_handleVoteReply hn) fun v T c hv => ?_
      rcases List.mem_append.mp hv with hv | hv
      · split at hv <;> simp at hv
      · exact hv
  | deliverAppend r =>
      obtain ⟨rpc, n, reply, -, -, hn, rfl⟩ := Cluster.deliverAppend_some hs
      refine h.frame rfl (keepsVote_handleAppendEntries hn) fun v T c hv => ?_
      rcases List.mem_append.mp hv with hv | hv
      · split at hv <;> simp at hv
      · exact hv
  | appendReply r =>
      obtain ⟨rpc, reply, n, calls, -, -, -, hn, rfl⟩ := Cluster.appendReply_some hs
      refine h.frame rfl (keepsVote_handleAppendReply hn) fun v T c hv => ?_
      rcases List.mem_append.mp hv with hv | hv
      · split at hv <;> simp at hv
      · exact hv
  | applyWake i =>
      rw [Cluster.applyWake_some hs]
      exact h.frame rfl (hsame i rfl rfl) fun _ _ _ hv => hv
  | applyTake i =>
      rcases Cluster.applyTake_some hs with rfl | ⟨-, e, pc, -, -, rfl⟩
      · exact h.frame rfl (hsame i rfl rfl) fun _ _ _ hv => hv
      · exact h.frame rfl (hsame i rfl rfl) fun v T c hv => by simpa using hv
  | applySend i =>
      obtain ⟨msg, -, rfl⟩ := Cluster.applySend_some hs
      exact h.frame rfl (hsame i rfl rfl) fun v T c hv => by simpa using hv
  | takeSnapshot i upToIndex data =>
      have h0 : upToIndex = 0 := hC.1
      subst h0
      obtain ⟨n, b, hn, rfl⟩ := Cluster.takeSnapshot_some hs
      have heq := (hw.sound i).takeSnapshot_zero hn
      exact h.frame rfl (hsame i (by rw [heq]) (by rw [heq])) fun _ _ _ hv => hv
  | crash i =>
      rw [Cluster.crash_some hs]
      exact h.frame rfl (keepsVote_restart (hw.sound i) (KeepsVote.refl _))
        fun _ _ _ hv => hv
  | crashInVote r =>
      obtain ⟨rpc, -, hlt, rfl⟩ := Cluster.crashInVote_some hs
      exact h.frame rfl (keepsVote_restart ((hw.sound rpc.dst).becomeFollower _)
        (keepsVote_becomeFollower (Nat.le_of_lt hlt))) fun _ _ _ hv => hv
  | crashInAppend r =>
      obtain ⟨rpc, -, hle, rfl⟩ := Cluster.crashInAppend_some hs
      exact h.frame rfl (keepsVote_restart ((hw.sound rpc.dst).becomeFollower _)
        (keepsVote_becomeFollower hle)) fun _ _ _ hv => hv

end Steps

/-! ## §5  Election safety -/

section Runs

variable {cfg : Config} {as : List Action} {s : Cluster}

theorem VotesOnce.plain_run
    (h : Run (Cluster.step cfg) (VotesOnce cfg) (Cluster.initial cfg) as s) :
    Run (Cluster.step cfg) (Plain cfg) (Cluster.initial cfg) as s :=
  h.mono fun hC hs => ⟨hC.1, hs⟩

theorem voting_run
    (h : Run (Cluster.step cfg) (VotesOnce cfg) (Cluster.initial cfg) as s) :
    Wired cfg s ∧ Voting s := by
  refine h.invariant (I := fun s => Wired cfg s ∧ Voting s) ⟨wired_initial cfg, ?_⟩
    fun hinv hC hs => ⟨wired_step hinv.1 hC.1 hs, voting_step hinv.1 hinv.2 hC hs⟩
  constructor <;> simp [Cluster.initial]

theorem uniqueLeaders_of_voting (hw : Wired cfg s) (hv : Voting s) :
    UniqueLeaders s.history := by
  intro i j T L M hi hj
  obtain ⟨F, hF, hvF⟩ := hw.ballots.won i T L hi
  obtain ⟨G, hG, hvG⟩ := hw.ballots.won j T M hj
  obtain ⟨q, hqF, hqG⟩ := hF.inter hG
  exact hv.unique q T i j (hvF q hqF) (hvG q hqG)

/-- **Election Safety.** In every run in which terms do not wrap and no voter whose
vote was cleared gives another one, no two nodes become leader in one term. -/
theorem election_safety
    (h : Run (Cluster.step cfg) (VotesOnce cfg) (Cluster.initial cfg) as s) :
    UniqueLeaders s.history := by
  obtain ⟨hw, hv⟩ := voting_run h
  exact uniqueLeaders_of_voting hw hv

/-- The pair of `Safety`, which elects two leaders in two terms, meets the
condition. -/
theorem election_safety_pair :
    Event.becameLeader [65] 1 [sentinel] ∈ pairEnd.history ∧
      UniqueLeaders pairEnd.history := by
  have hrun : Run (Cluster.step pair) (VotesOnce pair) (Cluster.initial pair) pairActions
      (Foundation.endState (Cluster.step pair) (VotesOnce pair) (Cluster.initial pair)
        pairActions) := Foundation.run_endState (by decide +kernel)
  have heq : (Foundation.endState (Cluster.step pair) (VotesOnce pair)
      (Cluster.initial pair) pairActions).history = pairEnd.history := by
    decide +kernel
  exact ⟨by decide +kernel, heq ▸ election_safety hrun⟩

end Runs

end KVEngine.Raft
