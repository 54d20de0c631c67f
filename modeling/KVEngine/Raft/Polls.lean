import KVEngine.Raft.Faulty
import KVEngine.Raft.Safety

/-!
# Whose votes a counter counts

`startElection` gives each election its own counter, captured by goroutines that
outlive the election. Whatever terms do and whichever files are lost, every counter of
a running process counts distinct members that granted their vote in that election's
term (`Poll`), so a leader was elected by a majority of its own term
(`elected_by_majority`).

The win test stands in the goroutines, so it is made only when a reply comes. A
member that needs no reply never makes it: `candidates_lack_quorum_iff`.
-/

namespace KVEngine.Raft

open Foundation (Run Always bind_isSome guard_isSome guard_bind_eq_some)
open Foundation.ReplicatedLog (Role)

/-! ## §1  Polls -/

/-- The counter of election `e` of `i` counts the votes of `Q` in term `T`. -/
structure Poll (cfg : Config) (s : Cluster) (i : NodeId) (e T : ℕ) (Q : Finset NodeId) :
    Prop where
  member : ∀ q ∈ Q, q ∈ cfg.ids
  self : i ∈ Q
  count : (s.nodes i).elections[e]? = some Q.card
  voted : ∀ q ∈ Q, Event.voted q T i ∈ s.history
  term : ∀ rpc ∈ s.voteRpcs, rpc.src = i → rpc.life = s.lives i → rpc.election = e →
    rpc.args.term = T
  /-- A voter is counted once: its request is over. -/
  done : ∀ rpc ∈ s.voteRpcs, rpc.src = i → rpc.life = s.lives i → rpc.election = e →
    rpc.dst ∈ Q → rpc.phase = .finished

structure Polls (cfg : Config) (s : Cluster) : Prop where
  known : ∀ i, (s.nodes i).id = i ∧ (s.nodes i).peers = cfg.peers i
  call : ∀ rpc ∈ s.voteRpcs, rpc.src ∈ cfg.ids ∧ rpc.dst ∈ cfg.peers rpc.src ∧
    rpc.args.candidateId = rpc.src ∧ rpc.life ≤ s.lives rpc.src
  counter : ∀ rpc ∈ s.voteRpcs, rpc.life = s.lives rpc.src →
    rpc.election < (s.nodes rpc.src).elections.length
  keys : (s.voteRpcs.map VoteRpc.key).Nodup
  granted : ∀ rpc ∈ s.voteRpcs, ∀ reply, rpc.phase = .replied reply →
    reply.voteGranted = true → Event.voted rpc.dst rpc.args.term rpc.src ∈ s.history
  poll : ∀ i e, e < (s.nodes i).elections.length → ∃ T Q, Poll cfg s i e T Q ∧
    ((s.nodes i).role = .candidate → e + 1 = (s.nodes i).elections.length →
      T = (s.nodes i).currentTerm)
  running : ∀ i, (s.nodes i).role = .candidate → 0 < (s.nodes i).elections.length
  won : ∀ i T L, Event.becameLeader i T L ∈ s.history →
    ∃ F, Majority cfg F ∧ i ∈ F ∧ ∀ q ∈ F, Event.voted q T i ∈ s.history
  leader : ∀ i, (s.nodes i).role = .leader →
    ∃ L, Event.becameLeader i (s.nodes i).currentTerm L ∈ s.history

theorem polls_initial (cfg : Config) : Polls cfg (Cluster.initial cfg) where
  known := fun _ => ⟨rfl, rfl⟩
  call := by simp [Cluster.initial]
  counter := by simp [Cluster.initial]
  keys := List.nodup_nil
  granted := by simp [Cluster.initial]
  poll := fun i e he => absurd he (Nat.not_lt_zero e)
  running := fun i hc => by cases hc
  won := by simp [Cluster.initial]
  leader := fun i hl => by cases hl

section Steps

variable {cfg : Config} {s s' : Cluster} {i : NodeId} {e T : ℕ} {Q : Finset NodeId}

/-- **Frame.** A poll survives what leaves its counter and its requests' contents. -/
theorem Poll.frame (h : Poll cfg s i e T Q)
    (hcount : (s'.nodes i).elections[e]? = (s.nodes i).elections[e]?)
    (hlife : s'.lives i = s.lives i) (hhist : s.history ⊆ s'.history)
    (hreq : ∀ rpc' ∈ s'.voteRpcs, rpc'.src = i → rpc'.election = e →
      ∃ rpc ∈ s.voteRpcs, ∃ ph, rpc' = { rpc with phase := ph } ∧
        (rpc.phase = .finished → ph = .finished)) : Poll cfg s' i e T Q where
  member := h.member
  self := h.self
  count := hcount.trans h.count
  voted := fun q hq => hhist (h.voted q hq)
  term := by
    intro rpc' hr hsrc hl hel
    obtain ⟨rpc, hm, ph, rfl, -⟩ := hreq rpc' hr hsrc hel
    exact h.term rpc hm hsrc (hl.trans hlife) hel
  done := by
    intro rpc' hr hsrc hl hel hd
    obtain ⟨rpc, hm, ph, rfl, hph⟩ := hreq rpc' hr hsrc hel
    exact hph (h.done rpc hm hsrc (hl.trans hlife) hel hd)

/-- A poll that survives stays the one of the candidacy that goes on. -/
theorem Polls.kept (h : Polls cfg s) (he : e < (s.nodes i).elections.length)
    (hcount : (s'.nodes i).elections[e]? = (s.nodes i).elections[e]?)
    (hlife : s'.lives i = s.lives i) (hhist : s.history ⊆ s'.history)
    (hreq : ∀ rpc' ∈ s'.voteRpcs, rpc'.src = i → rpc'.election = e →
      ∃ rpc ∈ s.voteRpcs, ∃ ph, rpc' = { rpc with phase := ph } ∧
        (rpc.phase = .finished → ph = .finished))
    (hcand : (s'.nodes i).role = .candidate → e + 1 = (s'.nodes i).elections.length →
      (s.nodes i).role = .candidate ∧ e + 1 = (s.nodes i).elections.length ∧
        (s'.nodes i).currentTerm = (s.nodes i).currentTerm) :
    ∃ T Q, Poll cfg s' i e T Q ∧
      ((s'.nodes i).role = .candidate → e + 1 = (s'.nodes i).elections.length →
        T = (s'.nodes i).currentTerm) := by
  obtain ⟨T, Q, hQ, hT⟩ := h.poll i e he
  refine ⟨T, Q, hQ.frame hcount hlife hhist hreq, fun hc hlast => ?_⟩
  obtain ⟨hc', hlast', hterm⟩ := hcand hc hlast
  exact (hT hc' hlast').trans hterm.symm

theorem VotesMove.requests (h : VotesMove s s') {rpc' : VoteRpc} (hr : rpc' ∈ s'.voteRpcs) :
    ∃ rpc ∈ s.voteRpcs, ∃ ph, rpc' = { rpc with phase := ph } ∧
      (rpc.phase = .finished → ph = .finished) := by
  obtain ⟨rpc, hm, ph, heq, hph⟩ := h.mem rpc' hr
  exact ⟨rpc, hm, ph, heq, hph.done⟩

theorem Polls.known_update {n : Node} (h : Polls cfg s)
    (hnodes : s'.nodes = Function.update s.nodes i n) (hid : n.id = (s.nodes i).id)
    (hpeers : n.peers = (s.nodes i).peers) :
    ∀ j, (s'.nodes j).id = j ∧ (s'.nodes j).peers = cfg.peers j :=
  Cluster.forall_nodes hnodes (P := fun j m => m.id = j ∧ m.peers = cfg.peers j)
    ⟨hid.trans (h.known i).1, hpeers.trans (h.known i).2⟩ fun j _ => h.known j

/-- A leader has become one: it is enough to look at the node that changed. -/
theorem Polls.leader_update {n : Node} (h : Polls cfg s)
    (hnodes : s'.nodes = Function.update s.nodes i n) (hhist : s.history ⊆ s'.history)
    (hn : n.role = .leader → ∃ L, Event.becameLeader i n.currentTerm L ∈ s'.history) :
    ∀ j, (s'.nodes j).role = .leader →
      ∃ L, Event.becameLeader j (s'.nodes j).currentTerm L ∈ s'.history := by
  refine Cluster.forall_nodes hnodes
    (P := fun j m => m.role = .leader → ∃ L, Event.becameLeader j m.currentTerm L ∈ s'.history)
    hn fun j _ hl => ?_
  obtain ⟨L, hL⟩ := h.leader j hl
  exact ⟨L, hhist hL⟩

/-- The parts of `Polls` that speak of requests only, when no request is sent. -/
theorem VotesMove.call (h : VotesMove s s') (hp : Polls cfg s)
    (hlives : ∀ j, s.lives j ≤ s'.lives j) :
    ∀ rpc ∈ s'.voteRpcs, rpc.src ∈ cfg.ids ∧ rpc.dst ∈ cfg.peers rpc.src ∧
      rpc.args.candidateId = rpc.src ∧ rpc.life ≤ s'.lives rpc.src := by
  intro rpc' hr
  obtain ⟨rpc, hm, ph, rfl, -⟩ := h.mem rpc' hr
  obtain ⟨h1, h2, h3, h4⟩ := hp.call rpc hm
  exact ⟨h1, h2, h3, h4.trans (hlives _)⟩

theorem VotesMove.granted (h : VotesMove s s') (hp : Polls cfg s)
    (hhist : s.history ⊆ s'.history) :
    ∀ rpc ∈ s'.voteRpcs, ∀ reply, rpc.phase = .replied reply → reply.voteGranted = true →
      Event.voted rpc.dst rpc.args.term rpc.src ∈ s'.history := by
  intro rpc' hr reply hrep hg
  obtain ⟨rpc, hm, ph, rfl, hph⟩ := h.mem rpc' hr
  rcases hph.reply hrep with hold | hnew
  · exact hhist (hp.granted rpc hm reply hold hg)
  · exact hnew hg

theorem VotesMove.counter (h : VotesMove s s') (hp : Polls cfg s)
    (hsame : ∀ j, s'.lives j = s.lives j ∧
        (s'.nodes j).elections.length = (s.nodes j).elections.length ∨
      s.lives j < s'.lives j) :
    ∀ rpc ∈ s'.voteRpcs, rpc.life = s'.lives rpc.src →
      rpc.election < (s'.nodes rpc.src).elections.length := by
  intro rpc' hr hl
  obtain ⟨rpc, hm, ph, rfl, -⟩ := h.mem rpc' hr
  dsimp only at hl ⊢
  rcases hsame rpc.src with ⟨hlives, hlen⟩ | hlt
  · rw [hlen]
    exact hp.counter rpc hm (hl.trans hlives)
  · -- the process that asked is gone
    have hle := (hp.call rpc hm).2.2.2
    omega

theorem won_mono (hp : Polls cfg s) (hhist : s.history ⊆ s'.history) {L : List LogEntry}
    (hev : Event.becameLeader i T L ∈ s.history) :
    ∃ F, Majority cfg F ∧ i ∈ F ∧ ∀ q ∈ F, Event.voted q T i ∈ s'.history := by
  obtain ⟨F, hF, hself, hv⟩ := hp.won i T L hev
  exact ⟨F, hF, hself, fun q hq => hhist (hv q hq)⟩

/-! ## §2  Steps -/

theorem polls_idle {n : Node} (h : Polls cfg s)
    (hnodes : s'.nodes = Function.update s.nodes i n) (hlives : s'.lives = s.lives)
    (hn : Idle (s.nodes i) n) (hvotes : VotesMove s s') (hhist : s.history ⊆ s'.history)
    (hlead : NoLeader s s') : Polls cfg s' := by
  have helections : ∀ j, (s'.nodes j).elections = (s.nodes j).elections :=
    Cluster.forall_nodes hnodes (P := fun j m => m.elections = (s.nodes j).elections)
      hn.elections fun _ _ => rfl
  have hcand : ∀ j, (s'.nodes j).role = .candidate → (s.nodes j).role = .candidate ∧
      (s'.nodes j).currentTerm = (s.nodes j).currentTerm := by
    refine Cluster.forall_nodes hnodes
      (P := fun j m => m.role = .candidate → (s.nodes j).role = .candidate ∧
        m.currentTerm = (s.nodes j).currentTerm) (fun hc => ?_) fun _ _ hc => ⟨hc, rfl⟩
    rcases hn.role with hf | ⟨hrole, hterm⟩
    · cases hf.symm.trans hc
    · exact ⟨hrole.symm.trans hc, hterm⟩
  refine ⟨h.known_update hnodes hn.id hn.peers, hvotes.call h fun j => (congrFun hlives j).ge,
    ?_, hvotes.keys ▸ h.keys, hvotes.granted h hhist, ?_, ?_, ?_, ?_⟩
  · exact hvotes.counter h fun j => Or.inl ⟨congrFun hlives j, by rw [helections]⟩
  · intro j e he
    rw [helections] at he
    exact h.kept he (by rw [helections]) (congrFun hlives j) hhist
      (fun rpc hr _ _ => hvotes.requests hr)
      fun hc hlast => ⟨(hcand j hc).1, helections j ▸ hlast, (hcand j hc).2⟩
  · exact fun j hc => helections j ▸ h.running j (hcand j hc).1
  · exact fun j T L hev => won_mono h hhist (hlead j T L hev)
  · refine h.leader_update hnodes hhist fun hl => ?_
    rcases hn.role with hf | ⟨hrole, hterm⟩
    · cases hf.symm.trans hl
    · obtain ⟨L, hL⟩ := h.leader i (hrole.symm.trans hl)
      exact ⟨L, hterm ▸ hhist hL⟩

theorem polls_restart {n : Node} (h : Polls cfg s)
    (hnodes : s'.nodes = Function.update s.nodes i n)
    (hlives : s'.lives = Function.update s.lives i (s.lives i + 1))
    (hn : Fresh (s.nodes i) n) (hvotes : VotesMove s s') (hhist : s'.history = s.history) :
    Polls cfg s' := by
  have hsub : s.history ⊆ s'.history := by rw [hhist]; exact List.Subset.refl _
  have hself : s'.lives i = s.lives i + 1 := by rw [hlives, Function.update_self]
  have hother : ∀ j, j ≠ i → s'.lives j = s.lives j ∧ s'.nodes j = s.nodes j := by
    intro j hj
    rw [hlives, hnodes, Function.update_of_ne hj, Function.update_of_ne hj]
    exact ⟨rfl, rfl⟩
  have hlife : ∀ j, s'.lives j = s.lives j ∧
      (s'.nodes j).elections.length = (s.nodes j).elections.length ∨ s.lives j < s'.lives j := by
    intro j
    by_cases hj : j = i
    · subst hj
      right
      omega
    · obtain ⟨h1, h2⟩ := hother j hj
      exact Or.inl ⟨h1, by rw [h2]⟩
  refine ⟨h.known_update hnodes hn.id hn.peers, hvotes.call h fun j => ?_,
    hvotes.counter h hlife, hvotes.keys ▸ h.keys, hvotes.granted h hsub, ?_, ?_, ?_, ?_⟩
  · rcases hlife j with ⟨hl, -⟩ | hl <;> omega
  · intro j e he
    by_cases hj : j = i
    · subst hj
      rw [hnodes, Function.update_self, hn.elections] at he
      exact absurd he (Nat.not_lt_zero e)
    · obtain ⟨h1, h2⟩ := hother j hj
      rw [h2] at he
      refine h.kept he (by rw [h2]) h1 hsub (fun rpc hr _ _ => hvotes.requests hr) ?_
      rw [h2]
      exact fun hc hlast => ⟨hc, hlast, rfl⟩
  · refine Cluster.forall_nodes hnodes (P := fun _ m => m.role = .candidate →
      0 < m.elections.length) (fun hc => ?_) fun j _ => h.running j
    cases hn.role.symm.trans hc
  · exact fun j T L hev => won_mono h hsub (hhist ▸ hev)
  · refine h.leader_update hnodes hsub fun hl => ?_
    cases hn.role.symm.trans hl

section Campaign

variable {args : RequestVoteArgs} {rpc : VoteRpc}

/-- The requests after `startElection`. -/
theorem mem_asked (hvotes : s'.voteRpcs = s.voteRpcs ++ (cfg.peers i).map
      (.ask i (s.lives i) (s.nodes i).elections.length args)) (hr : rpc ∈ s'.voteRpcs) :
    rpc ∈ s.voteRpcs ∨
      ∃ p ∈ cfg.peers i, rpc = .ask i (s.lives i) (s.nodes i).elections.length args p := by
  rw [hvotes] at hr
  rcases List.mem_append.mp hr with hr | hr
  · exact Or.inl hr
  · obtain ⟨p, hp, rfl⟩ := List.mem_map.mp hr
    exact Or.inr ⟨p, hp, rfl⟩

/-- The new counter counts the candidate's own vote. -/
theorem poll_self {n : Node} (h : Polls cfg s) (hi : i ∈ cfg.ids)
    (hnodes : s'.nodes = Function.update s.nodes i n) (hlives : s'.lives = s.lives)
    (helections : n.elections = (s.nodes i).elections ++ [1])
    (hvotes : s'.voteRpcs = s.voteRpcs ++ (cfg.peers i).map
      (.ask i (s.lives i) (s.nodes i).elections.length args))
    (hvoted : Event.voted i args.term i ∈ s'.history) :
    Poll cfg s' i (s.nodes i).elections.length args.term {i} := by
  -- no request is older than its counter
  have hnew : ∀ rpc ∈ s'.voteRpcs, rpc.src = i → rpc.life = s'.lives i →
      rpc.election = (s.nodes i).elections.length →
      ∃ p ∈ cfg.peers i, rpc = .ask i (s.lives i) (s.nodes i).elections.length args p := by
    intro rpc hr hsrc hl hel
    refine (mem_asked hvotes hr).resolve_left fun hold => ?_
    have hcount := h.counter rpc hold (by rw [hl, hlives, hsrc])
    rw [hsrc] at hcount
    omega
  refine ⟨?_, Finset.mem_singleton_self i, ?_, ?_, ?_, ?_⟩
  · intro q hq
    rw [Finset.mem_singleton.mp hq]
    exact hi
  · rw [hnodes, Function.update_self, helections]
    simp
  · intro q hq
    rw [Finset.mem_singleton.mp hq]
    exact hvoted
  · intro rpc hr hsrc hl hel
    obtain ⟨p, -, rfl⟩ := hnew rpc hr hsrc hl hel
    rfl
  · intro rpc hr hsrc hl hel hd
    obtain ⟨p, hp, rfl⟩ := hnew rpc hr hsrc hl hel
    exact absurd (Finset.mem_singleton.mp hd) ((cfg.mem_peers i hi p).mp hp).2

theorem polls_campaign {n : Node} (h : Polls cfg s) (hi : i ∈ cfg.ids)
    (hnodes : s'.nodes = Function.update s.nodes i n) (hlives : s'.lives = s.lives)
    (hid : n.id = (s.nodes i).id) (hpeers : n.peers = (s.nodes i).peers)
    (hrole : n.role = .candidate) (helections : n.elections = (s.nodes i).elections ++ [1])
    (hcand : args.candidateId = (s.nodes i).id) (hterm : args.term = n.currentTerm)
    (hvotes : s'.voteRpcs = s.voteRpcs ++ (s.nodes i).peers.map
      (.ask i (s.lives i) (s.nodes i).elections.length args))
    (hhist : s'.history = .voted i n.currentTerm i :: s.history) : Polls cfg s' := by
  rw [(h.known i).2] at hvotes
  have hsub : s.history ⊆ s'.history := by
    rw [hhist]
    exact List.subset_cons_self _ _
  have hlen : ∀ j, (s.nodes j).elections.length ≤ (s'.nodes j).elections.length :=
    Cluster.forall_nodes hnodes
      (P := fun j m => (s.nodes j).elections.length ≤ m.elections.length)
      (by simp [helections]) fun _ _ => le_rfl
  have hself : (s'.nodes i).elections.length = (s.nodes i).elections.length + 1 := by
    rw [hnodes, Function.update_self, helections, List.length_append]
    rfl
  refine ⟨h.known_update hnodes hid hpeers, ?_, ?_, ?_, ?_, ?_, ?_, ?_, ?_⟩
  · intro rpc hr
    rw [hlives]
    rcases mem_asked hvotes hr with hr | ⟨p, hp, rfl⟩
    · exact h.call rpc hr
    · exact ⟨hi, hp, hcand.trans (h.known i).1, le_rfl⟩
  · intro rpc hr hl
    rw [hlives] at hl
    rcases mem_asked hvotes hr with hr | ⟨p, -, rfl⟩
    · exact (h.counter rpc hr hl).trans_le (hlen _)
    · show (s.nodes i).elections.length < (s'.nodes i).elections.length
      omega
  · rw [hvotes]
    refine keys_ask hi h.keys fun rpc hr hsrc hl => ?_
    have hcount := h.counter rpc hr (by rw [hl, hsrc])
    rwa [hsrc] at hcount
  · intro rpc hr reply hp hg
    rcases mem_asked hvotes hr with hr | ⟨p, -, rfl⟩
    · exact hsub (h.granted rpc hr reply hp hg)
    · cases hp
  · intro j e he
    by_cases hnew : j = i ∧ e = (s.nodes i).elections.length
    · obtain ⟨rfl, rfl⟩ := hnew
      refine ⟨args.term, {j}, poll_self h hi hnodes hlives helections hvotes ?_, fun _ _ => ?_⟩
      · rw [hhist, hterm]
        exact List.mem_cons_self
      · rw [hnodes, Function.update_self]
        exact hterm
    · -- an election that was under way
      have hold : e < (s.nodes j).elections.length ∧
          (s'.nodes j).elections[e]? = (s.nodes j).elections[e]? := by
        by_cases hj : j = i
        · subst hj
          have hne : e ≠ (s.nodes j).elections.length := fun heq => hnew ⟨rfl, heq⟩
          have hlt : e < (s.nodes j).elections.length := by omega
          rw [hnodes, Function.update_self, helections, List.getElem?_append_left hlt]
          exact ⟨hlt, rfl⟩
        · rw [hnodes, Function.update_of_ne hj] at he ⊢
          exact ⟨he, rfl⟩
      refine h.kept hold.1 hold.2 (congrFun hlives j) hsub (fun rpc hr hsrc hel => ?_)
        fun hc hlast => ?_
      · rcases mem_asked hvotes hr with hr | ⟨p, -, rfl⟩
        · exact ⟨rpc, hr, rpc.phase, rfl, fun hf => hf⟩
        · exact absurd ⟨hsrc.symm, hel.symm⟩ hnew
      · -- the last election of `i` is the new one
        have hj : j ≠ i := by
          rintro rfl
          have := hold.1
          omega
        rw [hnodes, Function.update_of_ne hj] at hc hlast ⊢
        exact ⟨hc, hlast, rfl⟩
  · refine Cluster.forall_nodes hnodes (P := fun _ m => m.role = .candidate →
      0 < m.elections.length) (fun _ => ?_) fun j _ => h.running j
    rw [helections, List.length_append]
    exact Nat.succ_pos _
  · intro j T L hev
    rw [hhist] at hev
    exact won_mono h hsub (by simpa using hev)
  · refine h.leader_update hnodes hsub fun hl => ?_
    cases hrole.symm.trans hl

end Campaign

section Count

variable {r : ℕ} {rpc : VoteRpc} {n : Node}

/-- **Counting.** Closing a request and counting its vote adds its voter. -/
theorem Poll.count_vote (h : Polls cfg s) (hQ : Poll cfg s rpc.src rpc.election T Q)
    (hr : s.voteRpcs[r]? = some rpc) (hl : rpc.life = s.lives rpc.src) (hnew : rpc.dst ∉ Q)
    (hvoted : Event.voted rpc.dst T rpc.src ∈ s.history)
    (hnodes : s'.nodes = Function.update s.nodes rpc.src n) (hlives : s'.lives = s.lives)
    (helections : n.elections = ((s.nodes rpc.src).countVote rpc.election).elections)
    (hvotes : s'.voteRpcs = s.voteRpcs.set r { rpc with phase := .finished })
    (hhist : s.history ⊆ s'.history) :
    Poll cfg s' rpc.src rpc.election T (insert rpc.dst Q) := by
  obtain ⟨hsrc, hdst, -⟩ := h.call rpc (List.mem_of_getElem? hr)
  have hV : VotesMove s s' := VotesMove.set hr hvotes (Or.inr (Or.inl rfl))
  refine ⟨?_, Finset.mem_insert_of_mem hQ.self, ?_, ?_, ?_, ?_⟩
  · intro q hq
    rcases Finset.mem_insert.mp hq with rfl | hq
    · exact ((cfg.mem_peers _ hsrc _).mp hdst).1
    · exact hQ.member q hq
  · obtain ⟨hlt, hget⟩ := List.getElem?_eq_some_iff.mp hQ.count
    rw [hnodes, Function.update_self, helections, Finset.card_insert_of_notMem hnew]
    simp [Node.countVote, hlt, hget]
  · intro q hq
    rcases Finset.mem_insert.mp hq with rfl | hq
    · exact hhist hvoted
    · exact hhist (hQ.voted q hq)
  · intro rpc' hr' hsrc' hl' hel'
    obtain ⟨rpc₀, hm, ph, rfl, -⟩ := hV.mem rpc' hr'
    exact hQ.term rpc₀ hm hsrc' (hl'.trans (congrFun hlives _)) hel'
  · intro rpc' hr' hsrc' hl' hel' hd'
    rw [hlives] at hl'
    rcases Finset.mem_insert.mp hd' with hd | hd
    · have heq : rpc' = { rpc with phase := .finished } := by
        refine VotesMove.closed h.keys hr hvotes hr' ?_
        simp only [VoteRpc.key, Prod.mk.injEq]
        exact ⟨hsrc', hl'.trans hl.symm, hel', hd⟩
      rw [heq]
    · obtain ⟨rpc₀, hm, ph, rfl, hph⟩ := hV.mem rpc' hr'
      exact hph.done (hQ.done rpc₀ hm hsrc' hl' hel' hd)

/-- Enough votes are a majority. -/
theorem Poll.majority (hknown : (s.nodes i).peers = cfg.peers i) (hi : i ∈ cfg.ids)
    (hQ : Poll cfg s' i e T Q) (hwon : (s.nodes i).needed ≤ Q.card) : Majority cfg Q := by
  refine ⟨hQ.member, ?_⟩
  rw [Node.needed, hknown, ← cfg.length_ids hi] at hwon
  omega

theorem polls_count {reply : RequestVoteReply} (h : Polls cfg s)
    (hr : s.voteRpcs[r]? = some rpc) (hlife : rpc.life = s.lives rpc.src)
    (hphase : rpc.phase = .replied reply) (hgranted : reply.voteGranted = true)
    (hcand : (s.nodes rpc.src).role = .candidate)
    (hterm : (s.nodes rpc.src).currentTerm = rpc.args.term)
    (hnodes : s'.nodes = Function.update s.nodes rpc.src n) (hlives : s'.lives = s.lives)
    (hid : n.id = (s.nodes rpc.src).id) (hpeers : n.peers = (s.nodes rpc.src).peers)
    (hsame : n.currentTerm = (s.nodes rpc.src).currentTerm)
    (helections : n.elections = ((s.nodes rpc.src).countVote rpc.election).elections)
    (hvotes : s'.voteRpcs = s.voteRpcs.set r { rpc with phase := .finished })
    (hresult : n.role = .candidate ∧ n.elections.getD rpc.election 0 < (s.nodes rpc.src).needed ∧
        s'.history = s.history ∨
      n.role = .leader ∧ (s.nodes rpc.src).needed ≤ n.elections.getD rpc.election 0 ∧
        s'.history = .becameLeader rpc.src n.currentTerm n.log ::
          .accepted rpc.src n.currentTerm (n.log.length - 1) :: s.history) :
    Polls cfg s' := by
  have hmem := List.mem_of_getElem? hr
  have hV : VotesMove s s' := VotesMove.set hr hvotes (Or.inr (Or.inl rfl))
  have hsub : s.history ⊆ s'.history := by
    rcases hresult with ⟨-, -, hhist⟩ | ⟨-, -, hhist⟩
    · rw [hhist]
      exact List.Subset.refl _
    · rw [hhist]
      exact List.subset_append_right [_, _] _
  -- the vote comes from a member not counted yet
  obtain ⟨T, Q, hQ, hlastT⟩ := h.poll rpc.src rpc.election (h.counter rpc hmem hlife)
  have hT : rpc.args.term = T := hQ.term rpc hmem rfl hlife rfl
  have hnew : rpc.dst ∉ Q := by
    intro hd
    cases hphase.symm.trans (hQ.done rpc hmem rfl hlife rfl hd)
  have hQ' := hQ.count_vote h hr hlife hnew (hT ▸ h.granted rpc hmem reply hphase hgranted)
    hnodes hlives helections hvotes hsub
  have hcount : n.elections.getD rpc.election 0 = (insert rpc.dst Q).card := by
    have hget := hQ'.count
    rw [hnodes, Function.update_self] at hget
    rw [List.getD_eq_getElem?_getD, hget]
    rfl
  have hlen : ∀ j, (s'.nodes j).elections.length = (s.nodes j).elections.length :=
    Cluster.forall_nodes hnodes
      (P := fun j m => m.elections.length = (s.nodes j).elections.length)
      (by simp [helections, Node.countVote]) fun _ _ => rfl
  have hcands : ∀ j, (s'.nodes j).role = .candidate → (s.nodes j).role = .candidate ∧
      (s'.nodes j).currentTerm = (s.nodes j).currentTerm :=
    Cluster.forall_nodes hnodes
      (P := fun j m => m.role = .candidate → (s.nodes j).role = .candidate ∧
        m.currentTerm = (s.nodes j).currentTerm) (fun _ => ⟨hcand, hsame⟩)
      fun _ _ hc => ⟨hc, rfl⟩
  refine ⟨h.known_update hnodes hid hpeers, hV.call h fun j => (congrFun hlives j).ge,
    hV.counter h fun j => Or.inl ⟨congrFun hlives j, hlen j⟩, hV.keys ▸ h.keys,
    hV.granted h hsub, ?_, fun j hc => hlen j ▸ h.running j (hcands j hc).1, ?_, ?_⟩
  · intro j e he
    rw [hlen] at he
    by_cases hthis : j = rpc.src ∧ e = rpc.election
    · obtain ⟨rfl, rfl⟩ := hthis
      refine ⟨T, _, hQ', fun hc hlast => ?_⟩
      rw [(hcands _ hc).2]
      exact hlastT (hcands _ hc).1 (hlen _ ▸ hlast)
    · have hget : (s'.nodes j).elections[e]? = (s.nodes j).elections[e]? := by
        by_cases hj : j = rpc.src
        · subst hj
          have he' : rpc.election ≠ e := fun heq => hthis ⟨rfl, heq.symm⟩
          rw [hnodes, Function.update_self, helections, Node.countVote,
            List.getElem?_set_ne he']
        · rw [hnodes, Function.update_of_ne hj]
      exact h.kept he hget (congrFun hlives j) hsub (fun rpc hr _ _ => hV.requests hr)
        fun hc hlast => ⟨(hcands j hc).1, hlen j ▸ hlast, (hcands j hc).2⟩
  · intro j U L hev
    rcases hresult with ⟨-, -, hhist⟩ | ⟨-, hge, hhist⟩
    · exact won_mono h hsub (hhist ▸ hev)
    · rw [hhist] at hev
      rcases List.mem_cons.mp hev with heq | hev
      · cases heq
        have hmaj := hQ'.majority (h.known rpc.src).2 (h.call rpc hmem).1 (hcount ▸ hge)
        rw [hsame, hterm, hT]
        exact ⟨_, hmaj, hQ'.self, hQ'.voted⟩
      · exact won_mono h hsub (by simpa using hev)
  · refine h.leader_update hnodes hsub fun hl => ?_
    rcases hresult with ⟨hc, -⟩ | ⟨-, -, hhist⟩
    · cases hc.symm.trans hl
    · rw [hhist]
      exact ⟨n.log, List.mem_cons_self⟩

end Count

theorem polls_step (h : Polls cfg s) (hstep : ElectionStep cfg s s') : Polls cfg s' := by
  cases hstep with
  | idle hnodes hlives hn hvotes hhist hlead =>
      exact polls_idle h hnodes hlives hn hvotes hhist hlead
  | restart hnodes hlives hn hvotes hhist => exact polls_restart h hnodes hlives hn hvotes hhist
  | campaign args hi hnodes hlives hid hpeers hrole helections hcand hterm hvotes hhist =>
      exact polls_campaign h hi hnodes hlives hid hpeers hrole helections hcand hterm hvotes hhist
  | count hr hlife hphase hgranted hcand hterm hnodes hlives hid hpeers hsame helections hvotes
      hresult =>
      exact polls_count h hr hlife hphase hgranted hcand hterm hnodes hlives hid hpeers hsame
        helections hvotes hresult

end Steps

/-! ## §3  Runs -/

section Runs

variable {cfg : Config} {as : List Attempt} {s : Cluster}

theorem polls_run (h : Run (Cluster.attempt cfg) Always (Cluster.initial cfg) as s) :
    Polls cfg s := by
  refine h.invariant (polls_initial cfg) fun {u v a} hu _ hs => ?_
  exact polls_step hu (electionStep_of_attempt (fun rpc hr => (hu.call rpc hr).2.2.1) hs)

/-- **Majorities elect.** In every run of every cluster, whatever happens to the files
and whatever terms do: a node that becomes leader in term `T` had the votes in term
`T` of a strict majority of the members, its own among them; and a node that leads has
become leader in the term it leads in. -/
theorem elected_by_majority
    (h : Run (Cluster.attempt cfg) Always (Cluster.initial cfg) as s) :
    (∀ i T L, Event.becameLeader i T L ∈ s.history →
      ∃ F, Majority cfg F ∧ i ∈ F ∧ ∀ q ∈ F, Event.voted q T i ∈ s.history) ∧
    ∀ i, (s.nodes i).role = .leader →
      ∃ L, Event.becameLeader i (s.nodes i).currentTerm L ∈ s.history :=
  ⟨(polls_run h).won, (polls_run h).leader⟩

/-- In the run of the pair both members voted for `A` in term `1` and for `B` in term
`2`. -/
theorem elected_by_majority_pair :
    (∃ F, Majority pair F ∧ [66] ∈ F ∧ ∀ q ∈ F, Event.voted q 2 [66] ∈ pairEnd.history) ∧
      ∃ L, Event.becameLeader [66] (pairEnd.nodes [66]).currentTerm L ∈ pairEnd.history := by
  obtain ⟨hwon, hlead⟩ := elected_by_majority (attempts_of_run pair_run)
  have hev : Event.becameLeader [66] 2 [sentinel, ⟨1, some [7]⟩] ∈ pairEnd.history := by
    decide +kernel
  exact ⟨hwon _ _ _ hev, hlead [66] (by decide +kernel)⟩

/-! ### Candidates -/

/-- The node is no candidate that holds a quorum. -/
def LacksQuorum (cfg : Config) (n : Node) : Prop :=
  n.role = .candidate → ∀ e, e + 1 = n.elections.length →
    n.elections.getD e 0 < cfg.ids.length / 2 + 1

theorem lacksQuorum_step {s' : Cluster} (hp : Polls cfg s) (hsize : cfg.ids.length ≠ 1)
    (h : ∀ i, LacksQuorum cfg (s.nodes i)) (hstep : ElectionStep cfg s s') :
    ∀ i, LacksQuorum cfg (s'.nodes i) := by
  cases hstep with
  | idle hnodes hlives hn hvotes hhist hlead =>
      refine Cluster.forall_nodes hnodes (P := fun _ m => LacksQuorum cfg m)
        (fun hc => ?_) fun j _ => h j
      rw [hn.elections]
      rcases hn.role with hf | ⟨hrole, -⟩
      · cases hf.symm.trans hc
      · exact h _ (hrole.symm.trans hc)
  | restart hnodes hlives hn hvotes hhist =>
      refine Cluster.forall_nodes hnodes (P := fun _ m => LacksQuorum cfg m)
        (fun hc => ?_) fun j _ => h j
      cases hn.role.symm.trans hc
  | @campaign i n args hi hnodes hlives hid hpeers hrole helections hcand hterm hvotes hhist =>
      refine Cluster.forall_nodes hnodes (P := fun _ m => LacksQuorum cfg m)
        (fun _ e hlast => ?_) fun j _ => h j
      rw [helections, List.length_append] at hlast
      have he : e = (s.nodes i).elections.length := Nat.succ.inj hlast
      have hone : n.elections.getD e 0 = 1 := by
        rw [helections, he]
        simp
      -- one vote is no quorum of two
      have hpos := List.length_pos_of_mem hi
      omega
  | @count r rpc reply n hr hlife hphase hgranted hcand hterm hnodes hlives hid hpeers hsame
      helections hvotes hresult =>
      refine Cluster.forall_nodes hnodes (P := fun _ m => LacksQuorum cfg m)
        (fun hc e hlast => ?_) fun j _ => h j
      have hsrc := (hp.call rpc (List.mem_of_getElem? hr)).1
      rcases hresult with ⟨-, hlt, -⟩ | ⟨hl, -⟩
      · by_cases he : rpc.election = e
        · rw [← he, cfg.length_ids hsrc, ← (hp.known rpc.src).2]
          exact hlt
        · -- a vote for an earlier election of the same node
          have hold := h rpc.src hcand e (by simpa [helections, Node.countVote] using hlast)
          rw [helections, Node.countVote, List.getD_eq_getElem?_getD,
            List.getElem?_set_ne he, ← List.getD_eq_getElem?_getD]
          exact hold
      · cases hl.symm.trans hc

theorem lacksQuorum_run (hsize : cfg.ids.length ≠ 1)
    (h : Run (Cluster.attempt cfg) Always (Cluster.initial cfg) as s) :
    ∀ i, LacksQuorum cfg (s.nodes i) := by
  refine (h.invariant (I := fun u => Polls cfg u ∧ ∀ i, LacksQuorum cfg (u.nodes i))
    ⟨polls_initial cfg, fun i hc => by cases hc⟩ ?_).2
  rintro u v a ⟨hp, hu⟩ - hs
  have hstep := electionStep_of_attempt (fun rpc hr => (hp.call rpc hr).2.2.1) hs
  exact ⟨polls_step hp hstep, lacksQuorum_step hp hsize hu hstep⟩

/-- The votes that a candidate has: those of its last election, in its term. -/
theorem candidate_poll (h : Polls cfg s) {i : NodeId} (hc : (s.nodes i).role = .candidate) :
    ∃ Q, Poll cfg s i ((s.nodes i).elections.length - 1) (s.nodes i).currentTerm Q := by
  have hpos := h.running i hc
  obtain ⟨T, Q, hQ, hT⟩ := h.poll i _ (Nat.sub_one_lt_of_lt hpos)
  have heq := hT hc (Nat.sub_add_cancel hpos)
  exact ⟨Q, heq ▸ hQ⟩

/-- A member's first election: its own vote is counted before anyone is asked. -/
theorem exists_election {i : NodeId} (hi : i ∈ cfg.ids) : ∃ t,
    Run (Cluster.attempt cfg) Always (Cluster.initial cfg) [⟨.startElection i, Cluster.persistOk⟩]
      t ∧ (t.nodes i).role = .candidate ∧ (t.nodes i).elections = [1] := by
  have hlog : 0 < ((Cluster.initial cfg).nodes i).log.length := Nat.one_pos
  have hfresh : ((Cluster.initial cfg).nodes i).elections = [] := rfl
  obtain ⟨t, ht⟩ : ∃ t, (Cluster.initial cfg).attempt cfg ⟨.startElection i, Cluster.persistOk⟩ =
      some t := by
    refine guard_isSome ⟨hi, nofun⟩ ?_
    exact bind_isSome (Node.startElection_isSome hlog _ _) fun _ _ => ⟨_, rfl⟩
  obtain ⟨-, h⟩ := guard_bind_eq_some ht
  obtain ⟨⟨n, calls⟩, hn, h⟩ := Option.bind_eq_some_iff.mp h
  obtain ⟨e, -, rfl, -⟩ := Node.startElection_some hn
  refine ⟨t, Run.nil.snoc trivial ht, ?_, ?_⟩
  · rw [← Option.some.inj h]
    simp [Node.campaign]
  · rw [← Option.some.inj h]
    simp [hfresh]

/-- **A quorum is acted upon**, in every run and whatever happens to the files, exactly
in clusters that do not consist of a single member: the votes that a candidate's
counter counts in its term are fewer than `N/2 + 1`. -/
theorem candidates_lack_quorum_iff (cfg : Config) :
    (∀ as s, Run (Cluster.attempt cfg) Always (Cluster.initial cfg) as s →
      ∀ i ∈ cfg.ids, (s.nodes i).role = .candidate →
        ∃ Q, Poll cfg s i ((s.nodes i).elections.length - 1) (s.nodes i).currentTerm Q ∧
          Q.card < cfg.ids.length / 2 + 1) ↔
      cfg.ids.length ≠ 1 := by
  constructor
  · intro h hone
    obtain ⟨i, hi⟩ := List.length_pos_iff_exists_mem.mp (by omega : 0 < cfg.ids.length)
    obtain ⟨t, hrun, hc, helections⟩ := exists_election hi
    obtain ⟨Q, hQ, hlt⟩ := h _ t hrun i hi hc
    have hcount := hQ.count
    rw [helections] at hcount
    have hcard : Q.card = 1 := (Option.some.inj hcount).symm
    omega
  · intro hsize as s hrun i _ hc
    have hp := polls_run hrun
    obtain ⟨Q, hQ⟩ := candidate_poll hp hc
    have hlt := lacksQuorum_run hsize hrun i hc _ (Nat.sub_add_cancel (hp.running i hc))
    rw [List.getD_eq_getElem?_getD, hQ.count] at hlt
    exact ⟨Q, hQ, hlt⟩

/-- A cluster of one. -/
def solo : Config := Config.ofIds [[65]] incrTerm (by decide)

def soloEnd : Cluster :=
  Foundation.endState (Cluster.attempt solo) Always (Cluster.initial solo)
    [⟨.startElection [65], Cluster.persistOk⟩]

/-- The only member is candidate in term `1` with its own vote, which is the quorum, and
there is no request whose reply would make it look. -/
theorem solo_stays_candidate :
    Run (Cluster.attempt solo) Always (Cluster.initial solo)
        [⟨.startElection [65], Cluster.persistOk⟩] soloEnd ∧
      (soloEnd.nodes [65]).role = .candidate ∧ (soloEnd.nodes [65]).currentTerm = 1 ∧
      (soloEnd.nodes [65]).elections = [1] ∧ solo.ids.length / 2 + 1 = 1 ∧
      soloEnd.voteRpcs = [] ∧
      ¬ ∃ Q, Poll solo soloEnd [65] 0 1 Q ∧ Q.card < solo.ids.length / 2 + 1 := by
  have helections : (soloEnd.nodes [65]).elections = [1] := by decide +kernel
  refine ⟨Foundation.run_endState (by decide +kernel), by decide +kernel, by decide +kernel,
    helections, by decide, by decide +kernel, ?_⟩
  rintro ⟨Q, hQ, hlt⟩
  have hcount := hQ.count
  rw [helections] at hcount
  have hcard : Q.card = 1 := (Option.some.inj hcount).symm
  rw [hcard] at hlt
  exact absurd hlt (by decide)

end Runs

end KVEngine.Raft
