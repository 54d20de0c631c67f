import KVEngine.Raft.Paths

/-!
# Winning an election

From every standing state the members in a majority `F` can elect one of themselves
(`Standing.elect`): the one whose log is the most up to date. If it leads an old term
it first hears of a newer one; then it starts elections until its term is the highest
in `F`, and each member of `F` that it asks grants its vote.

The new leader is the only one of its term, since a leader of that term would have had
a vote of somebody in `F`, where nobody had reached it.
-/

namespace KVEngine.Raft

open Foundation (Run)
open Foundation.ReplicatedLog

/-! ## §1  Who can win -/

/-- What logs are compared by: the last term, then the length. -/
def rank (L : List LogEntry) : ℕ ×ₗ ℕ :=
  toLex ((L[L.length - 1]?.map LogEntry.term).getD 0, L.length)

theorem rank_le_iff {L M : List LogEntry} {x y : LogEntry} (hx : L[L.length - 1]? = some x)
    (hy : M[M.length - 1]? = some y) :
    rank L ≤ rank M ↔ x.term < y.term ∨ x.term = y.term ∧ L.length ≤ M.length := by
  rw [rank, rank, hx, hy, Prod.Lex.toLex_le_toLex]
  rfl

section Members

variable {cfg : Config} {F : Finset NodeId} {s t : Cluster} {i k : NodeId}

/-- A leader that hears of a newer term steps down. -/
theorem Standing.stepDown (hterms : ∀ t, cfg.incr t = t + 1) (h : Standing cfg s)
    (hF : Majority cfg F) (hi : i ∈ F) (hk : k ∈ F) (hl : (s.nodes i).role = .leader)
    (hlt : (s.nodes i).currentTerm < (s.nodes k).currentTerm) :
    ∃ t, Path cfg F s t ∧ Standing cfg t ∧
      t.nodes = Function.update s.nodes i
        ((s.nodes i).becomeFollower true (s.nodes k).currentTerm) := by
  obtain ⟨A, hfacts⟩ := h.facts hterms
  have hmem := hF.member i hi
  have hne : k ≠ i := by
    rintro rfl
    exact lt_irrefl _ hlt
  have hpeer : k ∈ cfg.peers i := (cfg.mem_peers i hmem k).mpr ⟨hF.member k hk, hne⟩
  have hnext := (hfacts.orderly.leading i hl).next k ((hfacts.wired.sound i).peers ▸ hpeer)
  obtain ⟨call, hcall⟩ :=
    Node.sendAppendEntries_isSome (hfacts.wired.sound i).length_pos hnext
  obtain ⟨-, -, -, -, -, hterm, -⟩ := Node.sendAppendEntries_some hcall
  have hx : exchange k (s.nodes i) (s.nodes k) =
      some ((s.nodes i).becomeFollower true (s.nodes k).currentTerm, s.nodes k, false) := by
    have hstale : (s.nodes k).handleAppendEntries Cluster.persistOk call.args =
        some (s.nodes k, ⟨(s.nodes k).currentTerm, false, 0, 0⟩) := if_pos (hterm ▸ hlt)
    have hnewer : (s.nodes i).handleAppendReply true k call.args
        ⟨(s.nodes k).currentTerm, false, 0, 0⟩ =
        some ((s.nodes i).becomeFollower true (s.nodes k).currentTerm, []) := if_pos hlt
    unfold exchange
    simp only [hcall, hstale, hnewer, Option.bind_eq_bind, Option.bind_some, Option.pure_def]
  obtain ⟨t, hpath, hstand, hnodes⟩ := h.round hterms hmem hi hk hpeer hl hx
  exact ⟨t, hpath, hstand, by rw [hnodes, Function.update_eq_self]⟩

/-- One more election. -/
theorem Standing.campaign (hterms : ∀ t, cfg.incr t = t + 1) (h : Standing cfg s)
    (hF : Majority cfg F) (hi : i ∈ F) (hl : (s.nodes i).role ≠ .leader) :
    ∃ t n e, Path cfg F s t ∧ Standing cfg t ∧ t.nodes = Function.update s.nodes i n ∧
      (s.nodes i).log[(s.nodes i).log.length - 1]? = some e ∧
      n.role = .candidate ∧ n.currentTerm = (s.nodes i).currentTerm + 1 ∧
      n.log = (s.nodes i).log ∧ n.elections = (s.nodes i).elections ++ [1] ∧
      t.history = .voted i n.currentTerm i :: s.history ∧
      t.voteRpcs = s.voteRpcs ++ (cfg.peers i).map fun p =>
        { src := i, dst := p, life := s.lives i, election := (s.nodes i).elections.length,
          args := { term := n.currentTerm, candidateId := i,
                    lastLogIndex := (s.nodes i).log.length - 1, lastLogTerm := e.term }
          phase := .requested } := by
  obtain ⟨A, hfacts⟩ := h.facts hterms
  obtain ⟨t, ht, hstand, hpath⟩ :=
    h.perform hterms (F := F) (a := .startElection i) ⟨hF.member i hi, hl⟩ hi nofun
  obtain ⟨-, -, n, calls, hn, rfl⟩ := Cluster.startElection_some ht
  obtain ⟨e, he, rfl, rfl⟩ := Node.startElection_some hn
  have hincr : cfg.incr (s.nodes i).currentTerm = (s.nodes i).currentTerm + 1 := hterms _
  refine ⟨_, _, e, hpath, hstand, rfl, he, rfl, hincr, rfl, rfl, rfl, ?_⟩
  have hid := (hfacts.wired.sound i).id
  have hpeers := (hfacts.wired.sound i).peers
  show s.voteRpcs ++ _ = _
  rw [hid, hpeers, List.map_map]
  rfl

/-- As many elections as it takes to reach a term. -/
theorem Standing.raise (hterms : ∀ t, cfg.incr t = t + 1) (hF : Majority cfg F) (hi : i ∈ F)
    (d : ℕ) (h : Standing cfg s) (hl : (s.nodes i).role ≠ .leader) :
    ∃ t n, Path cfg F s t ∧ Standing cfg t ∧ t.nodes = Function.update s.nodes i n ∧
      n.role ≠ .leader ∧ (s.nodes i).currentTerm + d ≤ n.currentTerm ∧
      n.log = (s.nodes i).log := by
  induction d generalizing s with
  | zero =>
      exact ⟨s, s.nodes i, .refl s, h, (Function.update_eq_self i s.nodes).symm, hl, le_rfl, rfl⟩
  | succ d ih =>
      obtain ⟨u, n, e, hpath, hstand, hnodes, -, hrole, hterm, hlog, -⟩ :=
        h.campaign hterms hF hi hl
      have hself : u.nodes i = n := by rw [hnodes, Function.update_self]
      obtain ⟨t, n', hpath', hstand', hnodes', hrole', hterm', hlog'⟩ :=
        ih hstand (by rw [hself, hrole]; nofun)
      rw [hself] at hterm' hlog'
      refine ⟨t, n', hpath.trans hpath', hstand', ?_, hrole', by omega, hlog'.trans hlog⟩
      rw [hnodes', hnodes, Function.update_idem]

end Members

/-! ## §2  Collecting votes -/

/-- The election with counter `e` and requests `args`, while the members in `ps` are still
to be asked. -/
structure Canvass (F : Finset NodeId) (i : NodeId) (e : ℕ) (args : RequestVoteArgs)
    (ps : List NodeId) (s : Cluster) : Prop where
  role : (s.nodes i).role = .candidate
  term : (s.nodes i).currentTerm = args.term
  candidate : args.candidateId = i
  nodup : ps.Nodup
  members : ∀ p ∈ ps, p ∈ F ∧ p ≠ i
  count : (s.nodes i).elections.getD e 0 + ps.length = F.card
  short : (s.nodes i).elections.getD e 0 < (s.nodes i).needed
  counter : e < (s.nodes i).elections.length
  asked : ∀ p ∈ ps, ∃ r : ℕ, s.voteRpcs[r]? = some (VoteRpc.mk i p (s.lives i) e args .requested)
  behind : ∀ p ∈ ps, (s.nodes p).currentTerm < args.term
  upToDate : ∀ p ∈ ps, ∀ x, (s.nodes p).log[(s.nodes p).log.length - 1]? = some x →
    x.term < args.lastLogTerm ∨
      x.term = args.lastLogTerm ∧ (s.nodes p).log.length - 1 ≤ args.lastLogIndex
  bound : ∀ q ∈ F, (s.nodes q).currentTerm ≤ args.term
  fresh : ∀ j L, Event.becameLeader j args.term L ∉ s.history

/-- A voter of an older term and with a log no better than the candidate's. -/
theorem Node.handleRequestVote_grant {n : Node} {args : RequestVoteArgs} {x : LogEntry}
    (hterm : n.currentTerm < args.term) (hlast : n.log[n.log.length - 1]? = some x)
    (hlog : x.term < args.lastLogTerm ∨
      x.term = args.lastLogTerm ∧ n.log.length - 1 ≤ args.lastLogIndex) :
    ∃ n', n.handleRequestVote Cluster.persistOk args = some (n', ⟨args.term, true⟩) ∧
      n'.currentTerm = args.term := by
  have hadopt : n.adoptTerm true args.term = n.becomeFollower true args.term := if_pos hterm
  obtain ⟨⟨n', reply⟩, hn⟩ := Node.handleRequestVote_isSome
    (List.length_pos_of_mem (List.mem_of_getElem? hlast)) Cluster.persistOk args
  rcases Node.handleRequestVote_cases hn with ⟨hlt, -⟩ |
    ⟨-, lastIdx, lastTerm, hpair, ⟨-, rfl, rfl⟩ | ⟨hno, -⟩⟩
  · omega
  · refine ⟨_, hn, ?_⟩
    rw [persist_currentTerm]
    exact Node.adoptTerm_currentTerm hterm.le
  · exfalso
    refine hno ?_
    obtain ⟨e, he, heq⟩ := Node.lastLogIndexAndTerm_eq_some hpair
    have hlog' : (n.adoptTerm (Cluster.persistOk 0) args.term).log = n.log := by
      show (n.adoptTerm true args.term).log = n.log
      rw [hadopt]
      rfl
    rw [hlog', hlast] at he
    cases he
    rw [hlog'] at heq
    cases heq
    refine ⟨hlog.imp_right fun h => ⟨h.1.symm, h.2⟩, Or.inl ?_⟩
    show (n.adoptTerm true args.term).votedFor = []
    rw [hadopt]
    rfl

section Votes

variable {cfg : Config} {F : Finset NodeId} {s t : Cluster} {i p : NodeId} {e : ℕ}
  {args : RequestVoteArgs} {ps : List NodeId}

/-- A request is handled. -/
theorem Standing.handleVote (hterms : ∀ t, cfg.incr t = t + 1) (h : Standing cfg s) {r : ℕ}
    {rpc : VoteRpc} (hr : s.voteRpcs[r]? = some rpc) (hph : rpc.phase = .requested)
    (hsrc : rpc.src ∈ F) (hdst : rpc.dst ∈ F) {m : Node} {reply : RequestVoteReply}
    (hm : (s.nodes rpc.dst).handleRequestVote Cluster.persistOk rpc.args = some (m, reply)) :
    ∃ t, Path cfg F s t ∧ Standing cfg t ∧ t.nodes = Function.update s.nodes rpc.dst m ∧
      t.voteRpcs = s.voteRpcs.set r { rpc with phase := .replied reply } ∧
      ∀ j T L, Event.becameLeader j T L ∈ t.history → Event.becameLeader j T L ∈ s.history := by
  have hF : Among F s (.deliverVote r) := by
    intro rpc' hr'
    rw [hr] at hr'
    cases hr'
    exact ⟨hsrc, hdst⟩
  obtain ⟨t, ht, hstand, hpath⟩ :=
    h.perform hterms (a := .deliverVote r) ⟨rpc, hr, hph⟩ hF nofun
  obtain ⟨A, hfacts⟩ := h.facts hterms
  have hold : ∀ j T L, Event.becameLeader j T L ∈ t.history →
      Event.becameLeader j T L ∈ s.history :=
    fun _ _ _ => becameLeader_of_step (a := .deliverVote r) hfacts.wired nofun ht
  obtain ⟨rpc', m', reply', hr', -, hm', rfl⟩ := Cluster.deliverVote_some ht
  cases hr.symm.trans hr'
  cases hm.symm.trans hm'
  exact ⟨_, hpath, hstand, rfl, rfl, hold⟩

theorem UniqueLeaders.won {H : List Event} {T m : ℕ} {L : List LogEntry}
    (h : UniqueLeaders H) (hfresh : ∀ j M, Event.becameLeader j T M ∉ H) :
    UniqueLeaders ([.becameLeader i T L, .accepted i T m] ++ H) := by
  have hcases : ∀ {j U M}, Event.becameLeader j U M ∈
      [Event.becameLeader i T L, .accepted i T m] ++ H →
      (j = i ∧ U = T) ∨ Event.becameLeader j U M ∈ H := by
    intro j U M hev
    rcases List.mem_cons.mp hev with heq | hev
    · cases heq
      exact Or.inl ⟨rfl, rfl⟩
    · exact Or.inr (by simpa using hev)
  intro j k U M N hj hk
  rcases hcases hj with ⟨rfl, rfl⟩ | hj' <;> rcases hcases hk with ⟨rfl, hU⟩ | hk'
  · rfl
  · exact absurd hk' (hfresh k N)
  · exact absurd (hU ▸ hj') (hfresh j M)
  · exact h j k U M N hj' hk'

/-- **A vote is counted.** The candidate wins, or the counter goes up. -/
theorem Standing.countVote (hterms : ∀ t, cfg.incr t = t + 1) (h : Standing cfg s) {r : ℕ}
    {rpc : VoteRpc} (hr : s.voteRpcs[r]? = some rpc)
    (hph : rpc.phase = .replied ⟨rpc.args.term, true⟩) (hlife : rpc.life = s.lives rpc.src)
    (hsrc : rpc.src ∈ F) (hdst : rpc.dst ∈ F) (hrole : (s.nodes rpc.src).role = .candidate)
    (hterm : (s.nodes rpc.src).currentTerm = rpc.args.term)
    (hfresh : ∀ j L, Event.becameLeader j rpc.args.term L ∉ s.history) :
    ∃ t n, Path cfg F s t ∧ Standing cfg t ∧ t.nodes = Function.update s.nodes rpc.src n ∧
      n.currentTerm = rpc.args.term ∧
      (n.role = .leader ∨
        (n = (s.nodes rpc.src).countVote rpc.election ∧
          n.elections.getD rpc.election 0 < n.needed ∧
          t.voteRpcs = s.voteRpcs.set r { rpc with phase := .finished } ∧
          t.history = s.history)) := by
  have hF : Among F s (.voteReply r) := by
    intro rpc' hr'
    rw [hr] at hr'
    cases hr'
    exact ⟨hsrc, hdst⟩
  obtain ⟨A, hfacts⟩ := h.facts hterms
  obtain ⟨t, ht⟩ := isSome_of_enabled hfacts.wired hfacts.inv hfacts.abs hfacts.orderly
    (a := .voteReply r) ⟨rpc, _, hr, hlife, hph⟩
  have hpath := Path.step hF ht
  obtain ⟨rpc', reply, n, calls, hr', -, hph', hn, rfl⟩ := Cluster.voteReply_some ht
  cases hr.symm.trans hr'
  cases hph.symm.trans hph'
  rw [Node.handleVoteReply, if_neg (by rw [hterm]; exact lt_irrefl _),
    if_neg (by simp [hrole, hterm]), if_pos rfl] at hn
  dsimp only at hn
  split at hn
  · -- nobody has won the term before
    obtain ⟨rfl, -⟩ := Node.becomeLeader_some hn
    refine ⟨_, _, hpath, h.step hF ht ?_, rfl, hterm, Or.inl rfl⟩
    rw [Cluster.record_history, if_pos ⟨by rw [hrole]; nofun, rfl⟩]
    refine h.uniq.won fun j L => ?_
    show Event.becameLeader j (s.nodes rpc.src).currentTerm L ∉ _
    rw [hterm]
    exact hfresh j L
  · rename_i hshort
    cases hn
    have hquiet : ¬ ((s.nodes rpc.src).role ≠ .leader ∧
        ((s.nodes rpc.src).countVote rpc.election).role = .leader) :=
      fun hwon => nomatch hrole.symm.trans hwon.2
    rw [if_neg hquiet] at hpath ht
    exact ⟨_, _, hpath, h.step hF ht h.uniq, rfl, hterm,
      Or.inr ⟨rfl, not_le.mp hshort, rfl, rfl⟩⟩

/-- The next member votes, and the candidate wins or goes on to the others. -/
theorem Canvass.ask (hterms : ∀ t, cfg.incr t = t + 1) (hi : i ∈ F) (h : Standing cfg s)
    (hc : Canvass F i e args (p :: ps) s) :
    ∃ t, Path cfg F s t ∧ Standing cfg t ∧
      (((t.nodes i).role = .leader ∧ (t.nodes i).currentTerm = args.term ∧
          ∀ q ∈ F, (t.nodes q).currentTerm ≤ args.term) ∨
        Canvass F i e args ps t) := by
  obtain ⟨A, hfacts⟩ := h.facts hterms
  obtain ⟨hpF, hpi⟩ := hc.members p List.mem_cons_self
  obtain ⟨hp, hnodup⟩ := List.nodup_cons.mp hc.nodup
  obtain ⟨r, hr⟩ := hc.asked p List.mem_cons_self
  obtain ⟨x, hx⟩ := Foundation.exists_last (hfacts.wired.sound p).length_pos
  obtain ⟨m, hm, hmterm⟩ := Node.handleRequestVote_grant (hc.behind p List.mem_cons_self) hx
    (hc.upToDate p List.mem_cons_self x hx)
  obtain ⟨s₁, hpath₁, hstand₁, hnodes₁, hvotes₁, hold₁⟩ := h.handleVote hterms hr rfl hi hpF hm
  have hself₁ : s₁.nodes i = s.nodes i := by rw [hnodes₁, Function.update_of_ne hpi.symm]
  have hr₁ : s₁.voteRpcs[r]? =
      some (VoteRpc.mk i p (s.lives i) e args (.replied ⟨args.term, true⟩)) := by
    rw [hvotes₁]
    exact List.getElem?_set_self (List.getElem?_eq_some_iff.mp hr).1
  have hfresh₁ : ∀ j L, Event.becameLeader j args.term L ∉ s₁.history :=
    fun j L hev => hc.fresh j L (hold₁ j _ L hev)
  obtain ⟨t, n, hpath₂, hstand₂, hnodes₂, hterm₂, hcase⟩ := hstand₁.countVote hterms hr₁ rfl
    (by rw [hpath₁.lives]) hi hpF (by rw [hself₁]; exact hc.role) (by rw [hself₁]; exact hc.term)
    hfresh₁
  dsimp only at hnodes₂ hterm₂ hcase
  rw [hself₁] at hcase
  have hself : t.nodes i = n := by rw [hnodes₂, Function.update_self]
  have hother : ∀ q, q ≠ i → q ≠ p → t.nodes q = s.nodes q := by
    intro q hqi hqp
    rw [hnodes₂, Function.update_of_ne hqi, hnodes₁, Function.update_of_ne hqp]
  have hbound : ∀ q ∈ F, (t.nodes q).currentTerm ≤ args.term := by
    intro q hq
    by_cases hqi : q = i
    · rw [hqi, hself, hterm₂]
    · by_cases hqp : q = p
      · rw [hqp, hnodes₂, Function.update_of_ne hpi, hnodes₁, Function.update_self, hmterm]
      · rw [hother q hqi hqp]
        exact hc.bound q hq
  refine ⟨t, hpath₁.trans hpath₂, hstand₂, ?_⟩
  rcases hcase with hwon | ⟨hn, hshort, hvotes₂, hhist₂⟩
  · exact Or.inl ⟨hself ▸ hwon, hself ▸ hterm₂, hbound⟩
  have hcount : n.elections.getD e 0 = (s.nodes i).elections.getD e 0 + 1 := by
    rw [hn]
    show ((s.nodes i).elections.set e _).getD e 0 = _
    rw [List.getD_eq_getElem?_getD, List.getElem?_set_self hc.counter]
    rfl
  have hlength : n.elections.length = (s.nodes i).elections.length := by
    rw [hn]
    exact List.length_set
  have hquiet : ∀ q ∈ ps, t.nodes q = s.nodes q := fun q hq =>
    hother q (hc.members q (List.mem_cons_of_mem p hq)).2 (ne_of_mem_of_not_mem hq hp)
  refine Or.inr
    { role := by rw [hself, hn]; exact hc.role
      term := by rw [hself, hterm₂]
      candidate := hc.candidate
      nodup := hnodup
      members := fun q hq => hc.members q (List.mem_cons_of_mem p hq)
      count := by
        have hall := hc.count
        rw [List.length_cons] at hall
        rw [hself, hcount]
        omega
      short := by rw [hself]; exact hshort
      counter := by rw [hself, hlength]; exact hc.counter
      asked := fun q hq => ?_
      behind := fun q hq => by rw [hquiet q hq]; exact hc.behind q (List.mem_cons_of_mem p hq)
      upToDate := fun q hq => by rw [hquiet q hq]; exact hc.upToDate q (List.mem_cons_of_mem p hq)
      bound := hbound
      fresh := by rw [hhist₂]; exact hfresh₁ }
  -- the other requests are further along in the list
  obtain ⟨r', hr'⟩ := hc.asked q (List.mem_cons_of_mem p hq)
  have hne : r ≠ r' := by
    rintro rfl
    cases hr.symm.trans hr'
    exact hp hq
  refine ⟨r', ?_⟩
  rw [hvotes₂, List.getElem?_set_ne hne, hvotes₁, List.getElem?_set_ne hne, hr',
    (hpath₁.trans hpath₂).lives]

/-- **The candidate wins.** All of `F` together are a majority. -/
theorem Canvass.win (hterms : ∀ t, cfg.incr t = t + 1) (hF : Majority cfg F) (hi : i ∈ F)
    (h : Standing cfg s) (hc : Canvass F i e args ps s) :
    ∃ t, Path cfg F s t ∧ Standing cfg t ∧ (t.nodes i).role = .leader ∧
      (t.nodes i).currentTerm = args.term ∧ ∀ q ∈ F, (t.nodes q).currentTerm ≤ args.term := by
  induction ps generalizing s with
  | nil =>
      obtain ⟨A, hfacts⟩ := h.facts hterms
      have hall := hc.count
      have hshort := hc.short
      have hcard := hF.card
      rw [Node.needed, (hfacts.wired.sound i).peers] at hshort
      rw [cfg.length_ids (hF.member i hi)] at hcard
      rw [List.length_nil] at hall
      omega
  | cons p ps ih =>
      obtain ⟨u, hpath, hstand, ⟨hl, hterm, hbound⟩ | hc'⟩ := hc.ask hterms hi h
      · exact ⟨u, hpath, hstand, hl, hterm, hbound⟩
      · obtain ⟨t, hpath', hrest⟩ := ih hstand hc'
        exact ⟨t, hpath.trans hpath', hrest⟩

end Votes

/-! ## §3  Elections -/

section Elections

variable {cfg : Config} {F : Finset NodeId} {s t : Cluster} {i : NodeId}

/-- A term that nobody in the majority has reached has no leader. -/
theorem Standing.unled (hterms : ∀ t, cfg.incr t = t + 1) (hF : Majority cfg F)
    (h : Standing cfg s) {T : ℕ} (hT : ∀ q ∈ F, (s.nodes q).currentTerm < T) (j : NodeId)
    (L : List LogEntry) : Event.becameLeader j T L ∉ s.history := by
  intro hev
  obtain ⟨A, hfacts⟩ := h.facts hterms
  obtain ⟨G, hG, hvotes⟩ := hfacts.wired.ballots.won j T L hev
  obtain ⟨q, hqF, hqG⟩ := hF.inter hG
  have hle := (hfacts.inv.votes q T j (hfacts.abs.ledger _ (hvotes q hqG))).1
  rw [hfacts.abs.term] at hle
  exact absurd (hT q hqF) (not_lt.mpr hle)

/-- The member with the best log starts an election that everybody in `F` supports. -/
theorem Standing.canvass (hterms : ∀ t, cfg.incr t = t + 1) (hF : Majority cfg F)
    (hsize : 2 ≤ cfg.ids.length) (hi : i ∈ F) (h : Standing cfg s)
    (hl : (s.nodes i).role ≠ .leader)
    (hterm : ∀ q ∈ F, (s.nodes q).currentTerm ≤ (s.nodes i).currentTerm)
    (hbest : ∀ q ∈ F, rank (s.nodes q).log ≤ rank (s.nodes i).log) :
    ∃ t e args, Path cfg F s t ∧ Standing cfg t ∧ Canvass F i e args (F.erase i).toList t := by
  obtain ⟨A, hfacts⟩ := h.facts hterms
  obtain ⟨t, n, x, hpath, hstand, hnodes, hx, hrole, hnterm, hlog, helections, hhist, hvotes⟩ :=
    h.campaign hterms hF hi hl
  have hmem := hF.member i hi
  have hself : t.nodes i = n := by rw [hnodes, Function.update_self]
  have hother : ∀ q, q ≠ i → t.nodes q = s.nodes q := fun q hq => by
    rw [hnodes, Function.update_of_ne hq]
  have hone : n.elections.getD (s.nodes i).elections.length 0 = 1 := by
    rw [helections, List.getD_eq_getElem?_getD, List.getElem?_concat_length]
    rfl
  have herase : ∀ p ∈ (F.erase i).toList, p ∈ F ∧ p ≠ i := by
    intro p hp
    obtain ⟨hpi, hpF⟩ := Finset.mem_erase.mp (Finset.mem_toList.mp hp)
    exact ⟨hpF, hpi⟩
  refine ⟨t, (s.nodes i).elections.length, ⟨n.currentTerm, i, (s.nodes i).log.length - 1, x.term⟩,
    hpath, hstand, ?_⟩
  exact
    { role := by rw [hself, hrole]
      term := by rw [hself]
      candidate := rfl
      nodup := Finset.nodup_toList _
      members := herase
      count := by
        rw [hself, hone, Finset.length_toList, Nat.add_comm]
        exact Finset.card_erase_add_one hi
      short := by
        obtain ⟨A', hfacts'⟩ := hstand.facts hterms
        have hneeded := cfg.length_ids hmem
        rw [Node.needed, (hfacts'.wired.sound i).peers, hself, hone]
        omega
      counter := by
        rw [hself, helections, List.length_append]
        exact Nat.lt_succ_self _
      asked := by
        intro p hp
        obtain ⟨hpF, hpi⟩ := herase p hp
        have hpeer : p ∈ cfg.peers i := (cfg.mem_peers i hmem p).mpr ⟨hF.member p hpF, hpi⟩
        refine List.mem_iff_getElem?.mp ?_
        rw [hvotes, hpath.lives]
        exact List.mem_append_right _ (List.mem_map.mpr ⟨p, hpeer, rfl⟩)
      behind := by
        intro p hp
        obtain ⟨hpF, hpi⟩ := herase p hp
        rw [hother p hpi, hnterm]
        exact Nat.lt_succ_of_le (hterm p hpF)
      upToDate := by
        intro p hp y hy
        obtain ⟨hpF, hpi⟩ := herase p hp
        rw [hother p hpi] at hy ⊢
        refine ((rank_le_iff hy hx).mp (hbest p hpF)).imp_right fun hle => ⟨hle.1, ?_⟩
        exact Nat.sub_le_sub_right hle.2 1
      bound := by
        intro q hq
        by_cases hqi : q = i
        · rw [hqi, hself]
        · rw [hother q hqi, hnterm]
          exact (hterm q hq).trans (Nat.le_succ _)
      fresh := by
        intro j L hev
        rw [hhist] at hev
        refine h.unled hterms hF (T := n.currentTerm) (fun q hq => ?_) j L (by simpa using hev)
        rw [hnterm]
        exact Nat.lt_succ_of_le (hterm q hq) }

/-- The member with the best log wins, if it does not lead an old term. -/
theorem Standing.winBest (hterms : ∀ t, cfg.incr t = t + 1) (hF : Majority cfg F)
    (hsize : 2 ≤ cfg.ids.length) (hi : i ∈ F) (h : Standing cfg s)
    (hl : (s.nodes i).role ≠ .leader)
    (hbest : ∀ q ∈ F, rank (s.nodes q).log ≤ rank (s.nodes i).log) :
    ∃ t, Path cfg F s t ∧ Standing cfg t ∧ (t.nodes i).role = .leader ∧
      ∀ q ∈ F, (t.nodes q).currentTerm ≤ (t.nodes i).currentTerm := by
  obtain ⟨u, n, hpath, hstand, hnodes, hrole, hraised, hlog⟩ :=
    h.raise hterms hF hi (F.sup fun q => (s.nodes q).currentTerm) hl
  have hself : u.nodes i = n := by rw [hnodes, Function.update_self]
  have hother : ∀ q, q ≠ i → u.nodes q = s.nodes q := fun q hq => by
    rw [hnodes, Function.update_of_ne hq]
  have hterm : ∀ q ∈ F, (u.nodes q).currentTerm ≤ (u.nodes i).currentTerm := by
    intro q hq
    by_cases hqi : q = i
    · rw [hqi]
    · have hsup := Finset.le_sup (f := fun q => (s.nodes q).currentTerm) hq
      rw [hother q hqi, hself]
      exact hsup.trans ((Nat.le_add_left _ _).trans hraised)
  have hbest' : ∀ q ∈ F, rank (u.nodes q).log ≤ rank (u.nodes i).log := by
    intro q hq
    by_cases hqi : q = i
    · rw [hqi]
    · rw [hother q hqi, hself, hlog]
      exact hbest q hq
  obtain ⟨v, e, args, hpath', hstand', hc⟩ :=
    hstand.canvass hterms hF hsize hi (hself ▸ hrole) hterm hbest'
  obtain ⟨t, hpath'', hstand'', hl', hterm', hbound⟩ := hc.win hterms hF hi hstand'
  exact ⟨t, (hpath.trans hpath').trans hpath'', hstand'', hl', fun q hq => hterm' ▸ hbound q hq⟩

/-- **A majority can elect a leader**, from every standing state and without the other
members. -/
theorem Standing.elect (hterms : ∀ t, cfg.incr t = t + 1) (hF : Majority cfg F)
    (hsize : 2 ≤ cfg.ids.length) (h : Standing cfg s) :
    ∃ i ∈ F, ∃ t, Path cfg F s t ∧ Standing cfg t ∧ (t.nodes i).role = .leader ∧
      ∀ q ∈ F, (t.nodes q).currentTerm ≤ (t.nodes i).currentTerm := by
  have hne : F.Nonempty := Finset.card_pos.mp (by have := hF.card; omega)
  obtain ⟨i, hi, hbest⟩ := Finset.exists_max_image F (fun q => rank (s.nodes q).log) hne
  refine ⟨i, hi, ?_⟩
  by_cases hl : (s.nodes i).role = .leader
  · by_cases hmax : ∀ q ∈ F, (s.nodes q).currentTerm ≤ (s.nodes i).currentTerm
    · exact ⟨s, .refl s, h, hl, hmax⟩
    · push Not at hmax
      obtain ⟨k, hk, hlt⟩ := hmax
      obtain ⟨u, hpath, hstand, hnodes⟩ := h.stepDown hterms hF hi hk hl hlt
      have hself : u.nodes i = (s.nodes i).becomeFollower true (s.nodes k).currentTerm := by
        rw [hnodes, Function.update_self]
      have hlogs : ∀ q, (u.nodes q).log = (s.nodes q).log := by
        intro q
        by_cases hqi : q = i
        · rw [hqi, hself]
          rfl
        · rw [hnodes, Function.update_of_ne hqi]
      obtain ⟨t, hpath', hrest⟩ := hstand.winBest hterms hF hsize hi
        (by rw [hself]; nofun) fun q hq => by rw [hlogs, hlogs]; exact hbest q hq
      exact ⟨t, hpath.trans hpath', hrest⟩
  · exact h.winBest hterms hF hsize hi hl hbest

end Elections

end KVEngine.Raft
