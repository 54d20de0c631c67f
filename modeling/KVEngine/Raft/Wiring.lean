import KVEngine.Raft.Steps
import Mathlib.Data.Finset.Card

/-!
# Bookkeeping of a cluster

Facts that hold in every run in which terms do not wrap and snapshots discard
nothing, whoever is elected:

* nodes are sound (`Sound`);
* vote requests carry what their sender held, granted replies have a vote in
  the history, and a candidate's counter counts distinct voters (`Ballots`);
* a leader's `matchIndex` is backed by accepted prefixes (`Replicas`);
* what the apply loop delivers was taken from the log (`Applied`).

Each part has a frame lemma for the steps that do not concern it, so that a
step has to be argued only for the part it touches.
-/

namespace KVEngine.Raft

open Foundation (Run)
open Foundation.ReplicatedLog (Role)

/-! ## §1  Majorities -/

/-- More than half of the members. -/
structure Majority (cfg : Config) (F : Finset NodeId) : Prop where
  member : ∀ q ∈ F, q ∈ cfg.ids
  card : cfg.ids.length < 2 * F.card

theorem Majority.inter {cfg : Config} {F G : Finset NodeId} (hF : Majority cfg F)
    (hG : Majority cfg G) : ∃ q, q ∈ F ∧ q ∈ G := by
  have hsub : ∀ {H : Finset NodeId}, Majority cfg H → H ⊆ cfg.ids.toFinset :=
    fun hH q hq => List.mem_toFinset.mpr (hH.member q hq)
  have hcard : cfg.ids.toFinset.card = cfg.ids.length :=
    List.toFinset_card_of_nodup cfg.ids_nodup
  have h := Finset.inter_nonempty_of_card_lt_card_add_card (hsub hF) (hsub hG)
    (by have := hF.card; have := hG.card; omega)
  obtain ⟨q, hq⟩ := h
  exact ⟨q, (Finset.mem_inter.mp hq).1, (Finset.mem_inter.mp hq).2⟩

/-- The cluster is a member and its peers. -/
theorem Config.length_ids (cfg : Config) {i : NodeId} (hi : i ∈ cfg.ids) :
    cfg.ids.length = (cfg.peers i).length + 1 := by
  have hperm : cfg.ids.Perm (i :: cfg.peers i) := by
    rw [List.perm_ext_iff_of_nodup cfg.ids_nodup]
    · intro j
      rw [List.mem_cons, cfg.mem_peers i hi]
      by_cases hj : j = i
      · simp [hj, hi]
      · simp [hj]
    · rw [List.nodup_cons]
      refine ⟨fun h => ?_, cfg.peers_nodup i hi⟩
      exact ((cfg.mem_peers i hi i).mp h).2 rfl
  exact hperm.length_eq

/-! ## §2  Ballots -/

/-- What identifies a vote request: no two are sent with the same key. -/
def VoteRpc.key (rpc : VoteRpc) : NodeId × ℕ × ℕ × NodeId :=
  (rpc.src, rpc.life, rpc.election, rpc.dst)

/-- The request with which `i` asks `p` for its vote in its election number `e`. -/
def VoteRpc.ask (i : NodeId) (life e : ℕ) (args : RequestVoteArgs) (p : NodeId) : VoteRpc :=
  { src := i, dst := p, life, election := e, args, phase := .requested }

/-- New requests have new keys if their election is newer than those before. -/
theorem keys_ask {cfg : Config} {rpcs : List VoteRpc} {i : NodeId} {life e : ℕ}
    {args : RequestVoteArgs} (hi : i ∈ cfg.ids) (hkeys : (rpcs.map VoteRpc.key).Nodup)
    (hold : ∀ rpc ∈ rpcs, rpc.src = i → rpc.life = life → rpc.election < e) :
    ((rpcs ++ (cfg.peers i).map (VoteRpc.ask i life e args)).map VoteRpc.key).Nodup := by
  rw [List.map_append, List.nodup_append, List.map_map]
  refine ⟨hkeys, (cfg.peers_nodup i hi).map fun a b hab => ?_, ?_⟩
  · exact congrArg (fun k : NodeId × ℕ × ℕ × NodeId => k.2.2.2) hab
  · intro k hk k' hk' heq
    obtain ⟨old, hmem, rfl⟩ := List.mem_map.mp hk
    obtain ⟨p, -, rfl⟩ := List.mem_map.mp hk'
    obtain ⟨hsrc, hlife, helection, -⟩ : old.src = i ∧ old.life = life ∧
        old.election = e ∧ old.dst = p := by
      simpa only [VoteRpc.key, VoteRpc.ask, Function.comp_apply, Prod.mk.injEq] using heq
    exact absurd helection (hold old hmem hsrc hlife).ne

/-- Node `i` won term `T`. -/
def Won (cfg : Config) (H : List Event) (i : NodeId) (T : ℕ) : Prop :=
  ∃ F, Majority cfg F ∧ ∀ q ∈ F, Event.voted q T i ∈ H

/-- The voters that a candidate's current counter stands for. -/
structure Tally (cfg : Config) (s : Cluster) (i : NodeId) (Q : Finset NodeId) :
    Prop where
  member : ∀ q ∈ Q, q ∈ cfg.ids
  count : (s.nodes i).elections.getD ((s.nodes i).elections.length - 1) 0 = Q.card
  voted : ∀ q ∈ Q, Event.voted q (s.nodes i).currentTerm i ∈ s.history
  /-- A voter is counted once: its request is over. -/
  done : ∀ rpc ∈ s.voteRpcs, rpc.src = i → rpc.life = s.lives i →
    rpc.election + 1 = (s.nodes i).elections.length → rpc.dst ∈ Q →
    rpc.phase = .finished

structure Ballots (cfg : Config) (s : Cluster) : Prop where
  call : ∀ rpc ∈ s.voteRpcs, rpc.src ∈ cfg.ids ∧ rpc.dst ∈ cfg.peers rpc.src ∧
    rpc.args.candidateId = rpc.src ∧
    rpc.args.term ≤ (s.nodes rpc.src).currentTerm ∧ rpc.life ≤ s.lives rpc.src
  /-- A request of the candidacy its sender is still in describes its log. -/
  current : ∀ rpc ∈ s.voteRpcs, (s.nodes rpc.src).role = .candidate →
    rpc.args.term = (s.nodes rpc.src).currentTerm →
    rpc.args.lastLogIndex = (s.nodes rpc.src).log.length - 1 ∧
    (s.nodes rpc.src).log[(s.nodes rpc.src).log.length - 1]?.map LogEntry.term =
      some rpc.args.lastLogTerm ∧
    (rpc.life = s.lives rpc.src →
      rpc.election + 1 = (s.nodes rpc.src).elections.length)
  counter : ∀ rpc ∈ s.voteRpcs, rpc.life = s.lives rpc.src →
    rpc.election < (s.nodes rpc.src).elections.length
  keys : (s.voteRpcs.map VoteRpc.key).Nodup
  granted : ∀ rpc ∈ s.voteRpcs, ∀ reply, rpc.phase = .replied reply →
    reply.voteGranted = true → Event.voted rpc.dst rpc.args.term rpc.src ∈ s.history
  tally : ∀ i, (s.nodes i).role = .candidate → ∃ Q, Tally cfg s i Q
  /-- A term once won is not campaigned for again. -/
  past : ∀ i T L, Event.becameLeader i T L ∈ s.history →
    T ≤ (s.nodes i).currentTerm ∧
      (T = (s.nodes i).currentTerm → (s.nodes i).role ≠ .candidate)
  won : ∀ i T L, Event.becameLeader i T L ∈ s.history → Won cfg s.history i T

theorem Won.mono {cfg : Config} {H H' : List Event} {i : NodeId} {T : ℕ}
    (hH : H ⊆ H') (h : Won cfg H i T) : Won cfg H' i T := by
  obtain ⟨F, hF, hv⟩ := h
  exact ⟨F, hF, fun q hq => hH (hv q hq)⟩

/-- A phase stays, ends, or becomes a reply that satisfies `P`. -/
def Phase.Moves {R : Type} (P : R → Prop) (ph ph' : Phase R) : Prop :=
  ph' = ph ∨ ph' = .finished ∨ ph = .requested ∧ ∀ reply, ph' = .replied reply → P reply

theorem Phase.Moves.done {R : Type} {P : R → Prop} {ph ph' : Phase R}
    (h : ph.Moves P ph') (hfin : ph = .finished) : ph' = .finished := by
  rcases h with h | h | ⟨h, -⟩
  · exact h.trans hfin
  · exact h
  · cases hfin.symm.trans h

/-- A reply on its way was on its way before, or satisfies `P`. -/
theorem Phase.Moves.reply {R : Type} {P : R → Prop} {ph ph' : Phase R}
    (h : ph.Moves P ph') {reply : R} (hr : ph' = .replied reply) :
    ph = .replied reply ∨ P reply := by
  rcases h with h | h | ⟨-, h⟩
  · exact Or.inl (h.symm.trans hr)
  · cases h.symm.trans hr
  · exact Or.inr (h reply hr)

theorem Phase.Moves.imp {R : Type} {P Q : R → Prop} {ph ph' : Phase R}
    (h : ph.Moves P ph') (hPQ : ∀ reply, P reply → Q reply) : ph.Moves Q ph' := by
  rcases h with h | h | ⟨hreq, h⟩
  · exact Or.inl h
  · exact Or.inr (Or.inl h)
  · exact Or.inr (Or.inr ⟨hreq, fun reply hr => hPQ reply (h reply hr)⟩)

/-- Vote requests keep their contents, and the vote of a new reply is on
record. -/
structure VotesMove (s s' : Cluster) : Prop where
  keys : s'.voteRpcs.map VoteRpc.key = s.voteRpcs.map VoteRpc.key
  mem : ∀ rpc' ∈ s'.voteRpcs, ∃ rpc ∈ s.voteRpcs, ∃ ph,
    rpc' = { rpc with phase := ph } ∧
    rpc.phase.Moves (fun reply => reply.voteGranted = true →
      Event.voted rpc.dst rpc.args.term rpc.src ∈ s'.history) ph

theorem VotesMove.of_eq {s s' : Cluster} (h : s'.voteRpcs = s.voteRpcs) :
    VotesMove s s' where
  keys := by rw [h]
  mem := fun rpc hr => ⟨rpc, h ▸ hr, rpc.phase, rfl, Or.inl rfl⟩

theorem set_map_eq {α β : Type} {f : α → β} {l : List α} {r : ℕ} {a b : α}
    (ha : l[r]? = some a) (hf : f b = f a) : (l.set r b).map f = l.map f := by
  apply List.ext_getElem?
  intro k
  rw [List.getElem?_map, List.getElem?_map, List.getElem?_set]
  split
  · rename_i hk
    subst hk
    obtain ⟨hlt, rfl⟩ := List.getElem?_eq_some_iff.mp ha
    simp [hlt, hf]
  · rfl

theorem VotesMove.set {s s' : Cluster} {r : ℕ} {rpc : VoteRpc}
    {ph : Phase RequestVoteReply} (hr : s.voteRpcs[r]? = some rpc)
    (hs' : s'.voteRpcs = s.voteRpcs.set r { rpc with phase := ph })
    (hph : rpc.phase.Moves (fun reply => reply.voteGranted = true →
      Event.voted rpc.dst rpc.args.term rpc.src ∈ s'.history) ph) :
    VotesMove s s' where
  keys := by
    rw [hs']
    exact set_map_eq hr rfl
  mem := by
    intro rpc' hrpc'
    rw [hs'] at hrpc'
    rcases List.mem_or_eq_of_mem_set hrpc' with h | h
    · exact ⟨rpc', h, rpc'.phase, rfl, Or.inl rfl⟩
    · exact ⟨rpc, List.mem_of_getElem? hr, ph, h, hph⟩

/-- A request that has just been closed is the only one with its key. -/
theorem VotesMove.closed {s s' : Cluster} {r : ℕ} {rpc rpc' : VoteRpc}
    (hkeys : (s.voteRpcs.map VoteRpc.key).Nodup) (hr : s.voteRpcs[r]? = some rpc)
    (hs' : s'.voteRpcs = s.voteRpcs.set r { rpc with phase := .finished })
    (hr' : rpc' ∈ s'.voteRpcs) (hkey : rpc'.key = rpc.key) :
    rpc' = { rpc with phase := .finished } := by
  have hclosed : { rpc with phase := .finished } ∈ s'.voteRpcs := by
    rw [hs']
    exact List.mem_set (List.getElem?_eq_some_iff.mp hr).1 _
  have hkeys' : (s'.voteRpcs.map VoteRpc.key).Nodup := by
    have hmap : s'.voteRpcs.map VoteRpc.key = s.voteRpcs.map VoteRpc.key := by
      rw [hs']
      exact set_map_eq hr rfl
    rwa [hmap]
  exact List.inj_on_of_nodup_map hkeys' hr' hclosed hkey

/-- What a step may do to the candidates without touching their ballots: keep
the candidacy and its counter, or end it; a restart ends all of them. -/
structure KeepsBallots (s s' : Cluster) (i : NodeId) : Prop where
  term_le : (s.nodes i).currentTerm ≤ (s'.nodes i).currentTerm
  life : s'.lives i = s.lives i ∧
      (s'.nodes i).elections.length = (s.nodes i).elections.length ∨
    s'.lives i = s.lives i + 1
  candidate : (s'.nodes i).role = .candidate →
    (s.nodes i).role = .candidate ∧ s'.lives i = s.lives i ∧
    (s'.nodes i).currentTerm = (s.nodes i).currentTerm ∧
    (s'.nodes i).log = (s.nodes i).log

theorem KeepsBallots.of_passive {s s' : Cluster} {i : NodeId}
    (h : Passive (s.nodes i) (s'.nodes i)) (hl : s'.lives i = s.lives i) :
    KeepsBallots s s' i where
  term_le := h.term_le
  life := Or.inl ⟨hl, by rw [h.elections]⟩
  candidate := fun hc => by
    obtain ⟨h1, h2, h3⟩ := h.candidate hc
    exact ⟨h1, hl, h2, h3⟩

/-- **Frame.** Ballots survive a step that keeps them, if a candidate whose
counter has changed has a new tally. -/
theorem Ballots.frame {cfg : Config} {s s' : Cluster} (h : Ballots cfg s)
    (hN : ∀ i, KeepsBallots s s' i) (hV : VotesMove s s')
    (hT : ∀ i, (s'.nodes i).role = .candidate →
      (s'.nodes i).elections = (s.nodes i).elections ∨ ∃ Q, Tally cfg s' i Q)
    (hH : s.history ⊆ s'.history)
    (hB : ∀ i T L, Event.becameLeader i T L ∈ s'.history →
      Event.becameLeader i T L ∈ s.history ∨
        T = (s'.nodes i).currentTerm ∧ (s'.nodes i).role = .leader ∧
          Won cfg s'.history i T) : Ballots cfg s' where
  call := by
    intro rpc' hr
    obtain ⟨rpc, hm, ph, rfl, -⟩ := hV.mem rpc' hr
    obtain ⟨h1, h2, h3, h4, h5⟩ := h.call rpc hm
    refine ⟨h1, h2, h3, h4.trans (hN _).term_le, ?_⟩
    rcases (hN rpc.src).life with ⟨hl, -⟩ | hl <;>
    · show rpc.life ≤ s'.lives rpc.src
      omega
  current := by
    intro rpc' hr hc ht
    obtain ⟨rpc, hm, ph, rfl, -⟩ := hV.mem rpc' hr
    obtain ⟨hc', hl, hterm, hlog⟩ := (hN rpc.src).candidate hc
    dsimp only at ht ⊢
    obtain ⟨h1, h2, h3⟩ := h.current rpc hm hc' (ht.trans hterm)
    rw [hlog, hl]
    refine ⟨h1, h2, fun hlife => ?_⟩
    rcases (hN rpc.src).life with ⟨-, he⟩ | hl'
    · rw [he]
      exact h3 hlife
    · omega
  counter := by
    intro rpc' hr hlife
    obtain ⟨rpc, hm, ph, rfl, -⟩ := hV.mem rpc' hr
    obtain ⟨-, -, -, -, h5⟩ := h.call rpc hm
    dsimp only at hlife ⊢
    rcases (hN rpc.src).life with ⟨hl, he⟩ | hl
    · rw [he]
      exact h.counter rpc hm (hlife.trans hl)
    · omega
  keys := by
    rw [hV.keys]
    exact h.keys
  granted := by
    intro rpc' hr reply hp hg
    obtain ⟨rpc, hm, ph, rfl, hph⟩ := hV.mem rpc' hr
    dsimp only at hp ⊢
    rcases hph.reply hp with hold | hnew
    · exact hH (h.granted rpc hm reply hold hg)
    · exact hnew hg
  tally := by
    intro i hc
    obtain ⟨hc', hl, hterm, hlog⟩ := (hN i).candidate hc
    obtain ⟨Q, hQ⟩ := h.tally i hc'
    rcases hT i hc with he | hnew
    swap
    · exact hnew
    refine ⟨Q, hQ.member, by rw [he]; exact hQ.count, ?_, ?_⟩
    · intro q hq
      rw [hterm]
      exact hH (hQ.voted q hq)
    · intro rpc' hr hsrc hlife hel hdst
      obtain ⟨rpc, hm, ph, rfl, hph⟩ := hV.mem rpc' hr
      dsimp only at hsrc hlife hel hdst ⊢
      exact hph.done (hQ.done rpc hm hsrc (hlife.trans hl) (by rw [hel, he]) hdst)
  past := by
    intro i T L hev
    rcases hB i T L hev with hold | ⟨ht, hl, -⟩
    · obtain ⟨h1, h2⟩ := h.past i T L hold
      have hle := (hN i).term_le
      refine ⟨h1.trans hle, fun ht hc => ?_⟩
      obtain ⟨hc', -, hterm, -⟩ := (hN i).candidate hc
      exact h2 (ht.trans hterm) hc'
    · refine ⟨Nat.le_of_eq ht, fun _ hc => ?_⟩
      exact Role.noConfusion (hl.symm.trans hc)
  won := by
    intro i T L hev
    rcases hB i T L hev with hold | ⟨-, -, hw⟩
    · exact (h.won i T L hold).mono hH
    · exact hw

/-! ### Counting a vote -/

/-- A granted reply that a candidate accepts comes from a voter it has not
counted yet. -/
theorem Ballots.fresh_vote {cfg : Config} {s : Cluster} (h : Ballots cfg s)
    {rpc : VoteRpc} {reply : RequestVoteReply} (hr : rpc ∈ s.voteRpcs)
    (hl : rpc.life = s.lives rpc.src) (hp : rpc.phase = .replied reply)
    (hg : reply.voteGranted = true) (hc : (s.nodes rpc.src).role = .candidate)
    (ht : (s.nodes rpc.src).currentTerm = rpc.args.term) :
    ∃ Q, Tally cfg s rpc.src Q ∧ rpc.dst ∉ Q ∧ rpc.dst ∈ cfg.ids ∧
      rpc.election + 1 = (s.nodes rpc.src).elections.length ∧
      Event.voted rpc.dst (s.nodes rpc.src).currentTerm rpc.src ∈ s.history := by
  obtain ⟨Q, hQ⟩ := h.tally rpc.src hc
  obtain ⟨hsrc, hdst, -⟩ := h.call rpc hr
  obtain ⟨-, -, hel⟩ := h.current rpc hr hc ht.symm
  refine ⟨Q, hQ, fun hmem => ?_, ((cfg.mem_peers _ hsrc _).mp hdst).1, hel hl, ?_⟩
  · have hfin := hQ.done rpc hr rfl hl (hel hl) hmem
    rw [hfin] at hp
    cases hp
  · rw [ht]
    exact h.granted rpc hr reply hp hg

/-- **Counting.** Closing request `r` and counting its vote adds its voter to
the tally. -/
theorem Tally.count_vote {cfg : Config} {s s' : Cluster} {r : ℕ} {rpc : VoteRpc}
    {Q : Finset NodeId} (h : Ballots cfg s) (hQ : Tally cfg s rpc.src Q)
    (hr : s.voteRpcs[r]? = some rpc) (hl : rpc.life = s.lives rpc.src)
    (hnew : rpc.dst ∉ Q) (hdst : rpc.dst ∈ cfg.ids)
    (hel : rpc.election + 1 = (s.nodes rpc.src).elections.length)
    (hvoted : Event.voted rpc.dst (s.nodes rpc.src).currentTerm rpc.src ∈ s.history)
    (hterm : (s'.nodes rpc.src).currentTerm = (s.nodes rpc.src).currentTerm)
    (helections : (s'.nodes rpc.src).elections =
      ((s.nodes rpc.src).countVote rpc.election).elections)
    (hlives : s'.lives = s.lives)
    (hvotes : s'.voteRpcs = s.voteRpcs.set r { rpc with phase := .finished })
    (hH : s.history ⊆ s'.history) : Tally cfg s' rpc.src (insert rpc.dst Q) := by
  have hV : VotesMove s s' := VotesMove.set hr hvotes (Or.inr (Or.inl rfl))
  have hlen : (s'.nodes rpc.src).elections.length =
      (s.nodes rpc.src).elections.length := by
    rw [helections]
    simp [Node.countVote]
  refine ⟨?_, ?_, ?_, ?_⟩
  · intro q hq
    rcases Finset.mem_insert.mp hq with rfl | hq
    · exact hdst
    · exact hQ.member q hq
  · have hcount := hQ.count
    rw [← hel, Nat.add_sub_cancel] at hcount
    rw [hlen, ← hel, Nat.add_sub_cancel, helections,
      Finset.card_insert_of_notMem hnew, ← hcount]
    have hlt : rpc.election < (s.nodes rpc.src).elections.length := by omega
    simp [Node.countVote, List.getD_eq_getElem?_getD, hlt]
  · intro q hq
    rw [hterm]
    rcases Finset.mem_insert.mp hq with rfl | hq
    · exact hH hvoted
    · exact hH (hQ.voted q hq)
  · intro rpc' hr' hsrc' hl' hel' hdst'
    rw [hlen] at hel'
    rw [hlives] at hl'
    rcases Finset.mem_insert.mp hdst' with hd | hd
    · have heq : rpc' = { rpc with phase := .finished } := by
        refine VotesMove.closed h.keys hr hvotes hr' ?_
        simp only [VoteRpc.key, Prod.mk.injEq]
        exact ⟨hsrc', hl'.trans hl.symm, by omega, hd⟩
      rw [heq]
    · obtain ⟨rpc₀, hm, ph, rfl, hph⟩ := hV.mem rpc' hr'
      exact hph.done (hQ.done rpc₀ hm hsrc' hl' hel' hd)

/-! ### A new election -/

/-- The requests `startElection` sends. -/
def ballotsOf (cfg : Config) (s : Cluster) (i : NodeId) (e : LogEntry) :
    List VoteRpc :=
  (cfg.peers i).map fun peer =>
    { src := i, dst := peer, life := s.lives i,
      election := (s.nodes i).elections.length,
      args := { term := (s.nodes i).currentTerm + 1, candidateId := i,
                lastLogIndex := (s.nodes i).log.length - 1, lastLogTerm := e.term },
      phase := .requested }

theorem mem_ballotsOf {cfg : Config} {s : Cluster} {i : NodeId} {e : LogEntry}
    {rpc : VoteRpc} (h : rpc ∈ ballotsOf cfg s i e) :
    rpc.src = i ∧ rpc.dst ∈ cfg.peers i ∧ rpc.life = s.lives i ∧
      rpc.election = (s.nodes i).elections.length ∧
      rpc.args = ⟨(s.nodes i).currentTerm + 1, i, (s.nodes i).log.length - 1, e.term⟩ ∧
      rpc.phase = .requested := by
  obtain ⟨peer, hp, rfl⟩ := List.mem_map.mp h
  exact ⟨rfl, hp, rfl, rfl, rfl, rfl⟩

theorem keys_ballotsOf {cfg : Config} {s : Cluster} {i : NodeId} {e : LogEntry}
    (h : Ballots cfg s) (hi : i ∈ cfg.ids) :
    ((s.voteRpcs ++ ballotsOf cfg s i e).map VoteRpc.key).Nodup := by
  refine keys_ask hi h.keys fun rpc hr hsrc hlife => ?_
  have hcount := h.counter rpc hr (by rw [hlife, hsrc])
  rwa [hsrc] at hcount

/-- What `startElection` of `i` does, with `e` the last entry of its log. -/
structure Campaigned (cfg : Config) (s s' : Cluster) (i : NodeId) (e : LogEntry) : Prop where
  other : ∀ j, j ≠ i → s'.nodes j = s.nodes j
  term : (s'.nodes i).currentTerm = (s.nodes i).currentTerm + 1
  log : (s'.nodes i).log = (s.nodes i).log
  elections : (s'.nodes i).elections = (s.nodes i).elections ++ [1]
  lives : s'.lives = s.lives
  votes : s'.voteRpcs = s.voteRpcs ++ ballotsOf cfg s i e
  history : s'.history = Event.voted i ((s.nodes i).currentTerm + 1) i :: s.history

namespace Campaigned

variable {cfg : Config} {s s' : Cluster} {i : NodeId} {e : LogEntry}

theorem mem (h : Campaigned cfg s s' i e) {rpc : VoteRpc} (hr : rpc ∈ s'.voteRpcs) :
    rpc ∈ s.voteRpcs ∨ rpc ∈ ballotsOf cfg s i e := by
  rw [h.votes] at hr
  exact List.mem_append.mp hr

theorem history_subset (h : Campaigned cfg s s' i e) : s.history ⊆ s'.history := by
  rw [h.history]
  exact List.subset_cons_self _ _

theorem length (h : Campaigned cfg s s' i e) :
    (s'.nodes i).elections.length = (s.nodes i).elections.length + 1 := by
  rw [h.elections, List.length_append]
  rfl

/-- The new counter stands for the candidate's own vote. -/
theorem tally_self (h : Campaigned cfg s s' i e) (hb : Ballots cfg s) (hi : i ∈ cfg.ids) :
    Tally cfg s' i {i} := by
  refine ⟨?_, ?_, ?_, ?_⟩
  · intro q hq
    rw [Finset.mem_singleton.mp hq]
    exact hi
  · rw [h.elections]
    simp
  · intro q hq
    rw [Finset.mem_singleton.mp hq, h.term, h.history]
    exact List.mem_cons_self
  · intro rpc hr hsrc hl hel hd
    rw [h.length] at hel
    rw [h.lives] at hl
    rcases h.mem hr with hr | hr
    · have hcount := hb.counter rpc hr (hsrc ▸ hl)
      rw [hsrc] at hcount
      omega
    · obtain ⟨-, h2, -⟩ := mem_ballotsOf hr
      exact absurd (Finset.mem_singleton.mp hd) ((cfg.mem_peers i hi _).mp h2).2

theorem tally_other (h : Campaigned cfg s s' i e) {j : NodeId} (hj : j ≠ i)
    {Q : Finset NodeId} (hQ : Tally cfg s j Q) : Tally cfg s' j Q := by
  refine ⟨hQ.member, by rw [h.other j hj]; exact hQ.count, ?_, ?_⟩
  · rw [h.other j hj]
    exact fun q hq => h.history_subset (hQ.voted q hq)
  · intro rpc hr hsrc hl hel hd
    rw [h.other j hj] at hel
    rw [h.lives] at hl
    rcases h.mem hr with hr | hr
    · exact hQ.done rpc hr hsrc hl hel hd
    · exact absurd (hsrc.symm.trans (mem_ballotsOf hr).1) hj

end Campaigned

theorem Ballots.startElection {cfg : Config} {s s' : Cluster} {i : NodeId}
    {e : LogEntry} (h : Ballots cfg s) (hi : i ∈ cfg.ids)
    (he : (s.nodes i).log[(s.nodes i).log.length - 1]? = some e)
    (hs : Campaigned cfg s s' i e) : Ballots cfg s' where
  call := by
    intro rpc hr
    rcases hs.mem hr with hr | hr
    · obtain ⟨h1, h2, h3, h4, h5⟩ := h.call rpc hr
      refine ⟨h1, h2, h3, ?_, hs.lives ▸ h5⟩
      by_cases hj : rpc.src = i
      · rw [hj, hs.term]
        rw [hj] at h4
        omega
      · rw [hs.other _ hj]
        exact h4
    · obtain ⟨h1, h2, h3, -, h5, -⟩ := mem_ballotsOf hr
      rw [h1, h5, hs.term, hs.lives, h3]
      exact ⟨hi, h2, rfl, le_refl _, le_refl _⟩
  current := by
    intro rpc hr hc ht
    rcases hs.mem hr with hr | hr
    · obtain ⟨-, -, -, h4, -⟩ := h.call rpc hr
      by_cases hj : rpc.src = i
      · -- an older candidacy of the same node
        rw [hj, hs.term] at ht
        rw [hj] at h4
        omega
      · rw [hs.other _ hj] at hc ht ⊢
        rw [hs.lives]
        exact h.current rpc hr hc ht
    · obtain ⟨h1, -, -, h4, h5, -⟩ := mem_ballotsOf hr
      rw [h1, h5, hs.log, hs.length, h4, he]
      exact ⟨rfl, rfl, fun _ => rfl⟩
  counter := by
    intro rpc hr hl
    rw [hs.lives] at hl
    rcases hs.mem hr with hr | hr
    · have hcount := h.counter rpc hr hl
      by_cases hj : rpc.src = i
      · rw [hj, hs.length]
        rw [hj] at hcount
        omega
      · rw [hs.other _ hj]
        exact hcount
    · obtain ⟨h1, -, -, h4, -⟩ := mem_ballotsOf hr
      rw [h1, hs.length, h4]
      omega
  keys := by
    rw [hs.votes]
    exact keys_ballotsOf h hi
  granted := by
    intro rpc hr reply hp hg
    rcases hs.mem hr with hr | hr
    · exact hs.history_subset (h.granted rpc hr reply hp hg)
    · obtain ⟨-, -, -, -, -, h6⟩ := mem_ballotsOf hr
      rw [h6] at hp
      cases hp
  tally := by
    intro j hc
    by_cases hj : j = i
    · subst hj
      exact ⟨_, hs.tally_self h hi⟩
    · rw [hs.other j hj] at hc
      obtain ⟨Q, hQ⟩ := h.tally j hc
      exact ⟨Q, hs.tally_other hj hQ⟩
  past := by
    intro j T L hev
    rw [hs.history] at hev
    obtain ⟨h1, h2⟩ := h.past j T L (by simpa using hev)
    by_cases hj : j = i
    · subst hj
      rw [hs.term]
      exact ⟨by omega, fun ht => absurd ht (by omega)⟩
    · rw [hs.other j hj]
      exact ⟨h1, h2⟩
  won := by
    intro j T L hev
    rw [hs.history] at hev
    exact (h.won j T L (by simpa using hev)).mono hs.history_subset

/-! ## §3  Replicas -/

/-- A leader's `matchIndex` is backed by accepted prefixes, its own log by one
of its own. -/
structure Tracks (H : List Event) (i : NodeId) (n : Node) : Prop where
  peer : ∀ p, 0 < n.matchIndex p →
    ∃ m, n.matchIndex p ≤ m ∧ Event.accepted p n.currentTerm m ∈ H
  self : Event.accepted i n.currentTerm (n.log.length - 1) ∈ H

structure Replicas (cfg : Config) (s : Cluster) : Prop where
  src : ∀ rpc ∈ s.appendRpcs, rpc.src ∈ cfg.ids
  success : ∀ rpc ∈ s.appendRpcs, ∀ reply, rpc.phase = .replied reply →
    reply.success = true → Event.accepted rpc.dst rpc.args.term
      (rpc.args.prevLogIndex + rpc.args.entries.length) ∈ s.history
  leader : ∀ i, (s.nodes i).role = .leader → Tracks s.history i (s.nodes i)

theorem Tracks.mono {H H' : List Event} {i : NodeId} {n : Node} (hH : H ⊆ H')
    (h : Tracks H i n) : Tracks H' i n where
  peer := fun p hp => by
    obtain ⟨m, hm, ha⟩ := h.peer p hp
    exact ⟨m, hm, hH ha⟩
  self := hH h.self

/-- Append requests keep their contents, a successful reply is on record, and
new requests are sent by members. -/
def AppendsMove (cfg : Config) (s s' : Cluster) : Prop :=
  ∀ rpc' ∈ s'.appendRpcs,
    (∃ rpc ∈ s.appendRpcs, ∃ ph, rpc' = { rpc with phase := ph } ∧
      rpc.phase.Moves (fun reply => reply.success = true →
        Event.accepted rpc.dst rpc.args.term
          (rpc.args.prevLogIndex + rpc.args.entries.length) ∈ s'.history) ph) ∨
    rpc'.phase = .requested ∧ rpc'.src ∈ cfg.ids

theorem AppendsMove.of_eq {cfg : Config} {s s' : Cluster}
    (h : s'.appendRpcs = s.appendRpcs) : AppendsMove cfg s s' :=
  fun rpc hr => Or.inl ⟨rpc, h ▸ hr, rpc.phase, rfl, Or.inl rfl⟩

theorem AppendsMove.set {cfg : Config} {s s' : Cluster} {r : ℕ} {rpc : AppendRpc}
    {ph : Phase AppendEntriesReply} (hr : s.appendRpcs[r]? = some rpc)
    (hs' : s'.appendRpcs = s.appendRpcs.set r { rpc with phase := ph })
    (hph : rpc.phase.Moves (fun reply => reply.success = true →
      Event.accepted rpc.dst rpc.args.term
        (rpc.args.prevLogIndex + rpc.args.entries.length) ∈ s'.history) ph) :
    AppendsMove cfg s s' := by
  intro rpc' hrpc'
  rw [hs'] at hrpc'
  rcases List.mem_or_eq_of_mem_set hrpc' with h | h
  · exact Or.inl ⟨rpc', h, rpc'.phase, rfl, Or.inl rfl⟩
  · exact Or.inl ⟨rpc, List.mem_of_getElem? hr, ph, h, hph⟩

theorem AppendsMove.spawn {cfg : Config} {s t : Cluster} {i : NodeId}
    {calls : List AppendCall} (h : AppendsMove cfg s t) (hi : i ∈ cfg.ids) :
    AppendsMove cfg s (t.spawnAppends i calls) := by
  intro rpc' hrpc'
  rcases List.mem_append.mp hrpc' with hr | hr
  · exact h rpc' hr
  · obtain ⟨c, -, rfl⟩ := List.mem_map.mp hr
    exact Or.inr ⟨rfl, hi⟩

theorem AppendsMove.record {cfg : Config} {s t : Cluster} (h : AppendsMove cfg s t)
    (evs : List Event) : AppendsMove cfg s (t.record evs) := by
  intro rpc' hrpc'
  rcases h rpc' hrpc' with ⟨rpc, hm, ph, heq, hph⟩ | hnew
  · refine Or.inl ⟨rpc, hm, ph, heq, ?_⟩
    rcases hph with hph | hph | ⟨hreq, hph⟩
    · exact Or.inl hph
    · exact Or.inr (Or.inl hph)
    · refine Or.inr (Or.inr ⟨hreq, fun reply hrep hsucc => ?_⟩)
      exact List.mem_append_right _ (hph reply hrep hsucc)
  · exact Or.inr hnew

/-- **Frame.** Replicas survive a step after which every leader was one before,
unchanged, or tracks its peers. -/
theorem Replicas.frame {cfg : Config} {s s' : Cluster} (h : Replicas cfg s)
    (hN : ∀ i, (s'.nodes i).role = .leader →
      ((s.nodes i).role = .leader ∧
        (s'.nodes i).currentTerm = (s.nodes i).currentTerm ∧
        (s'.nodes i).log = (s.nodes i).log ∧
        (s'.nodes i).matchIndex = (s.nodes i).matchIndex) ∨
      Tracks s'.history i (s'.nodes i))
    (hA : AppendsMove cfg s s') (hH : s.history ⊆ s'.history) : Replicas cfg s' where
  src := by
    intro rpc' hr
    rcases hA rpc' hr with ⟨rpc, hm, ph, rfl, -⟩ | ⟨-, hsrc⟩
    · exact h.src rpc hm
    · exact hsrc
  success := by
    intro rpc' hr reply hp hs
    rcases hA rpc' hr with ⟨rpc, hm, ph, rfl, hph⟩ | ⟨hreq, -⟩
    · rcases hph.reply hp with hold | hnew
      · exact hH (h.success rpc hm reply hold hs)
      · exact hnew hs
    · rw [hreq] at hp
      cases hp
  leader := by
    intro i hl
    rcases hN i hl with ⟨hl', ht, hlog, hm⟩ | hnew
    · have htr := h.leader i hl'
      refine ⟨?_, ?_⟩
      · rw [hm, ht]
        exact (htr.mono hH).peer
      · rw [ht, hlog]
        exact (htr.mono hH).self
    · exact hnew

/-! ### The requests of a step -/

section Requests

variable {cfg : Config} {s s' : Cluster} {i : NodeId} {r : ℕ} {rpc' : AppendRpc}

/-- The request was there before, with the same contents; a new answer is that of its
receiver. -/
def AppendRpc.KeptFrom (s : Cluster) (rpc' : AppendRpc) : Prop :=
  ∃ rpc ∈ s.appendRpcs, ∃ ph, rpc' = { rpc with phase := ph } ∧
    rpc.phase.Moves (fun reply => ∃ n,
      (s.nodes rpc.dst).handleAppendEntries Cluster.persistOk rpc.args = some (n, reply)) ph

/-- The request has just been sent, to a peer or once more to the same node. -/
structure AppendRpc.Fresh (s s' : Cluster) (rpc' : AppendRpc) : Prop where
  requested : rpc'.phase = .requested
  sent : (s'.nodes rpc'.src).sendAppendEntries rpc'.dst = some ⟨rpc'.dst, rpc'.args⟩
  dst : rpc'.dst ∈ (s'.nodes rpc'.src).peers ∨
    ∃ rpc ∈ s.appendRpcs, rpc.src = rpc'.src ∧ rpc.dst = rpc'.dst

theorem keptFrom_of_mem (hr : rpc' ∈ s.appendRpcs) : rpc'.KeptFrom s :=
  ⟨rpc', hr, rpc'.phase, rfl, Or.inl rfl⟩

theorem keptFrom_of_set {rpc : AppendRpc} {ph : Phase AppendEntriesReply}
    (hr : s.appendRpcs[r]? = some rpc)
    (hph : rpc.phase.Moves (fun reply => ∃ n,
      (s.nodes rpc.dst).handleAppendEntries Cluster.persistOk rpc.args = some (n, reply)) ph)
    (hmem : rpc' ∈ s.appendRpcs.set r { rpc with phase := ph }) : rpc'.KeptFrom s := by
  rcases List.mem_or_eq_of_mem_set hmem with hold | hset
  · exact keptFrom_of_mem hold
  · exact ⟨rpc, List.mem_of_getElem? hr, ph, hset, hph⟩

/-- The requests after `i`, now in state `n`, has made some calls. -/
theorem kept_or_fresh_of_spawn {t : Cluster} {n : Node} {calls : List AppendCall}
    (hnodes : s'.nodes = Function.update s.nodes i n)
    (hold : ∀ rpc ∈ t.appendRpcs, rpc.KeptFrom s)
    (hcalls : ∀ c ∈ calls, (c.peer ∈ n.peers ∨
      ∃ rpc ∈ s.appendRpcs, rpc.src = i ∧ rpc.dst = c.peer) ∧ n.sendAppendEntries c.peer = some c)
    (hmem : rpc' ∈ (t.spawnAppends i calls).appendRpcs) : rpc'.KeptFrom s ∨ rpc'.Fresh s s' := by
  obtain rfl : s'.nodes i = n := by rw [hnodes, Function.update_self]
  rcases List.mem_append.mp hmem with hr | hr
  · exact Or.inl (hold rpc' hr)
  · obtain ⟨c, hc, rfl⟩ := List.mem_map.mp hr
    obtain ⟨hdst, hsend⟩ := hcalls c hc
    exact Or.inr ⟨rfl, hsend, hdst⟩

/-- **Requests.** After a step every append request was there before or has just been
sent. -/
theorem Cluster.step_appends {a : Action} (hs : s.step cfg a = some s') :
    ∀ rpc' ∈ s'.appendRpcs, rpc'.KeptFrom s ∨ rpc'.Fresh s s' := by
  intro rpc' hmem
  cases a with
  | startElection i =>
      obtain ⟨-, -, n, calls, -, rfl⟩ := Cluster.startElection_some hs
      exact Or.inl (keptFrom_of_mem hmem)
  | heartbeat i =>
      obtain ⟨-, -, calls, hb, rfl⟩ := Cluster.heartbeat_some hs
      exact kept_or_fresh_of_spawn (Function.update_eq_self i s.nodes).symm
        (fun _ hold => keptFrom_of_mem hold)
        (fun c hc => (Node.broadcast_mem hb c hc).imp_left Or.inl) hmem
  | propose i command =>
      obtain ⟨-, rfl | ⟨-, calls, hb, rfl⟩⟩ := Cluster.propose_some hs
      · exact Or.inl (keptFrom_of_mem hmem)
      · exact kept_or_fresh_of_spawn (t := s.setNode i _) rfl (fun _ hold => keptFrom_of_mem hold)
          (fun c hc => (Node.broadcast_mem hb c hc).imp_left Or.inl) hmem
  | deliverVote r =>
      obtain ⟨rpc, n, reply, -, -, -, rfl⟩ := Cluster.deliverVote_some hs
      exact Or.inl (keptFrom_of_mem hmem)
  | voteReply r =>
      obtain ⟨rpc, reply, n, calls, -, -, -, hn, rfl⟩ := Cluster.voteReply_some hs
      exact kept_or_fresh_of_spawn (t := s.setNode rpc.src n) rfl
        (fun _ hold => keptFrom_of_mem hold)
        (fun c hc => (Node.handleVoteReply_calls hn c hc).imp_left Or.inl) hmem
  | deliverAppend r =>
      obtain ⟨rpc, n, reply, hr, hreq, hn, rfl⟩ := Cluster.deliverAppend_some hs
      refine Or.inl (keptFrom_of_set hr (Or.inr (Or.inr ⟨hreq, fun reply' heq => ?_⟩)) hmem)
      cases heq
      exact ⟨n, hn⟩
  | appendReply r =>
      obtain ⟨rpc, reply, n, calls, hr, -, -, hn, rfl⟩ := Cluster.appendReply_some hs
      refine kept_or_fresh_of_spawn
        (t := (s.setNode rpc.src n).setAppendRpc r { rpc with phase := .finished }) rfl
        (fun _ hold => keptFrom_of_set hr (Or.inr (Or.inl rfl)) hold) (fun c hc => ?_) hmem
      obtain ⟨hpeer, hsend⟩ := Node.handleAppendReply_calls hn c hc
      exact ⟨Or.inr ⟨rpc, List.mem_of_getElem? hr, rfl, hpeer.symm⟩, hsend⟩
  | applyWake i =>
      rw [Cluster.applyWake_some hs] at hmem
      exact Or.inl (keptFrom_of_mem hmem)
  | applyTake i =>
      rcases Cluster.applyTake_some hs with rfl | ⟨-, e, pc, -, -, rfl⟩
      · exact Or.inl (keptFrom_of_mem hmem)
      · exact Or.inl (keptFrom_of_mem hmem)
  | applySend i =>
      obtain ⟨msg, -, rfl⟩ := Cluster.applySend_some hs
      exact Or.inl (keptFrom_of_mem hmem)
  | takeSnapshot i upToIndex data =>
      obtain ⟨n, b, -, rfl⟩ := Cluster.takeSnapshot_some hs
      exact Or.inl (keptFrom_of_mem hmem)
  | crash i =>
      rw [Cluster.crash_some hs] at hmem
      exact Or.inl (keptFrom_of_mem hmem)
  | crashInVote r =>
      obtain ⟨rpc, -, -, rfl⟩ := Cluster.crashInVote_some hs
      exact Or.inl (keptFrom_of_mem hmem)
  | crashInAppend r =>
      obtain ⟨rpc, hr, -, rfl⟩ := Cluster.crashInAppend_some hs
      exact Or.inl (keptFrom_of_set hr (Or.inr (Or.inl rfl)) hmem)

end Requests

/-! ## §4  The apply loop -/

/-- The history has an entry taken at the index and with the command of
`msg`. -/
def Taken (H : List Event) (i : NodeId) (msg : ApplyMsg) : Prop :=
  ∃ e, Event.taken i msg.commandIndex e ∈ H ∧ e.command = some msg.command

structure Applied (s : Cluster) : Prop where
  sending : ∀ i msg, (s.nodes i).applyPc = .sending msg → Taken s.history i msg
  delivered : ∀ i msg, Event.delivered i msg ∈ s.history → Taken s.history i msg

theorem Taken.mono {H H' : List Event} {i : NodeId} {msg : ApplyMsg} (hH : H ⊆ H')
    (h : Taken H i msg) : Taken H' i msg := by
  obtain ⟨e, he, hc⟩ := h
  exact ⟨e, hH he, hc⟩

theorem Applied.frame {s s' : Cluster} (h : Applied s)
    (hN : ∀ i msg, (s'.nodes i).applyPc = .sending msg →
      (s.nodes i).applyPc = .sending msg ∨ Taken s'.history i msg)
    (hH : s.history ⊆ s'.history)
    (hD : ∀ i msg, Event.delivered i msg ∈ s'.history →
      Event.delivered i msg ∈ s.history ∨ (s.nodes i).applyPc = .sending msg) :
    Applied s' where
  sending := by
    intro i msg hp
    rcases hN i msg hp with hold | hnew
    · exact (h.sending i msg hold).mono hH
    · exact hnew
  delivered := by
    intro i msg hd
    rcases hD i msg hd with hold | hnew
    · exact (h.delivered i msg hold).mono hH
    · exact (h.sending i msg hnew).mono hH

end KVEngine.Raft
