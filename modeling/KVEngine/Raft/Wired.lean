import KVEngine.Raft.Wiring

/-!
# The bookkeeping holds in every run

Preservation of the four parts of `Wiring` by each action, and from it the run
lemma `wired_run`. An action changes one node, and only that node is argued about
(`Wired.frame`); most change it passively and go through `Wired.passive`.
-/

namespace KVEngine.Raft

open Foundation (Run)
open Foundation.ReplicatedLog (Role)

/-! ## §1  The condition and the invariant -/

/-- A step whose term increment does not wrap and whose snapshot, if it takes
one, discards nothing. -/
def Plain (cfg : Config) (s : Cluster) : Action → Prop
  | .startElection i =>
      cfg.incr (s.nodes i).currentTerm = (s.nodes i).currentTerm + 1
  | .takeSnapshot _ upToIndex _ => upToIndex = 0
  | _ => True

instance (cfg : Config) (s : Cluster) (a : Action) : Decidable (Plain cfg s a) :=
  match a with
  | .startElection _ => inferInstanceAs (Decidable (_ = _))
  | .takeSnapshot _ upToIndex _ => inferInstanceAs (Decidable (upToIndex = 0))
  | .deliverVote _ | .heartbeat _ | .propose _ _ | .voteReply _ | .deliverAppend _
  | .appendReply _ | .applyWake _ | .applyTake _ | .applySend _ | .crash _
  | .crashInVote _ | .crashInAppend _ => isTrue trivial

structure Wired (cfg : Config) (s : Cluster) : Prop where
  sound : ∀ i, Sound cfg i (s.nodes i)
  ballots : Ballots cfg s
  replicas : Replicas cfg s
  applied : Applied s

theorem wired_initial (cfg : Config) : Wired cfg (Cluster.initial cfg) where
  sound := fun i => sound_newNode cfg i
  ballots := by
    constructor <;> simp [Cluster.initial, Node.newNode, Node.blank,
      Node.restoreSnapshot, Node.restoreState]
  replicas := by
    constructor <;> simp [Cluster.initial, Node.newNode, Node.blank,
      Node.restoreSnapshot, Node.restoreState]
  applied := by
    constructor <;> simp [Cluster.initial, Node.newNode, Node.blank,
      Node.restoreSnapshot, Node.restoreState]

/-! ## §2  Passive steps and restarts -/

section Frames

variable {cfg : Config} {s s' : Cluster} {i : NodeId} {n : Node}

theorem sound_update (h : ∀ j, Sound cfg j (s.nodes j)) (hs : Sound cfg i n)
    (hnodes : s'.nodes = Function.update s.nodes i n) :
    ∀ j, Sound cfg j (s'.nodes j) :=
  Cluster.forall_nodes hnodes (P := Sound cfg) hs fun j _ => h j

/-- **Frame.** One node changes; what is to be shown is shown of that node. -/
theorem Wired.frame (h : Wired cfg s) (hs : Sound cfg i n)
    (hnodes : s'.nodes = Function.update s.nodes i n)
    (hlives : ∀ j, j ≠ i → s'.lives j = s.lives j) (hK : KeepsBallots s s' i)
    (hT : n.role = .candidate →
      n.elections = (s.nodes i).elections ∨ ∃ Q, Tally cfg s' i Q)
    (hL : n.role = .leader →
      ((s.nodes i).role = .leader ∧ n.currentTerm = (s.nodes i).currentTerm ∧
        n.log = (s.nodes i).log ∧ n.matchIndex = (s.nodes i).matchIndex) ∨
      Tracks s'.history i n)
    (hpc : ∀ msg, n.applyPc = .sending msg →
      (s.nodes i).applyPc = .sending msg ∨ Taken s'.history i msg)
    (hV : VotesMove s s') (hA : AppendsMove cfg s s') (hH : s.history ⊆ s'.history)
    (hB : ∀ j T L, Event.becameLeader j T L ∈ s'.history →
      Event.becameLeader j T L ∈ s.history ∨
        T = (s'.nodes j).currentTerm ∧ (s'.nodes j).role = .leader ∧
          Won cfg s'.history j T)
    (hD : ∀ j msg, Event.delivered j msg ∈ s'.history →
      Event.delivered j msg ∈ s.history ∨ (s.nodes j).applyPc = .sending msg) :
    Wired cfg s' := by
  refine ⟨sound_update h.sound hs hnodes, ?_, ?_, ?_⟩
  · refine h.ballots.frame (fun j => ?_) hV ?_ hH hB
    · by_cases hj : j = i
      · exact hj ▸ hK
      · refine .of_passive ?_ (hlives j hj)
        rw [hnodes, Function.update_of_ne hj]
        exact Passive.refl _
    · exact Cluster.forall_nodes hnodes (P := fun j m => m.role = .candidate →
        m.elections = (s.nodes j).elections ∨ ∃ Q, Tally cfg s' j Q) hT fun _ _ _ => Or.inl rfl
  · refine h.replicas.frame ?_ hA hH
    exact Cluster.forall_nodes hnodes (P := fun j m => m.role = .leader →
      ((s.nodes j).role = .leader ∧ m.currentTerm = (s.nodes j).currentTerm ∧
        m.log = (s.nodes j).log ∧ m.matchIndex = (s.nodes j).matchIndex) ∨
      Tracks s'.history j m) hL fun _ _ hl => Or.inl ⟨hl, rfl, rfl, rfl⟩
  · refine h.applied.frame ?_ hH hD
    exact Cluster.forall_nodes hnodes (P := fun j m => ∀ msg, m.applyPc = .sending msg →
      (s.nodes j).applyPc = .sending msg ∨ Taken s'.history j msg) hpc fun _ _ _ hm => Or.inl hm

/-- A step that changes node `i` passively, moves requests and records no new
leader. -/
theorem Wired.passive (h : Wired cfg s) (hp : Passive (s.nodes i) n)
    (hs : Sound cfg i n) (hnodes : s'.nodes = Function.update s.nodes i n)
    (hlives : s'.lives = s.lives) (hV : VotesMove s s') (hA : AppendsMove cfg s s')
    (hH : s.history ⊆ s'.history)
    (hB : ∀ j T L, Event.becameLeader j T L ∈ s'.history →
      Event.becameLeader j T L ∈ s.history)
    (hD : ∀ j msg, Event.delivered j msg ∈ s'.history →
      Event.delivered j msg ∈ s.history ∨ (s.nodes j).applyPc = .sending msg) :
    Wired cfg s' := by
  have hself : s'.nodes i = n := by rw [hnodes, Function.update_self]
  refine h.frame hs hnodes (fun j _ => congrFun hlives j) (.of_passive ?_ (congrFun hlives i))
    (fun _ => Or.inl hp.elections) (fun hl => Or.inl (hp.leader hl))
    (fun msg hm => Or.inl (hp.applying msg hm)) hV hA hH (fun j T L hev => Or.inl (hB j T L hev)) hD
  rw [hself]
  exact hp

/-- A leader that stays leader of its term and still tracks its peers. -/
theorem Wired.leading (h : Wired cfg s) (hs : Sound cfg i n) (hrole : n.role = .leader)
    (hterm : n.currentTerm = (s.nodes i).currentTerm)
    (hels : n.elections = (s.nodes i).elections)
    (hpc : n.applyPc = (s.nodes i).applyPc) (htr : Tracks s'.history i n)
    (hnodes : s'.nodes = Function.update s.nodes i n) (hlives : s'.lives = s.lives)
    (hvotes : s'.voteRpcs = s.voteRpcs) (hA : AppendsMove cfg s s')
    (hH : s.history ⊆ s'.history)
    (hB : ∀ j T L, Event.becameLeader j T L ∈ s'.history →
      Event.becameLeader j T L ∈ s.history)
    (hD : ∀ j msg, Event.delivered j msg ∈ s'.history →
      Event.delivered j msg ∈ s.history) : Wired cfg s' := by
  have hself : s'.nodes i = n := by rw [hnodes, Function.update_self]
  have hK : KeepsBallots s s' i := by
    refine ⟨?_, Or.inl ⟨congrFun hlives i, ?_⟩, fun hc => ?_⟩
    · rw [hself, hterm]
    · rw [hself, hels]
    · rw [hself] at hc
      exact Role.noConfusion (hrole.symm.trans hc)
  exact h.frame hs hnodes (fun j _ => congrFun hlives j) hK (fun _ => Or.inl hels)
    (fun _ => Or.inr htr) (fun msg hm => Or.inl (hpc.symm.trans hm)) (VotesMove.of_eq hvotes) hA hH
    (fun j T L hev => Or.inl (hB j T L hev)) (fun j msg hd => Or.inl (hD j msg hd))

/-- A restart of node `i` out of a state `n` with a term not older. -/
theorem Wired.reboot (h : Wired cfg s) (hs : Sound cfg i n)
    (ht : (s.nodes i).currentTerm ≤ n.currentTerm)
    (hnodes : s'.nodes = Function.update s.nodes i n.restart)
    (hlives : s'.lives = Function.update s.lives i (s.lives i + 1))
    (hV : VotesMove s s') (hA : AppendsMove cfg s s')
    (hH : s'.history = s.history) : Wired cfg s' := by
  have hself : s'.nodes i = n.restart := by rw [hnodes, Function.update_self]
  have hrole : n.restart.role = .follower := by
    rw [hs.restart_eq]
    rfl
  have hpc : n.restart.applyPc = .parked := by
    rw [hs.restart_eq]
    rfl
  have hK : KeepsBallots s s' i := by
    refine ⟨?_, Or.inr ?_, fun hc => ?_⟩
    · rw [hself, hs.restart_eq]
      exact ht
    · rw [hlives, Function.update_self]
    · rw [hself] at hc
      exact Role.noConfusion (hrole.symm.trans hc)
  refine h.frame hs.restart hnodes (fun j hj => ?_) hK
    (fun hc => Role.noConfusion (hrole.symm.trans hc))
    (fun hl => Role.noConfusion (hrole.symm.trans hl))
    (fun msg hm => ApplyPc.noConfusion (hpc.symm.trans hm)) hV hA (hH ▸ List.Subset.refl _)
    (fun j T L hev => Or.inl (hH ▸ hev)) (fun j msg hd => Or.inl (hH ▸ hd))
  rw [hlives, Function.update_of_ne hj]

/-- A step of the apply loop of node `i`: a message it now sends was being sent
already or has been taken from the log. -/
theorem Wired.applying {lastApplied : ℕ} {pc : ApplyPc} {notify : Bool}
    (h : Wired cfg s)
    (hnodes : s'.nodes = Function.update s.nodes i
      { s.nodes i with lastApplied, applyPc := pc, commitNotify := notify })
    (hpc : ∀ msg, pc = .sending msg →
      (s.nodes i).applyPc = .sending msg ∨ Taken s'.history i msg)
    (hlives : s'.lives = s.lives) (hvotes : s'.voteRpcs = s.voteRpcs)
    (happends : s'.appendRpcs = s.appendRpcs) (hH : s.history ⊆ s'.history)
    (hB : ∀ j T L, Event.becameLeader j T L ∈ s'.history →
      Event.becameLeader j T L ∈ s.history)
    (hD : ∀ j msg, Event.delivered j msg ∈ s'.history →
      Event.delivered j msg ∈ s.history ∨ (s.nodes j).applyPc = .sending msg) :
    Wired cfg s' := by
  have hself : s'.nodes i =
      { s.nodes i with lastApplied, applyPc := pc, commitNotify := notify } := by
    rw [hnodes, Function.update_self]
  have hK : KeepsBallots s s' i := by
    refine ⟨?_, Or.inl ⟨congrFun hlives i, ?_⟩, fun hc => ?_⟩
    · rw [hself]
    · rw [hself]
    · rw [hself] at hc ⊢
      exact ⟨hc, congrFun hlives i, rfl, rfl⟩
  have hs : Sound cfg i
      { s.nodes i with lastApplied, applyPc := pc, commitNotify := notify } :=
    (h.sound i).volatile rfl rfl rfl rfl rfl rfl
  exact h.frame hs hnodes
    (fun j _ => congrFun hlives j) hK (fun _ => Or.inl rfl) (fun hl => Or.inl ⟨hl, rfl, rfl, rfl⟩)
    hpc (VotesMove.of_eq hvotes) (AppendsMove.of_eq happends) hH
    (fun j T L hev => Or.inl (hB j T L hev)) hD

end Frames

/-! ## §3  One lemma per action -/

section Actions

variable {cfg : Config} {s s' : Cluster} {i : NodeId} {r : ℕ}

theorem wired_startElection (h : Wired cfg s)
    (hincr : cfg.incr (s.nodes i).currentTerm = (s.nodes i).currentTerm + 1)
    (hs : s.startElection cfg i = some s') : Wired cfg s' := by
  obtain ⟨hi, -, n, calls, hn, rfl⟩ := Cluster.startElection_some hs
  obtain ⟨e, he, rfl, rfl⟩ := Node.startElection_some hn
  have hsd := h.sound i
  have hother : ∀ j, j ≠ i → ∀ m : Node, Function.update s.nodes i m j = s.nodes j :=
    fun j hj m => Function.update_of_ne hj m s.nodes
  refine ⟨sound_update h.sound (hsd.campaign _ _) rfl, ?_, ?_, ?_⟩
  · refine h.ballots.startElection hi he ⟨fun j hj => hother j hj _, ?_, ?_, ?_, rfl, ?_, ?_⟩
    · simp [Cluster.record, Cluster.spawnVotes, Cluster.setNode, Node.campaign, hincr]
    · simp [Cluster.record, Cluster.spawnVotes, Cluster.setNode, Node.campaign]
    · simp [Cluster.record, Cluster.spawnVotes, Cluster.setNode, Node.campaign]
    · simp [Cluster.record, Cluster.spawnVotes, Cluster.setNode, ballotsOf, hsd.peers,
        hsd.id, hincr, Function.comp_def]
    · simp [Cluster.record, Cluster.spawnVotes, Cluster.setNode, Node.campaign, hincr]
  · refine h.replicas.frame (fun j hl => Or.inl ?_) (AppendsMove.of_eq rfl)
      (List.subset_append_right _ _)
    by_cases hj : j = i
    · subst hj
      simp [Cluster.record, Cluster.spawnVotes, Cluster.setNode, Node.campaign] at hl
    · have hsame := hother j hj { (s.nodes i).campaign cfg.incr true with
        elections := (s.nodes i).elections ++ [1] }
      exact ⟨hsame ▸ hl, by rw [← hsame]; exact ⟨rfl, rfl, rfl⟩⟩
  · refine h.applied.frame (fun j msg hm => Or.inl ?_) (List.subset_append_right _ _) ?_
    · by_cases hj : j = i
      · subst hj
        simpa [Cluster.record, Cluster.spawnVotes, Cluster.setNode, Node.campaign]
          using hm
      · have hsame := hother j hj { (s.nodes i).campaign cfg.incr true with
          elections := (s.nodes i).elections ++ [1] }
        exact hsame ▸ hm
    · intro j msg hd
      exact Or.inl (by simpa [Cluster.record, Cluster.spawnVotes, Cluster.setNode] using hd)

theorem wired_heartbeat (h : Wired cfg s) (hs : s.heartbeat cfg i = some s') :
    Wired cfg s' := by
  obtain ⟨hi, -, calls, -, rfl⟩ := Cluster.heartbeat_some hs
  exact h.passive (Passive.refl _) (h.sound i)
    (Function.update_eq_self i s.nodes).symm rfl (VotesMove.of_eq rfl)
    ((AppendsMove.of_eq rfl).spawn hi) (fun _ hev => hev) (fun _ _ _ hev => hev)
    (fun _ _ hev => Or.inl hev)

theorem tracks_appendCommand {H : List Event} {n : Node} {command : Option Bytes}
    (hid : n.id = i) (h : Tracks H i n) :
    Tracks (.accepted i n.currentTerm n.log.length :: H) i
      (n.appendCommand true command) where
  peer := by
    intro p hp
    by_cases hpi : p = i
    · subst hpi
      refine ⟨n.log.length, ?_, List.mem_cons_self⟩
      simp [Node.appendCommand, hid]
    · have hm : (n.appendCommand true command).matchIndex p = n.matchIndex p := by
        simp [Node.appendCommand, hid, Function.update_of_ne hpi]
      rw [hm] at hp ⊢
      obtain ⟨m, hle, ha⟩ := h.peer p hp
      exact ⟨m, hle, List.mem_cons_of_mem _ ha⟩
  self := by
    have hlen : (n.appendCommand true command).log.length - 1 = n.log.length := by
      simp [Node.appendCommand]
    rw [hlen]
    exact List.mem_cons_self

theorem wired_propose {command : Option Bytes} (h : Wired cfg s)
    (hs : s.propose cfg i command = some s') : Wired cfg s' := by
  obtain ⟨hi, rfl | ⟨hl, calls, -, rfl⟩⟩ := Cluster.propose_some hs
  · exact h
  refine h.leading ((h.sound i).appendCommand command) hl rfl rfl rfl ?_ rfl rfl rfl
    (((AppendsMove.of_eq rfl).spawn hi).record _) (List.subset_append_right _ _) ?_ ?_
  · exact (tracks_appendCommand (h.sound i).id (h.replicas.leader i hl)).mono
      (List.subset_cons_self _ _)
  · intro j T L hev
    simpa using hev
  · intro j msg hev
    simpa using hev

theorem wired_deliverVote (h : Wired cfg s) (hs : s.deliverVote r = some s') :
    Wired cfg s' := by
  obtain ⟨rpc, n, reply, hr, hp, hn, rfl⟩ := Cluster.deliverVote_some hs
  obtain ⟨-, -, hcand, -, -⟩ := h.ballots.call rpc (List.mem_of_getElem? hr)
  have hterm : reply.voteGranted = true → reply.term = rpc.args.term := by
    intro hg
    rcases Node.handleRequestVote_cases hn with ⟨-, -, rfl⟩ |
      ⟨-, _, _, -, ⟨-, -, rfl⟩ | ⟨-, -, rfl⟩⟩
    · cases hg
    · rfl
    · cases hg
  refine h.passive (handleRequestVote_passive hn)
    (handleRequestVote_sound (h.sound rpc.dst) hn) rfl rfl ?_ (AppendsMove.of_eq rfl)
    (List.subset_append_right _ _) ?_ ?_
  · refine VotesMove.set hr rfl (Or.inr (Or.inr ⟨hp, fun reply' hrep hg => ?_⟩))
    cases hrep
    simp [Cluster.record, hg, hterm hg, hcand]
  · intro j T L hev
    cases hg : reply.voteGranted <;> simpa [Cluster.record, hg] using hev
  · intro j msg hev
    left
    cases hg : reply.voteGranted <;> simpa [Cluster.record, hg] using hev

/-- **Winning.** The counter of a candidate that reaches `needed` stands for a
majority that voted for it. -/
theorem won_of_tally {Q : Finset NodeId} {H : List Event} {n : Node} {T : ℕ}
    (hi : i ∈ cfg.ids) (hpeers : n.peers = cfg.peers i)
    (hmem : ∀ q ∈ Q, q ∈ cfg.ids) (hcard : n.needed ≤ Q.card)
    (hvoted : ∀ q ∈ Q, Event.voted q T i ∈ H) : Won cfg H i T := by
  refine ⟨Q, ⟨hmem, ?_⟩, hvoted⟩
  have hlen := cfg.length_ids hi
  unfold Node.needed at hcard
  rw [hpeers] at hcard
  omega

theorem wired_countVote {rpc : VoteRpc} {reply : RequestVoteReply} (h : Wired cfg s)
    (hr : s.voteRpcs[r]? = some rpc) (hl : rpc.life = s.lives rpc.src)
    (hp : rpc.phase = .replied reply) (hg : reply.voteGranted = true)
    (hc : (s.nodes rpc.src).role = .candidate)
    (ht : (s.nodes rpc.src).currentTerm = rpc.args.term) {n : Node}
    (hn : Sound cfg rpc.src n)
    (hterm : n.currentTerm = (s.nodes rpc.src).currentTerm)
    (hlog : n.log = (s.nodes rpc.src).log)
    (hels : n.elections = ((s.nodes rpc.src).countVote rpc.election).elections)
    (hpc : n.applyPc = (s.nodes rpc.src).applyPc)
    (hnodes : s'.nodes = Function.update s.nodes rpc.src n)
    (hlives : s'.lives = s.lives)
    (hvotes : s'.voteRpcs = s.voteRpcs.set r { rpc with phase := .finished })
    (hA : AppendsMove cfg s s') (hH : s.history ⊆ s'.history)
    (hD : ∀ j msg, Event.delivered j msg ∈ s'.history →
      Event.delivered j msg ∈ s.history)
    (hrole : n.role = .candidate ∧
        (∀ j T L, Event.becameLeader j T L ∈ s'.history →
          Event.becameLeader j T L ∈ s.history) ∨
      n.role = .leader ∧ (n.needed ≤ n.elections.getD rpc.election 0) ∧
        Tracks s'.history rpc.src n ∧
        (∀ j T L, Event.becameLeader j T L ∈ s'.history →
          Event.becameLeader j T L ∈ s.history ∨ j = rpc.src ∧ T = n.currentTerm)) :
    Wired cfg s' := by
  have hmem := List.mem_of_getElem? hr
  obtain ⟨Q, hQ, hnew, hdst, hel, hvoted⟩ := h.ballots.fresh_vote hmem hl hp hg hc ht
  have hself : s'.nodes rpc.src = n := by rw [hnodes, Function.update_self]
  have hlen : n.elections.length = (s.nodes rpc.src).elections.length := by
    rw [hels]
    simp [Node.countVote]
  have htally : Tally cfg s' rpc.src (insert rpc.dst Q) :=
    Tally.count_vote h.ballots hQ hr hl hnew hdst hel hvoted (by rw [hself, hterm])
      (by rw [hself, hels]) hlives hvotes hH
  have hK : KeepsBallots s s' rpc.src := by
    refine ⟨?_, Or.inl ⟨congrFun hlives _, ?_⟩, fun _ => ?_⟩
    · rw [hself, hterm]
    · rw [hself, hlen]
    · rw [hself, hlives]
      exact ⟨hc, rfl, hterm, hlog⟩
  refine h.frame hn hnodes (fun j _ => congrFun hlives j) hK (fun _ => Or.inr ⟨_, htally⟩)
    (fun hlead => ?_) (fun msg hm => Or.inl (hpc.symm.trans hm))
    (VotesMove.set hr hvotes (Or.inr (Or.inl rfl))) hA hH (fun j T L hev => ?_)
    (fun j msg hd => Or.inl (hD j msg hd))
  · rcases hrole with ⟨hcand, -⟩ | ⟨-, -, htr, -⟩
    · exact Role.noConfusion (hcand.symm.trans hlead)
    · exact Or.inr htr
  · rcases hrole with ⟨-, hB⟩ | ⟨hlead, hneed, -, hB⟩
    · exact Or.inl (hB j T L hev)
    · rcases hB j T L hev with hold | ⟨rfl, rfl⟩
      · exact Or.inl hold
      · right
        rw [hself]
        refine ⟨rfl, hlead, ?_⟩
        have hcount := htally.count
        have hvot := htally.voted
        rw [hself, hlen, ← hel, Nat.add_sub_cancel] at hcount
        rw [hself] at hvot
        exact won_of_tally (h.ballots.call rpc hmem).1 hn.peers htally.member
          (hcount ▸ hneed) hvot

theorem wired_voteReply (h : Wired cfg s) (hs : s.voteReply r = some s') :
    Wired cfg s' := by
  obtain ⟨rpc, reply, n, calls, hr, hl, hp, hn, rfl⟩ := Cluster.voteReply_some hs
  have hsrc := (h.ballots.call rpc (List.mem_of_getElem? hr)).1
  have hsound := handleVoteReply_sound (h.sound rpc.src) hn
  have hV : ∀ {t : Cluster},
      t.voteRpcs = s.voteRpcs.set r { rpc with phase := .finished } → VotesMove s t :=
    fun ht => VotesMove.set hr ht (Or.inr (Or.inl rfl))
  rcases Node.handleVoteReply_cases hn with ⟨hlt, rfl, rfl⟩ | ⟨rfl, rfl⟩ |
    ⟨hc, ht, hg, ⟨-, rfl, rfl⟩ | ⟨hneed, rfl, -⟩⟩
  · refine h.passive (passive_becomeFollower (Nat.le_of_lt hlt)) hsound rfl rfl (hV rfl)
      (((AppendsMove.of_eq rfl).spawn hsrc).record _) (List.subset_append_right _ _)
      (fun j T L hev => ?_) (fun j msg hev => Or.inl ?_)
    · simpa [Cluster.record] using hev
    · simpa [Cluster.record] using hev
  · refine h.passive (Passive.refl _) hsound rfl rfl (hV rfl)
      (((AppendsMove.of_eq rfl).spawn hsrc).record _) (List.subset_append_right _ _)
      (fun j T L hev => ?_) (fun j msg hev => Or.inl ?_)
    · rw [if_neg (fun hboth => hboth.1 hboth.2)] at hev
      exact hev
    · rw [if_neg (fun hboth => hboth.1 hboth.2)] at hev
      exact hev
  · refine wired_countVote h hr hl hp hg hc ht hsound rfl rfl rfl rfl rfl rfl rfl
      (((AppendsMove.of_eq rfl).spawn hsrc).record _) (List.subset_append_right _ _)
      (fun j msg hd => ?_) (Or.inl ⟨hc, fun j T L hev => ?_⟩)
    · simpa [Cluster.record, Node.countVote, hc] using hd
    · simpa [Cluster.record, Node.countVote, hc] using hev
  · refine wired_countVote h hr hl hp hg hc ht hsound rfl rfl rfl rfl rfl rfl rfl
      (((AppendsMove.of_eq rfl).spawn hsrc).record _) (List.subset_append_right _ _)
      (fun j msg hd => ?_) (Or.inr ⟨rfl, hneed, ⟨?_, ?_⟩, fun j T L hev => ?_⟩)
    · simpa [Cluster.record, Node.lead, hc] using hd
    · intro p hpos
      exact absurd hpos (Nat.lt_irrefl 0)
    · simp [Cluster.record, Node.lead, hc]
    · have hev' : (j = rpc.src ∧ T = (s.nodes rpc.src).currentTerm ∧
          L = (s.nodes rpc.src).log) ∨ Event.becameLeader j T L ∈ s.history := by
        simpa [Cluster.record, Node.lead, Node.countVote, hc] using hev
      rcases hev' with ⟨rfl, rfl, -⟩ | hold
      · exact Or.inr ⟨rfl, rfl⟩
      · exact Or.inl hold

theorem wired_deliverAppend (h : Wired cfg s) (hs : s.deliverAppend r = some s') :
    Wired cfg s' := by
  obtain ⟨rpc, n, reply, hr, hp, hn, rfl⟩ := Cluster.deliverAppend_some hs
  have hterm : reply.success = true → reply.term = rpc.args.term := by
    intro hg
    rcases Node.handleAppendEntries_cases hn with ⟨-, -, rfl⟩ |
      ⟨-, ⟨-, -, rfl⟩ | ⟨_, -, ⟨-, -, rfl⟩ | ⟨-, rfl, -, ht⟩⟩⟩
    · cases hg
    · cases hg
    · cases hg
    · exact ht.trans (accept_follower (s.nodes rpc.dst) rpc.args).2.1
  refine h.passive (handleAppendEntries_passive hn)
    (handleAppendEntries_sound (h.sound rpc.dst) hn) rfl rfl (VotesMove.of_eq rfl) ?_
    (List.subset_append_right _ _) ?_ ?_
  · refine AppendsMove.set hr rfl (Or.inr (Or.inr ⟨hp, fun reply' hrep hg => ?_⟩))
    cases hrep
    simp [Cluster.record, hg, hterm hg]
  · intro j T L hev
    cases hg : reply.success <;> simpa [Cluster.record, hg] using hev
  · intro j msg hev
    left
    cases hg : reply.success <;> simpa [Cluster.record, hg] using hev

theorem tracks_recordMatch {H : List Event} {n : Node} {peer : NodeId}
    {args : AppendEntriesArgs} (ht : n.currentTerm = args.term)
    (ha : Event.accepted peer args.term (args.prevLogIndex + args.entries.length) ∈ H)
    (h : Tracks H i n) : Tracks H i (n.recordMatch peer args) where
  peer := by
    intro p hp
    by_cases hpp : p = peer
    · subst hpp
      have hm : (n.recordMatch p args).matchIndex p =
          max (args.prevLogIndex + args.entries.length) (n.matchIndex p) := by
        simp only [Node.recordMatch, Function.update_self]
        split <;> omega
      rw [hm] at hp ⊢
      rcases Nat.le_total (n.matchIndex p) (args.prevLogIndex + args.entries.length)
        with hle | hle
      · exact ⟨_, (max_eq_left hle).le, ht ▸ ha⟩
      · rw [max_eq_right hle] at hp ⊢
        exact h.peer p hp
    · have hm : (n.recordMatch peer args).matchIndex p = n.matchIndex p := by
        simp [Node.recordMatch, Function.update_of_ne hpp]
      rw [hm] at hp ⊢
      exact h.peer p hp
  self := h.self

theorem wired_appendReply (h : Wired cfg s) (hs : s.appendReply r = some s') :
    Wired cfg s' := by
  obtain ⟨rpc, reply, n, calls, hr, -, hp, hn, rfl⟩ := Cluster.appendReply_some hs
  have hmem := List.mem_of_getElem? hr
  have hsrc := h.replicas.src rpc hmem
  have hsound := handleAppendReply_sound (h.sound rpc.src) hn
  have hA : ∀ {t : Cluster},
      t.appendRpcs = s.appendRpcs.set r { rpc with phase := .finished } →
      AppendsMove cfg s t := fun ht => AppendsMove.set hr ht (Or.inr (Or.inl rfl))
  have hB : ∀ (t : Cluster) (ev : Event),
      (∀ j T k L, ev ≠ .advanced j T k L) → t.history = s.history →
      ev ∈ (t.record (if (s.nodes rpc.src).commitIndex < n.commitIndex then
        [.advanced rpc.src n.currentTerm n.commitIndex n.log] else [])).history →
      ev ∈ s.history := by
    intro t ev hne ht hev
    rw [Cluster.record_history, ht] at hev
    split at hev
    · rcases List.mem_cons.mp hev with hev | hev
      · exact absurd hev (hne _ _ _ _)
      · exact hev
    · exact hev
  rcases Node.handleAppendReply_cases hn with ⟨hlt, rfl, rfl⟩ | ⟨rfl, rfl⟩ |
    ⟨hl, ht, -, ⟨hsucc, rfl, rfl⟩ | ⟨-, rfl, -⟩⟩
  · exact h.passive (passive_becomeFollower (Nat.le_of_lt hlt)) hsound rfl rfl
      (VotesMove.of_eq rfl) (((hA rfl).spawn hsrc).record _)
      (List.subset_append_right _ _) (fun _ _ _ => hB _ _ (by simp) rfl)
      (fun _ _ hev => Or.inl (hB _ _ (by simp) rfl hev))
  · exact h.passive (Passive.refl _) hsound rfl rfl (VotesMove.of_eq rfl)
      (((hA rfl).spawn hsrc).record _) (List.subset_append_right _ _)
      (fun _ _ _ => hB _ _ (by simp) rfl)
      (fun _ _ hev => Or.inl (hB _ _ (by simp) rfl hev))
  · obtain ⟨k, b, heq⟩ := Node.maybeAdvance_eq ((s.nodes rpc.src).recordMatch rpc.dst rpc.args)
    have htr := tracks_recordMatch ht (h.replicas.success rpc hmem reply hp hsucc)
      (h.replicas.leader rpc.src hl)
    refine h.leading hsound ?_ ?_ ?_ ?_ ?_ rfl rfl rfl (((hA rfl).spawn hsrc).record _)
      (List.subset_append_right _ _) (fun _ _ _ => hB _ _ (by simp) rfl)
      (fun _ _ => hB _ _ (by simp) rfl)
    · rw [heq]
      exact hl
    · rw [heq]
      rfl
    · rw [heq]
      rfl
    · rw [heq]
      rfl
    · have htr' := htr.mono (List.subset_append_right
        (if (s.nodes rpc.src).commitIndex < ((s.nodes rpc.src).recordMatch rpc.dst
            rpc.args).maybeAdvanceCommitIndex.commitIndex then
          [Event.advanced rpc.src ((s.nodes rpc.src).recordMatch rpc.dst
              rpc.args).maybeAdvanceCommitIndex.currentTerm
            ((s.nodes rpc.src).recordMatch rpc.dst
              rpc.args).maybeAdvanceCommitIndex.commitIndex
            ((s.nodes rpc.src).recordMatch rpc.dst
              rpc.args).maybeAdvanceCommitIndex.log] else []) s.history)
      rw [heq] at htr' ⊢
      exact ⟨htr'.peer, htr'.self⟩
  · exact h.passive (n := (s.nodes rpc.src).backUp rpc.dst reply)
      (Passive.of_same rfl rfl rfl rfl rfl fun _ hm => hm) hsound rfl rfl
      (VotesMove.of_eq rfl) (((hA rfl).spawn hsrc).record _)
      (List.subset_append_right _ _) (fun _ _ _ => hB _ _ (by simp) rfl)
      (fun _ _ hev => Or.inl (hB _ _ (by simp) rfl hev))

theorem wired_applyWake (h : Wired cfg s) (hs : s.applyWake cfg i = some s') :
    Wired cfg s' := by
  rw [Cluster.applyWake_some hs]
  exact h.applying rfl (fun _ hm => ApplyPc.noConfusion hm) rfl rfl rfl
    (fun _ hev => hev) (fun _ _ _ hev => hev) (fun _ _ hev => Or.inl hev)

theorem wired_applyTake (h : Wired cfg s) (hs : s.applyTake cfg i = some s') :
    Wired cfg s' := by
  rcases Cluster.applyTake_some hs with rfl | ⟨-, e, pc, -, hpc, rfl⟩
  · exact h.applying rfl (fun _ hm => ApplyPc.noConfusion hm) rfl rfl rfl
      (fun _ hev => hev) (fun _ _ _ hev => hev) (fun _ _ hev => Or.inl hev)
  · refine h.applying rfl (fun msg hm => Or.inr ?_) rfl rfl rfl
      (List.subset_cons_self _ _) (fun j T L hev => by simpa using hev)
      (fun j msg hev => Or.inl (by simpa using hev))
    rcases hpc with rfl | ⟨c, hc, rfl⟩
    · cases hm
    · cases hm
      exact ⟨e, List.mem_cons_self, hc⟩

theorem wired_applySend (h : Wired cfg s) (hs : s.applySend cfg i = some s') :
    Wired cfg s' := by
  obtain ⟨msg, hm, rfl⟩ := Cluster.applySend_some hs
  refine h.applying rfl (fun _ hm => ApplyPc.noConfusion hm) rfl rfl rfl
    (List.subset_cons_self _ _) (fun j T L hev => by simpa using hev)
    (fun j msg' hev => ?_)
  have hev' : (j = i ∧ msg' = msg) ∨ Event.delivered j msg' ∈ s.history := by
    simpa using hev
  rcases hev' with ⟨rfl, rfl⟩ | hold
  · exact Or.inr hm
  · exact Or.inl hold

theorem wired_takeSnapshot {data : Bytes} (h : Wired cfg s)
    (hs : s.takeSnapshot cfg i 0 data = some s') : Wired cfg s' := by
  obtain ⟨n, b, hn, rfl⟩ := Cluster.takeSnapshot_some hs
  refine h.passive ?_ ((h.sound i).takeSnapshot hn) rfl rfl (VotesMove.of_eq rfl)
    (AppendsMove.of_eq rfl) (fun _ hev => hev) (fun _ _ _ hev => hev)
    (fun _ _ hev => Or.inl hev)
  rw [(h.sound i).takeSnapshot_zero hn]
  exact Passive.of_same rfl rfl rfl rfl rfl fun _ hm => hm

theorem wired_crash (h : Wired cfg s) (hs : s.crash cfg i = some s') : Wired cfg s' := by
  rw [Cluster.crash_some hs]
  exact h.reboot (h.sound i) (le_refl _) rfl rfl (VotesMove.of_eq rfl)
    (AppendsMove.of_eq rfl) rfl

theorem wired_crashInVote (h : Wired cfg s) (hs : s.crashInVote r = some s') :
    Wired cfg s' := by
  obtain ⟨rpc, hr, hlt, rfl⟩ := Cluster.crashInVote_some hs
  exact h.reboot ((h.sound rpc.dst).becomeFollower _) (Nat.le_of_lt hlt) rfl rfl
    (VotesMove.set hr rfl (Or.inr (Or.inl rfl))) (AppendsMove.of_eq rfl) rfl

theorem wired_crashInAppend (h : Wired cfg s) (hs : s.crashInAppend r = some s') :
    Wired cfg s' := by
  obtain ⟨rpc, hr, hle, rfl⟩ := Cluster.crashInAppend_some hs
  exact h.reboot ((h.sound rpc.dst).becomeFollower _) hle rfl rfl (VotesMove.of_eq rfl)
    (AppendsMove.set hr rfl (Or.inr (Or.inl rfl))) rfl

end Actions

/-! ## §4  Runs -/

theorem wired_step {cfg : Config} {s s' : Cluster} {a : Action} (h : Wired cfg s)
    (hC : Plain cfg s a) (hs : s.step cfg a = some s') : Wired cfg s' := by
  cases a with
  | startElection i => exact wired_startElection h hC hs
  | heartbeat i => exact wired_heartbeat h hs
  | propose i command => exact wired_propose h hs
  | deliverVote r => exact wired_deliverVote h hs
  | voteReply r => exact wired_voteReply h hs
  | deliverAppend r => exact wired_deliverAppend h hs
  | appendReply r => exact wired_appendReply h hs
  | applyWake i => exact wired_applyWake h hs
  | applyTake i => exact wired_applyTake h hs
  | applySend i => exact wired_applySend h hs
  | takeSnapshot i upToIndex data =>
      have h0 : upToIndex = 0 := hC
      subst h0
      exact wired_takeSnapshot h hs
  | crash i => exact wired_crash h hs
  | crashInVote r => exact wired_crashInVote h hs
  | crashInAppend r => exact wired_crashInAppend h hs

/-- **The bookkeeping holds in every reachable state.** -/
theorem wired_run {cfg : Config} {as : List Action} {s : Cluster}
    (h : Run (Cluster.step cfg) (Plain cfg) (Cluster.initial cfg) as s) : Wired cfg s :=
  h.invariant (wired_initial cfg) fun hw hC hs => wired_step hw hC hs

end KVEngine.Raft
