import KVEngine.Raft.Leaders
import KVEngine.Raft.Traces

/-!
# Clusters of two

The second vote of `two_leaders` takes three members. Of two members a leader has both
votes, and only its own requests clear a vote: when the vote of the other member is
cleared, the term has its leader, and that leader has asked for no vote but its own.
So every run of two members, whatever the order of its messages, votes once a term
(`votesOnce_of_duo`), and no term has two leaders (`election_safety_duo`).

An empty id would be taken for no vote at all, and is excluded.
-/

namespace KVEngine.Raft

open Foundation (Run)
open Foundation.ReplicatedLog

/-! ## §1  Cleared votes -/

/-- Somebody has won term `T`. -/
def Led (H : List Event) (T : ℕ) : Prop := ∃ i L, Event.becameLeader i T L ∈ H

theorem Led.mono {H H' : List Event} {T : ℕ} (hH : H ⊆ H') (h : Led H T) : Led H' T := by
  obtain ⟨i, L, hi⟩ := h
  exact ⟨i, L, hH hi⟩

structure Cleared (s : Cluster) : Prop where
  /-- A vote of the current term is cleared by a leader of that term. -/
  led : ∀ v c, Event.voted v (s.nodes v).currentTerm c ∈ s.history →
    (s.nodes v).votedFor = [] → Led s.history (s.nodes v).currentTerm
  /-- Who asks for votes has voted for itself. -/
  asked : ∀ rpc ∈ s.voteRpcs, Event.voted rpc.src rpc.args.term rpc.src ∈ s.history

section Steps

variable {cfg : Config} {s s' : Cluster} {a : Action} {i : NodeId} {n : Node} {r : ℕ}
  {A : State NodeId LogEntry}

/-- A vote is cast by the node that changes, and it remembers for whom. -/
theorem step_voted (hw : Wired cfg s) (hs : s.step cfg a = some s') {v c : NodeId} {T : ℕ}
    (h : Event.voted v T c ∈ s'.history) :
    Event.voted v T c ∈ s.history ∨ ((s'.nodes v).votedFor = c ∧ c ∈ cfg.ids) := by
  rcases Cluster.step_event hw hs h with hold | ⟨hvote, ⟨rfl, rfl⟩ | ⟨r, rpc, -, hr, -, -, rfl⟩⟩
  · exact Or.inl hold
  · exact Or.inr ⟨hvote, (Cluster.startElection_some hs).1⟩
  · exact Or.inr ⟨hvote, (hw.ballots.call rpc (List.mem_of_getElem? hr)).1⟩

/-- The requests of a step are old ones, or the requests of a new candidate. -/
theorem asked_step (hw : Wired cfg s) (h : Cleared s) (hs : s.step cfg a = some s') :
    ∀ rpc ∈ s'.voteRpcs, Event.voted rpc.src rpc.args.term rpc.src ∈ s'.history := by
  intro rpc hrpc
  rcases Cluster.step_vote hw hs hrpc with ⟨old, hold, hcall⟩ | hnew
  · obtain ⟨hsrc, -, hargs⟩ := VoteRpc.of_call hcall
    rw [← hsrc, ← hargs]
    exact history_mono hs (h.asked old hold)
  · exact hnew

/-- **Frame.** One node changes, and if it loses its vote within a term then to the leader
of that term. -/
theorem Cleared.frame (hids : [] ∉ cfg.ids) (hw : Wired cfg s) (hv : Voting s) (h : Cleared s)
    (hs : s.step cfg a = some s') (hnodes : s'.nodes = Function.update s.nodes i n)
    (hterm : (s.nodes i).currentTerm ≤ n.currentTerm)
    (hn : n.currentTerm = (s.nodes i).currentTerm → n.votedFor = [] →
      (s.nodes i).votedFor = [] ∨ Led s.history n.currentTerm) : Cleared s' := by
  refine ⟨fun v c hc hempty => ?_, asked_step hw h hs⟩
  have hold : Event.voted v (s'.nodes v).currentTerm c ∈ s.history := by
    refine (step_voted hw hs hc).resolve_right fun hnew => ?_
    exact hids (hempty ▸ hnew.1 ▸ hnew.2)
  by_cases hvi : v = i
  · subst hvi
    have hself : s'.nodes v = n := by rw [hnodes, Function.update_self]
    rw [hself] at hold hempty ⊢
    have hsame : n.currentTerm = (s.nodes v).currentTerm :=
      le_antisymm (hv.bound _ _ _ hold) hterm
    rcases hn hsame hempty with hempty' | hled
    · rw [hsame] at hold ⊢
      exact (h.led v c hold hempty').mono (history_mono hs)
    · exact hled.mono (history_mono hs)
  · have hother : s'.nodes v = s.nodes v := by rw [hnodes, Function.update_of_ne hvi]
    rw [hother] at hold hempty ⊢
    exact (h.led v c hold hempty).mono (history_mono hs)

/-- An append request comes from a leader of its term. -/
theorem led_of_sent (hi : Inv (params cfg) A) (habs : Abstracts s A) {rpc : AppendRpc}
    (hr : rpc ∈ s.appendRpcs) : Led s.history rpc.args.term := by
  obtain ⟨L, hL⟩ := (hi.sent _ (habs.sent rpc hr)).elected
  obtain ⟨j, hj⟩ := habs.elected _ _ hL
  exact ⟨j, L, hj⟩

theorem Cleared.keep (hids : [] ∉ cfg.ids) (hw : Wired cfg s) (hv : Voting s) (h : Cleared s)
    (hs : s.step cfg a = some s') (hnodes : s'.nodes = Function.update s.nodes i n)
    (hterm : n.currentTerm = (s.nodes i).currentTerm)
    (hvote : n.votedFor = (s.nodes i).votedFor) : Cleared s' :=
  h.frame hids hw hv hs hnodes hterm.ge fun _ hempty => Or.inl (hvote ▸ hempty)

theorem Cleared.later (hids : [] ∉ cfg.ids) (hw : Wired cfg s) (hv : Voting s) (h : Cleared s)
    (hs : s.step cfg a = some s') (hnodes : s'.nodes = Function.update s.nodes i n)
    (hlt : (s.nodes i).currentTerm < n.currentTerm) : Cleared s' :=
  h.frame hids hw hv hs hnodes hlt.le fun heq => absurd heq hlt.ne'

theorem cleared_deliverVote (hids : [] ∉ cfg.ids) (hw : Wired cfg s) (hv : Voting s)
    (h : Cleared s) (hs : s.step cfg (.deliverVote r) = some s') : Cleared s' := by
  obtain ⟨rpc, n, reply, hr, -, hn, rfl⟩ := Cluster.deliverVote_some hs
  obtain ⟨hsrc, -, hcand, -⟩ := hw.ballots.call rpc (List.mem_of_getElem? hr)
  rcases Node.handleRequestVote_cases hn with ⟨-, rfl, rfl⟩ |
    ⟨hterm, lastIdx, lastTerm, -, ⟨hg, rfl, rfl⟩ | ⟨-, rfl, rfl⟩⟩
  · exact h.keep (i := rpc.dst) hids hw hv hs rfl rfl rfl
  · refine h.frame hids hw hv hs rfl ?_ fun _ hempty => ?_
    · show _ ≤ ((s.nodes rpc.dst).adoptTerm true rpc.args.term).currentTerm
      rw [Node.adoptTerm_currentTerm hterm]
      exact hterm
    · have hnil : rpc.args.candidateId = [] := hempty
      exact absurd (hnil ▸ hcand ▸ hsrc) hids
  · rcases hterm.eq_or_lt with heq | hlt
    · have hsame : (s.nodes rpc.dst).adoptTerm (Cluster.persistOk 0) rpc.args.term =
          s.nodes rpc.dst := if_neg (by omega)
      exact h.keep (i := rpc.dst) hids hw hv hs rfl (by rw [hsame]) (by rw [hsame])
    · refine h.later hids hw hv hs rfl ?_
      rw [Node.adoptTerm_currentTerm hterm]
      exact hlt

theorem cleared_voteReply (hids : [] ∉ cfg.ids) (hw : Wired cfg s) (hv : Voting s)
    (h : Cleared s) (hs : s.step cfg (.voteReply r) = some s') : Cleared s' := by
  obtain ⟨rpc, reply, n, calls, -, -, -, hn, rfl⟩ := Cluster.voteReply_some hs
  rcases Node.handleVoteReply_cases hn with ⟨hlt, rfl, -⟩ | ⟨rfl, -⟩ |
    ⟨-, -, -, ⟨-, rfl, -⟩ | ⟨-, rfl, -⟩⟩
  · exact h.later hids hw hv hs rfl hlt
  · exact h.keep (i := rpc.src) hids hw hv hs rfl rfl rfl
  · exact h.keep (i := rpc.src) hids hw hv hs rfl rfl rfl
  · exact h.keep (i := rpc.src) hids hw hv hs rfl rfl rfl

/-- A follower that has lost its vote in the term has heard from the term's leader. -/
theorem cleared_deliverAppend (hids : [] ∉ cfg.ids) (hw : Wired cfg s) (hv : Voting s)
    (hi : Inv (params cfg) A) (habs : Abstracts s A) (h : Cleared s)
    (hs : s.step cfg (.deliverAppend r) = some s') : Cleared s' := by
  obtain ⟨rpc, n, reply, hr, -, hn, rfl⟩ := Cluster.deliverAppend_some hs
  have hled := led_of_sent hi habs (List.mem_of_getElem? hr)
  refine h.frame hids hw hv hs rfl (keepsVote_handleAppendEntries hn).term_le
    fun _ hempty => ?_
  rcases Node.handleAppendEntries_cases hn with ⟨-, rfl, -⟩ |
    ⟨-, ⟨-, rfl, -⟩ | ⟨_, -, ⟨-, rfl, -⟩ | ⟨-, rfl, -⟩⟩⟩
  · exact Or.inl hempty
  · exact Or.inr hled
  · exact Or.inr hled
  · right
    obtain ⟨-, hterm, -⟩ := accept_follower (s.nodes rpc.dst) rpc.args
    exact hterm ▸ hled

theorem cleared_step (hids : [] ∉ cfg.ids) (hw : Wired cfg s) (hv : Voting s)
    (hi : Inv (params cfg) A) (habs : Abstracts s A) (h : Cleared s) (hC : Plain cfg s a)
    (hs : s.step cfg a = some s') : Cleared s' := by
  cases a with
  | startElection i =>
      obtain ⟨-, -, n, calls, hn, rfl⟩ := Cluster.startElection_some hs
      obtain ⟨e, -, rfl, -⟩ := Node.startElection_some hn
      have hincr : cfg.incr (s.nodes i).currentTerm = (s.nodes i).currentTerm + 1 := hC
      refine h.later hids hw hv hs rfl ?_
      show _ < cfg.incr _
      omega
  | heartbeat i =>
      obtain ⟨-, -, calls, -, rfl⟩ := Cluster.heartbeat_some hs
      exact h.keep hids hw hv hs (Function.update_eq_self i s.nodes).symm rfl rfl
  | propose i command =>
      obtain ⟨-, rfl | ⟨-, calls, -, rfl⟩⟩ := Cluster.propose_some hs
      · exact h
      · exact h.keep (i := i) hids hw hv hs rfl rfl rfl
  | deliverVote r => exact cleared_deliverVote hids hw hv h hs
  | voteReply r => exact cleared_voteReply hids hw hv h hs
  | deliverAppend r => exact cleared_deliverAppend hids hw hv hi habs h hs
  | appendReply r =>
      obtain ⟨rpc, reply, n, calls, -, -, -, hn, rfl⟩ := Cluster.appendReply_some hs
      rcases Node.handleAppendReply_cases hn with ⟨hlt, rfl, -⟩ | ⟨rfl, -⟩ |
        ⟨-, -, -, ⟨-, -, rfl⟩ | ⟨-, rfl, -⟩⟩
      · exact h.later hids hw hv hs rfl hlt
      · exact h.keep (i := rpc.src) hids hw hv hs rfl rfl rfl
      · obtain ⟨k, b, heq⟩ := Node.maybeAdvance_eq ((s.nodes rpc.src).recordMatch rpc.dst rpc.args)
        exact h.keep (i := rpc.src) hids hw hv hs rfl (by rw [heq]; rfl) (by rw [heq]; rfl)
      · exact h.keep (i := rpc.src) hids hw hv hs rfl rfl rfl
  | applyWake i =>
      obtain rfl := Cluster.applyWake_some hs
      exact h.keep (i := i) hids hw hv hs rfl rfl rfl
  | applyTake i =>
      rcases Cluster.applyTake_some hs with rfl | ⟨-, e, pc, -, -, rfl⟩
      · exact h.keep (i := i) hids hw hv hs rfl rfl rfl
      · exact h.keep (i := i) hids hw hv hs rfl rfl rfl
  | applySend i =>
      obtain ⟨msg, -, rfl⟩ := Cluster.applySend_some hs
      exact h.keep (i := i) hids hw hv hs rfl rfl rfl
  | takeSnapshot i upToIndex data =>
      have h0 : upToIndex = 0 := hC
      subst h0
      obtain ⟨n, b, hn, rfl⟩ := Cluster.takeSnapshot_some hs
      have heq := (hw.sound i).takeSnapshot_zero hn
      exact h.keep (i := i) hids hw hv hs rfl (by rw [heq]) (by rw [heq])
  | crash i =>
      obtain rfl := Cluster.crash_some hs
      have heq := (hw.sound i).restart_eq
      exact h.keep (i := i) hids hw hv hs rfl (by rw [heq]) (by rw [heq])
  | crashInVote r =>
      obtain ⟨rpc, hr, hlt, rfl⟩ := Cluster.crashInVote_some hs
      have heq := ((hw.sound rpc.dst).becomeFollower rpc.args.term).restart_eq
      refine h.later hids hw hv hs rfl ?_
      rw [heq]
      exact hlt
  | crashInAppend r =>
      obtain ⟨rpc, hr, hle, rfl⟩ := Cluster.crashInAppend_some hs
      have heq := ((hw.sound rpc.dst).becomeFollower rpc.args.term).restart_eq
      refine h.frame hids hw hv hs rfl (by rw [heq]; exact hle) fun _ _ => Or.inr ?_
      rw [heq]
      exact led_of_sent hi habs (List.mem_of_getElem? hr)

end Steps

/-! ## §2  Two members -/

section Runs

variable {cfg : Config} {as : List Action} {s : Cluster} {a : Action}

/-- Of two members, a leader has both votes. -/
theorem Majority.mem_of_duo (hduo : cfg.ids.length ≤ 2) {F : Finset NodeId}
    (hF : Majority cfg F) {q : NodeId} (hq : q ∈ cfg.ids) : q ∈ F := by
  have hsub : F ⊆ cfg.ids.toFinset := fun x hx => List.mem_toFinset.mpr (hF.member x hx)
  have hcard : cfg.ids.toFinset.card = cfg.ids.length :=
    List.toFinset_card_of_nodup cfg.ids_nodup
  have hlt := hF.card
  have hpos := List.length_pos_of_mem hq
  have heq := Finset.eq_of_subset_of_card_le hsub (by omega)
  rw [heq]
  exact List.mem_toFinset.mpr hq

/-- A voter whose vote was cleared voted for the leader of the term, and nobody else has
asked for votes in that term. -/
theorem noRevote_of_duo (hduo : cfg.ids.length ≤ 2) (hw : Wired cfg s) (hv : Voting s)
    (h : Cleared s) : NoRevote s a := by
  cases a with
  | deliverVote r =>
      intro rpc hr hterm hempty _ _ _
      have hmem := List.mem_of_getElem? hr
      obtain ⟨hsrc, hdst, hcand, -⟩ := hw.ballots.call rpc hmem
      have hdst' := ((cfg.mem_peers _ hsrc _).mp hdst).1
      refine List.any_eq_false.mpr fun ev hev => ?_
      cases ev with
      | voted v T c =>
          simp only [Bool.and_eq_true, beq_iff_eq, bne_iff_ne, ne_eq, not_and, not_not]
          rintro ⟨rfl, rfl⟩
          rw [hterm] at hev
          obtain ⟨j, L, hj⟩ := h.led _ c hev hempty
          rw [← hterm] at hev hj
          obtain ⟨F, hF, hvotes⟩ := hw.ballots.won j _ L hj
          have hleader : c = j :=
            hv.unique _ _ _ _ hev (hvotes _ (hF.mem_of_duo hduo hdst'))
          have hsender : rpc.src = j :=
            hv.unique _ _ _ _ (h.asked rpc hmem) (hvotes _ (hF.mem_of_duo hduo hsrc))
          rw [hleader, hcand, hsender]
      | _ => exact Bool.false_ne_true
  | _ => trivial

theorem votesOnce_of_duo (hduo : cfg.ids.length ≤ 2) (hids : [] ∉ cfg.ids)
    (hterms : ∀ t, cfg.incr t = t + 1)
    (h : Run (Cluster.step cfg) NoSnapshot (Cluster.initial cfg) as s) :
    Run (Cluster.step cfg) (VotesOnce cfg) (Cluster.initial cfg) as s ∧ Cleared s := by
  induction h with
  | nil =>
      refine ⟨Run.nil, ⟨?_, ?_⟩⟩ <;> simp [Cluster.initial]
  | snoc _ hC hs ih =>
      obtain ⟨hrun, hcleared⟩ := ih
      obtain ⟨hw, hv⟩ := voting_run hrun
      obtain ⟨-, A, hi, habs⟩ := protocol_run hrun
      have hplain := plain_of_noSnapshot hterms hC
      exact ⟨hrun.snoc ⟨hplain, noRevote_of_duo hduo hw hv hcleared⟩ hs,
        cleared_step hids hw hv hi habs hcleared hplain hs⟩

/-- **Two members elect one leader a term** and deliver one command at each index,
whatever the order of their messages, crashes and restarts. -/
theorem election_safety_duo (hduo : cfg.ids.length ≤ 2) (hids : [] ∉ cfg.ids)
    (hterms : ∀ t, cfg.incr t = t + 1)
    (h : Run (Cluster.step cfg) NoSnapshot (Cluster.initial cfg) as s) :
    UniqueLeaders s.history ∧
      ∀ i j k c d, Event.delivered i ⟨k, c⟩ ∈ s.history →
        Event.delivered j ⟨k, d⟩ ∈ s.history → c = d := by
  obtain ⟨hrun, -⟩ := votesOnce_of_duo hduo hids hterms h
  obtain ⟨hw, hv⟩ := voting_run hrun
  obtain ⟨-, A, hi, habs⟩ := protocol_run hrun
  refine ⟨uniqueLeaders_of_voting hw hv, fun i j k c d hc hd => ?_⟩
  obtain ⟨x, hx, hxc⟩ := hw.applied.delivered i _ hc
  obtain ⟨y, hy, hyd⟩ := hw.applied.delivered j _ hd
  have hxy : x = y := hi.delivered_agree (habs.ledger _ hx) (habs.ledger _ hy)
  rw [hxy, hyd] at hxc
  exact (Option.some.inj hxc).symm

/-- `A` and `B` both start an election for term `1`; `A` asks again in term `2` and
wins. -/
def duelActions : List Action :=
  [.startElection [65], .startElection [66], .deliverVote 0, .deliverVote 1,
   .startElection [65], .deliverVote 2, .voteReply 2, .deliverAppend 0, .voteReply 1]

theorem election_safety_duo_duel :
    let s := Foundation.endState (Cluster.step pair) NoSnapshot (Cluster.initial pair) duelActions
    Event.becameLeader [65] 2 [sentinel] ∈ s.history ∧ UniqueLeaders s.history :=
  ⟨by decide +kernel, (election_safety_duo (by decide) (by decide) (fun _ => rfl)
    (Foundation.run_endState (by decide +kernel))).1⟩

end Runs

end KVEngine.Raft
