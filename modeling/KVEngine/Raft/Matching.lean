import KVEngine.Raft.Leaders

/-!
# What `matchIndex` stands for

A leader counts a peer for an index once the peer has answered a request of the
leader's term that reaches that far. At that time the peer's log agreed with the
leader's up to the index, and it does as long as the peer stays in the term: another
request of the term is cut from the same log (`agree_of_accepted`). So what a leader
commits by counting has been stored by a majority (`matchIndex_sound`).
-/

namespace KVEngine.Raft

open Foundation (Run Sometime)
open Foundation.ReplicatedLog

/-! ## §1  Acceptances -/

section Steps

variable {cfg : Config} {s s' : Cluster} {a : Action} {i q : NodeId} {T m : ℕ}

/-- Whoever accepts does so in its current term. -/
theorem accepted_new (hs : s.step cfg a = some s')
    (hev : Event.accepted q T m ∈ s'.history) :
    Event.accepted q T m ∈ s.history ∨ (s'.nodes q).currentTerm = T := by
  obtain ⟨evs, hH, hterm⟩ := Cluster.step_history hs
  rw [hH] at hev
  rcases List.mem_append.mp hev with hnew | hold
  · exact Or.inr (hterm hnew)
  · exact Or.inl hold

/-- A leader's commit index moves only when it processes a reply. -/
theorem commit_kept (hw : Wired cfg s) (hs : s.step cfg a = some s')
    (ha : ∀ r, a ≠ .appendReply r) :
    ∀ j, (s'.nodes j).role = .leader →
      (s'.nodes j).commitIndex = (s.nodes j).commitIndex := by
  have hnode : ∀ {j : NodeId} {n : Node}, s'.nodes = Function.update s.nodes j n →
      (n.role = .leader → n.commitIndex = (s.nodes j).commitIndex) →
      ∀ j, (s'.nodes j).role = .leader →
        (s'.nodes j).commitIndex = (s.nodes j).commitIndex :=
    fun hnodes hn => Cluster.forall_nodes hnodes
      (P := fun j m => m.role = .leader → m.commitIndex = (s.nodes j).commitIndex) hn
      fun _ _ _ => rfl
  cases Cluster.step_nodes hs with
  | restart hnodes _ hm =>
      refine hnode hnodes fun hlead => ?_
      rw [(hm.sound (hw.sound _)).restart_eq] at hlead
      cases hlead
  | change hnodes _ hchange =>
      refine hnode hnodes fun hlead => ?_
      cases hchange with
      | campaign hn =>
          obtain ⟨e, -, rfl, -⟩ := Node.startElection_some hn
          rfl
      | requestVote _ hn => exact handleRequestVote_commitIndex hn
      | voteReply _ hn => exact handleVoteReply_commitIndex hn
      | appendEntries _ hn =>
          rcases Node.handleAppendEntries_cases hn with ⟨-, rfl, -⟩ |
            ⟨-, ⟨-, rfl, -⟩ | ⟨_, -, ⟨-, rfl, -⟩ | ⟨-, rfl, -⟩⟩⟩
          · rfl
          · cases hlead
          · cases hlead
          · cases (accept_follower _ _).1.symm.trans hlead
      | appendReply _ _ _ => exact absurd rfl (ha _)
      | snapshot hn =>
          rcases Node.takeSnapshot_cases hn with ⟨rfl, -⟩ | ⟨last, -, -, -, rfl⟩ <;> rfl
      | _ => rfl

/-- A majority has accepted, in the leader's term, as much as it has committed. -/
structure Counted (cfg : Config) (s s' : Cluster) (i : NodeId) : Prop where
  term : (s'.nodes i).currentTerm = (s.nodes i).currentTerm
  log : (s'.nodes i).log = (s.nodes i).log
  majority : ∃ F, Majority cfg F ∧ ∀ q ∈ F, ∃ m, (s'.nodes i).commitIndex ≤ m ∧
    Event.accepted q (s.nodes i).currentTerm m ∈ s.history

/-- **Counting.** When a leader's commit index goes up, a majority has accepted as
much. -/
theorem commit_counted (hw : Wired cfg s) (hs : s.step cfg a = some s')
    (hl : (s'.nodes i).role = .leader)
    (hlt : (s.nodes i).commitIndex < (s'.nodes i).commitIndex) : Counted cfg s s' i := by
  obtain ⟨r, rfl⟩ : ∃ r, a = .appendReply r := by
    by_contra hne
    have hsame := commit_kept hw hs (fun r hr => hne ⟨r, hr⟩) i hl
    exact hlt.ne hsame.symm
  obtain ⟨rpc, reply, n, calls, hr, -, hp, hn, rfl⟩ := Cluster.appendReply_some hs
  have hmem := List.mem_of_getElem? hr
  have hnodes : ∀ j, ((((s.setNode rpc.src n).setAppendRpc r
      { rpc with phase := .finished }).spawnAppends rpc.src calls).record
        (if (s.nodes rpc.src).commitIndex < n.commitIndex then
          [.advanced rpc.src n.currentTerm n.commitIndex n.log] else [])).nodes j =
      Function.update s.nodes rpc.src n j := fun _ => rfl
  obtain rfl : i = rpc.src := by
    by_contra hne
    rw [hnodes, Function.update_of_ne hne] at hlt
    exact lt_irrefl _ hlt
  rw [hnodes, Function.update_self] at hlt
  -- only an acknowledgement runs the commit rule
  have hack : ∃ k, n = { (s.nodes rpc.src).recordMatch rpc.dst rpc.args with
        commitIndex := k, commitNotify := true } ∧
      ∃ F, Majority cfg F ∧ ∀ q ∈ F, ∃ m, k ≤ m ∧
        Event.accepted q (s.nodes rpc.src).currentTerm m ∈ s.history := by
    rcases Node.handleAppendReply_cases hn with ⟨-, rfl, -⟩ | ⟨rfl, -⟩ |
      ⟨hlead, ht, -, ⟨hsucc, -, rfl⟩ | ⟨-, rfl, -⟩⟩
    · exact absurd hlt (lt_irrefl _)
    · exact absurd hlt (lt_irrefl _)
    · have htr : Tracks s.history rpc.src ((s.nodes rpc.src).recordMatch rpc.dst rpc.args) :=
        tracks_recordMatch ht (hw.replicas.success rpc hmem reply hp hsucc)
          (hw.replicas.leader rpc.src hlead)
      unfold Node.maybeAdvanceCommitIndex at hlt ⊢
      rcases Node.advanceCommitFrom_cases ((s.nodes rpc.src).recordMatch rpc.dst rpc.args)
        (((s.nodes rpc.src).recordMatch rpc.dst rpc.args).log.length - 1) with
          heq | ⟨k, hk, hle, -, hmaj, heq⟩
      · rw [heq] at hlt
        exact absurd hlt (lt_irrefl _)
      · have hpeers : ((s.nodes rpc.src).recordMatch rpc.dst rpc.args).peers =
            cfg.peers rpc.src := (hw.sound rpc.src).peers
        have hF := quorum_of_matchCount (hw.replicas.src rpc hmem) hpeers
          (lt_of_le_of_lt (Nat.zero_le _) hk) hle hmaj htr
        exact ⟨k, heq, hF⟩
    · exact absurd hlt (lt_irrefl _)
  obtain ⟨k, rfl, hF⟩ := hack
  refine ⟨?_, ?_, ?_⟩
  · rw [hnodes, Function.update_self]
    rfl
  · rw [hnodes, Function.update_self]
    rfl
  · rw [hnodes, Function.update_self]
    exact hF

end Steps

/-! ## §2  Runs -/

section Runs

variable {cfg : Config} {as bs cs : List Action} {s u : Cluster} {i p q : NodeId} {T m : ℕ}

theorem history_run {C : Cluster → Action → Prop} (h : Run (Cluster.step cfg) C u cs s) :
    u.history ⊆ s.history :=
  h.invariant (I := fun v => u.history ⊆ v.history) (List.Subset.refl _)
    fun hu _ hs => List.Subset.trans hu (history_mono hs)

/-- **Acceptances hold.** A node that accepted a prefix in the term it is in agrees
with whoever leads that term, then or later, up to the end of the prefix. -/
theorem agree_of_accepted
    (h : Run (Cluster.step cfg) (Plain cfg) (Cluster.initial cfg) bs u)
    (h' : Run (Cluster.step cfg) (Plain cfg) u cs s) (huniq : UniqueLeaders s.history)
    (hacc : Event.accepted q T m ∈ u.history) (hq : (u.nodes q).currentTerm = T)
    (hl : (s.nodes i).role = .leader) (hi : (s.nodes i).currentTerm = T) :
    ∀ k ≤ m, ∃ e, (u.nodes q).log[k]? = some e ∧ (s.nodes i).log[k]? = some e := by
  obtain ⟨A, hA, habs⟩ := refine_run h (huniq.anti (history_run h'))
  obtain ⟨A', hsteps, habs'⟩ := refine_from hA (wired_run h) habs h' huniq
  have hlead := leaderLog_eq (inv_steps hA hsteps) habs' hl
  rw [hi] at hlead
  obtain ⟨hlen, hkept⟩ := log_of_accepted hA habs hacc hq.le
  intro k hk
  obtain ⟨e, hkT⟩ : ∃ e, (A.leaderLog T)[k]? = some e :=
    ⟨_, List.getElem?_eq_getElem (lt_of_le_of_lt hk hlen)⟩
  refine ⟨e, (hkept k hk).trans hkT, ?_⟩
  rw [← hlead]
  exact Foundation.prefix_getElem? ((steps_retain hA hsteps).log T) hkT

/-- The state in which the acceptance was recorded. -/
theorem sometime_accepted {C : Cluster → Action → Prop}
    (h : Run (Cluster.step cfg) C (Cluster.initial cfg) as s)
    (hacc : Event.accepted q T m ∈ s.history) :
    Sometime (Cluster.step cfg) C (Cluster.initial cfg) as s fun u =>
      Event.accepted q T m ∈ u.history ∧ (u.nodes q).currentTerm = T :=
  h.sometime (by simp [Cluster.initial]) accepted_new hacc

/-- **`matchIndex` is sound.** In runs without snapshots and with one leader a term:
when a leader of term `T` has `matchIndex` `m` for a peer, the peer's log has, in
term `T`, agreed with the leader's up to `m`, and it does whenever the peer is in
term `T`. And when the leader advances its commit index to `N`, a majority has, in
term `T`, stored its entry `N`. -/
theorem matchIndex_sound (hterms : ∀ t, cfg.incr t = t + 1)
    (h : Run (Cluster.step cfg) NoSnapshot (Cluster.initial cfg) as s)
    (huniq : UniqueLeaders s.history) (hl : (s.nodes i).role = .leader) :
    (∀ p ∈ cfg.peers i, 0 < (s.nodes i).matchIndex p →
      Sometime (Cluster.step cfg) NoSnapshot (Cluster.initial cfg) as s fun u =>
        (u.nodes p).currentTerm = (s.nodes i).currentTerm ∧
          ∀ k, 1 ≤ k → k ≤ (s.nodes i).matchIndex p →
            ∃ e, (u.nodes p).log[k]? = some e ∧ (s.nodes i).log[k]? = some e) ∧
    (∀ p ∈ cfg.peers i, (s.nodes p).currentTerm = (s.nodes i).currentTerm →
      ∀ k, 1 ≤ k → k ≤ (s.nodes i).matchIndex p →
        ∃ e, (s.nodes p).log[k]? = some e ∧ (s.nodes i).log[k]? = some e) ∧
    ∀ a s', s.step cfg a = some s' → (s'.nodes i).role = .leader →
      (s.nodes i).commitIndex < (s'.nodes i).commitIndex →
      ∃ F, Majority cfg F ∧ ∀ q ∈ F,
        Sometime (Cluster.step cfg) NoSnapshot (Cluster.initial cfg) as s fun u =>
          (u.nodes q).currentTerm = (s'.nodes i).currentTerm ∧
            ∃ e, (u.nodes q).log[(s'.nodes i).commitIndex]? = some e ∧
              (s'.nodes i).log[(s'.nodes i).commitIndex]? = some e := by
  have hplain : ∀ {v w : Cluster} {ds : List Action},
      Run (Cluster.step cfg) NoSnapshot v ds w → Run (Cluster.step cfg) (Plain cfg) v ds w :=
    fun hrun => hrun.mono fun hC hs => ⟨plain_of_noSnapshot hterms hC, hs⟩
  have hw := wired_run (hplain h)
  -- an acceptance in the leader's term gives the time and the agreement
  have hwhen : ∀ {q : NodeId} {m : ℕ}, Event.accepted q (s.nodes i).currentTerm m ∈ s.history →
      Sometime (Cluster.step cfg) NoSnapshot (Cluster.initial cfg) as s fun u =>
        (u.nodes q).currentTerm = (s.nodes i).currentTerm ∧
          ∀ k ≤ m, ∃ e, (u.nodes q).log[k]? = some e ∧ (s.nodes i).log[k]? = some e := by
    intro q m hacc
    refine (sometime_accepted h hacc).imp fun hbs hcs hu => ⟨hu.2, ?_⟩
    exact agree_of_accepted (hplain hbs) (hplain hcs) huniq hu.1 hu.2 hl rfl
  refine ⟨fun p _ hpos => ?_, fun p _ hterm k hk1 hkm => ?_, fun a s' hs hl' hlt => ?_⟩
  · obtain ⟨m, hm, hacc⟩ := (hw.replicas.leader i hl).peer p hpos
    exact (hwhen hacc).imp fun _ _ hu => ⟨hu.1, fun k _ hk => hu.2 k (hk.trans hm)⟩
  · obtain ⟨m, hm, hacc⟩ := (hw.replicas.leader i hl).peer p (lt_of_lt_of_le hk1 hkm)
    exact agree_of_accepted (hplain h) Run.nil huniq hacc hterm hl rfl k (hkm.trans hm)
  · have hcount := commit_counted hw hs hl' hlt
    obtain ⟨F, hF, hacc⟩ := hcount.majority
    refine ⟨F, hF, fun q hq => ?_⟩
    obtain ⟨m, hm, hev⟩ := hacc q hq
    rw [hcount.term, hcount.log]
    exact (hwhen hev).imp fun _ _ hu => ⟨hu.1, hu.2 _ hm⟩

end Runs

/-- `A` leads and has proposed a command that `B` has accepted; its answer is on the
way. -/
def countingActions : List Action :=
  [.startElection [65], .deliverVote 0, .voteReply 0, .propose [65] (some [7]),
   .deliverAppend 0, .appendReply 0, .deliverAppend 1]

def countingEnd : Cluster :=
  Foundation.endState (Cluster.step pair) NoSnapshot (Cluster.initial pair) countingActions

/-- The answer has arrived. -/
def countedEnd : Cluster :=
  (countingEnd.step pair (.appendReply 1)).getD countingEnd

/-- The answer makes `A` commit index `1`, which both have stored. -/
theorem matchIndex_sound_pair :
    countingEnd.step pair (.appendReply 1) = some countedEnd ∧
      (countedEnd.nodes [65]).commitIndex = 1 ∧
      ∃ F, Majority pair F ∧ ∀ q ∈ F,
        Sometime (Cluster.step pair) NoSnapshot (Cluster.initial pair) countingActions
          countingEnd fun u => (u.nodes q).currentTerm = (countedEnd.nodes [65]).currentTerm ∧
            ∃ e, (u.nodes q).log[(countedEnd.nodes [65]).commitIndex]? = some e ∧
              (countedEnd.nodes [65]).log[(countedEnd.nodes [65]).commitIndex]? = some e := by
  have hrun : Run (Cluster.step pair) NoSnapshot (Cluster.initial pair) countingActions
      countingEnd := Foundation.run_endState (by decide +kernel)
  have hs : countingEnd.step pair (.appendReply 1) = some countedEnd := by
    obtain ⟨t, ht⟩ := Option.isSome_iff_exists.mp
      (by decide +kernel : (countingEnd.step pair (.appendReply 1)).isSome = true)
    rw [countedEnd, ht]
    rfl
  obtain ⟨-, -, hadv⟩ := matchIndex_sound (i := [65]) (fun _ => rfl) hrun (by decide +kernel)
    (by decide +kernel)
  exact ⟨hs, by decide +kernel, hadv _ _ hs (by decide +kernel) (by decide +kernel)⟩

end KVEngine.Raft
