import KVEngine.Foundation.LogStability
import KVEngine.Raft.Commits

/-!
# What a node keeps

Two states of one run, the second later. A node that leads the same term in both has
only appended to its log (`leader_append_only`): it led all the time between, for a
node comes to lead by way of being a candidate, and becomes a candidate by starting a
new term. This holds in every run, two leaders in a term or not.

With one leader a term, what a node has committed it keeps, through crashes and under
every later leader (`committed_kept`), although its commit index begins again from `0`
when its process does.
-/

namespace KVEngine.Raft

open Foundation (Run)
open Foundation.ReplicatedLog

/-! ## §1  A leader appends -/

/-- Since a time at which `n` led term `T` with log `L`. -/
def Reign (T : ℕ) (L : List LogEntry) (n : Node) : Prop :=
  T < n.currentTerm ∨
    n.currentTerm = T ∧ n.role ≠ .candidate ∧ (n.role = .leader → L <+: n.log)

section Reigns

variable {T : ℕ} {L : List LogEntry} {n n' : Node}

theorem Reign.passive (h : Reign T L n) (hp : Passive n n') : Reign T L n' := by
  have hle := hp.term_le
  rcases h with hlt | ⟨rfl, hrole, hlog⟩
  · exact Or.inl (hlt.trans_le hle)
  · rcases hle.eq_or_lt with heq | hlt
    · refine Or.inr ⟨heq.symm, fun hc => hrole (hp.candidate hc).1, fun hl => ?_⟩
      obtain ⟨hl', -, hsame, -⟩ := hp.leader hl
      rw [hsame]
      exact hlog hl'
    · exact Or.inl hlt

/-- The term stays, and so does the role or it was lost; the log has grown. -/
theorem Reign.grown (h : Reign T L n) (hterm : n'.currentTerm = n.currentTerm)
    (hrole : n'.role = n.role) (hlog : n.log <+: n'.log) : Reign T L n' := by
  unfold Reign
  rw [hterm, hrole]
  rcases h with hlt | ⟨ht, hc, hl⟩
  · exact Or.inl hlt
  · exact Or.inr ⟨ht, hc, fun hr => (hl hr).trans hlog⟩

theorem Reign.becomeFollower (h : Reign T L n) {t : ℕ} (ht : n.currentTerm ≤ t) :
    Reign T L (n.becomeFollower true t) :=
  h.passive (passive_becomeFollower ht)

/-- Only a candidate wins, and a candidate is in a later term. -/
theorem Reign.voteReply (h : Reign T L n) {term election : ℕ} {reply : RequestVoteReply}
    {calls : List AppendCall}
    (hn : n.handleVoteReply true term election reply = some (n', calls)) : Reign T L n' := by
  rcases Node.handleVoteReply_cases hn with ⟨hlt, rfl, -⟩ | ⟨rfl, -⟩ |
    ⟨hc, -, -, ⟨-, rfl, -⟩ | ⟨-, rfl, -⟩⟩
  · exact h.becomeFollower hlt.le
  · exact h
  · exact h.grown rfl rfl (List.prefix_refl _)
  · rcases h with hlt | ⟨-, hrole, -⟩
    · exact Or.inl hlt
    · exact absurd hc hrole

theorem Reign.appendReply (h : Reign T L n) {peer : NodeId} {args : AppendEntriesArgs}
    {reply : AppendEntriesReply} {calls : List AppendCall}
    (hn : n.handleAppendReply true peer args reply = some (n', calls)) : Reign T L n' := by
  rcases Node.handleAppendReply_cases hn with ⟨hlt, rfl, -⟩ | ⟨rfl, -⟩ |
    ⟨-, -, -, ⟨-, -, rfl⟩ | ⟨-, rfl, -⟩⟩
  · exact h.becomeFollower hlt.le
  · exact h
  · obtain ⟨c, b, heq⟩ := Node.maybeAdvance_eq (n.recordMatch peer args)
    rw [heq]
    exact h.grown rfl rfl (List.prefix_refl _)
  · exact h.grown rfl rfl (List.prefix_refl _)

theorem Reign.restart {cfg : Config} {i : NodeId} {m : Node} (h : Reign T L n)
    (hm : Cluster.DiesAs n m) (hs : Sound cfg i m) : Reign T L m.restart := by
  have hdead : Reign T L m := by
    rcases hm with rfl | ⟨t, ht, rfl⟩
    · exact h
    · exact h.becomeFollower ht
  rw [hs.restart_eq]
  rcases hdead with hlt | ⟨ht, -, -⟩
  · exact Or.inl hlt
  · exact Or.inr ⟨ht, by simp [Node.blank], by simp [Node.blank]⟩

end Reigns

section Runs

variable {cfg : Config} {as bs : List Action} {s s' t : Cluster} {a : Action} {i : NodeId}

/-- **One step.** -/
theorem reign_step {T : ℕ} {L : List LogEntry} (hw : Wired cfg s)
    (h : ∀ i', i' = i → Reign T L (s.nodes i')) (hC : Plain cfg s a)
    (hs : s.step cfg a = some s') : ∀ i', i' = i → Reign T L (s'.nodes i') := by
  cases Cluster.step_nodes hs with
  | restart hnodes _ hm =>
      refine Cluster.forall_nodes hnodes (P := fun j m => j = i → Reign T L m) (fun hj => ?_)
        fun j _ => h j
      exact (h _ hj).restart hm (hm.sound (hw.sound _))
  | change hnodes _ hchange =>
      refine Cluster.forall_nodes hnodes (P := fun j m => j = i → Reign T L m) (fun hj => ?_)
        fun j _ => h j
      have hold := h _ hj
      cases hchange with
      | same => exact hold
      | campaign hn =>
          obtain ⟨e, -, rfl, -⟩ := Node.startElection_some hn
          have hincr : cfg.incr _ = _ + 1 := hC
          left
          show T < cfg.incr _
          rcases hold with hlt | ⟨rfl, -⟩ <;> omega
      | command _ _ => exact hold.grown rfl rfl (List.prefix_append _ _)
      | requestVote _ hn => exact hold.passive (handleRequestVote_passive hn)
      | voteReply _ hn => exact hold.voteReply hn
      | appendEntries _ hn => exact hold.passive (handleAppendEntries_passive hn)
      | appendReply _ _ hn => exact hold.appendReply hn
      | wake => exact hold.grown rfl rfl (List.prefix_refl _)
      | park => exact hold.grown rfl rfl (List.prefix_refl _)
      | take _ => exact hold.grown rfl rfl (List.prefix_refl _)
      | send => exact hold.grown rfl rfl (List.prefix_refl _)
      | snapshot hn =>
          have h0 : _ = 0 := hC
          subst h0
          obtain rfl := (hw.sound _).takeSnapshot_zero hn
          exact hold.grown rfl rfl (List.prefix_refl _)

/-- **Leader Append-Only.** A node that leads a term at two times of a run has at the
later time the log it had at the earlier one, with entries appended. -/
theorem leader_append_only (hterms : ∀ t, cfg.incr t = t + 1)
    (h : Run (Cluster.step cfg) NoSnapshot (Cluster.initial cfg) as s)
    (h' : Run (Cluster.step cfg) NoSnapshot s bs t) (hl : (s.nodes i).role = .leader)
    (hl' : (t.nodes i).role = .leader)
    (hterm : (t.nodes i).currentTerm = (s.nodes i).currentTerm) :
    (s.nodes i).log <+: (t.nodes i).log := by
  have hrun : Run (Cluster.step cfg) (Plain cfg) s bs t :=
    h'.mono fun hC hs => ⟨plain_of_noSnapshot hterms hC, hs⟩
  have hreign : ∀ j, j = i → Reign (s.nodes i).currentTerm (s.nodes i).log (s.nodes j) := by
    rintro j rfl
    exact Or.inr ⟨rfl, by simp [hl], fun _ => List.prefix_refl _⟩
  obtain ⟨-, hend⟩ := hrun.invariant (I := fun u => Wired cfg u ∧ ∀ j, j = i →
      Reign (s.nodes i).currentTerm (s.nodes i).log (u.nodes j))
    ⟨wired_run (plain_run hterms h), hreign⟩
    fun hu hC hs => ⟨wired_step hu.1 hC hs, reign_step hu.1 hu.2 hC hs⟩
  rcases hend i rfl with hlt | ⟨-, -, hlog⟩
  · omega
  · exact hlog hl'

/-- The pair after some of its actions. -/
def pairAfter (n : ℕ) : Cluster :=
  Foundation.endState (Cluster.step pair) NoSnapshot (Cluster.initial pair) (pairActions.take n)

/-- `A` leads term `1` before and after it takes a command. -/
theorem leader_append_only_pair :
    let t := Foundation.endState (Cluster.step pair) NoSnapshot (pairAfter 3)
      [.propose [65] (some [7])]
    ((pairAfter 3).nodes [65]).log <+: (t.nodes [65]).log ∧
      (t.nodes [65]).log = [sentinel, ⟨1, some [7]⟩] := by
  refine ⟨leader_append_only (fun _ => rfl : ∀ t, pair.incr t = t + 1)
    (Foundation.run_endState (by decide +kernel)) (Foundation.run_endState (by decide +kernel))
    ?_ ?_ ?_, ?_⟩ <;> decide +kernel

/-! ## §2  What is committed -/

/-- **Committed entries are kept.** What a node has committed at some time of a run is in
its log at every later time, and in that of every node that has committed as far. -/
theorem committed_kept (hterms : ∀ t, cfg.incr t = t + 1)
    (h : Run (Cluster.step cfg) NoSnapshot (Cluster.initial cfg) as s)
    (h' : Run (Cluster.step cfg) NoSnapshot s bs t) (huniq : UniqueLeaders t.history)
    {k : ℕ} (hk : k ≤ (s.nodes i).commitIndex) :
    (t.nodes i).log[k]? = (s.nodes i).log[k]? ∧
      ∀ j, k ≤ (t.nodes j).commitIndex → (t.nodes j).log[k]? = (s.nodes i).log[k]? := by
  have hplain := plain_run hterms h
  have hrest : Run (Cluster.step cfg) (Plain cfg) s bs t :=
    h'.mono fun hC hs => ⟨plain_of_noSnapshot hterms hC, hs⟩
  have hw := wired_run hplain
  have hw' : Wired cfg t := hrest.invariant hw fun hw hC hs => wired_step hw hC hs
  have hgrow : s.history ⊆ t.history := hrest.invariant (I := fun u => s.history ⊆ u.history)
    (List.Subset.refl _) fun hu _ hs ev hev => history_mono hs (hu hev)
  obtain ⟨A, hi, habs⟩ := refine_run hplain (huniq.anti hgrow)
  obtain ⟨A', hA', habs'⟩ := refine_from hi hw habs hrest huniq
  have hi' := inv_steps hi hA'
  -- the entries at index `0` are the sentinels
  rcases Nat.eq_zero_or_pos k with rfl | hpos
  · refine ⟨by rw [(hw.sound i).head, (hw'.sound i).head], fun j _ => ?_⟩
    rw [(hw.sound i).head, (hw'.sound j).head]
  obtain ⟨hlt, hsafe⟩ := (hi.commit i).resolve_left (by rw [habs.commit]; omega)
  rw [habs.commit, habs.log] at hlt hsafe
  have hkey : ((s.nodes i).log.take ((s.nodes i).commitIndex + 1))[k]? =
      some (s.nodes i).log[k] := by
    rw [List.getElem?_take_of_lt (Nat.lt_succ_of_le hk)]
    exact List.getElem?_eq_getElem _
  have hhere : (s.nodes i).log[k]? = some (s.nodes i).log[k] := List.getElem?_eq_getElem _
  rw [hhere]
  constructor
  · have hheld : (s.nodes i).log.take ((s.nodes i).commitIndex + 1) <+: A.log i := by
      rw [habs.log]
      exact List.take_prefix _ _
    obtain ⟨-, hlog⟩ := hsafe.held hi hA' (le_refl _) hheld
    rw [habs'.log] at hlog
    exact Foundation.prefix_getElem? hlog hkey
  · intro j hj
    obtain ⟨hlt', hsafe'⟩ := (hi'.commit j).resolve_left (by rw [habs'.commit]; omega)
    rw [habs'.commit, habs'.log] at hlt' hsafe'
    have hthere : (t.nodes j).log[k]? = some (t.nodes j).log[k] := List.getElem?_eq_getElem _
    rw [hthere]
    have hsame := hsafe'.agree hi' (hsafe.grow (steps_retain hi hA').toGrows (le_refl _))
      (by rw [List.getElem?_take_of_lt (Nat.lt_succ_of_le hj)]; exact hthere) hkey
    rw [hsame]

/-- `A` has committed an entry; `B` then learns of it and takes over, and the process of
`A` dies. -/
theorem committed_kept_pair :
    let t := Foundation.endState (Cluster.step pair) NoSnapshot (pairAfter 9)
      (pairActions.drop 9 ++ [.crash [65]])
    ((pairAfter 9).nodes [65]).commitIndex = 1 ∧ (t.nodes [65]).commitIndex = 0 ∧
      (t.nodes [65]).log[1]? = some ⟨1, some [7]⟩ := by
  intro t
  have hk : 1 ≤ ((pairAfter 9).nodes [65]).commitIndex := by decide +kernel
  obtain ⟨hlog, -⟩ := committed_kept (t := t) (fun _ => rfl : ∀ t, pair.incr t = t + 1)
    (Foundation.run_endState (by decide +kernel)) (Foundation.run_endState (by decide +kernel))
    (by decide +kernel) hk
  refine ⟨by decide +kernel, by decide +kernel, ?_⟩
  rw [hlog]
  decide +kernel

end Runs

end KVEngine.Raft
