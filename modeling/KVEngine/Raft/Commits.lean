import KVEngine.Raft.Delivery
import KVEngine.Raft.Leaders

/-!
# The committed sequence

An entry is committed when a leader has advanced its commit index over it. In runs
with one vote a term there is one committed entry at most at each index
(`Committed.agree`), and what a node has at or below its commit index is committed
(`committed_of_le`): commit indices of followers come from leaders.

§3 says what a step does to the apply loop: nothing, take the next entry below the
commit index, send what was taken, or begin again from the first entry.
-/

namespace KVEngine.Raft

open Foundation (Run)
open Foundation.ReplicatedLog

/-! ## §1  Committed entries -/

def Committed (H : List Event) (k : ℕ) (e : LogEntry) : Prop :=
  ∃ i T c L, Event.advanced i T c L ∈ H ∧ k ≤ c ∧ L[k]? = some e

theorem Committed.mono {H H' : List Event} {k : ℕ} {e : LogEntry} (hH : H ⊆ H')
    (h : Committed H k e) : Committed H' k e := by
  obtain ⟨i, T, c, L, hadv, hk, he⟩ := h
  exact ⟨i, T, c, L, hH hadv, hk, he⟩

section Agreement

variable {cfg : Config} {s : Cluster} {A : State NodeId LogEntry}

theorem safe_of_advanced (hi : Inv (params cfg) A) (habs : Abstracts s A) {i : NodeId} {T c : ℕ}
    {L : List LogEntry} (h : Event.advanced i T c L ∈ s.history) :
    Safe (params cfg) A (L.take (c + 1)) T := by
  obtain ⟨hadv, hL, -⟩ := habs.ledger _ h
  exact ⟨T, c, le_refl T, hi.advanced T c hadv, hL.take (c + 1)⟩

theorem Committed.safe (hi : Inv (params cfg) A) (habs : Abstracts s A) {k : ℕ} {e : LogEntry}
    (h : Committed s.history k e) : ∃ P T, Safe (params cfg) A P T ∧ P[k]? = some e := by
  obtain ⟨i, T, c, L, hadv, hk, he⟩ := h
  refine ⟨_, T, safe_of_advanced hi habs hadv, ?_⟩
  rw [List.getElem?_take_of_lt (Nat.lt_succ_of_le hk)]
  exact he

/-- **One committed sequence.** -/
theorem Committed.agree (hi : Inv (params cfg) A) (habs : Abstracts s A) {k : ℕ}
    {x y : LogEntry} (hx : Committed s.history k x) (hy : Committed s.history k y) : x = y := by
  obtain ⟨P, T, hP, hPx⟩ := hx.safe hi habs
  obtain ⟨Q, U, hQ, hQy⟩ := hy.safe hi habs
  exact hP.agree hi hQ hPx hQy

end Agreement

/-! ## §2  Where commit indices come from -/

/-- Some leader has committed that far. -/
def Backed (H : List Event) (c : ℕ) : Prop :=
  c = 0 ∨ ∃ i T c' L, Event.advanced i T c' L ∈ H ∧ c ≤ c'

theorem Backed.mono {H H' : List Event} {c : ℕ} (hH : H ⊆ H') (h : Backed H c) :
    Backed H' c := by
  rcases h with h | ⟨i, T, c', L, hadv, hc⟩
  · exact Or.inl h
  · exact Or.inr ⟨i, T, c', L, hH hadv, hc⟩

theorem Backed.of_le {H : List Event} {c c' : ℕ} (h : Backed H c') (hc : c ≤ c') :
    Backed H c := by
  rcases h with rfl | ⟨i, T, d, L, hadv, hd⟩
  · exact Or.inl (Nat.le_zero.mp hc)
  · exact Or.inr ⟨i, T, d, L, hadv, hc.trans hd⟩

structure CommitsBacked (s : Cluster) : Prop where
  node : ∀ i, Backed s.history (s.nodes i).commitIndex
  sent : ∀ rpc ∈ s.appendRpcs, Backed s.history rpc.args.leaderCommit

section Steps

variable {cfg : Config} {s s' : Cluster} {a : Action} {i : NodeId} {n : Node}

/-- **Frame.** One node changes; a request that a node sends says what it has
committed. -/
theorem CommitsBacked.frame (h : CommitsBacked s) (hs : s.step cfg a = some s')
    (hnodes : s'.nodes = Function.update s.nodes i n) (hn : Backed s'.history n.commitIndex) :
    CommitsBacked s' := by
  have hH := history_mono hs
  have hnode : ∀ j, Backed s'.history (s'.nodes j).commitIndex :=
    Cluster.forall_nodes hnodes (P := fun _ m => Backed s'.history m.commitIndex) hn
      fun j _ => (h.node j).mono hH
  refine ⟨hnode, fun rpc' hr => ?_⟩
  rcases Cluster.step_appends hs rpc' hr with ⟨rpc, hm, ph, rfl, -⟩ | hnew
  · exact (h.sent rpc hm).mono hH
  · obtain ⟨_, -, -, -, -, -, -, -, hcommit⟩ := Node.sendAppendEntries_some hnew.sent
    exact hcommit ▸ hnode rpc'.src

/-- A step that leaves the commit index of its node alone. -/
theorem CommitsBacked.quiet (h : CommitsBacked s) (hs : s.step cfg a = some s')
    (hnodes : s'.nodes = Function.update s.nodes i n)
    (hn : n.commitIndex = (s.nodes i).commitIndex) : CommitsBacked s' :=
  h.frame hs hnodes (hn ▸ (h.node i).mono (history_mono hs))

/-- A follower's commit index is its old one or at most the leader's. -/
theorem handleAppendEntries_commitIndex {n' : Node} {args : AppendEntriesArgs}
    {reply : AppendEntriesReply}
    (h : n.handleAppendEntries Cluster.persistOk args = some (n', reply)) :
    n'.commitIndex = n.commitIndex ∨ n'.commitIndex ≤ args.leaderCommit := by
  rcases Node.handleAppendEntries_cases h with ⟨-, rfl, -⟩ |
    ⟨-, ⟨-, rfl, -⟩ | ⟨_, -, ⟨-, rfl, -⟩ | ⟨-, rfl, -⟩⟩⟩
  · exact Or.inl rfl
  · exact Or.inl rfl
  · exact Or.inl rfl
  · obtain ⟨-, -, -, -, -, hsame, -⟩ := Node.appendAndPersist_rest true (n.follow true args) args
    rw [Node.followCommit_commitIndex]
    split
    · exact Or.inr (min_le_left _ _)
    · exact Or.inl hsame

theorem handleAppendReply_commitIndex {n' : Node} {peer : NodeId} {args : AppendEntriesArgs}
    {reply : AppendEntriesReply} {calls : List AppendCall}
    (h : n.handleAppendReply true peer args reply = some (n', calls)) :
    n.commitIndex < n'.commitIndex ∨ n'.commitIndex = n.commitIndex := by
  rcases Node.handleAppendReply_cases h with ⟨-, rfl, -⟩ | ⟨rfl, -⟩ |
    ⟨-, -, -, ⟨-, -, rfl⟩ | ⟨-, rfl, -⟩⟩
  · exact Or.inr rfl
  · exact Or.inr rfl
  · rcases (n.recordMatch peer args).advanceCommitFrom_cases
      ((n.recordMatch peer args).log.length - 1) with heq | ⟨k, hk, -, -, -, heq⟩
    · right
      rw [Node.maybeAdvanceCommitIndex, heq]
      rfl
    · left
      rw [Node.maybeAdvanceCommitIndex, heq]
      exact hk
  · exact Or.inr rfl

/-- A commit by counting replicas is one of a leader. -/
theorem backed_appendReply {r : ℕ} (h : CommitsBacked s)
    (hs : s.step cfg (.appendReply r) = some s') : CommitsBacked s' := by
  obtain ⟨rpc, reply, n, calls, -, -, -, hn, rfl⟩ := Cluster.appendReply_some hs
  refine h.frame hs rfl ?_
  rcases handleAppendReply_commitIndex hn with hlt | heq
  · refine Or.inr ⟨rpc.src, n.currentTerm, n.commitIndex, n.log, ?_, le_refl _⟩
    refine List.mem_append_left _ ?_
    rw [if_pos hlt]
    exact List.mem_singleton_self _
  · rw [heq]
    exact (h.node rpc.src).mono (List.subset_append_right _ _)

theorem backed_step (hw : Wired cfg s) (h : CommitsBacked s) (hC : VotesOnce cfg s a)
    (hs : s.step cfg a = some s') : CommitsBacked s' := by
  cases Cluster.step_nodes hs with
  | restart hnodes _ hm =>
      refine h.frame hs hnodes (Or.inl ?_)
      rw [(hm.sound (hw.sound _)).restart_eq]
      rfl
  | change hnodes _ hchange =>
      cases hchange with
      | same => exact h.quiet hs hnodes rfl
      | campaign hn =>
          obtain ⟨e, -, rfl, -⟩ := Node.startElection_some hn
          exact h.quiet hs hnodes rfl
      | command _ _ => exact h.quiet hs hnodes rfl
      | requestVote _ hn => exact h.quiet hs hnodes (handleRequestVote_commitIndex hn)
      | voteReply _ hn => exact h.quiet hs hnodes (handleVoteReply_commitIndex hn)
      | appendEntries hr hn =>
          have hH := history_mono hs
          refine h.frame hs hnodes ?_
          rcases handleAppendEntries_commitIndex hn with heq | hle
          · rw [heq]
            exact (h.node _).mono hH
          · exact ((h.sent _ (List.mem_of_getElem? hr)).mono hH).of_le hle
      | appendReply _ _ _ => exact backed_appendReply h hs
      | wake => exact h.quiet hs hnodes rfl
      | park => exact h.quiet hs hnodes rfl
      | take _ => exact h.quiet hs hnodes rfl
      | send => exact h.quiet hs hnodes rfl
      | snapshot hn =>
          have h0 : _ = 0 := hC.1
          subst h0
          obtain rfl := (hw.sound _).takeSnapshot_zero hn
          exact h.quiet hs hnodes rfl

theorem backed_run {as : List Action}
    (h : Run (Cluster.step cfg) (VotesOnce cfg) (Cluster.initial cfg) as s) : CommitsBacked s := by
  induction h with
  | nil => exact ⟨fun i => Or.inl rfl, by simp [Cluster.initial]⟩
  | snoc hrun hC hs ih => exact backed_step (protocol_run hrun).1 ih hC hs

/-- **What a node has committed** belongs to the committed sequence. -/
theorem committed_of_le {A : State NodeId LogEntry} (hi : Inv (params cfg) A)
    (habs : Abstracts s A) (hb : CommitsBacked s) {k : ℕ} {e : LogEntry} (hpos : 0 < k)
    (hk : k ≤ (s.nodes i).commitIndex) (he : (s.nodes i).log[k]? = some e) :
    Committed s.history k e := by
  rcases hb.node i with h0 | ⟨j, T, c, L, hadv, hc⟩
  · omega
  rcases hi.commit i with h0 | ⟨-, hsafe⟩
  · rw [habs.commit] at h0
    omega
  rw [habs.commit, habs.log] at hsafe
  -- the leader's log reaches that far, and safe logs agree
  obtain ⟨-, -, hlen⟩ := habs.ledger _ hadv
  have hkL : L[k]? = some L[k] := List.getElem?_eq_getElem (by omega)
  have hsame : e = L[k] := by
    refine hsafe.agree hi (safe_of_advanced hi habs hadv) (k := k) ?_ ?_
    · rw [List.getElem?_take_of_lt (Nat.lt_succ_of_le hk)]
      exact he
    · rw [List.getElem?_take_of_lt (by omega)]
      exact hkL
  exact ⟨j, T, c, L, hadv, hk.trans hc, hsame ▸ hkL⟩

end Steps

/-! ## §3  The apply loop -/

/-- The action concerns the process around the node too: it hands over a message,
takes a snapshot or ends the process. -/
def Action.leavesNode : Action → Bool
  | .applySend _ | .takeSnapshot _ _ _ | .crash _ | .crashInVote _ | .crashInAppend _ => true
  | _ => false

/-- Whose process the action ends. -/
def Action.victim (s : Cluster) : Action → Option NodeId
  | .crash i => some i
  | .crashInVote r => s.voteRpcs[r]?.map VoteRpc.dst
  | .crashInAppend r => s.appendRpcs[r]?.map AppendRpc.dst
  | _ => none

section Loops

variable {cfg : Config} {s s' : Cluster} {i : NodeId} {a : Action}

theorem loop_update {n : Node} (hnodes : s'.nodes = Function.update s.nodes i n)
    (hn : KeepsLoop (s.nodes i) n ∨ Takes (s.nodes i) n) (j : NodeId) :
    KeepsLoop (s.nodes j) (s'.nodes j) ∨ Takes (s.nodes j) (s'.nodes j) :=
  Cluster.forall_nodes hnodes (P := fun j m => KeepsLoop (s.nodes j) m ∨ Takes (s.nodes j) m) hn
    (fun _ _ => Or.inl ⟨rfl, rfl⟩) j

/-- **The loop in a step of the node alone.** -/
theorem loop_step (ha : a.leavesNode = false) (hs : s.step cfg a = some s') (j : NodeId) :
    KeepsLoop (s.nodes j) (s'.nodes j) ∨ Takes (s.nodes j) (s'.nodes j) := by
  cases a with
  | startElection i =>
      obtain ⟨-, -, n, calls, hn, rfl⟩ := Cluster.startElection_some hs
      obtain ⟨e, -, rfl, -⟩ := Node.startElection_some hn
      refine loop_update rfl (Or.inl ?_) j
      exact .of_eq rfl rfl
  | heartbeat i =>
      obtain ⟨-, -, calls, -, rfl⟩ := Cluster.heartbeat_some hs
      exact Or.inl ⟨rfl, rfl⟩
  | propose i command =>
      obtain ⟨-, rfl | ⟨-, calls, -, rfl⟩⟩ := Cluster.propose_some hs
      · exact Or.inl ⟨rfl, rfl⟩
      · refine loop_update rfl (Or.inl ?_) j
        exact .of_eq rfl rfl
  | deliverVote r =>
      obtain ⟨rpc, n, reply, -, -, hn, rfl⟩ := Cluster.deliverVote_some hs
      exact loop_update rfl (Or.inl (Notifies.handleRequestVote hn).keeps) j
  | voteReply r =>
      obtain ⟨rpc, reply, n, calls, -, -, -, hn, rfl⟩ := Cluster.voteReply_some hs
      exact loop_update rfl (Or.inl (Notifies.handleVoteReply hn).keeps) j
  | deliverAppend r =>
      obtain ⟨rpc, n, reply, -, -, hn, rfl⟩ := Cluster.deliverAppend_some hs
      exact loop_update rfl (Or.inl (Notifies.handleAppendEntries hn).keeps) j
  | appendReply r =>
      obtain ⟨rpc, reply, n, calls, -, -, -, hn, rfl⟩ := Cluster.appendReply_some hs
      exact loop_update rfl (Or.inl (Notifies.handleAppendReply hn).keeps) j
  | applyWake i =>
      obtain ⟨-, h⟩ := Foundation.guard_bind_eq_some hs
      obtain ⟨n, hn, h⟩ := Option.bind_eq_some_iff.mp h
      cases h
      exact loop_update rfl (Or.inl (.applyWake hn)) j
  | applyTake i =>
      obtain ⟨-, h⟩ := Foundation.guard_bind_eq_some hs
      obtain ⟨n, hn, h⟩ := Option.bind_eq_some_iff.mp h
      cases h
      exact loop_update rfl (applyTake_loop hn) j
  | applySend i => cases ha
  | takeSnapshot i upToIndex data => cases ha
  | crash i => cases ha
  | crashInVote r => cases ha
  | crashInAppend r => cases ha

/-- **The loop of a process that is started again.** It begins before the first
entry, whatever was applied before. -/
theorem loop_victim (hw : Wired cfg s) (hv : a.victim s = some i)
    (hs : s.step cfg a = some s') :
    s'.history = s.history ∧ (s'.nodes i).lastApplied = 0 ∧ (s'.nodes i).outgoing = [] ∧
      ∀ j, j ≠ i → s'.nodes j = s.nodes j := by
  have hboot : ∀ {n : Node}, Sound cfg i n → s'.nodes = Function.update s.nodes i n.restart →
      (s'.nodes i).lastApplied = 0 ∧ (s'.nodes i).outgoing = [] ∧
        ∀ j, j ≠ i → s'.nodes j = s.nodes j := by
    intro n hn hnodes
    rw [hnodes, Function.update_self, hn.restart_eq]
    exact ⟨rfl, rfl, fun j hj => Function.update_of_ne hj _ _⟩
  cases a with
  | crash k =>
      cases hv
      rw [Cluster.crash_some hs] at hboot ⊢
      exact ⟨rfl, hboot (hw.sound i) rfl⟩
  | crashInVote r =>
      obtain ⟨rpc, hr, -, rfl⟩ := Cluster.crashInVote_some hs
      obtain rfl : rpc.dst = i := by simpa [Action.victim, hr] using hv
      exact ⟨rfl, hboot ((hw.sound rpc.dst).becomeFollower rpc.args.term) rfl⟩
  | crashInAppend r =>
      obtain ⟨rpc, hr, -, rfl⟩ := Cluster.crashInAppend_some hs
      obtain rfl : rpc.dst = i := by simpa [Action.victim, hr] using hv
      exact ⟨rfl, hboot ((hw.sound rpc.dst).becomeFollower rpc.args.term) rfl⟩
  | _ => cases hv

end Loops

end KVEngine.Raft
