import KVEngine.Raft.Wired

/-!
# What a step adds

A step extends the history and the lists of calls, and nothing is taken from them:
a call keeps its place and its contents, only its phase moves on. `step_adds` says where
each new event comes from, and who makes the new calls.
-/

namespace KVEngine.Raft

open Foundation.ReplicatedLog

/-- The call a request makes, whatever has become of it. -/
def VoteRpc.call (rpc : VoteRpc) : VoteRpc := { rpc with phase := .requested }

def AppendRpc.call (rpc : AppendRpc) : AppendRpc := { rpc with phase := .requested }

theorem VoteRpc.of_call {old rpc : VoteRpc} (h : old.call = rpc.call) :
    old.src = rpc.src ∧ old.dst = rpc.dst ∧ old.args = rpc.args := by
  injection h with hsrc hdst hlife helection hargs
  exact ⟨hsrc, hdst, hargs⟩

theorem AppendRpc.of_call {old rpc : AppendRpc} (h : old.call = rpc.call) :
    old.src = rpc.src ∧ old.dst = rpc.dst ∧ old.args = rpc.args := by
  injection h with hsrc hdst hlife hargs
  exact ⟨hsrc, hdst, hargs⟩

def Cluster.voteCalls (s : Cluster) : List VoteRpc := s.voteRpcs.map VoteRpc.call

def Cluster.appendCalls (s : Cluster) : List AppendRpc := s.appendRpcs.map AppendRpc.call

/-- Where an event of the step comes from: a vote or an acceptance is a node's own, or its
answer to a request. -/
def Event.From (s s' : Cluster) (a : Action) : Event → Prop
  | .voted v T c => (s'.nodes v).votedFor = c ∧ (a = .startElection v ∧ c = v ∨
      ∃ r rpc, a = .deliverVote r ∧ s.voteRpcs[r]? = some rpc ∧ rpc.dst = v ∧
        rpc.args.term = T ∧ rpc.src = c)
  | .becameLeader _ _ _ => ∃ r, a = .voteReply r
  | .accepted q T m => (s'.nodes q).role = .leader ∧ (s'.nodes q).currentTerm = T ∨
      ∃ r rpc, a = .deliverAppend r ∧ s.appendRpcs[r]? = some rpc ∧ rpc.dst = q ∧
        rpc.args.term = T ∧ rpc.args.prevLogIndex + rpc.args.entries.length = m
  | _ => True

structure Adds (s s' : Cluster) (a : Action) : Prop where
  events : ∃ evs, s'.history = evs ++ s.history ∧ ∀ ev ∈ evs, ev.From s s' a
  votes : ∃ l, s'.voteCalls = s.voteCalls ++ l ∧
    ∀ rpc ∈ l, Event.voted rpc.src rpc.args.term rpc.src ∈ s'.history
  appends : ∃ l, s'.appendCalls = s.appendCalls ++ l ∧
    ∀ rpc ∈ l, (s'.nodes rpc.src).role = .leader

section Steps

variable {cfg : Config} {s s' : Cluster} {a : Action} {r : ℕ}

theorem map_set_of_getElem? {α β : Type} {f : α → β} {l : List α} {x y : α}
    (hx : l[r]? = some x) (hy : f y = f x) : (l.set r y).map f = l.map f := by
  obtain ⟨hlt, rfl⟩ := List.getElem?_eq_some_iff.mp hx
  rw [List.map_set, hy, ← List.getElem_map f, List.set_getElem_self]
  rwa [List.length_map]

/-- No call is made. -/
theorem Adds.quiet (evs : List Event) (hH : s'.history = evs ++ s.history)
    (hev : ∀ ev ∈ evs, ev.From s s' a) (hv : s'.voteCalls = s.voteCalls)
    (ha : s'.appendCalls = s.appendCalls) : Adds s s' a :=
  ⟨⟨evs, hH, hev⟩, ⟨[], by rw [hv, List.append_nil], by simp⟩,
    ⟨[], by rw [ha, List.append_nil], by simp⟩⟩

/-- The node `i` makes calls as a leader. -/
theorem Adds.spawn (t : Cluster) {i : NodeId} {calls : List AppendCall} (evs : List Event)
    (hH : s'.history = evs ++ s.history) (hev : ∀ ev ∈ evs, ev.From s s' a)
    (hv : s'.voteCalls = s.voteCalls) (ht : t.appendCalls = s.appendCalls)
    (hs' : s'.appendRpcs = (t.spawnAppends i calls).appendRpcs)
    (hl : calls ≠ [] → (s'.nodes i).role = .leader) : Adds s s' a := by
  refine ⟨⟨evs, hH, hev⟩, ⟨[], by rw [hv, List.append_nil], by simp⟩, ?_⟩
  refine ⟨calls.map fun c => ⟨i, c.peer, t.lives i, c.args, .requested⟩, ?_, ?_⟩
  · unfold Cluster.appendCalls at ht ⊢
    rw [hs', ← ht, Cluster.spawnAppends_appendRpcs, List.map_append, List.map_map]
    rfl
  · intro rpc hrpc
    obtain ⟨c, hc, rfl⟩ := List.mem_map.mp hrpc
    exact hl (List.ne_nil_of_mem hc)

theorem Cluster.adds_deliverVote (hw : Wired cfg s) (hs : s.deliverVote r = some s') :
    Adds s s' (.deliverVote r) := by
  obtain ⟨rpc, n, reply, hr, -, hn, rfl⟩ := deliverVote_some hs
  obtain ⟨-, -, hcand, -⟩ := hw.ballots.call rpc (List.mem_of_getElem? hr)
  refine .quiet _ rfl (fun ev hev => ?_) (map_set_of_getElem? hr rfl) rfl
  -- only a vote that is granted is recorded
  rcases Node.handleRequestVote_cases hn with ⟨-, rfl, rfl⟩ |
    ⟨hterm, lastIdx, lastTerm, -, ⟨hg, rfl, rfl⟩ | ⟨-, rfl, rfl⟩⟩
  · simp at hev
  · obtain rfl := List.mem_singleton.mp hev
    refine ⟨?_, Or.inr ⟨r, rpc, rfl, hr, rfl, rfl, hcand.symm⟩⟩
    show (Function.update s.nodes rpc.dst _ rpc.dst).votedFor = _
    rw [Function.update_self]
    rfl
  · simp at hev

theorem Cluster.adds_voteReply (hs : s.voteReply r = some s') : Adds s s' (.voteReply r) := by
  obtain ⟨rpc, reply, n, calls, hr, -, -, hn, rfl⟩ := voteReply_some hs
  have hnode : Function.update s.nodes rpc.src n rpc.src = n := Function.update_self _ _ _
  refine .spawn s _ rfl (fun ev hev => ?_) (map_set_of_getElem? hr rfl) rfl rfl
    fun hne => ?_
  · split at hev
    · rename_i hwon
      rcases List.mem_pair.mp hev with rfl | rfl
      · exact ⟨r, rfl⟩
      · refine Or.inl ⟨?_, ?_⟩
        · show (Function.update s.nodes rpc.src n rpc.src).role = .leader
          rw [hnode]
          exact hwon.2
        · show (Function.update s.nodes rpc.src n rpc.src).currentTerm = n.currentTerm
          rw [hnode]
    · simp at hev
  · show (Function.update s.nodes rpc.src n rpc.src).role = .leader
    rw [hnode]
    rcases Node.handleVoteReply_cases hn with ⟨-, -, rfl⟩ | ⟨-, rfl⟩ |
      ⟨-, -, -, ⟨-, -, rfl⟩ | ⟨-, rfl, -⟩⟩
    · exact absurd rfl hne
    · exact absurd rfl hne
    · exact absurd rfl hne
    · rfl

theorem Cluster.adds_deliverAppend (hs : s.deliverAppend r = some s') :
    Adds s s' (.deliverAppend r) := by
  obtain ⟨rpc, n, reply, hr, -, hn, rfl⟩ := deliverAppend_some hs
  refine .quiet _ rfl (fun ev hev => ?_) rfl (map_set_of_getElem? hr rfl)
  rcases Node.handleAppendEntries_cases hn with ⟨-, -, rfl⟩ |
    ⟨-, ⟨-, -, rfl⟩ | ⟨_, -, ⟨-, -, rfl⟩ | ⟨-, rfl, -, hterm⟩⟩⟩
  · simp at hev
  · simp at hev
  · simp at hev
  · have hsent := (accept_follower (s.nodes rpc.dst) rpc.args).2.1
    split at hev
    · obtain rfl := List.mem_singleton.mp hev
      exact Or.inr ⟨r, rpc, rfl, hr, rfl, (hterm.trans hsent).symm, rfl⟩
    · simp at hev

theorem Cluster.adds_appendReply (hs : s.appendReply r = some s') :
    Adds s s' (.appendReply r) := by
  obtain ⟨rpc, reply, n, calls, hr, -, -, hn, rfl⟩ := appendReply_some hs
  refine .spawn (s.setAppendRpc r { rpc with phase := .finished }) _ rfl
    (fun ev hev => ?_) rfl (map_set_of_getElem? hr rfl) rfl fun hne => ?_
  · split at hev
    · obtain rfl := List.mem_singleton.mp hev
      trivial
    · simp at hev
  · show (Function.update s.nodes rpc.src n rpc.src).role = .leader
    rw [Function.update_self]
    rcases Node.handleAppendReply_cases hn with ⟨-, -, rfl⟩ | ⟨-, rfl⟩ |
      ⟨hl, -, -, ⟨-, rfl, -⟩ | ⟨-, rfl, -⟩⟩
    · exact absurd rfl hne
    · exact absurd rfl hne
    · exact absurd rfl hne
    · exact hl

/-- **What a step adds.** -/
theorem Cluster.step_adds (hw : Wired cfg s) (hs : s.step cfg a = some s') : Adds s s' a := by
  cases a with
  | startElection i =>
      obtain ⟨-, -, n, calls, hn, rfl⟩ := Cluster.startElection_some hs
      obtain ⟨e, -, rfl, rfl⟩ := Node.startElection_some hn
      refine ⟨⟨_, rfl, ?_⟩, ?_, ⟨[], (List.append_nil _).symm, by simp⟩⟩
      · simp only [List.mem_singleton, forall_eq]
        refine ⟨?_, Or.inl ⟨rfl, rfl⟩⟩
        show (Function.update s.nodes i _ i).votedFor = i
        rw [Function.update_self]
        exact (hw.sound i).id
      · refine ⟨_, List.map_append, fun rpc hrpc => ?_⟩
        simp only [List.map_map, List.mem_map, Function.comp_apply] at hrpc
        obtain ⟨p, -, rfl⟩ := hrpc
        exact List.mem_cons_self
  | heartbeat i =>
      obtain ⟨-, hl, calls, -, rfl⟩ := Cluster.heartbeat_some hs
      exact .spawn s [] rfl (by simp) rfl rfl rfl fun _ => hl
  | propose i command =>
      obtain ⟨-, rfl | ⟨hl, calls, -, rfl⟩⟩ := Cluster.propose_some hs
      · exact .quiet [] rfl (by simp) rfl rfl
      · have hrole : (Function.update s.nodes i ((s.nodes i).appendCommand true command) i).role =
            .leader := by
          rw [Function.update_self]
          exact hl
        refine .spawn s _ rfl (fun ev hev => ?_) rfl rfl rfl fun _ => hrole
        rcases List.mem_pair.mp hev with rfl | rfl
        · trivial
        · refine Or.inl ⟨hrole, ?_⟩
          show (Function.update s.nodes i ((s.nodes i).appendCommand true command) i).currentTerm
            = (s.nodes i).currentTerm
          rw [Function.update_self]
          rfl
  | deliverVote r => exact adds_deliverVote hw hs
  | voteReply r => exact adds_voteReply hs
  | deliverAppend r => exact adds_deliverAppend hs
  | appendReply r => exact adds_appendReply hs
  | applyWake i =>
      rw [Cluster.applyWake_some hs]
      exact .quiet [] rfl (by simp) rfl rfl
  | applyTake i =>
      rcases Cluster.applyTake_some hs with rfl | ⟨-, e, pc, -, -, rfl⟩
      · exact .quiet [] rfl (by simp) rfl rfl
      · exact .quiet _ rfl (by simp [Event.From]) rfl rfl
  | applySend i =>
      obtain ⟨msg, -, rfl⟩ := Cluster.applySend_some hs
      exact .quiet _ rfl (by simp [Event.From]) rfl rfl
  | takeSnapshot i upToIndex data =>
      obtain ⟨n, b, -, rfl⟩ := Cluster.takeSnapshot_some hs
      exact .quiet [] rfl (by simp) rfl rfl
  | crash i =>
      rw [Cluster.crash_some hs]
      exact .quiet [] rfl (by simp) rfl rfl
  | crashInVote r =>
      obtain ⟨rpc, hr, -, rfl⟩ := Cluster.crashInVote_some hs
      exact .quiet [] rfl (by simp) (map_set_of_getElem? hr rfl) rfl
  | crashInAppend r =>
      obtain ⟨rpc, hr, -, rfl⟩ := Cluster.crashInAppend_some hs
      exact .quiet [] rfl (by simp) rfl (map_set_of_getElem? hr rfl)

/-- An event of the step, or an older one. -/
theorem Cluster.step_event (hw : Wired cfg s) (hs : s.step cfg a = some s') {ev : Event}
    (h : ev ∈ s'.history) : ev ∈ s.history ∨ ev.From s s' a := by
  obtain ⟨evs, hH, hev⟩ := (Cluster.step_adds hw hs).events
  rw [hH] at h
  exact (List.mem_append.mp h).symm.imp_right (hev ev)

/-- **Vote requests of a step.** -/
theorem Cluster.step_vote (hw : Wired cfg s) (hs : s.step cfg a = some s') {rpc : VoteRpc}
    (hr : rpc ∈ s'.voteRpcs) :
    (∃ old ∈ s.voteRpcs, old.call = rpc.call) ∨
      Event.voted rpc.src rpc.args.term rpc.src ∈ s'.history := by
  obtain ⟨l, hl, hnew⟩ := (Cluster.step_adds hw hs).votes
  have hcall : rpc.call ∈ s'.voteCalls := List.mem_map_of_mem hr
  rw [hl] at hcall
  exact (List.mem_append.mp hcall).imp List.mem_map.mp (hnew rpc.call)

/-- **Append requests of a step.** -/
theorem Cluster.step_append (hw : Wired cfg s) (hs : s.step cfg a = some s') {rpc : AppendRpc}
    (hr : rpc ∈ s'.appendRpcs) :
    (∃ old ∈ s.appendRpcs, old.call = rpc.call) ∨ (s'.nodes rpc.src).role = .leader := by
  obtain ⟨l, hl, hnew⟩ := (Cluster.step_adds hw hs).appends
  have hcall : rpc.call ∈ s'.appendCalls := List.mem_map_of_mem hr
  rw [hl] at hcall
  exact (List.mem_append.mp hcall).imp List.mem_map.mp (hnew rpc.call)

end Steps

end KVEngine.Raft
