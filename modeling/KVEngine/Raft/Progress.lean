import KVEngine.Raft.Leaders

/-!
# No index out of range

An action is enabled when its guards hold: the timer may fire, the request is
there to be handled, the goroutine waits for this reply. An enabled action
without a result is a panic of the source, an index outside a log. In runs with
one leader a term that discard no entries there is none.
-/

namespace KVEngine.Raft

open Foundation (Run bind_isSome some_bind_isSome guard_isSome)
open Foundation.ReplicatedLog

/-! ## §1  Enabled actions -/

def Enabled (cfg : Config) (s : Cluster) : Action → Prop
  | .startElection i => i ∈ cfg.ids ∧ (s.nodes i).role ≠ .leader
  | .heartbeat i => i ∈ cfg.ids ∧ (s.nodes i).role = .leader
  | .propose i _ => i ∈ cfg.ids
  | .deliverVote r => ∃ rpc, s.voteRpcs[r]? = some rpc ∧ rpc.phase = .requested
  | .voteReply r => ∃ rpc reply, s.voteRpcs[r]? = some rpc ∧
      rpc.life = s.lives rpc.src ∧ rpc.phase = .replied reply
  | .deliverAppend r => ∃ rpc, s.appendRpcs[r]? = some rpc ∧ rpc.phase = .requested
  | .appendReply r => ∃ rpc reply, s.appendRpcs[r]? = some rpc ∧
      rpc.life = s.lives rpc.src ∧ rpc.phase = .replied reply
  | .applyWake i => i ∈ cfg.ids ∧ (s.nodes i).applyPc = .parked ∧
      (s.nodes i).commitNotify = true
  | .applyTake i => i ∈ cfg.ids ∧ (s.nodes i).applyPc = .looping
  | .applySend i => i ∈ cfg.ids ∧ ∃ msg, (s.nodes i).applyPc = .sending msg
  | .takeSnapshot i _ _ => i ∈ cfg.ids
  | .crash i => i ∈ cfg.ids
  | .crashInVote r => ∃ rpc, s.voteRpcs[r]? = some rpc ∧ rpc.phase = .requested ∧
      rpc.args.term > (s.nodes rpc.dst).currentTerm
  | .crashInAppend r => ∃ rpc, s.appendRpcs[r]? = some rpc ∧ rpc.phase = .requested ∧
      rpc.args.term ≥ (s.nodes rpc.dst).currentTerm

/-! ## §2  Functions of a node -/

namespace Node

theorem propose_isSome {n : Node} {command : Option Bytes}
    (h : n.role = .leader → Leading (n.appendCommand true command)) :
    ∃ x, n.propose true command = some x := by
  unfold propose
  split
  · exact ⟨_, rfl⟩
  · rename_i hl
    have hpos : 0 < (n.appendCommand true command).log.length := by
      simp [appendCommand]
    exact bind_isSome (broadcast_isSome hpos (h (not_not.mp hl)).next) fun _ _ => ⟨_, rfl⟩

end Node

/-! ## §3  Runs -/

/-- **No index out of range.** Where the books are kept, the protocol is followed
and leaders are in order, every enabled action has a result. -/
theorem isSome_of_enabled {cfg : Config} {s : Cluster} {a : Action}
    {A : State NodeId LogEntry} (hw : Wired cfg s) (hi : Inv (params cfg) A)
    (habs : Abstracts s A) (hord : Orderly s) (ha : Enabled cfg s a) :
    ∃ s', s.step cfg a = some s' := by
  have hpos : ∀ i, 0 < (s.nodes i).log.length := fun i => (hw.sound i).length_pos
  cases a with
  | startElection i =>
      exact guard_isSome ha <| bind_isSome (Node.startElection_isSome (hpos i) _ _)
        fun _ _ => ⟨_, rfl⟩
  | heartbeat i =>
      exact guard_isSome ha <| bind_isSome
        (Node.broadcast_isSome (hpos i) (hord.leading i ha.2).next) fun _ _ => ⟨_, rfl⟩
  | propose i command =>
      have hid := (hw.sound i).id_notMem_peers ha
      refine guard_isSome ha <| bind_isSome (Node.propose_isSome fun hl => ?_)
        fun _ _ => ⟨_, rfl⟩
      exact (hord.leading i hl).appendCommand hid (matchIndex_lt hw hi habs hl) command
  | deliverVote r =>
      obtain ⟨rpc, hr, hph⟩ := ha
      exact some_bind_isSome hr <| guard_isSome hph <|
        bind_isSome (Node.handleRequestVote_isSome (hpos _) _ _) fun _ _ => ⟨_, rfl⟩
  | voteReply r =>
      obtain ⟨rpc, reply, hr, hlife, hph⟩ := ha
      refine some_bind_isSome hr <| guard_isSome hlife ?_
      rw [hph]
      exact bind_isSome (Node.handleVoteReply_isSome (hpos _) _ _ _ _) fun _ _ => ⟨_, rfl⟩
  | deliverAppend r =>
      obtain ⟨rpc, hr, hph⟩ := ha
      exact some_bind_isSome hr <| guard_isSome hph <|
        bind_isSome (Node.handleAppendEntries_isSome _ _ _) fun _ _ => ⟨_, rfl⟩
  | appendReply r =>
      obtain ⟨rpc, reply, hr, hlife, hph⟩ := ha
      refine some_bind_isSome hr <| guard_isSome hlife ?_
      have hmem := List.mem_of_getElem? hr
      rw [hph]
      refine bind_isSome (Node.handleAppendReply_isSome (hpos _) _ fun hl ht hrej => ?_)
        fun _ _ => ⟨_, rfl⟩
      -- the hint lies before the entry tested, which the leader still has
      have hconf := lt_of_le_of_lt (hord.conflict rpc hmem reply hph hrej)
        (prevLogIndex_lt hi habs hl hmem ht)
      exact ((hord.leading _ hl).backUp (hpos _) (hord.dst rpc hmem) hconf).next _
        (hord.dst rpc hmem)
  | applyWake i =>
      refine guard_isSome ha.1 <| bind_isSome ⟨_, if_pos ha.2⟩ fun _ _ => ⟨_, rfl⟩
  | applyTake i =>
      exact guard_isSome ha.1 <| bind_isSome
        (Node.applyTake_isSome (commitIndex_lt hw hi habs i) ha.2) fun _ _ => ⟨_, rfl⟩
  | applySend i =>
      obtain ⟨hmem, msg, hpc⟩ := ha
      refine guard_isSome hmem <| bind_isSome ?_ fun _ _ => ⟨_, rfl⟩
      unfold Node.applySend
      rw [hpc]
      exact ⟨_, rfl⟩
  | takeSnapshot i upToIndex data =>
      exact guard_isSome ha <| bind_isSome (Node.takeSnapshot_isSome _ _ _)
        fun _ _ => ⟨_, rfl⟩
  | crash i => exact guard_isSome ha ⟨_, rfl⟩
  | crashInVote r =>
      obtain ⟨rpc, hr, hph⟩ := ha
      exact some_bind_isSome hr <| guard_isSome hph ⟨_, rfl⟩
  | crashInAppend r =>
      obtain ⟨rpc, hr, hph⟩ := ha
      exact some_bind_isSome hr <| guard_isSome hph ⟨_, rfl⟩

theorem enabled_isSome {cfg : Config} {s : Cluster} {as : List Action} {a : Action}
    (h : Run (Cluster.step cfg) (VotesOnce cfg) (Cluster.initial cfg) as s)
    (ha : Enabled cfg s a) : ∃ s', s.step cfg a = some s' := by
  obtain ⟨hw, A, hi, habs⟩ := protocol_run h
  exact isSome_of_enabled hw hi habs (orderly_run h) ha

end KVEngine.Raft
