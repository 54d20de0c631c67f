import KVEngine.Raft.Polls
import KVEngine.Raft.Traces

/-!
# Who sends a request

Append requests name their sender, who has won the term they are of, and votes for another
node answer its requests. With what `Wired` and `Polls` say these hold in every state of a
run without snapshots (`Known`), two leaders in a term or not.
-/

namespace KVEngine.Raft

/-- Append requests name their sender, who has won the term. -/
structure Signed (cfg : Config) (s : Cluster) : Prop where
  leader : ∀ rpc ∈ s.appendRpcs, ∃ L, Event.becameLeader rpc.src rpc.args.term L ∈ s.history
  id : ∀ rpc ∈ s.appendRpcs, rpc.args.leaderId = rpc.src
  dst : ∀ rpc ∈ s.appendRpcs, rpc.dst ∈ cfg.peers rpc.src

/-- A vote for another node answers a request. -/
def Asked (s : Cluster) : Prop :=
  ∀ q T i, Event.voted q T i ∈ s.history → q ≠ i →
    ∃ rpc ∈ s.voteRpcs, rpc.src = i ∧ rpc.args.term = T

/-- What holds in every state of a run without snapshots. -/
structure Known (cfg : Config) (s : Cluster) : Prop where
  wired : Wired cfg s
  polls : Polls cfg s
  signed : Signed cfg s
  asked : Asked s

section Requests

variable {cfg : Config} {s s' : Cluster} {a : Action}

theorem signed_step (hw : Wired cfg s) (hw' : Wired cfg s') (hp' : Polls cfg s')
    (h : Signed cfg s) (hs : s.step cfg a = some s') : Signed cfg s' := by
  have hold : ∀ {rpc' : AppendRpc}, (∃ old ∈ s.appendRpcs, old.call = rpc'.call) →
      (∃ L, Event.becameLeader rpc'.src rpc'.args.term L ∈ s'.history) ∧
        rpc'.args.leaderId = rpc'.src ∧ rpc'.dst ∈ cfg.peers rpc'.src := by
    rintro rpc' ⟨old, hmem, hcall⟩
    obtain ⟨hsrc, hdst, hargs⟩ := AppendRpc.of_call hcall
    rw [← hsrc, ← hdst, ← hargs]
    obtain ⟨L, hL⟩ := h.leader old hmem
    exact ⟨⟨L, history_mono hs hL⟩, h.id old hmem, h.dst old hmem⟩
  have hall : ∀ rpc' ∈ s'.appendRpcs,
      (∃ L, Event.becameLeader rpc'.src rpc'.args.term L ∈ s'.history) ∧
        rpc'.args.leaderId = rpc'.src ∧ rpc'.dst ∈ cfg.peers rpc'.src := by
    intro rpc' hr
    rcases Cluster.step_append hw hs hr with hkept | hlead
    · exact hold hkept
    rcases Cluster.step_appends hs rpc' hr with ⟨old, hmem, ph, rfl, -⟩ | hfresh
    · exact hold ⟨old, hmem, rfl⟩
    -- a new request is sent in the leader's term, under its id
    · obtain ⟨prev, -, -, -, -, hterm, hid, -⟩ := Node.sendAppendEntries_some hfresh.sent
      refine ⟨?_, hid.trans (hw'.sound rpc'.src).id, ?_⟩
      · rw [hterm]
        exact hp'.leader rpc'.src hlead
      · rcases hfresh.dst with hpeer | ⟨old, hmem, hsrc, hdst⟩
        · rwa [(hw'.sound rpc'.src).peers] at hpeer
        · rw [← hsrc, ← hdst]
          exact h.dst old hmem
  exact ⟨fun rpc hr => (hall rpc hr).1, fun rpc hr => (hall rpc hr).2.1,
    fun rpc hr => (hall rpc hr).2.2⟩

theorem asked_by_step (hw : Wired cfg s) (h : Asked s) (hs : s.step cfg a = some s') :
    Asked s' := by
  intro q T i hev hne
  have hreq : ∃ rpc ∈ s.voteRpcs, rpc.src = i ∧ rpc.args.term = T := by
    rcases Cluster.step_event hw hs hev with
      hold | ⟨-, ⟨-, rfl⟩ | ⟨r, rpc, -, hr, -, hterm, hsrc⟩⟩
    · exact h q T i hold hne
    · exact absurd rfl hne
    · exact ⟨rpc, List.mem_of_getElem? hr, hsrc, hterm⟩
  obtain ⟨rpc, hmem, hsrc, hterm⟩ := hreq
  obtain ⟨l, hl, -⟩ := (Cluster.step_adds hw hs).votes
  have hcall : rpc.call ∈ s'.voteCalls := by
    rw [hl]
    exact List.mem_append_left _ (List.mem_map_of_mem hmem)
  obtain ⟨new, hnew, heq⟩ := List.mem_map.mp hcall
  obtain ⟨hsrc', -, hargs⟩ := VoteRpc.of_call heq
  exact ⟨new, hnew, hsrc'.trans hsrc, by rw [hargs, hterm]⟩

theorem known_initial (cfg : Config) : Known cfg (Cluster.initial cfg) where
  wired := wired_initial cfg
  polls := polls_initial cfg
  signed := by constructor <;> simp [Cluster.initial]
  asked := by simp [Asked, Cluster.initial]

theorem known_step (h : Known cfg s) (hC : Plain cfg s a) (hs : s.step cfg a = some s') :
    Known cfg s' := by
  have hw' := wired_step h.wired hC hs
  have hp' : Polls cfg s' :=
    polls_step h.polls (electionStep_of_attempt (fun rpc hr => (h.polls.call rpc hr).2.2.1)
      ((Cluster.attempt_persistOk cfg s a).trans hs))
  exact ⟨hw', hp', signed_step h.wired hw' hp' h.signed hs, asked_by_step h.wired h.asked hs⟩

end Requests

end KVEngine.Raft
