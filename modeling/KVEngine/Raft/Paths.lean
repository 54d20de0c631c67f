import KVEngine.Raft.Backup
import KVEngine.Raft.Broadcast
import KVEngine.Raft.Traces

/-!
# Steps of some of the members

Runs in which only the members in a set `F` act and only their messages among one
another arrive, as when the others are down or cut off: no step of `Among F` ends a
process or takes a snapshot. `Standing` states are those of the runs that the safety
results are about.

§2 is one round between a leader and a peer, as three steps of the cluster.
-/

namespace KVEngine.Raft

open Foundation (Run)
open Foundation.ReplicatedLog

/-! ## §1  Standing states and paths -/

/-- A state of a run without snapshots and with one leader a term. -/
structure Standing (cfg : Config) (s : Cluster) : Prop where
  reached : ∃ as, Run (Cluster.step cfg) NoSnapshot (Cluster.initial cfg) as s
  uniq : UniqueLeaders s.history

/-- The action is one of the members in `F` alone. -/
def Among (F : Finset NodeId) (s : Cluster) : Action → Prop
  | .startElection i | .heartbeat i | .propose i _ | .applyWake i | .applyTake i
  | .applySend i => i ∈ F
  | .deliverVote r | .voteReply r => ∀ rpc ∈ s.voteRpcs[r]?, rpc.src ∈ F ∧ rpc.dst ∈ F
  | .deliverAppend r | .appendReply r => ∀ rpc ∈ s.appendRpcs[r]?, rpc.src ∈ F ∧ rpc.dst ∈ F
  | .takeSnapshot _ _ _ | .crash _ | .crashInVote _ | .crashInAppend _ => False

theorem Among.noSnapshot {F : Finset NodeId} {s : Cluster} {a : Action} (h : Among F s a) :
    NoSnapshot s a := by
  cases a with
  | takeSnapshot i upToIndex data => exact h.elim
  | _ => rfl

def Path (cfg : Config) (F : Finset NodeId) (s t : Cluster) : Prop :=
  ∃ bs, Run (Cluster.step cfg) (Among F) s bs t

section Paths

variable {cfg : Config} {F : Finset NodeId} {s s' t u : Cluster} {a : Action} {i p : NodeId}

theorem Path.refl (s : Cluster) : Path cfg F s s := ⟨[], Run.nil⟩

theorem Path.trans (h : Path cfg F s t) (h' : Path cfg F t u) : Path cfg F s u := by
  obtain ⟨bs, hbs⟩ := h
  obtain ⟨cs, hcs⟩ := h'
  exact ⟨bs ++ cs, hbs.trans hcs⟩

theorem Path.step (ha : Among F s a) (hs : s.step cfg a = some s') : Path cfg F s s' :=
  ⟨[] ++ [a], Run.nil.snoc ha hs⟩

theorem Path.history (h : Path cfg F s t) : s.history ⊆ t.history := by
  obtain ⟨bs, hbs⟩ := h
  exact hbs.invariant (I := fun u => s.history ⊆ u.history) (List.Subset.refl _)
    fun hu _ hs ev hev => history_mono hs (hu hev)

/-- Nobody is restarted. -/
theorem Path.lives (h : Path cfg F s t) : t.lives = s.lives := by
  obtain ⟨bs, hbs⟩ := h
  refine hbs.invariant (I := fun u => u.lives = s.lives) rfl ?_
  intro u v a hu ha hs
  rw [← hu]
  cases a with
  | startElection i =>
      obtain ⟨-, -, n, calls, -, rfl⟩ := Cluster.startElection_some hs
      rfl
  | heartbeat i =>
      obtain ⟨-, -, calls, -, rfl⟩ := Cluster.heartbeat_some hs
      rfl
  | propose i command =>
      obtain ⟨-, rfl | ⟨-, calls, -, rfl⟩⟩ := Cluster.propose_some hs <;> rfl
  | deliverVote r =>
      obtain ⟨rpc, n, reply, -, -, -, rfl⟩ := Cluster.deliverVote_some hs
      rfl
  | voteReply r =>
      obtain ⟨rpc, reply, n, calls, -, -, -, -, rfl⟩ := Cluster.voteReply_some hs
      rfl
  | deliverAppend r =>
      obtain ⟨rpc, n, reply, -, -, -, rfl⟩ := Cluster.deliverAppend_some hs
      rfl
  | appendReply r =>
      obtain ⟨rpc, reply, n, calls, -, -, -, -, rfl⟩ := Cluster.appendReply_some hs
      rfl
  | applyWake i => rw [Cluster.applyWake_some hs]; rfl
  | applyTake i => rcases Cluster.applyTake_some hs with rfl | ⟨-, e, pc, -, -, rfl⟩ <;> rfl
  | applySend i =>
      obtain ⟨msg, -, rfl⟩ := Cluster.applySend_some hs
      rfl
  | takeSnapshot i upToIndex data => exact ha.elim
  | crash i => exact ha.elim
  | crashInVote r => exact ha.elim
  | crashInAppend r => exact ha.elim

/-- Only the answer to a vote request makes a leader. -/
theorem becameLeader_of_step (hw : Wired cfg s) (hv : ∀ r, a ≠ .voteReply r)
    (hs : s.step cfg a = some s') {j : NodeId} {T : ℕ} {L : List LogEntry}
    (h : Event.becameLeader j T L ∈ s'.history) :
    Event.becameLeader j T L ∈ s.history := by
  rcases Cluster.step_event hw hs h with hold | ⟨r, rfl⟩
  · exact hold
  · exact absurd rfl (hv r)

theorem Standing.step (h : Standing cfg s) (ha : Among F s a) (hs : s.step cfg a = some s')
    (huniq : UniqueLeaders s'.history) : Standing cfg s' := by
  obtain ⟨as, has⟩ := h.reached
  exact ⟨⟨as ++ [a], has.snoc ha.noSnapshot hs⟩, huniq⟩

/-- What is known of a standing state. -/
structure Facts (cfg : Config) (s : Cluster) (A : State NodeId LogEntry) : Prop where
  wired : Wired cfg s
  orderly : Orderly s
  bounded : Bounded s
  inv : Inv (params cfg) A
  abs : Abstracts s A

theorem Standing.facts (hterms : ∀ t, cfg.incr t = t + 1) (h : Standing cfg s) :
    ∃ A, Facts cfg s A := by
  obtain ⟨as, has⟩ := h.reached
  have hplain := plain_run hterms has
  obtain ⟨A, hi, habs⟩ := refine_run hplain h.uniq
  exact ⟨A, wired_run hplain, orderly_of_unique hplain h.uniq, bounded_run hplain h.uniq, hi, habs⟩

/-- **Every enabled action can be performed**, and leads to a standing state. -/
theorem Standing.perform (hterms : ∀ t, cfg.incr t = t + 1) (h : Standing cfg s)
    (ha : Enabled cfg s a) (hF : Among F s a) (hv : ∀ r, a ≠ .voteReply r) :
    ∃ s', s.step cfg a = some s' ∧ Standing cfg s' ∧ Path cfg F s s' := by
  obtain ⟨A, hfacts⟩ := h.facts hterms
  obtain ⟨s', hs⟩ := isSome_of_enabled hfacts.wired hfacts.inv hfacts.abs hfacts.orderly ha
  refine ⟨s', hs, h.step hF hs ?_, .step hF hs⟩
  intro j k T L M hj hk
  exact h.uniq j k T L M (becameLeader_of_step hfacts.wired hv hs hj)
    (becameLeader_of_step hfacts.wired hv hs hk)

theorem Standing.commit_le (hterms : ∀ t, cfg.incr t = t + 1) (h : Standing cfg s)
    (ht : Standing cfg t) (hpath : Path cfg F s t) (j : NodeId) :
    (s.nodes j).commitIndex ≤ (t.nodes j).commitIndex := by
  obtain ⟨as, has⟩ := h.reached
  obtain ⟨bs, hbs⟩ := id hpath
  have hplain : Run (Cluster.step cfg) (Plain cfg) s bs t :=
    hbs.mono fun hC hs => ⟨plain_of_noSnapshot hterms hC.noSnapshot, hs⟩
  exact (commitGrows_run (plain_run hterms has) hplain ht.uniq j).2 (by rw [hpath.lives])

/-! ## §2  A round -/

theorem Node.mem_mapM_of_mem {α β : Type} {f : α → Option β} {x : α} {y : β} :
    ∀ {l : List α} {ys : List β}, l.mapM f = some ys → x ∈ l → f x = some y → y ∈ ys
  | [], _, _, hx, _ => by cases hx
  | z :: l, ys, h, hx, hf => by
      rw [List.mapM_cons] at h
      obtain ⟨w, hw, h⟩ := Option.bind_eq_some_iff.mp h
      obtain ⟨ws, hws, h⟩ := Option.bind_eq_some_iff.mp h
      cases h
      rcases List.mem_cons.mp hx with rfl | hx
      · rw [Option.some.inj (hf.symm.trans hw)]
        exact List.mem_cons_self
      · exact List.mem_cons_of_mem _ (mem_mapM_of_mem hws hx hf)

/-- A request is handled. -/
theorem Standing.handleAppend (hterms : ∀ t, cfg.incr t = t + 1) (h : Standing cfg s) {r : ℕ}
    {rpc : AppendRpc} (hr : s.appendRpcs[r]? = some rpc) (hph : rpc.phase = .requested)
    (hsrc : rpc.src ∈ F) (hdst : rpc.dst ∈ F) {m : Node} {reply : AppendEntriesReply}
    (hm : (s.nodes rpc.dst).handleAppendEntries Cluster.persistOk rpc.args = some (m, reply)) :
    ∃ t, Path cfg F s t ∧ Standing cfg t ∧ t.nodes = Function.update s.nodes rpc.dst m ∧
      t.appendRpcs[r]? = some { rpc with phase := .replied reply } := by
  have hF : Among F s (.deliverAppend r) := by
    intro rpc' hr'
    rw [hr] at hr'
    cases hr'
    exact ⟨hsrc, hdst⟩
  obtain ⟨t, ht, hstand, hpath⟩ := h.perform hterms (a := .deliverAppend r) ⟨rpc, hr, hph⟩ hF nofun
  obtain ⟨rpc', m', reply', hr', -, hm', rfl⟩ := Cluster.deliverAppend_some ht
  cases hr.symm.trans hr'
  cases hm.symm.trans hm'
  exact ⟨_, hpath, hstand, rfl, List.getElem?_set_self (List.getElem?_eq_some_iff.mp hr).1⟩

/-- An answer is processed. -/
theorem Standing.answerAppend (hterms : ∀ t, cfg.incr t = t + 1) (h : Standing cfg s) {r : ℕ}
    {rpc : AppendRpc} {reply : AppendEntriesReply} (hr : s.appendRpcs[r]? = some rpc)
    (hph : rpc.phase = .replied reply) (hlife : rpc.life = s.lives rpc.src)
    (hsrc : rpc.src ∈ F) (hdst : rpc.dst ∈ F) {n : Node} {calls : List AppendCall}
    (hn : (s.nodes rpc.src).handleAppendReply true rpc.dst rpc.args reply = some (n, calls)) :
    ∃ t, Path cfg F s t ∧ Standing cfg t ∧ t.nodes = Function.update s.nodes rpc.src n := by
  have hF : Among F s (.appendReply r) := by
    intro rpc' hr'
    rw [hr] at hr'
    cases hr'
    exact ⟨hsrc, hdst⟩
  obtain ⟨t, ht, hstand, hpath⟩ :=
    h.perform hterms (a := .appendReply r) ⟨rpc, reply, hr, hlife, hph⟩ hF nofun
  obtain ⟨rpc', reply', n', calls', hr', -, hph', hn', rfl⟩ := Cluster.appendReply_some ht
  cases hr.symm.trans hr'
  cases hph.symm.trans hph'
  cases hn.symm.trans hn'
  exact ⟨_, hpath, hstand, rfl⟩

/-- **A round**: a heartbeat, the request to `p` handled and its answer processed. -/
theorem Standing.round (hterms : ∀ t, cfg.incr t = t + 1) (h : Standing cfg s) (hi : i ∈ cfg.ids)
    (hiF : i ∈ F) (hpF : p ∈ F) (hp : p ∈ cfg.peers i) (hl : (s.nodes i).role = .leader)
    {n m : Node} {ok : Bool} (hx : exchange p (s.nodes i) (s.nodes p) = some (n, m, ok)) :
    ∃ t, Path cfg F s t ∧ Standing cfg t ∧
      t.nodes = Function.update (Function.update s.nodes p m) i n := by
  have hne : i ≠ p := ((cfg.mem_peers i hi p).mp hp).2.symm
  obtain ⟨A, hfacts⟩ := h.facts hterms
  obtain ⟨call, hcall, hx⟩ := Option.bind_eq_some_iff.mp hx
  obtain ⟨⟨m', reply⟩, hm, hx⟩ := Option.bind_eq_some_iff.mp hx
  obtain ⟨⟨n', calls'⟩, hn, hx⟩ := Option.bind_eq_some_iff.mp hx
  cases hx
  obtain ⟨-, -, hpeer, -⟩ := Node.sendAppendEntries_some hcall
  -- the request is among those the heartbeat sends
  obtain ⟨s₁, hs₁, hstand₁, hpath₁⟩ :=
    h.perform hterms (F := F) (a := .heartbeat i) ⟨hi, hl⟩ hiF nofun
  obtain ⟨-, -, calls, hcalls, rfl⟩ := Cluster.heartbeat_some hs₁
  have hmem : AppendRpc.mk i p (s.lives i) call.args .requested ∈
      (s.spawnAppends i calls).appendRpcs := by
    refine List.mem_append_right _ (List.mem_map.mpr ⟨call, ?_, by rw [hpeer]⟩)
    exact Node.mem_mapM_of_mem hcalls ((hfacts.wired.sound i).peers ▸ hp) hcall
  obtain ⟨r, hr⟩ := List.mem_iff_getElem?.mp hmem
  obtain ⟨s₂, hpath₂, hstand₂, hnodes₂, hr₂⟩ := hstand₁.handleAppend hterms hr rfl hiF hpF hm
  have hn₂ : (s₂.nodes i).handleAppendReply true p call.args reply = some (n, calls') := by
    rw [hnodes₂]
    exact (congrArg (fun x : Node => x.handleAppendReply true p call.args reply)
      (Function.update_of_ne hne m s.nodes)).trans hn
  obtain ⟨s₃, hpath₃, hstand₃, hnodes₃⟩ :=
    hstand₂.answerAppend hterms hr₂ rfl (by rw [hpath₂.lives]; rfl) hiF hpF hn₂
  exact ⟨s₃, (hpath₁.trans hpath₂).trans hpath₃, hstand₃, by rw [hnodes₃, hnodes₂]; rfl⟩

end Paths

end KVEngine.Raft
