import KVEngine.Foundation.LogPreservation
import KVEngine.Raft.Wired

/-!
# The cluster refines the replicated-log protocol

Every run of the cluster in which no term has two leaders is a run of the
abstract protocol of `ReplicatedLog`: each action is matched by zero or more
abstract steps (`refine_step`), so every reachable cluster state abstracts to a
reachable protocol state (`refine_run`) and inherits its invariant.

The one place where the hypothesis on leaders is used is winning an election:
the abstract step wants a term nobody has won.
-/

namespace KVEngine.Raft

open Foundation (Run splice)
open Foundation.ReplicatedLog

/-! ## §1  The abstraction relation -/

/-- Log entries under their term, with majorities of the members as quorums. -/
def params (cfg : Config) : Params NodeId LogEntry where
  term := LogEntry.term
  root := sentinel
  root_term := rfl
  Quorum := fun Q => ∃ F, Majority cfg F ∧ ∀ q ∈ F, q ∈ Q
  quorum_inter := by
    rintro Q R ⟨F, hF, hFQ⟩ ⟨G, hG, hGR⟩
    obtain ⟨q, hq, hq'⟩ := hF.inter hG
    exact ⟨q, hFQ q hq, hGR q hq'⟩

def AppendEntriesArgs.segment (args : AppendEntriesArgs) : Segment LogEntry where
  term := args.term
  prev := args.prevLogIndex
  prevTerm := args.prevLogTerm
  entries := args.entries
  commit := args.leaderCommit

/-- The event is on the protocol's ledger. -/
def Records (A : State NodeId LogEntry) : Event → Prop
  | .voted q T c => (q, T, c) ∈ A.votes
  | .becameLeader _ T L => A.elected T = some L
  | .accepted q T m => (q, T, m) ∈ A.accepted
  | .advanced _ T k L => (T, k) ∈ A.advanced ∧ L <+: A.leaderLog T ∧ k < L.length
  | .taken _ k e => (k, e) ∈ A.delivered
  | .proposed _ T L => L <+: A.leaderLog T
  | .delivered _ _ => True

theorem Records.mono {A A' : State NodeId LogEntry} (h : Retains A A') :
    ∀ {ev : Event}, Records A ev → Records A' ev
  | .voted _ _ _, hr => h.votes hr
  | .becameLeader _ T L, hr => h.elected T L hr
  | .accepted _ _ _, hr => h.accepted hr
  | .advanced _ T _ _, hr => ⟨h.advanced hr.1, hr.2.1.trans (h.log T), hr.2.2⟩
  | .taken _ _ _, hr => h.delivered hr
  | .proposed _ T _, hr => hr.trans (h.log T)
  | .delivered _ _, _ => trivial

structure Abstracts (s : Cluster) (A : State NodeId LogEntry) : Prop where
  term : ∀ i, A.term i = (s.nodes i).currentTerm
  log : ∀ i, A.log i = (s.nodes i).log
  role : ∀ i, A.role i = (s.nodes i).role
  commit : ∀ i, A.commit i = (s.nodes i).commitIndex
  ledger : ∀ ev ∈ s.history, Records A ev
  elected : ∀ T L, A.elected T = some L → ∃ i, Event.becameLeader i T L ∈ s.history
  sent : ∀ rpc ∈ s.appendRpcs, rpc.args.segment ∈ A.sent

/-- At most one node becomes leader in each term. -/
def UniqueLeaders (H : List Event) : Prop :=
  ∀ i j T L M, Event.becameLeader i T L ∈ H → Event.becameLeader j T M ∈ H → i = j

/-- Two nodes become leader in one term. -/
def Event.clash : Event → Event → Bool
  | .becameLeader i T _, .becameLeader j U _ => T == U && i != j
  | _, _ => false

theorem uniqueLeaders_iff {H : List Event} :
    UniqueLeaders H ↔ ∀ e ∈ H, ∀ e' ∈ H, e.clash e' = false := by
  constructor
  · intro h e he e' he'
    unfold Event.clash
    split
    · rename_i i T L j U M
      by_cases hTU : T = U
      · subst hTU
        simp [h i j T L M he he']
      · simp [hTU]
    · rfl
  · intro h i j T L M hi hj
    simpa [Event.clash] using h _ hi _ hj

instance (H : List Event) : Decidable (UniqueLeaders H) :=
  decidable_of_iff _ uniqueLeaders_iff.symm

theorem abstracts_initial (cfg : Config) :
    Abstracts (Cluster.initial cfg) (initial (params cfg)) where
  term := fun _ => rfl
  log := fun _ => rfl
  role := fun _ => rfl
  commit := fun _ => rfl
  ledger := by simp [Cluster.initial]
  elected := by simp [initial]
  sent := by simp [Cluster.initial]

/-! ## §2  Matching steps -/

/-- The abstract runs that lead to an abstraction of `s`. -/
def Reaches (cfg : Config) (A : State NodeId LogEntry) (s : Cluster) : Prop :=
  ∃ A', Relation.ReflTransGen (Step (params cfg)) A A' ∧ Abstracts s A'

section Matching

variable {cfg : Config} {s s' : Cluster} {A A' : State NodeId LogEntry} {i : NodeId}
  {n : Node}

theorem Reaches.trans {A₁ : State NodeId LogEntry}
    (h : Relation.ReflTransGen (Step (params cfg)) A A₁) (h' : Reaches cfg A₁ s) :
    Reaches cfg A s := by
  obtain ⟨A', hrun, habs⟩ := h'
  exact ⟨A', h.trans hrun, habs⟩

theorem couple_update {α : Type} {f : NodeId → α} {g : Node → α} {x : α}
    (h : ∀ j, f j = g (s.nodes j)) (hnodes : s'.nodes = Function.update s.nodes i n)
    (hx : g n = x) : ∀ j, Function.update f i x j = g (s'.nodes j) := by
  intro j
  rw [hnodes]
  by_cases hj : j = i
  · subst hj
    rw [Function.update_self, Function.update_self, hx]
  · rw [Function.update_of_ne hj, Function.update_of_ne hj, h]

theorem couple_keep {α : Type} {f : NodeId → α} {g : Node → α}
    (h : ∀ j, f j = g (s.nodes j)) (hnodes : s'.nodes = Function.update s.nodes i n)
    (hx : g n = g (s.nodes i)) : ∀ j, f j = g (s'.nodes j) :=
  Cluster.forall_nodes hnodes (P := fun j m => f j = g m) ((h i).trans hx.symm) fun j _ => h j

/-- Requests keep their arguments. -/
def SameArgs (s s' : Cluster) : Prop :=
  ∀ rpc' ∈ s'.appendRpcs, ∃ rpc ∈ s.appendRpcs, rpc'.args = rpc.args

theorem SameArgs.of_eq (h : s'.appendRpcs = s.appendRpcs) : SameArgs s s' :=
  fun rpc hr => ⟨rpc, h ▸ hr, rfl⟩

theorem SameArgs.set {r : ℕ} {rpc : AppendRpc} {ph : Phase AppendEntriesReply}
    (hr : s.appendRpcs[r]? = some rpc)
    (hs' : s'.appendRpcs = s.appendRpcs.set r { rpc with phase := ph }) :
    SameArgs s s' := by
  intro rpc' hrpc'
  rw [hs'] at hrpc'
  rcases List.mem_or_eq_of_mem_set hrpc' with h | rfl
  · exact ⟨rpc', h, rfl⟩
  · exact ⟨rpc, List.mem_of_getElem? hr, rfl⟩

/-- What is left to show for a matched step once the nodes correspond. -/
theorem Abstracts.next (h : Abstracts s A) (hx : Retains A A')
    (hterm : ∀ j, A'.term j = (s'.nodes j).currentTerm)
    (hlog : ∀ j, A'.log j = (s'.nodes j).log)
    (hrole : ∀ j, A'.role j = (s'.nodes j).role)
    (hcommit : ∀ j, A'.commit j = (s'.nodes j).commitIndex)
    (evs : List Event) (hhist : s'.history = evs ++ s.history)
    (hev : ∀ ev ∈ evs, Records A' ev)
    (hel : ∀ T L, A'.elected T = some L →
      A.elected T = some L ∨ ∃ i, Event.becameLeader i T L ∈ evs)
    (hargs : SameArgs s s') : Abstracts s' A' where
  term := hterm
  log := hlog
  role := hrole
  commit := hcommit
  ledger := by
    intro ev hmem
    rw [hhist] at hmem
    rcases List.mem_append.mp hmem with hnew | hold
    · exact hev ev hnew
    · exact (h.ledger ev hold).mono hx
  elected := by
    intro T L hT
    rw [hhist]
    rcases hel T L hT with hold | ⟨j, hj⟩
    · obtain ⟨j, hj⟩ := h.elected T L hold
      exact ⟨j, List.mem_append_right _ hj⟩
    · exact ⟨j, List.mem_append_left _ hj⟩
  sent := by
    intro rpc' hr
    obtain ⟨rpc, hm, heq⟩ := hargs rpc' hr
    rw [heq]
    exact hx.sent (h.sent rpc hm)

/-- A step the protocol does not see. -/
theorem Abstracts.stutter (h : Abstracts s A)
    (hnodes : s'.nodes = Function.update s.nodes i n)
    (hterm : n.currentTerm = (s.nodes i).currentTerm) (hlog : n.log = (s.nodes i).log)
    (hrole : n.role = (s.nodes i).role)
    (hcommit : n.commitIndex = (s.nodes i).commitIndex)
    (evs : List Event) (hhist : s'.history = evs ++ s.history)
    (hev : ∀ ev ∈ evs, Records A ev) (hargs : SameArgs s s') : Abstracts s' A :=
  h.next (Retains.refl A) (couple_keep h.term hnodes hterm)
    (couple_keep h.log hnodes hlog) (couple_keep h.role hnodes hrole)
    (couple_keep h.commit hnodes hcommit) evs hhist hev (fun _ _ hT => Or.inl hT) hargs

/-- The node steps down into a term not older than its own. -/
theorem Abstracts.adopt (hi : Inv (params cfg) A) (h : Abstracts s A)
    (hle : (s.nodes i).currentTerm ≤ n.currentTerm) (hrole : n.role = .follower)
    (hlog : n.log = (s.nodes i).log) (hcommit : n.commitIndex = (s.nodes i).commitIndex)
    (hnodes : s'.nodes = Function.update s.nodes i n) (hhist : s'.history = s.history)
    (hargs : SameArgs s s') : Reaches cfg A s' := by
  have hstep : Step (params cfg) A _ :=
    .adopt i n.currentTerm (by rw [h.term]; exact hle)
  refine ⟨_, .single hstep, ?_⟩
  exact h.next (step_retains hi hstep) (couple_update h.term hnodes rfl)
    (couple_keep h.log hnodes hlog) (couple_update h.role hnodes hrole)
    (couple_keep h.commit hnodes hcommit) [] hhist (by simp) (fun _ _ hT => Or.inl hT)
    hargs

theorem Abstracts.adoptTerm {t : ℕ} (hi : Inv (params cfg) A) (h : Abstracts s A)
    (hnodes : s'.nodes = Function.update s.nodes i ((s.nodes i).adoptTerm true t))
    (hhist : s'.history = s.history) (hargs : SameArgs s s') : Reaches cfg A s' := by
  by_cases ht : t > (s.nodes i).currentTerm
  · have heq : (s.nodes i).adoptTerm true t = (s.nodes i).becomeFollower true t :=
      if_pos ht
    rw [heq] at hnodes
    exact h.adopt hi (n := (s.nodes i).becomeFollower true t) (Nat.le_of_lt ht) rfl rfl
      rfl hnodes hhist hargs
  · have heq : (s.nodes i).adoptTerm true t = s.nodes i := if_neg ht
    rw [heq] at hnodes
    exact ⟨A, .refl, h.stutter hnodes rfl rfl rfl rfl [] hhist (by simp) hargs⟩

/-- A restart out of the state `n`, whose abstraction is `A`. -/
theorem Abstracts.reboot (hi : Inv (params cfg) A) (h : Abstracts s A)
    (hsound : Sound cfg i (s.nodes i))
    (hnodes : s'.nodes = Function.update s.nodes i (s.nodes i).restart)
    (hhist : s'.history = s.history) (hargs : SameArgs s s') : Reaches cfg A s' := by
  have hstep : Step (params cfg) A _ := .restart i
  have hr := hsound.restart_eq
  refine ⟨_, .single hstep, ?_⟩
  exact h.next (step_retains hi hstep) (couple_keep h.term hnodes (by rw [hr]))
    (couple_keep h.log hnodes (by rw [hr]))
    (couple_update h.role hnodes (by rw [hr]; rfl))
    (couple_update h.commit hnodes (by rw [hr]; rfl)) [] hhist (by simp)
    (fun _ _ hT => Or.inl hT) hargs

/-- A leader's requests are segments of its log. -/
theorem Abstracts.spawn (h : Abstracts s A) (calls : List AppendCall)
    (hl : (s.nodes i).role = .leader)
    (hcalls : ∀ c ∈ calls, (s.nodes i).sendAppendEntries c.peer = some c) :
    Reaches cfg A (s.spawnAppends i calls) := by
  have hsend : ∀ cs : List AppendCall, (∀ c ∈ cs, c ∈ calls) →
      ∃ S, A.sent ⊆ S ∧ (∀ c ∈ cs, c.args.segment ∈ S) ∧
        Relation.ReflTransGen (Step (params cfg)) A { A with sent := S } := by
    intro cs
    induction cs with
    | nil => exact fun _ => ⟨A.sent, fun _ hm => hm, by simp, .refl⟩
    | cons c cs ih =>
        intro hcs
        obtain ⟨S, hS, hin, hrun⟩ := ih fun c' hc' => hcs c' (List.mem_cons_of_mem _ hc')
        obtain ⟨prev, hprev, -, -, hpt, hct, -, hes, hcm⟩ :=
          Node.sendAppendEntries_some (hcalls c (hcs c List.mem_cons_self))
        have hstep : Step (params cfg) { A with sent := S } _ :=
          .send i c.args.segment ((h.role i).trans hl)
            (hct.trans (h.term i).symm)
            (by
              show (A.log i)[c.args.prevLogIndex]?.map LogEntry.term = some c.args.prevLogTerm
              rw [h.log, hprev, hpt]
              rfl)
            (by
              show c.args.entries = (A.log i).drop (c.args.prevLogIndex + 1)
              rw [h.log]
              exact hes)
            (hcm.trans (h.commit i).symm)
        refine ⟨insert c.args.segment S, fun _ hm => Set.mem_insert_of_mem _ (hS hm), ?_,
          hrun.tail hstep⟩
        intro c' hc'
        rcases List.mem_cons.mp hc' with rfl | hc'
        · exact Set.mem_insert _ _
        · exact Set.mem_insert_of_mem _ (hin c' hc')
  obtain ⟨S, hS, hin, hrun⟩ := hsend calls fun _ hc => hc
  refine ⟨_, hrun, ⟨h.term, h.log, h.role, h.commit, ?_, h.elected, ?_⟩⟩
  · intro ev hev
    have hret : Retains A { A with sent := S } := ⟨⟨fun _ => List.prefix_refl _,
      fun _ _ hT => hT, fun _ hx => hx⟩, fun _ hx => hx, hS, fun _ hx => hx, fun _ hx => hx⟩
    exact (h.ledger ev hev).mono hret
  · intro rpc hr
    rcases List.mem_append.mp hr with hr | hr
    · exact hS (h.sent rpc hr)
    · obtain ⟨c, hc, rfl⟩ := List.mem_map.mp hr
      exact hin c hc

end Matching

/-! ## §3  Each action refines -/

section Actions

variable {cfg : Config} {s s' : Cluster} {A : State NodeId LogEntry} {i : NodeId}
  {r : ℕ}

theorem refine_startElection (hi : Inv (params cfg) A) (h : Abstracts s A)
    (hincr : cfg.incr (s.nodes i).currentTerm = (s.nodes i).currentTerm + 1)
    (hs : s.startElection cfg i = some s') : Reaches cfg A s' := by
  obtain ⟨-, -, n, calls, hn, rfl⟩ := Cluster.startElection_some hs
  obtain ⟨e, -, rfl, rfl⟩ := Node.startElection_some hn
  have hterm : ({ (s.nodes i).campaign cfg.incr true with
      elections := (s.nodes i).elections ++ [1] } : Node).currentTerm = A.term i + 1 := by
    rw [h.term, ← hincr]
    rfl
  have hstep : Step (params cfg) A _ := .campaign i
  refine ⟨_, .single hstep, ?_⟩
  refine h.next (step_retains hi hstep) (couple_update h.term rfl hterm)
    (couple_keep h.log rfl rfl) (couple_update h.role rfl rfl)
    (couple_keep h.commit rfl rfl) _ rfl ?_ (fun _ _ hT => Or.inl hT)
    (SameArgs.of_eq rfl)
  intro ev hev
  rw [List.mem_singleton.mp hev, hterm]
  exact Set.mem_insert _ _

theorem refine_heartbeat (h : Abstracts s A) (hs : s.heartbeat cfg i = some s') :
    Reaches cfg A s' := by
  obtain ⟨-, hl, calls, hb, rfl⟩ := Cluster.heartbeat_some hs
  exact h.spawn calls hl fun c hc => (Node.broadcast_mem hb c hc).2

theorem refine_propose {command : Option Bytes} (hi : Inv (params cfg) A)
    (h : Abstracts s A) (hs : s.propose cfg i command = some s') :
    Reaches cfg A s' := by
  obtain ⟨-, rfl | ⟨hl, calls, hb, rfl⟩⟩ := Cluster.propose_some hs
  · exact ⟨A, .refl, h⟩
  set n := (s.nodes i).appendCommand true command with hn
  set evs := [Event.proposed i (s.nodes i).currentTerm n.log,
    Event.accepted i (s.nodes i).currentTerm (s.nodes i).log.length] with hevs
  set e : LogEntry := { term := (s.nodes i).currentTerm, command }
  have hstep : Step (params cfg) A (A.propose i e) :=
    .propose i e ((h.role i).trans hl) (h.term i).symm
  have hmid : Abstracts ((s.setNode i n).record evs) (A.propose i e) := by
    refine h.next (step_retains hi hstep) (couple_keep h.term rfl rfl)
      (couple_update h.log rfl ?_) (couple_keep h.role rfl rfl)
      (couple_keep h.commit rfl rfl) evs rfl ?_ ?_ (SameArgs.of_eq rfl)
    · rw [h.log]
      rfl
    · intro ev hev
      rw [hevs] at hev
      rcases List.mem_cons.mp hev with rfl | hev
      · show n.log <+: Function.update A.leaderLog (A.term i) (A.log i ++ [e])
          (s.nodes i).currentTerm
        rw [h.term, h.log, Function.update_self]
        exact List.prefix_refl _
      · rw [List.mem_singleton.mp hev]
        show (i, (s.nodes i).currentTerm, (s.nodes i).log.length) ∈
          insert (i, A.term i, (A.log i).length) A.accepted
        rw [h.term, h.log]
        exact Set.mem_insert _ _
    · exact fun _ _ hT => Or.inl hT
  refine Reaches.trans (.single hstep) ?_
  have hself : ((s.setNode i n).record evs).nodes i = n := by simp
  refine hmid.spawn calls ?_ ?_
  · rw [hself]
    exact hl
  · intro c hc
    rw [hself]
    exact (Node.broadcast_mem hb c hc).2

/-- A granted vote request finds the candidate's log up to date: what the
request says of it is current as long as it matters. -/
theorem upToDate_of_grantsVote {rpc : VoteRpc} {lastIdx lastT : ℕ} {m : Node}
    (hw : Wired cfg s) (hr : rpc ∈ s.voteRpcs)
    (hlast : m.lastLogIndexAndTerm = some (lastIdx, lastT))
    (hg : m.GrantsVote rpc.args lastIdx lastT)
    (hc : (s.nodes rpc.src).role = .candidate)
    (ht : rpc.args.term = (s.nodes rpc.src).currentTerm) :
    UpToDate (params cfg) (s.nodes rpc.src).log m.log := by
  obtain ⟨hidx, hterm, -⟩ := hw.ballots.current rpc hr hc ht
  obtain ⟨e, he, hee⟩ := Option.map_eq_some_iff.mp hterm
  obtain ⟨x, hx, hpair⟩ := Node.lastLogIndexAndTerm_eq_some hlast
  simp only [Prod.mk.injEq] at hpair
  obtain ⟨hli, hlt⟩ := hpair
  have hL : lastTerm (params cfg) (s.nodes rpc.src).log = rpc.args.lastLogTerm :=
    (lastTerm_of_getElem? he).trans hee
  have hM : lastTerm (params cfg) m.log = x.term := lastTerm_of_getElem? hx
  have hpos := (hw.sound rpc.src).length_pos
  have hmpos := (List.getElem?_eq_some_iff.mp hx).1
  unfold UpToDate
  rw [hL, hM, ← hlt]
  rcases hg.1 with h | ⟨h, h'⟩
  · exact Or.inl h
  · exact Or.inr ⟨h.symm, by omega⟩

theorem refine_deliverVote (hi : Inv (params cfg) A) (hw : Wired cfg s)
    (h : Abstracts s A) (hs : s.deliverVote r = some s') : Reaches cfg A s' := by
  obtain ⟨rpc, n, reply, hr, -, hn, rfl⟩ := Cluster.deliverVote_some hs
  have hmem := List.mem_of_getElem? hr
  obtain ⟨hsrc, hdst, hcand, hle, -⟩ := hw.ballots.call rpc hmem
  rcases Node.handleRequestVote_cases hn with ⟨-, rfl, rfl⟩ |
    ⟨hterm, lastIdx, lastTerm, hlast, ⟨hg, rfl, rfl⟩ | ⟨-, rfl, rfl⟩⟩
  · exact ⟨A, .refl, h.stutter rfl rfl rfl rfl rfl [] rfl (by simp) (SameArgs.of_eq rfl)⟩
  · -- first the term, then the vote
    set m := (s.nodes rpc.dst).adoptTerm true rpc.args.term with hm
    have hmid : Reaches cfg A (s.setNode rpc.dst m) :=
      h.adoptTerm hi rfl rfl (SameArgs.of_eq rfl)
    obtain ⟨A₁, hrun, h₁⟩ := hmid
    have hi₁ := inv_steps hi hrun
    have hne : rpc.src ≠ rpc.dst := fun heq =>
      ((cfg.mem_peers _ hsrc _).mp hdst).2 heq.symm
    have hsrcnode : (s.setNode rpc.dst m).nodes rpc.src = s.nodes rpc.src := by
      simp [Function.update_of_ne hne]
    have hdstnode : (s.setNode rpc.dst m).nodes rpc.dst = m := by simp
    have hmterm : m.currentTerm = rpc.args.term := Node.adoptTerm_currentTerm hterm
    have hstep : Step (params cfg) A₁
        { A₁ with votes := insert (rpc.dst, A₁.term rpc.dst, rpc.src) A₁.votes } := by
      refine .grant rpc.dst rpc.src ?_ ?_
      · rw [h₁.term, h₁.term, hsrcnode, hdstnode, hmterm]
        exact hle
      · rw [h₁.role, h₁.term, h₁.term, h₁.log, h₁.log, hsrcnode, hdstnode, hmterm]
        exact fun hc ht => upToDate_of_grantsVote hw hmem hlast hg hc ht.symm
    refine Reaches.trans (hrun.tail hstep) ⟨_, .refl, ?_⟩
    have hnodes : ∀ m' : Node, Function.update s.nodes rpc.dst m' =
        Function.update (s.setNode rpc.dst m).nodes rpc.dst m' :=
      fun m' => (Function.update_idem m m' s.nodes).symm
    refine h₁.next (step_retains hi₁ hstep) (couple_keep h₁.term (hnodes _) ?_)
      (couple_keep h₁.log (hnodes _) ?_) (couple_keep h₁.role (hnodes _) ?_)
      (couple_keep h₁.commit (hnodes _) ?_)
      [.voted rpc.dst rpc.args.term rpc.args.candidateId] rfl ?_
      (fun _ _ hT => Or.inl hT) (SameArgs.of_eq rfl)
    · rw [hdstnode]
      rfl
    · rw [hdstnode]
      rfl
    · rw [hdstnode]
      rfl
    · rw [hdstnode]
      rfl
    · intro ev hev
      rw [List.mem_singleton.mp hev, hcand]
      show (rpc.dst, rpc.args.term, rpc.src) ∈
        insert (rpc.dst, A₁.term rpc.dst, rpc.src) A₁.votes
      rw [h₁.term, hdstnode, hmterm]
      exact Set.mem_insert _ _
  · exact h.adoptTerm hi rfl rfl (SameArgs.of_eq rfl)

/-- **Winning an election**, in a history with one leader a term. -/
theorem refine_lead {rpc : VoteRpc} {n : Node} {evs : List Event}
    (hi : Inv (params cfg) A) (hw : Wired cfg s)
    (hwon : Won cfg s'.history rpc.src (s.nodes rpc.src).currentTerm)
    (h : Abstracts s A) (hc : (s.nodes rpc.src).role = .candidate)
    (hrole : n.role = .leader) (hterm : n.currentTerm = (s.nodes rpc.src).currentTerm)
    (hlog : n.log = (s.nodes rpc.src).log)
    (hcommit : n.commitIndex = (s.nodes rpc.src).commitIndex)
    (hnodes : s'.nodes = Function.update s.nodes rpc.src n)
    (hevs : evs = [.becameLeader rpc.src n.currentTerm n.log,
      .accepted rpc.src n.currentTerm (n.log.length - 1)])
    (hhist : s'.history = evs ++ s.history) (hargs : SameArgs s s')
    (huniq : UniqueLeaders s'.history) : Reaches cfg A s' := by
  have hnew : Event.becameLeader rpc.src (s.nodes rpc.src).currentTerm
      (s.nodes rpc.src).log ∈ s'.history := by
    rw [hhist, hevs, hterm, hlog]
    exact List.mem_cons_self
  obtain ⟨F, hF, hvoted⟩ := hwon
  have hvacant : A.elected (A.term rpc.src) = none := by
    cases hel : A.elected (A.term rpc.src) with
    | none => rfl
    | some L =>
        obtain ⟨j, hj⟩ := h.elected _ _ hel
        rw [h.term] at hj
        have hold : Event.becameLeader j (s.nodes rpc.src).currentTerm L ∈ s'.history := by
          rw [hhist]
          exact List.mem_append_right _ hj
        have hjc := huniq _ _ _ _ _ hold hnew
        subst hjc
        exact absurd hc ((hw.ballots.past _ _ _ hj).2 rfl)
  -- the votes were all on the ledger before this step
  have hvotes : ∀ q ∈ (F : Set NodeId), (q, A.term rpc.src, rpc.src) ∈ A.votes := by
    intro q hq
    have hv := hvoted q hq
    rw [hhist, hevs] at hv
    have hold : Event.voted q (s.nodes rpc.src).currentTerm rpc.src ∈ s.history := by
      simpa using hv
    rw [h.term]
    exact h.ledger _ hold
  have hstep : Step (params cfg) A (A.elect rpc.src) :=
    .elect rpc.src F ((h.role _).trans hc) ⟨F, hF, fun _ hq => hq⟩ hvotes hvacant
  refine ⟨_, .single hstep, ?_⟩
  refine h.next (step_retains hi hstep) (couple_keep h.term hnodes hterm)
    (couple_keep h.log hnodes hlog) (couple_update h.role hnodes hrole)
    (couple_keep h.commit hnodes hcommit) evs hhist ?_ ?_ hargs
  · intro ev hev
    rw [hevs, hterm, hlog] at hev
    rcases List.mem_cons.mp hev with rfl | hev
    · show Function.update A.elected (A.term rpc.src) (some (A.log rpc.src)) _ = _
      rw [h.term, h.log, Function.update_self]
    · rw [List.mem_singleton.mp hev]
      show (_, _, _) ∈ insert (rpc.src, A.term rpc.src, (A.log rpc.src).length - 1) A.accepted
      rw [h.term, h.log]
      exact Set.mem_insert _ _
  · intro T L hT
    by_cases hTc : T = A.term rpc.src
    · right
      refine ⟨rpc.src, ?_⟩
      have hL : some (A.log rpc.src) = some L := by
        rw [hTc] at hT
        exact (Function.update_self _ _ A.elected).symm.trans hT
      rw [hevs, hTc, ← Option.some.inj hL, h.term, h.log, hterm, hlog]
      exact List.mem_cons_self
    · left
      exact (Function.update_of_ne hTc _ A.elected).symm.trans hT

theorem refine_voteReply (hi : Inv (params cfg) A) (hw : Wired cfg s)
    (h : Abstracts s A) (hs : s.voteReply r = some s')
    (huniq : UniqueLeaders s'.history) : Reaches cfg A s' := by
  have hw' := wired_voteReply hw hs
  obtain ⟨rpc, reply, n, calls, hr, -, -, hn, rfl⟩ := Cluster.voteReply_some hs
  rcases Node.handleVoteReply_cases hn with ⟨hlt, rfl, rfl⟩ | ⟨rfl, rfl⟩ |
    ⟨hc, ht, hg, ⟨-, rfl, rfl⟩ | ⟨hneed, hnlead, hb⟩⟩
  · refine h.adopt hi (n := (s.nodes rpc.src).becomeFollower true reply.term)
      (Nat.le_of_lt hlt) rfl rfl rfl rfl ?_ (SameArgs.of_eq (by simp))
    simp
  · refine ⟨A, .refl, h.stutter rfl rfl rfl rfl rfl [] ?_ (by simp)
      (SameArgs.of_eq (by simp))⟩
    rw [if_neg (fun hboth => hboth.1 hboth.2)]
    rfl
  · refine ⟨A, .refl, h.stutter (n := (s.nodes rpc.src).countVote rpc.election) rfl rfl
      rfl rfl rfl [] ?_ (by simp) (SameArgs.of_eq (by simp))⟩
    simp [Node.countVote, hc]
  · have hrole : n.role = .leader := by rw [hnlead]; rfl
    set evs := [Event.becameLeader rpc.src n.currentTerm n.log,
      Event.accepted rpc.src n.currentTerm (n.log.length - 1)] with hevs
    have hif : (if (s.nodes rpc.src).role ≠ .leader ∧ n.role = .leader then evs else [])
        = evs := if_pos ⟨by rw [hc]; simp, hrole⟩
    rw [hif] at huniq hw' ⊢
    have hterm : n.currentTerm = (s.nodes rpc.src).currentTerm := by rw [hnlead]; rfl
    -- elected first, then the first round of heartbeats
    set t := ((s.setNode rpc.src n).setVoteRpc r
      { rpc with phase := .finished }).record evs with ht'
    have hspawn : (((s.setNode rpc.src n).setVoteRpc r
        { rpc with phase := .finished }).spawnAppends rpc.src calls).record evs =
        t.spawnAppends rpc.src calls := rfl
    rw [hspawn] at huniq hw' ⊢
    have hwon : Won cfg t.history rpc.src (s.nodes rpc.src).currentTerm := by
      rw [← hterm]
      exact hw'.ballots.won _ _ n.log List.mem_cons_self
    obtain ⟨A₁, hrun, h₁⟩ := refine_lead hi hw hwon h hc hrole hterm
      (by rw [hnlead]; rfl) (by rw [hnlead]; rfl) rfl hevs rfl (SameArgs.of_eq rfl) huniq
    have hself : t.nodes rpc.src = n := by simp [ht']
    refine Reaches.trans hrun (h₁.spawn calls ?_ ?_)
    · rw [hself]
      exact hrole
    · intro c hc'
      rw [hself]
      exact (Node.broadcast_mem hb c hc').2

theorem refine_deliverAppend (hi : Inv (params cfg) A) (h : Abstracts s A)
    (hs : s.deliverAppend r = some s') : Reaches cfg A s' := by
  obtain ⟨rpc, n, reply, hr, -, hn, rfl⟩ := Cluster.deliverAppend_some hs
  have hargs : ∀ {t : Cluster} {ph : Phase AppendEntriesReply},
      t.appendRpcs = s.appendRpcs.set r { rpc with phase := ph } → SameArgs s t :=
    fun ht => SameArgs.set hr ht
  rcases Node.handleAppendEntries_cases hn with ⟨-, rfl, rfl⟩ |
    ⟨hle, ⟨-, rfl, rfl⟩ | ⟨prev, hprev, ⟨-, rfl, rfl⟩ | ⟨hpt, rfl, hsucc, hrt⟩⟩⟩
  · exact ⟨A, .refl, h.stutter rfl rfl rfl rfl rfl [] rfl (by simp) (hargs rfl)⟩
  · exact h.adopt hi (n := (s.nodes rpc.dst).follow true rpc.args) hle rfl rfl rfl rfl
      rfl (hargs rfl)
  · exact h.adopt hi (n := (s.nodes rpc.dst).follow true rpc.args) hle rfl rfl rfl rfl
      rfl (hargs rfl)
  · -- first the term, then the splice
    set m := (s.nodes rpc.dst).follow true rpc.args with hm
    obtain ⟨A₁, hrun, h₁⟩ : Reaches cfg A (s.setNode rpc.dst m) :=
      h.adopt hi (n := m) hle rfl rfl rfl rfl rfl (SameArgs.of_eq rfl)
    have hi₁ := inv_steps hi hrun
    have hdst : (s.setNode rpc.dst m).nodes rpc.dst = m := by simp
    obtain ⟨ar, at_, -, -, al, ac⟩ := accept_follower (s.nodes rpc.dst) rpc.args
    have hstep : Step (params cfg) A₁ (A₁.accept (params cfg) rpc.dst rpc.args.segment) := by
      refine .accept rpc.dst rpc.args.segment ?_ ?_ ?_ ?_
      · exact h₁.sent rpc (List.mem_of_getElem? hr)
      · rw [h₁.role, hdst]
        rfl
      · rw [h₁.term, hdst]
        rfl
      · rw [h₁.log, hdst]
        show (s.nodes rpc.dst).log[rpc.args.prevLogIndex]?.map LogEntry.term = _
        rw [hprev]
        exact congrArg some hpt
    refine Reaches.trans (hrun.tail hstep) ⟨_, .refl, ?_⟩
    have hnodes : ∀ m' : Node, Function.update s.nodes rpc.dst m' =
        Function.update (s.setNode rpc.dst m).nodes rpc.dst m' :=
      fun m' => (Function.update_idem m m' s.nodes).symm
    refine h₁.next (step_retains hi₁ hstep) (couple_keep h₁.term (hnodes _) ?_)
      (couple_update h₁.log (hnodes _) ?_) (couple_keep h₁.role (hnodes _) ?_)
      (couple_update h₁.commit (hnodes _) ?_) _ rfl ?_ (fun _ _ hT => Or.inl hT)
      (SameArgs.set hr rfl)
    · rw [hdst]
      exact at_
    · rw [h₁.log, hdst]
      exact al
    · rw [hdst]
      exact ar
    · rw [h₁.commit, hdst]
      exact ac
    · intro ev hev
      rw [if_pos hsucc] at hev
      rw [List.mem_singleton.mp hev, hrt]
      show (rpc.dst, _, _) ∈ insert (rpc.dst, rpc.args.term,
        rpc.args.prevLogIndex + rpc.args.entries.length) A₁.accepted
      have hterm : (Node.followCommit (Node.appendAndPersist (Cluster.persistOk 1)
          (Node.follow (Cluster.persistOk 0) (s.nodes rpc.dst) rpc.args) rpc.args)
          rpc.args).currentTerm = rpc.args.term := at_
      rw [hterm]
      exact Set.mem_insert _ _

/-- The set of replicas a leader counts is a majority that has accepted. -/
theorem quorum_of_matchCount {H : List Event} {n : Node} {k : ℕ} (hids : i ∈ cfg.ids)
    (hpeers : n.peers = cfg.peers i) (hk : 0 < k) (hkn : k ≤ n.log.length - 1)
    (hcount : n.peers.length + 1 < n.matchCount k * 2) (htr : Tracks H i n) :
    ∃ F, Majority cfg F ∧ ∀ q ∈ F, ∃ m, k ≤ m ∧ Event.accepted q n.currentTerm m ∈ H := by
  set ps := n.peers.filter fun peer => n.matchIndex peer ≥ k with hps
  have hnodup : ps.Nodup := (hpeers ▸ cfg.peers_nodup i hids).filter _
  have hmem : ∀ p ∈ ps, p ∈ cfg.ids ∧ p ≠ i ∧ n.matchIndex p ≥ k := by
    intro p hp
    obtain ⟨hpp, hpk⟩ := List.mem_filter.mp hp
    rw [hpeers] at hpp
    obtain ⟨h1, h2⟩ := (cfg.mem_peers i hids p).mp hpp
    exact ⟨h1, h2, by simpa using hpk⟩
  have hi : i ∉ ps.toFinset := fun h => (hmem i (List.mem_toFinset.mp h)).2.1 rfl
  refine ⟨insert i ps.toFinset, ⟨?_, ?_⟩, ?_⟩
  · intro q hq
    rcases Finset.mem_insert.mp hq with rfl | hq
    · exact hids
    · exact (hmem q (List.mem_toFinset.mp hq)).1
  · rw [Finset.card_insert_of_notMem hi, List.toFinset_card_of_nodup hnodup,
      cfg.length_ids hids, ← hpeers]
    have hps' : n.matchCount k = 1 + ps.length := rfl
    omega
  · intro q hq
    rcases Finset.mem_insert.mp hq with rfl | hq
    · exact ⟨_, hkn, htr.self⟩
    · have hqk := (hmem q (List.mem_toFinset.mp hq)).2.2
      obtain ⟨m, hm, ha⟩ := htr.peer q (by omega)
      exact ⟨m, hqk.trans hm, ha⟩

/-- **Commit by counting replicas.** -/
theorem refine_advance {rpc : AppendRpc} {n : Node} {k : ℕ} (hi : Inv (params cfg) A)
    (h : Abstracts s A) (hids : rpc.src ∈ cfg.ids)
    (hl : (s.nodes rpc.src).role = .leader) (hpeers : n.peers = cfg.peers rpc.src)
    (hterm : n.currentTerm = (s.nodes rpc.src).currentTerm)
    (hlog : n.log = (s.nodes rpc.src).log) (htr : Tracks s.history rpc.src n)
    (hk : 0 < k) (hkterm : n.log[k]?.map LogEntry.term = some n.currentTerm)
    (hcount : n.peers.length + 1 < n.matchCount k * 2) (hrole : n.role = .leader)
    (hnodes : s'.nodes = Function.update s.nodes rpc.src
      { n with commitIndex := k, commitNotify := true })
    (hhist : s'.history = [Event.advanced rpc.src n.currentTerm k n.log] ++ s.history)
    (hargs : SameArgs s s') : Reaches cfg A s' := by
  obtain ⟨e, he, het⟩ := Option.map_eq_some_iff.mp hkterm
  have hklt := (List.getElem?_eq_some_iff.mp he).1
  obtain ⟨F, hF, hacc⟩ := quorum_of_matchCount hids hpeers hk (by omega) hcount htr
  have hlead : A.role rpc.src = .leader := (h.role _).trans hl
  have hstep : Step (params cfg) A { A with
      commit := Function.update A.commit rpc.src k
      advanced := insert (A.term rpc.src, k) A.advanced } := by
    refine .advance rpc.src k F hlead ?_ ⟨F, hF, fun _ hq => hq⟩ ?_
    · rw [h.log, h.term, ← hterm, ← hlog]
      exact hkterm
    · intro q hq
      obtain ⟨m, hm, ha⟩ := hacc q hq
      refine ⟨m, hm, ?_⟩
      rw [h.term, ← hterm]
      exact h.ledger _ ha
  refine ⟨_, .single hstep, ?_⟩
  refine h.next (step_retains hi hstep) (couple_keep h.term hnodes hterm)
    (couple_keep h.log hnodes hlog) (couple_keep h.role hnodes (hrole.trans hl.symm))
    (couple_update h.commit hnodes rfl) _ hhist ?_ (fun _ _ hT => Or.inl hT) hargs
  intro ev hev
  rw [List.mem_singleton.mp hev]
  refine ⟨?_, ?_, hklt⟩
  · show (n.currentTerm, k) ∈ insert (A.term rpc.src, k) A.advanced
    rw [h.term, ← hterm]
    exact Set.mem_insert _ _
  · show n.log <+: A.leaderLog n.currentTerm
    rw [hlog, hterm, ← h.log, ← h.term, (hi.leader _ hlead).2]

theorem refine_appendReply (hi : Inv (params cfg) A) (hw : Wired cfg s)
    (h : Abstracts s A) (hs : s.appendReply r = some s') : Reaches cfg A s' := by
  obtain ⟨rpc, reply, n, calls, hr, -, hp, hn, rfl⟩ := Cluster.appendReply_some hs
  have hmem := List.mem_of_getElem? hr
  have hsrc := hw.replicas.src rpc hmem
  have hargs : ∀ {t : Cluster},
      t.appendRpcs = s.appendRpcs.set r { rpc with phase := .finished } → SameArgs s t :=
    fun ht => SameArgs.set hr ht
  rcases Node.handleAppendReply_cases hn with ⟨hlt, rfl, rfl⟩ | ⟨rfl, rfl⟩ |
    ⟨hl, ht, -, ⟨hsucc, rfl, rfl⟩ | ⟨-, hback, call, hcall, rfl⟩⟩
  · refine h.adopt hi (n := (s.nodes rpc.src).becomeFollower true reply.term)
      (Nat.le_of_lt hlt) rfl rfl rfl rfl ?_ (hargs (by simp))
    simp [Node.becomeFollower]
  · refine ⟨A, .refl, h.stutter rfl rfl rfl rfl rfl [] ?_ (by simp) (hargs (by simp))⟩
    rw [if_neg (Nat.lt_irrefl _)]
    rfl
  · set m := (s.nodes rpc.src).recordMatch rpc.dst rpc.args with hm
    have htr : Tracks s.history rpc.src m := tracks_recordMatch ht
      (hw.replicas.success rpc hmem reply hp hsucc) (hw.replicas.leader rpc.src hl)
    rcases m.advanceCommitFrom_cases (m.log.length - 1) with heq | ⟨k, hk, -, hkt, hmaj, heq⟩
    · have heq' : m.maybeAdvanceCommitIndex = m := heq
      have hsame : ¬ (s.nodes rpc.src).commitIndex < m.commitIndex := Nat.lt_irrefl _
      rw [heq', if_neg hsame]
      exact ⟨A, .refl, h.stutter (n := m) rfl rfl rfl rfl rfl [] rfl (by simp)
        (hargs (by simp))⟩
    · have heq' : m.maybeAdvanceCommitIndex =
          { m with commitIndex := k, commitNotify := true } := heq
      have hlt : (s.nodes rpc.src).commitIndex < k := hk
      rw [heq', if_pos hlt]
      exact refine_advance (n := m) hi h hsrc hl (hw.sound rpc.src).peers rfl rfl htr
        (Nat.lt_of_le_of_lt (Nat.zero_le _) hk) hkt hmaj hl rfl rfl
        (hargs (by simp))
  · have hcommit : ¬ (s.nodes rpc.src).commitIndex < n.commitIndex := by
      rw [hback]
      exact Nat.lt_irrefl _
    rw [if_neg hcommit, Cluster.record_nil]
    have hmid : Abstracts ((s.setNode rpc.src n).setAppendRpc r
        { rpc with phase := .finished }) A := by
      rw [hback]
      exact h.stutter (n := (s.nodes rpc.src).backUp rpc.dst reply) rfl rfl rfl rfl rfl []
        rfl (by simp) (hargs rfl)
    have hself : ((s.setNode rpc.src n).setAppendRpc r
        { rpc with phase := .finished }).nodes rpc.src = n := by simp
    refine hmid.spawn [call] ?_ ?_
    · rw [hself, hback]
      exact hl
    · intro c hc
      rw [List.mem_singleton.mp hc, hself]
      obtain ⟨-, -, hpeer, -⟩ := Node.sendAppendEntries_some hcall
      rw [hpeer]
      exact hcall

theorem refine_applyWake (h : Abstracts s A) (hs : s.applyWake cfg i = some s') :
    Reaches cfg A s' := by
  rw [Cluster.applyWake_some hs]
  exact ⟨A, .refl, h.stutter
    (n := { s.nodes i with applyPc := .looping, commitNotify := false }) rfl rfl rfl rfl
    rfl [] rfl (by simp) (SameArgs.of_eq rfl)⟩

theorem refine_applyTake (hi : Inv (params cfg) A) (h : Abstracts s A)
    (hs : s.applyTake cfg i = some s') : Reaches cfg A s' := by
  rcases Cluster.applyTake_some hs with rfl | ⟨hlt, e, pc, he, -, rfl⟩
  · exact ⟨A, .refl, h.stutter (n := { s.nodes i with applyPc := .parked }) rfl rfl rfl
      rfl rfl [] rfl (by simp) (SameArgs.of_eq rfl)⟩
  · have hstep : Step (params cfg) A _ :=
      .deliver i ((s.nodes i).lastApplied + 1) e (Nat.succ_pos _)
        (by rw [h.commit]; exact hlt) (by rw [h.log]; exact he)
    refine ⟨_, .single hstep, ?_⟩
    refine h.next (step_retains hi hstep) (couple_keep h.term rfl rfl)
      (couple_keep h.log rfl rfl) (couple_keep h.role rfl rfl)
      (couple_keep h.commit rfl rfl) _ rfl ?_ (fun _ _ hT => Or.inl hT)
      (SameArgs.of_eq rfl)
    intro ev hev
    rw [List.mem_singleton.mp hev]
    exact Set.mem_insert _ _

theorem refine_applySend (h : Abstracts s A) (hs : s.applySend cfg i = some s') :
    Reaches cfg A s' := by
  obtain ⟨msg, -, rfl⟩ := Cluster.applySend_some hs
  refine ⟨A, .refl, h.stutter (n := { s.nodes i with applyPc := .looping }) rfl rfl rfl
    rfl rfl _ rfl ?_ (SameArgs.of_eq rfl)⟩
  intro ev hev
  rw [List.mem_singleton.mp hev]
  trivial

theorem refine_takeSnapshot {data : Bytes} (hw : Wired cfg s) (h : Abstracts s A)
    (hs : s.takeSnapshot cfg i 0 data = some s') : Reaches cfg A s' := by
  obtain ⟨n, b, hn, rfl⟩ := Cluster.takeSnapshot_some hs
  have heq := (hw.sound i).takeSnapshot_zero hn
  exact ⟨A, .refl, h.stutter rfl (by rw [heq]) (by rw [heq]) (by rw [heq]) (by rw [heq])
    [] rfl (by simp) (SameArgs.of_eq rfl)⟩

theorem refine_crash (hi : Inv (params cfg) A) (hw : Wired cfg s) (h : Abstracts s A)
    (hs : s.crash cfg i = some s') : Reaches cfg A s' := by
  rw [Cluster.crash_some hs]
  exact h.reboot hi (hw.sound i) rfl rfl (SameArgs.of_eq rfl)

/-- Dying after the first `persist` of a handler: the new term, then a
restart. -/
theorem refine_crashAfter {t : ℕ} (hi : Inv (params cfg) A) (hw : Wired cfg s)
    (h : Abstracts s A) (ht : (s.nodes i).currentTerm ≤ t)
    (hnodes : s'.nodes = Function.update s.nodes i
      ((s.nodes i).becomeFollower true t).restart)
    (hhist : s'.history = s.history) (hargs : SameArgs s s') : Reaches cfg A s' := by
  set m := (s.nodes i).becomeFollower true t with hm
  obtain ⟨A₁, hrun, h₁⟩ : Reaches cfg A (s.setNode i m) :=
    h.adopt hi (n := m) ht rfl rfl rfl rfl rfl (SameArgs.of_eq rfl)
  have hself : (s.setNode i m).nodes i = m := by simp
  refine Reaches.trans hrun (h₁.reboot (i := i) (inv_steps hi hrun) ?_ ?_ hhist hargs)
  · rw [hself]
    exact (hw.sound i).becomeFollower t
  · rw [hself, hnodes]
    exact (Function.update_idem m m.restart s.nodes).symm

end Actions

/-! ## §4  Runs -/

theorem UniqueLeaders.anti {H H' : List Event} (hH : H ⊆ H') (h : UniqueLeaders H') :
    UniqueLeaders H :=
  fun i j T L M hi hj => h i j T L M (hH hi) (hH hj)

/-- **One action.** The abstraction can follow every plain step whose history
has one leader a term. -/
theorem refine_step {cfg : Config} {s s' : Cluster} {A : State NodeId LogEntry}
    {a : Action} (hi : Inv (params cfg) A) (hw : Wired cfg s) (h : Abstracts s A)
    (hC : Plain cfg s a) (hs : s.step cfg a = some s')
    (huniq : UniqueLeaders s'.history) : Reaches cfg A s' := by
  cases a with
  | startElection i => exact refine_startElection hi h hC hs
  | heartbeat i => exact refine_heartbeat h hs
  | propose i command => exact refine_propose hi h hs
  | deliverVote r => exact refine_deliverVote hi hw h hs
  | voteReply r => exact refine_voteReply hi hw h hs huniq
  | deliverAppend r => exact refine_deliverAppend hi h hs
  | appendReply r => exact refine_appendReply hi hw h hs
  | applyWake i => exact refine_applyWake h hs
  | applyTake i => exact refine_applyTake hi h hs
  | applySend i => exact refine_applySend h hs
  | takeSnapshot i upToIndex data =>
      have h0 : upToIndex = 0 := hC
      subst h0
      exact refine_takeSnapshot hw h hs
  | crash i => exact refine_crash hi hw h hs
  | crashInVote r =>
      obtain ⟨rpc, -, hlt, rfl⟩ := Cluster.crashInVote_some hs
      exact refine_crashAfter hi hw h (Nat.le_of_lt hlt) rfl rfl (SameArgs.of_eq rfl)
  | crashInAppend r =>
      obtain ⟨rpc, hr, hle, rfl⟩ := Cluster.crashInAppend_some hs
      exact refine_crashAfter hi hw h hle rfl rfl (SameArgs.set hr rfl)

/-- From any state that abstracts, a plain run is a run of the protocol. -/
theorem refine_from {cfg : Config} {as : List Action} {s s' : Cluster}
    {A : State NodeId LogEntry} (hi : Inv (params cfg) A) (hw : Wired cfg s)
    (habs : Abstracts s A) (h : Run (Cluster.step cfg) (Plain cfg) s as s')
    (huniq : UniqueLeaders s'.history) : Reaches cfg A s' := by
  induction h with
  | nil => exact ⟨A, .refl, habs⟩
  | snoc hrun hC hs ih =>
      obtain ⟨A', hA', habs'⟩ := ih (huniq.anti (history_mono hs))
      have hw' := hrun.invariant hw fun hw hC hs => wired_step hw hC hs
      exact Reaches.trans hA' (refine_step (inv_steps hi hA') hw' habs' hC hs huniq)

/-- **Refinement.** Every plain run with one leader a term is a run of the
protocol. -/
theorem refine_run {cfg : Config} {as : List Action} {s : Cluster}
    (h : Run (Cluster.step cfg) (Plain cfg) (Cluster.initial cfg) as s)
    (huniq : UniqueLeaders s.history) :
    ∃ A, Inv (params cfg) A ∧ Abstracts s A := by
  obtain ⟨A, hA, habs⟩ := refine_from (inv_initial _) (wired_initial cfg)
    (abstracts_initial cfg) h huniq
  exact ⟨A, inv_steps (inv_initial _) hA, habs⟩

end KVEngine.Raft
