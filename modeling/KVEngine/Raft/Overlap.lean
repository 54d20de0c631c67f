import KVEngine.Raft.Backup

/-!
# Answers that overtake each other

A leader sends to a peer whenever the heartbeat ticks, a command comes or a rejection
has been processed, so several requests to the peer are under way at once, and their
answers arrive in any order. An acceptance is compared with what is known already, a
rejection is not: one that answers a request from before `nextIndex[p]` went back takes
it *forward* again (`stale_rejection_advances`).

A rejection of a request from below `nextIndex[p]` takes the leader back, whatever else
is under way and whatever log the peer has by then. It tells of a log that the peer has
had (`Hinted`), and with such a log the leader's is comparable. Between two acceptances
there are then fewer rejections than the log has entries (`backup_converges`).
-/

namespace KVEngine.Raft

open Foundation (Run)
open Foundation.ReplicatedLog

/-! ## §1  Rejections under way -/

/-- A rejection that is under way tells of a log of the protocol. -/
def Hinted (cfg : Config) (A : State NodeId LogEntry) (s : Cluster) : Prop :=
  ∀ rpc ∈ s.appendRpcs, ∀ reply, rpc.phase = .replied reply → reply.success = false →
    reply.term ≤ rpc.args.term → ∃ M, Good (params cfg) A M ∧ Tells M rpc.args reply

/-- What is known of a state, wherever its `nextIndex` come from. -/
structure Traced (cfg : Config) (s : Cluster) : Prop where
  wired : Wired cfg s
  protocol : UniqueLeaders s.history →
    ∃ A, Inv (params cfg) A ∧ Abstracts s A ∧ Hinted cfg A s

section Steps

variable {cfg : Config} {s s' : Cluster} {A A' : State NodeId LogEntry} {a : Action}
  {i p : NodeId}

theorem hinted_step (hi : Inv (params cfg) A) (habs : Abstracts s A) (hx : Retains A A')
    (h : Hinted cfg A s) (hs : s.step cfg a = some s') : Hinted cfg A' s' := by
  intro rpc' hr' reply hp hrej hterm
  rcases Cluster.step_appends hs rpc' hr' with ⟨rpc, hr, ph, rfl, hmoves⟩ | hfresh
  · obtain ⟨M, hM, htells⟩ : ∃ M, Good (params cfg) A M ∧ Tells M rpc.args reply := by
      rcases hmoves with hsame | hfin | ⟨-, hnew⟩
      · exact h rpc hr reply (hsame.symm.trans hp) hrej hterm
      · cases hfin.symm.trans hp
      · -- the receiver has just answered, from the log it has
        obtain ⟨n, hn⟩ := hnew reply hp
        exact ⟨_, good_log hi habs rpc.dst, Node.handleAppendEntries_tells hn hrej hterm⟩
    exact ⟨M, hM.mono hx.log, htells⟩
  · cases hfresh.requested.symm.trans hp

theorem traced_initial (cfg : Config) : Traced cfg (Cluster.initial cfg) where
  wired := wired_initial cfg
  protocol := fun _ => ⟨_, inv_initial _, abstracts_initial cfg,
    fun _ hr => absurd hr List.not_mem_nil⟩

theorem traced_step (h : Traced cfg s) (hC : Plain cfg s a) (hs : s.step cfg a = some s') :
    Traced cfg s' where
  wired := wired_step h.wired hC hs
  protocol := by
    intro huniq
    obtain ⟨A, hi, habs, hhint⟩ := h.protocol (huniq.anti (history_mono hs))
    obtain ⟨A', hsteps, habs'⟩ := refine_step hi h.wired habs hC hs huniq
    exact ⟨A', inv_steps hi hsteps, habs', hinted_step hi habs (steps_retain hi hsteps) hhint hs⟩

def Node.withNext (n : Node) (p : NodeId) (next : ℕ) : Node :=
  { n with nextIndex := Function.update n.nextIndex p next }

/-- The cluster with `next` for the `nextIndex[p]` of node `i`. -/
def Cluster.withNext (s : Cluster) (i p : NodeId) (next : ℕ) : Cluster :=
  s.setNode i ((s.nodes i).withNext p next)

/-- No invariant depends on `nextIndex`. -/
theorem Traced.withNext (h : Traced cfg s) (i p : NodeId) (next : ℕ) :
    Traced cfg (s.withNext i p next) where
  wired := by
    have hsound := h.wired.sound i
    have hsound' : Sound cfg i ((s.nodes i).withNext p next) :=
      ⟨hsound.id, hsound.peers, hsound.head, hsound.snapshotIndex, hsound.snapshotFile,
        hsound.durable⟩
    have hpassive : Passive (s.nodes i) ((s.nodes i).withNext p next) :=
      .of_same rfl rfl rfl rfl rfl fun _ hm => hm
    exact h.wired.passive hpassive hsound' rfl rfl (.of_eq rfl) (.of_eq rfl)
      (List.Subset.refl _) (fun _ _ _ hev => hev) (fun _ _ hev => Or.inl hev)
  protocol := by
    intro huniq
    obtain ⟨A, hi, habs, hhint⟩ := h.protocol huniq
    exact ⟨A, hi, habs.stutter rfl rfl rfl rfl rfl [] rfl (by simp) (.of_eq rfl), hhint⟩

/-! ## §2  What the leader does with an answer -/

/-- The request and the answer of `p` on which leader `i` acts. -/
def Cluster.answer (s : Cluster) (i p : NodeId) :
    Action → Option (AppendEntriesArgs × AppendEntriesReply)
  | .appendReply r => do
      let rpc ← s.appendRpcs[r]?
      guard (rpc.src = i ∧ rpc.dst = p ∧ rpc.life = s.lives i)
      match rpc.phase with
      | .replied reply =>
          guard ((s.nodes i).role = .leader ∧ (s.nodes i).currentTerm = rpc.args.term ∧
            reply.term ≤ (s.nodes i).currentTerm)
          return (rpc.args, reply)
      | _ => none
  | _ => none

theorem Cluster.answer_some {args : AppendEntriesArgs} {reply : AppendEntriesReply}
    (h : s.answer i p a = some (args, reply)) : ∃ r rpc, a = .appendReply r ∧
      s.appendRpcs[r]? = some rpc ∧ rpc.src = i ∧ rpc.dst = p ∧ rpc.life = s.lives i ∧
      rpc.args = args ∧ rpc.phase = .replied reply ∧ (s.nodes i).role = .leader ∧
      (s.nodes i).currentTerm = args.term ∧ reply.term ≤ (s.nodes i).currentTerm := by
  unfold answer at h
  split at h
  · rename_i r
    obtain ⟨rpc, hr, h⟩ := Option.bind_eq_some_iff.mp h
    obtain ⟨⟨hsrc, hdst, hlife⟩, h⟩ := Foundation.guard_bind_eq_some h
    split at h
    · rename_i reply hp
      obtain ⟨⟨hl, hterm, hle⟩, h⟩ := Foundation.guard_bind_eq_some h
      cases h
      exact ⟨r, rpc, rfl, hr, hsrc, hdst, hlife, rfl, hp, hl, hterm, hle⟩
    · cases h
  · cases h

theorem Cluster.answer_eq {r : ℕ} {rpc : AppendRpc} {reply : AppendEntriesReply}
    (hr : s.appendRpcs[r]? = some rpc) (hlife : rpc.life = s.lives rpc.src)
    (hp : rpc.phase = .replied reply) (hl : (s.nodes rpc.src).role = .leader)
    (hterm : (s.nodes rpc.src).currentTerm = rpc.args.term)
    (hle : reply.term ≤ (s.nodes rpc.src).currentTerm) :
    s.answer rpc.src rpc.dst (.appendReply r) = some (rpc.args, reply) := by
  simp [answer, hr, hlife, hp, hl, ← hterm, hle, guard]

theorem handleRequestVote_nextIndex {n n' : Node} {args : RequestVoteArgs}
    {reply : RequestVoteReply}
    (h : n.handleRequestVote Cluster.persistOk args = some (n', reply))
    (hl : n'.role = .leader) : n'.nextIndex = n.nextIndex := by
  have hadopt : (n.adoptTerm true args.term).role = .leader →
      (n.adoptTerm true args.term).nextIndex = n.nextIndex :=
    Node.adoptTerm_rule (P := fun m => m.role = .leader → m.nextIndex = n.nextIndex)
      (fun _ => by simp) fun _ => rfl
  rcases Node.handleRequestVote_cases h with ⟨-, rfl, -⟩ | ⟨-, _, _, -, ⟨-, rfl, -⟩ | ⟨-, rfl, -⟩⟩
  · rfl
  · exact hadopt hl
  · exact hadopt hl

/-- An answer moves the `nextIndex` of the peer it comes from, if the leader acts on it. -/
theorem handleAppendReply_nextIndex {n n' : Node} {dst : NodeId} {args : AppendEntriesArgs}
    {reply : AppendEntriesReply} {calls : List AppendCall}
    (h : n.handleAppendReply true dst args reply = some (n', calls)) (hl : n'.role = .leader)
    (p : NodeId) : n'.nextIndex p = n.nextIndex p ∨
      p = dst ∧ n.currentTerm = args.term ∧ reply.term ≤ n.currentTerm := by
  rcases Node.handleAppendReply_cases h with ⟨-, rfl, -⟩ | ⟨rfl, -⟩ | ⟨-, hterm, hle, hacts⟩
  · cases hl
  · exact Or.inl rfl
  · by_cases hp : p = dst
    · exact Or.inr ⟨hp, hterm, hle⟩
    · left
      rcases hacts with ⟨-, -, rfl⟩ | ⟨-, rfl, -⟩
      · obtain ⟨c, b, hadv⟩ := Node.maybeAdvance_eq (n.recordMatch dst _)
        rw [hadv]
        exact Function.update_of_ne hp _ _
      · exact Function.update_of_ne hp _ _

/-- Only an answer of `p` changes a leader's `nextIndex[p]`. -/
theorem nextIndex_kept (hw : Wired cfg s) (hC : NoSnapshot s a) (hs : s.step cfg a = some s')
    (hl : (s.nodes i).role = .leader) (hl' : (s'.nodes i).role = .leader)
    (hnone : s.answer i p a = none) : (s'.nodes i).nextIndex p = (s.nodes i).nextIndex p := by
  cases Cluster.step_nodes hs with
  | @restart j m hnodes _ hm =>
      by_cases hj : i = j
      · subst hj
        rw [hnodes, Function.update_self, (hm.sound (hw.sound i)).restart_eq] at hl'
        cases hl'
      · rw [hnodes, Function.update_of_ne hj]
  | @change j n hnodes _ hchange =>
      by_cases hj : i = j
      · subst hj
        rw [hnodes, Function.update_self] at hl' ⊢
        cases hchange with
        | same => rfl
        | campaign hn =>
            obtain ⟨e, -, rfl, -⟩ := Node.startElection_some hn
            cases hl'
        | command _ _ => rfl
        | requestVote _ hn => rw [handleRequestVote_nextIndex hn hl']
        | voteReply _ hn =>
            rcases Node.handleVoteReply_cases hn with ⟨-, rfl, -⟩ | ⟨rfl, -⟩ | ⟨hcand, -⟩
            · cases hl'
            · rfl
            · cases hl.symm.trans hcand
        | appendEntries _ hn =>
            rcases Node.handleAppendEntries_cases hn with ⟨-, rfl, -⟩ |
              ⟨-, ⟨-, rfl, -⟩ | ⟨_, -, ⟨-, rfl, -⟩ | ⟨-, rfl, -⟩⟩⟩
            · rfl
            · cases hl'
            · cases hl'
            · cases hl'.symm.trans (accept_follower _ _).1
        | @appendReply _ rpc _ _ _ hr hp hn =>
            obtain ⟨_, _, -, -, hr', hlife, hp', -, -⟩ := Cluster.appendReply_some hs
            cases hr.symm.trans hr'
            cases hp.symm.trans hp'
            rcases handleAppendReply_nextIndex hn hl' p with hkept | ⟨rfl, hterm, hle⟩
            · exact hkept
            · rw [Cluster.answer_eq hr hlife hp hl hterm hle] at hnone
              cases hnone
        | wake => rfl
        | park => rfl
        | take _ => rfl
        | send => rfl
        | snapshot hn => exact Bool.noConfusion hC
      · rw [hnodes, Function.update_of_ne hj]

theorem Cluster.answer_step (cfg : Config) {args : AppendEntriesArgs}
    {reply : AppendEntriesReply} {n : Node} {calls : List AppendCall}
    (hans : s.answer i p a = some (args, reply))
    (hn : (s.nodes i).handleAppendReply true p args reply = some (n, calls)) :
    ∃ s', s.step cfg a = some s' ∧ s'.nodes = Function.update s.nodes i n := by
  obtain ⟨r, rpc, rfl, hr, rfl, rfl, hlife, rfl, hp, -⟩ := answer_some hans
  refine ⟨(((s.setNode rpc.src n).setAppendRpc r
      { rpc with phase := .finished }).spawnAppends rpc.src calls).record
    (if (s.nodes rpc.src).commitIndex < n.commitIndex then
      [.advanced rpc.src n.currentTerm n.commitIndex n.log] else []), ?_, rfl⟩
  simp [step, appendReply, hr, hlife, hp, hn, guard]

/-- **A timely rejection** takes the leader back. -/
theorem rejected_step (h : Traced cfg s) (huniq : UniqueLeaders s.history)
    {args : AppendEntriesArgs} {reply : AppendEntriesReply}
    (hans : s.answer i p a = some (args, reply)) (hrej : reply.success = false)
    (hlt : args.prevLogIndex < (s.nodes i).nextIndex p)
    (hle : (s.nodes i).nextIndex p ≤ (s.nodes i).log.length) :
    ∃ s', s.step cfg a = some s' ∧ 1 ≤ (s'.nodes i).nextIndex p ∧
      (s'.nodes i).nextIndex p < (s.nodes i).nextIndex p := by
  obtain ⟨A, hi, habs, hhint⟩ := h.protocol huniq
  obtain ⟨r, rpc, -, hr, hsrc, -, -, rfl, hp, hl, hterm, hreply⟩ := Cluster.answer_some hans
  have hmem := List.mem_of_getElem? hr
  -- the request was cut from the leader's log, the answer tells of a log of the protocol
  have hprev : (A.leaderLog rpc.args.term)[rpc.args.prevLogIndex]?.map LogEntry.term =
      some rpc.args.prevLogTerm := (hi.sent _ (habs.sent rpc hmem)).prev
  rw [← hterm, leaderLog_eq hi habs hl] at hprev
  obtain ⟨M, hM, htells⟩ := hhint rpc hmem reply hp hrej (hterm ▸ hreply)
  obtain ⟨call, hn, hpos, hdec⟩ := (comparable_of_good hi (good_log hi habs i) hM).reject (p := p)
    hl hterm hprev htells hreply hrej hlt hle
  obtain ⟨s', hs, hnodes⟩ := Cluster.answer_step cfg hans hn
  refine ⟨s', hs, ?_⟩
  rw [hnodes, Function.update_self]
  exact ⟨hpos, hdec⟩

/-- **An acceptance** takes the leader to where the peer's log is known to agree. -/
theorem accepted_step (h : Traced cfg s) (huniq : UniqueLeaders s.history)
    {args : AppendEntriesArgs} {reply : AppendEntriesReply}
    (hans : s.answer i p a = some (args, reply)) (hsucc : reply.success = true)
    (hpeer : (s.nodes p).currentTerm ≤ (s.nodes i).currentTerm) :
    ∃ s', s.step cfg a = some s' ∧
      args.prevLogIndex + args.entries.length < (s'.nodes i).nextIndex p ∧
      (s'.nodes i).nextIndex p ≤ (s.nodes i).log.length ∧
      ∀ k < (s'.nodes i).nextIndex p, (s'.nodes p).log[k]? = (s.nodes i).log[k]? := by
  obtain ⟨A, hi, habs, -⟩ := h.protocol huniq
  obtain ⟨r, rpc, -, hr, -, rfl, -, rfl, hp, hl, hterm, hreply⟩ := Cluster.answer_some hans
  obtain ⟨n, hn, hlog, hnext⟩ :=
    Node.handleAppendReply_matched (p := rpc.dst) hl hterm hreply hsucc
  obtain ⟨s', hs, hnodes⟩ := Cluster.answer_step cfg hans hn
  have hsame : (s'.nodes rpc.dst).log = (s.nodes rpc.dst).log :=
    Cluster.forall_nodes hnodes (P := fun j m => m.log = (s.nodes j).log) hlog (fun _ _ => rfl) _
  -- what the peer has accepted in the term it has, and what the leader knew of before
  have hagree : ∀ m, Event.accepted rpc.dst (s.nodes i).currentTerm m ∈ s.history →
      m < (s.nodes i).log.length ∧
        ∀ k ≤ m, (s'.nodes rpc.dst).log[k]? = (s.nodes i).log[k]? := by
    intro m hacc
    rw [hsame, ← leaderLog_eq hi habs hl]
    exact log_of_accepted hi habs hacc hpeer
  obtain ⟨hlt, hnew⟩ := hagree _
    (hterm ▸ h.wired.replicas.success rpc (List.mem_of_getElem? hr) reply hp hsucc)
  have hmatch := matchIndex_lt h.wired hi habs hl rpc.dst
  refine ⟨s', hs, ?_⟩
  rw [hnodes, Function.update_self, hnext, ← hnodes]
  refine ⟨by omega, by omega, fun k hk => ?_⟩
  by_cases hk' : k ≤ rpc.args.prevLogIndex + rpc.args.entries.length
  · exact hnew k hk'
  · obtain ⟨m, hm, hacc⟩ := (h.wired.replicas.leader i hl).peer rpc.dst (by omega)
    exact (hagree m hacc).2 k (by omega)

end Steps

/-! ## §3  Any number of requests under way -/

/-- Node `i` leads term `T` with log `L`, and `p` has no newer term. -/
def Presides (i p : NodeId) (T : ℕ) (L : List LogEntry) (s : Cluster) : Prop :=
  (s.nodes i).role = .leader ∧ (s.nodes i).currentTerm = T ∧ (s.nodes i).log = L ∧
    (s.nodes p).currentTerm ≤ T

/-- A rejection of `p` that `i` acts on is of a request from below `nextIndex[p]`. -/
def Timely (i p : NodeId) (s : Cluster) (a : Action) : Prop :=
  ∀ x ∈ s.answer i p a, x.2.success = false → x.1.prevLogIndex < (s.nodes i).nextIndex p

/-- A cluster, and how many rejections of a peer its leader has acted on since the last
acceptance. -/
structure Exchanges where
  cluster : Cluster
  rejected : ℕ

def Exchanges.count (x : Exchanges) : Option (AppendEntriesArgs × AppendEntriesReply) → ℕ
  | some (_, reply) => if reply.success then 0 else x.rejected + 1
  | none => x.rejected

def Exchanges.step (cfg : Config) (i p : NodeId) (x : Exchanges) (a : Action) : Option Exchanges :=
  (x.cluster.step cfg a).map fun s => ⟨s, x.count (x.cluster.answer i p a)⟩

/-- The leader's log does not change, and it acts on no stale rejection of `p`. All else
may happen, to the log of `p` too. -/
def Undisturbed (i p : NodeId) (T : ℕ) (L : List LogEntry) (x : Exchanges) (a : Action) : Prop :=
  NoSnapshot x.cluster a ∧ Presides i p T L x.cluster ∧ Timely i p x.cluster a

instance (i p : NodeId) (T : ℕ) (L : List LogEntry) (s : Cluster) :
    Decidable (Presides i p T L s) :=
  inferInstanceAs (Decidable (_ ∧ _))

instance (i p : NodeId) (s : Cluster) (a : Action) : Decidable (Timely i p s a) :=
  inferInstanceAs (Decidable (∀ x ∈ s.answer i p a, _))

instance (i p : NodeId) (T : ℕ) (L : List LogEntry) (x : Exchanges) (a : Action) :
    Decidable (Undisturbed i p T L x a) :=
  inferInstanceAs (Decidable (_ ∧ _))

section Counting

variable {cfg : Config} {s : Cluster} {as bs : List Action} {i p : NodeId} {T : ℕ}
  {L : List LogEntry} {x y : Exchanges} {a : Action}

/-- The rejections so far and those that `nextIndex[p]` leaves room for. -/
def Exchanges.Counts (i p : NodeId) (L : List LogEntry) (x : Exchanges) : Prop :=
  1 ≤ (x.cluster.nodes i).nextIndex p ∧
    x.rejected + (x.cluster.nodes i).nextIndex p ≤ L.length

theorem Exchanges.step_some (h : x.step cfg i p a = some y) :
    x.cluster.step cfg a = some y.cluster ∧ y.rejected = x.count (x.cluster.answer i p a) := by
  obtain ⟨s, hs, rfl⟩ := Option.map_eq_some_iff.mp h
  exact ⟨hs, rfl⟩

theorem counts_step (h : Traced cfg x.cluster) (huniq : UniqueLeaders x.cluster.history)
    (hC : Undisturbed i p T L x a) (hcounts : x.Counts i p L) (hs : x.step cfg i p a = some y)
    (hl : (y.cluster.nodes i).role = .leader) : y.Counts i p L := by
  obtain ⟨hsnap, ⟨hrole, rfl, rfl, hpeer⟩, htimely⟩ := hC
  obtain ⟨hpos, hroom⟩ := hcounts
  obtain ⟨hstep, hrejected⟩ := Exchanges.step_some hs
  unfold Exchanges.Counts
  cases hans : x.cluster.answer i p a with
  | none =>
      rw [hrejected, hans, nextIndex_kept h.wired hsnap hstep hrole hl hans]
      exact ⟨hpos, hroom⟩
  | some ans =>
      obtain ⟨args, reply⟩ := ans
      have hin := htimely _ hans
      rw [hans, Exchanges.count] at hrejected
      cases hsucc : reply.success with
      | false =>
          rw [hsucc, if_neg Bool.false_ne_true] at hrejected
          obtain ⟨t, ht, hpos', hdec⟩ := rejected_step h huniq hans hsucc (hin hsucc) (by omega)
          obtain rfl := Option.some.inj (hstep.symm.trans ht)
          exact ⟨hpos', by omega⟩
      | true =>
          rw [hsucc, if_pos rfl] at hrejected
          obtain ⟨t, ht, hlt, hle, -⟩ := accepted_step h huniq hans hsucc hpeer
          obtain rfl := Option.some.inj (hstep.symm.trans ht)
          exact ⟨by omega, by omega⟩

theorem counts_run (hterms : ∀ t, cfg.incr t = t + 1) (h0 : Traced cfg x.cluster)
    (hcounts : x.Counts i p L) (h : Run (Exchanges.step cfg i p) (Undisturbed i p T L) x bs y) :
    Traced cfg y.cluster ∧
      (UniqueLeaders y.cluster.history → Presides i p T L y.cluster → y.Counts i p L) := by
  refine h.invariant (I := fun y => Traced cfg y.cluster ∧ (UniqueLeaders y.cluster.history →
    Presides i p T L y.cluster → y.Counts i p L)) ⟨h0, fun _ _ => hcounts⟩ ?_
  rintro u v a ⟨hu, hcounts⟩ hC hs
  obtain ⟨hstep, -⟩ := Exchanges.step_some hs
  refine ⟨traced_step hu (plain_of_noSnapshot hterms hC.1) hstep, fun huniq hpresides => ?_⟩
  have huniq' := huniq.anti (history_mono hstep)
  exact counts_step hu huniq' hC (hcounts huniq' hC.2.1) hs hpresides.1

/-- **Fast backup converges.** From every cluster state that a run without snapshots
reaches, with any `nextIndex[p]` in `1 .. len(log)`, in every run in which leader `i`
keeps its term and log and acts on no stale rejection of `p`, with one leader a term:
`nextIndex[p]` stays at least `1`, and between two acceptances fewer rejections come than
the log has entries;
every rejection decreases `nextIndex[p]`;
every acceptance takes it to where the log of `p` agrees, and that is the end of the log
if the request reaches it;
and at every time, if the two go on in rounds, an acceptance comes. -/
theorem backup_converges (hterms : ∀ t, cfg.incr t = t + 1)
    (h : Run (Cluster.step cfg) NoSnapshot (Cluster.initial cfg) as s) {next : ℕ}
    (hpos : 1 ≤ next) (hle : next ≤ (s.nodes i).log.length)
    (h' : Run (Exchanges.step cfg i p) (Undisturbed i p (s.nodes i).currentTerm (s.nodes i).log)
      ⟨s.withNext i p next, 0⟩ bs x)
    (huniq : UniqueLeaders x.cluster.history)
    (hpresides : Presides i p (s.nodes i).currentTerm (s.nodes i).log x.cluster) :
    x.Counts i p (s.nodes i).log ∧
    (∀ a args reply, x.cluster.answer i p a = some (args, reply) → Timely i p x.cluster a →
      ∃ t, x.cluster.step cfg a = some t ∧
        (reply.success = false → 1 ≤ (t.nodes i).nextIndex p ∧
          (t.nodes i).nextIndex p < (x.cluster.nodes i).nextIndex p) ∧
        (reply.success = true →
          (∀ k < (t.nodes i).nextIndex p, (t.nodes p).log[k]? = (s.nodes i).log[k]?) ∧
          (args.prevLogIndex + args.entries.length + 1 = (s.nodes i).log.length →
            (t.nodes i).nextIndex p = (s.nodes i).log.length))) ∧
    Converges p (s.nodes i).log (x.cluster.nodes i, x.cluster.nodes p) := by
  have htraced : Traced cfg s := (plain_run hterms h).invariant (I := Traced cfg)
    (traced_initial cfg) fun hu hC hs => traced_step hu hC hs
  have hstart : (⟨s.withNext i p next, 0⟩ : Exchanges).Counts i p (s.nodes i).log := by
    have hnext : ((s.withNext i p next).nodes i).nextIndex p = next := by
      simp [Cluster.withNext, Node.withNext]
    rw [Exchanges.Counts, hnext, Nat.zero_add]
    exact ⟨hpos, hle⟩
  obtain ⟨hx, hcounts⟩ := counts_run hterms (htraced.withNext i p next) hstart h'
  have hroom := hcounts huniq hpresides
  obtain ⟨hl, hterm, hlog, hpeer⟩ := hpresides
  rw [← hterm] at hpeer
  have hin : (x.cluster.nodes i).nextIndex p ≤ (x.cluster.nodes i).log.length := by
    rw [hlog]
    exact (Nat.le_add_left _ _).trans hroom.2
  refine ⟨hroom, fun a args reply hans htimely => ?_, ?_⟩
  · cases hsucc : reply.success with
    | false =>
        obtain ⟨t, ht, hback⟩ := rejected_step hx huniq hans hsucc (htimely _ hans hsucc) hin
        exact ⟨t, ht, fun _ => hback, by simp⟩
    | true =>
        obtain ⟨t, ht, hlt, hle', hagree⟩ := accepted_step hx huniq hans hsucc hpeer
        rw [hlog] at hle' hagree
        exact ⟨t, ht, by simp, fun _ => ⟨hagree, fun hend => by omega⟩⟩
  · obtain ⟨A, hi, habs, -⟩ := hx.protocol huniq
    rw [← hlog]
    exact Meeting.converges (comparable_logs hi habs i p)
      (meeting_of_inv hx.wired hi habs hl hpeer hroom.1 hin)

end Counting

/-- `B` leads term `1` and takes a command that nobody hears of; then `A` leads term `2`,
takes two commands that nobody hears of, crashes and leads term `3`. -/
def fallenActions : List Action :=
  [.startElection [66], .deliverVote 1, .voteReply 1, .propose [66] (some [1]),
   .startElection [65], .startElection [65], .deliverVote 5, .voteReply 5,
   .propose [65] (some [2]), .propose [65] (some [3]), .crash [65],
   .startElection [65], .deliverVote 7, .voteReply 7]

def fallenEnd : Cluster :=
  Foundation.endState (Cluster.step triple) NoSnapshot (Cluster.initial triple) fallenActions

theorem fallen_run :
    Run (Cluster.step triple) NoSnapshot (Cluster.initial triple) fallenActions fallenEnd :=
  Foundation.run_endState (by decide +kernel)

/-- `B` rejects two requests with the entry at index `2` before them, and when `A` has acted
on one of the answers, a third one with the entry at index `1` before it. -/
def overlapActions : List Action :=
  [.heartbeat [65], .deliverAppend 10, .deliverAppend 12, .appendReply 10,
   .deliverAppend 14, .appendReply 14]

/-- `A` leads term `3`, and neither its log nor that of `B` changes. -/
def Unchanged (s : Cluster) (a : Action) : Prop :=
  NoSnapshot s a ∧
    Presides [65] [66] 3 [sentinel, ⟨2, some [2]⟩, ⟨2, some [3]⟩] s ∧
    (s.nodes [66]).log = [sentinel, ⟨1, some [1]⟩]

instance (s : Cluster) (a : Action) : Decidable (Unchanged s a) :=
  inferInstanceAs (Decidable (_ ∧ _))

def overlapEnd : Cluster :=
  Foundation.endState (Cluster.step triple) Unchanged fallenEnd overlapActions

def overtakenEnd : Cluster :=
  Foundation.endState (Cluster.step triple) Unchanged overlapEnd [.appendReply 12]

/-- **A stale rejection.** `A` has gone back from `3` to `2` and to `1`; then it acts on
the answer that is left, and goes forward to `2`. -/
theorem stale_rejection_advances :
    Run (Cluster.step triple) NoSnapshot (Cluster.initial triple) fallenActions fallenEnd ∧
    Run (Cluster.step triple) Unchanged fallenEnd overlapActions overlapEnd ∧
    Run (Cluster.step triple) Unchanged overlapEnd [.appendReply 12] overtakenEnd ∧
    UniqueLeaders overtakenEnd.history ∧
    overlapEnd.answer [65] [66] (.appendReply 12) =
      some (⟨3, [65], 2, 2, [], 0⟩, ⟨3, false, 2, 0⟩) ∧
    (fallenEnd.nodes [65]).nextIndex [66] = 3 ∧ (overlapEnd.nodes [65]).nextIndex [66] = 1 ∧
    (overtakenEnd.nodes [65]).nextIndex [66] = 2 ∧
    (overtakenEnd.nodes [65]).log = (overlapEnd.nodes [65]).log ∧
    (overtakenEnd.nodes [66]).log = (overlapEnd.nodes [66]).log :=
  ⟨fallen_run, Foundation.run_endState (by decide +kernel),
    Foundation.run_endState (by decide +kernel), by decide +kernel⟩

/-- `B` accepts after two rejections, and has the log of `A`. -/
theorem backup_converges_fallen :
    let C := Undisturbed [65] [66] (fallenEnd.nodes [65]).currentTerm (fallenEnd.nodes [65]).log
    let x := Foundation.endState (Exchanges.step triple [65] [66]) C
      ⟨fallenEnd.withNext [65] [66] 3, 0⟩ (overlapActions ++ [.deliverAppend 15])
    x.rejected = 2 ∧ ∃ t, x.cluster.step triple (.appendReply 15) = some t ∧
      (t.nodes [65]).nextIndex [66] = 3 ∧
      ∀ k < 3, (t.nodes [66]).log[k]? = (fallenEnd.nodes [65]).log[k]? := by
  intro C x
  have hrun : Run (Exchanges.step triple [65] [66]) C ⟨fallenEnd.withNext [65] [66] 3, 0⟩
      (overlapActions ++ [.deliverAppend 15]) x := Foundation.run_endState (by decide +kernel)
  have hlen : (fallenEnd.nodes [65]).log.length = 3 := by decide +kernel
  obtain ⟨-, hanswers, -⟩ := backup_converges (fun _ => rfl) fallen_run (by decide) hlen.ge hrun
    (by decide +kernel) (by decide +kernel)
  have hans : x.cluster.answer [65] [66] (.appendReply 15) =
      some (⟨3, [65], 0, 0, [⟨2, some [2]⟩, ⟨2, some [3]⟩], 0⟩, ⟨3, true, 0, 0⟩) := by
    decide +kernel
  obtain ⟨t, ht, -, hacc⟩ := hanswers _ _ _ hans (by decide +kernel)
  obtain ⟨hagree, hend⟩ := hacc rfl
  rw [hlen] at hend
  have hnext := hend rfl
  rw [hnext] at hagree
  exact ⟨by decide +kernel, t, ht, hnext, hagree⟩

end KVEngine.Raft
