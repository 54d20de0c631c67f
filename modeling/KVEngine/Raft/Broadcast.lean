import KVEngine.Raft.Bounds
import KVEngine.Raft.Commits

/-!
# Atomic broadcast

What the processes of a cluster receive on `applyCh`. A process receives one sequence
of messages a life: when it dies and is started again its apply loop begins before the
first entry. Beside the cluster we keep what each process has received in its present
life, and the sequences of the lives that are over.

With one leader a term any two of these sequences, of any nodes and any lives, are
prefixes of one another, and a process whose loop sleeps has received everything its
node knows to be committed (`total_order`).
-/

namespace KVEngine.Raft

open Foundation (Run)
open Foundation.ReplicatedLog

/-! ## §1  The apply loop in a cluster -/

/-- What a step that neither sends a message nor ends a process does to the loop of
`i`. -/
inductive LoopMove (s s' : Cluster) (i : NodeId) : Prop where
  | notifies (h : Notifies (s.nodes i) (s'.nodes i))
  | wake (h : (s.nodes i).applyWake = some (s'.nodes i))
  | take (h : (s.nodes i).applyTake = some (s'.nodes i))
      (htaken : ∀ e, (s.nodes i).lastApplied < (s'.nodes i).lastApplied →
        (s.nodes i).log[(s.nodes i).lastApplied + 1]? = some e →
        Event.taken i ((s.nodes i).lastApplied + 1) e ∈ s'.history)

section Moves

variable {cfg : Config} {s s' : Cluster} {a : Action} {i : NodeId}

theorem LoopMove.update {n : Node} (hnodes : s'.nodes = Function.update s.nodes i n)
    (hn : Notifies (s.nodes i) n) (j : NodeId) : LoopMove s s' j :=
  .notifies <| Cluster.forall_nodes hnodes (P := fun j m => Notifies (s.nodes j) m) hn
    (fun _ _ => .refl _) j

/-- The node of a step of the apply loop is the only one that changes. -/
theorem LoopMove.of_self {n : Node} (hnodes : s'.nodes = Function.update s.nodes i n)
    (hi : LoopMove s s' i) (j : NodeId) : LoopMove s s' j := by
  by_cases hj : j = i
  · rwa [hj]
  · refine .notifies ?_
    rw [hnodes, Function.update_of_ne hj]
    exact .refl _

theorem Cluster.applyTake_move (hs : s.step cfg (.applyTake i) = some s') (j : NodeId) :
    LoopMove s s' j := by
  obtain ⟨-, h⟩ := Foundation.guard_bind_eq_some hs
  obtain ⟨n, hn, h⟩ := Option.bind_eq_some_iff.mp h
  cases h
  have hself : (Function.update s.nodes i n) i = n := Function.update_self i n s.nodes
  refine LoopMove.of_self rfl (.take (hn.trans (congrArg some hself.symm)) fun e hlt he => ?_) j
  have hlt' : (s.nodes i).lastApplied < n.lastApplied := hself ▸ hlt
  obtain ⟨-, ⟨e', pc, -, -, rfl, -, -⟩ | ⟨-, rfl⟩⟩ := applyTake_outgoing hn
  · refine List.mem_append_left _ ?_
    rw [if_pos hlt']
    show Event.taken i _ e ∈ (((s.nodes i).log[(s.nodes i).lastApplied + 1]?).map _).toList
    rw [he]
    exact List.mem_singleton_self _
  · exact absurd hlt' (lt_irrefl _)

/-- **One step.** -/
theorem loop_move (hC : NoSnapshot s a) (hv : a.victim s = none)
    (hsend : ∀ i, a ≠ .applySend i) (hs : s.step cfg a = some s') (j : NodeId) :
    LoopMove s s' j := by
  cases a with
  | startElection i =>
      obtain ⟨-, -, n, calls, hn, rfl⟩ := Cluster.startElection_some hs
      exact .update rfl (.startElection hn) j
  | heartbeat i =>
      obtain ⟨-, -, calls, -, rfl⟩ := Cluster.heartbeat_some hs
      exact .notifies (.refl _)
  | propose i command =>
      obtain ⟨-, rfl | ⟨-, calls, -, rfl⟩⟩ := Cluster.propose_some hs
      · exact .notifies (.refl _)
      · have hn : Notifies (s.nodes i) ((s.nodes i).appendCommand true command) :=
          .of_eq rfl rfl rfl rfl
        exact .update rfl hn j
  | deliverVote r =>
      obtain ⟨rpc, n, reply, -, -, hn, rfl⟩ := Cluster.deliverVote_some hs
      exact .update rfl (.handleRequestVote hn) j
  | voteReply r =>
      obtain ⟨rpc, reply, n, calls, -, -, -, hn, rfl⟩ := Cluster.voteReply_some hs
      exact .update rfl (.handleVoteReply hn) j
  | deliverAppend r =>
      obtain ⟨rpc, n, reply, -, -, hn, rfl⟩ := Cluster.deliverAppend_some hs
      exact .update rfl (.handleAppendEntries hn) j
  | appendReply r =>
      obtain ⟨rpc, reply, n, calls, -, -, -, hn, rfl⟩ := Cluster.appendReply_some hs
      exact .update rfl (.handleAppendReply hn) j
  | applyWake i =>
      obtain ⟨-, h⟩ := Foundation.guard_bind_eq_some hs
      obtain ⟨n, hn, h⟩ := Option.bind_eq_some_iff.mp h
      cases h
      refine LoopMove.of_self rfl (.wake ?_) j
      rw [hn, Cluster.setNode_nodes, Function.update_self]
  | applyTake i => exact Cluster.applyTake_move hs j
  | applySend i => exact absurd rfl (hsend i)
  | takeSnapshot i upToIndex data => cases hC
  | crash i => cases hv
  | crashInVote r =>
      obtain ⟨rpc, hr, -, -⟩ := Cluster.crashInVote_some hs
      simp [Action.victim, hr] at hv
  | crashInAppend r =>
      obtain ⟨rpc, hr, -, -⟩ := Cluster.crashInAppend_some hs
      simp [Action.victim, hr] at hv

/-- A send changes the loop of its node and no other node. -/
theorem applySend_move (hs : s.step cfg (.applySend i) = some s') :
    (∃ msg, (s.nodes i).applySend = some (s'.nodes i, msg)) ∧
      ∀ j, j ≠ i → s'.nodes j = s.nodes j := by
  obtain ⟨-, h⟩ := Foundation.guard_bind_eq_some hs
  obtain ⟨⟨n, msg⟩, hn, h⟩ := Option.bind_eq_some_iff.mp h
  cases h
  have hself : (Function.update s.nodes i n) i = n := Function.update_self i n s.nodes
  exact ⟨⟨msg, hn.trans (congrArg (fun m => some (m, msg)) hself.symm)⟩,
    fun j hj => Function.update_of_ne hj _ _⟩

/-- A process that dies is started again from the files of its node. -/
theorem restart_of_victim (hw : Wired cfg s) (hv : a.victim s = some i)
    (hs : s.step cfg a = some s') :
    ∃ n, Sound cfg i n ∧ s'.nodes = Function.update s.nodes i n.restart := by
  cases a with
  | crash k =>
      cases hv
      rw [Cluster.crash_some hs]
      exact ⟨_, hw.sound i, rfl⟩
  | crashInVote r =>
      obtain ⟨rpc, hr, -, rfl⟩ := Cluster.crashInVote_some hs
      obtain rfl : rpc.dst = i := by simpa [Action.victim, hr] using hv
      exact ⟨_, (hw.sound rpc.dst).becomeFollower rpc.args.term, rfl⟩
  | crashInAppend r =>
      obtain ⟨rpc, hr, -, rfl⟩ := Cluster.crashInAppend_some hs
      obtain rfl : rpc.dst = i := by simpa [Action.victim, hr] using hv
      exact ⟨_, (hw.sound rpc.dst).becomeFollower rpc.args.term, rfl⟩
  | _ => cases hv

end Moves

/-! ## §2  What the processes receive -/

/-- A cluster, what each process has received in its present life, and what the
processes had received that have died. -/
structure Broadcast where
  cluster : Cluster
  sent : NodeId → List ApplyMsg
  ended : List (List ApplyMsg)

namespace Broadcast

def initial (cfg : Config) : Broadcast :=
  { cluster := Cluster.initial cfg, sent := fun _ => [], ended := [] }

def step (cfg : Config) (b : Broadcast) (a : Action) : Option Broadcast := do
  let cluster ← b.cluster.step cfg a
  match a.victim b.cluster with
  | some i =>
      return { cluster, sent := Function.update b.sent i [], ended := b.sent i :: b.ended }
  | none =>
      match a with
      | .applySend i =>
          return { b with
            cluster
            sent := Function.update b.sent i (b.sent i ++ (b.cluster.nodes i).outgoing) }
      | _ => return { b with cluster }

/-- No snapshot is taken. -/
def Unsnapped (b : Broadcast) (a : Action) : Prop := NoSnapshot b.cluster a

instance (b : Broadcast) (a : Action) : Decidable (Unsnapped b a) :=
  inferInstanceAs (Decidable (NoSnapshot b.cluster a))

/-- What one process has received in one life. -/
def Received (b : Broadcast) (l : List ApplyMsg) : Prop := l ∈ b.ended ∨ ∃ i, l = b.sent i

/-! ### Sequences of entries that were taken -/

/-- Each of the entries was taken by some node at its index. -/
def TakenAll (H : List Event) (es : List LogEntry) : Prop :=
  ∀ k e, es[k]? = some e → ∃ i, Event.taken i (k + 1) e ∈ H

theorem TakenAll.mono {H H' : List Event} {es : List LogEntry} (hH : H ⊆ H')
    (h : TakenAll H es) : TakenAll H' es := by
  intro k e he
  obtain ⟨i, hi⟩ := h k e he
  exact ⟨i, hH hi⟩

theorem TakenAll.snoc {H : List Event} {es : List LogEntry} {i : NodeId} {e : LogEntry}
    (h : TakenAll H es) (he : Event.taken i (es.length + 1) e ∈ H) : TakenAll H (es ++ [e]) := by
  intro k x hx
  rcases Nat.lt_trichotomy k es.length with hlt | rfl | hgt
  · rw [List.getElem?_append_left hlt] at hx
    exact h k x hx
  · rw [List.getElem?_concat_length] at hx
    cases hx
    exact ⟨i, he⟩
  · have hlt := (List.getElem?_eq_some_iff.mp hx).1
    rw [List.length_append, List.length_singleton] at hlt
    omega

/-! ### The invariant -/

/-- What the process of `n` has received is what `n` has taken, up to the message on its
way; and the loop does not sleep over a commit. -/
structure Loops (H : List Event) (n : Node) (sent : List ApplyMsg) : Prop where
  taken : ∃ es, es.length = n.lastApplied ∧ sent ++ n.outgoing = messages 0 es ∧ TakenAll H es
  idle : n.applyPc = .parked → n.commitNotify = false → n.commitIndex ≤ n.lastApplied

structure Keeps (b : Broadcast) : Prop where
  loops : ∀ i, Loops b.cluster.history (b.cluster.nodes i) (b.sent i)
  ended : ∀ l ∈ b.ended, ∃ es, l <+: messages 0 es ∧ TakenAll b.cluster.history es

section Loops

variable {H H' : List Event} {n n' : Node} {sent : List ApplyMsg}

theorem Loops.mono (hH : H ⊆ H') (h : Loops H n sent) : Loops H' n sent := by
  obtain ⟨es, hlen, hsent, htaken⟩ := h.taken
  exact ⟨⟨es, hlen, hsent, htaken.mono hH⟩, h.idle⟩

theorem Loops.notifies (h : Loops H n sent) (hn : Notifies n n') : Loops H n' sent := by
  obtain ⟨hlast, hout⟩ := hn.keeps
  refine ⟨by rw [hlast, hout]; exact h.taken, fun hpc htoken => ?_⟩
  rcases hn.token with htrue | ⟨hsame, hcommit⟩
  · cases htoken.symm.trans htrue
  · rw [hlast, hcommit]
    exact h.idle (hn.applyPc.symm.trans hpc) (hsame.symm.trans htoken)

theorem Loops.wake (h : Loops H n sent) (hn : n.applyWake = some n') : Loops H n' sent := by
  obtain ⟨hlast, hout⟩ := KeepsLoop.applyWake hn
  refine ⟨by rw [hlast, hout]; exact h.taken, fun hpc => ?_⟩
  obtain ⟨-, rfl⟩ := Node.applyWake_some hn
  cases hpc

theorem Loops.take {i : NodeId} (h : Loops H n sent) (hn : n.applyTake = some n')
    (htaken : ∀ e, n.lastApplied < n'.lastApplied → n.log[n.lastApplied + 1]? = some e →
      Event.taken i (n.lastApplied + 1) e ∈ H) : Loops H n' sent := by
  obtain ⟨es, hlen, hsent, hes⟩ := h.taken
  obtain ⟨hout, ⟨e, pc, hlt, he, rfl, hpc, hout'⟩ | ⟨hge, rfl⟩⟩ := applyTake_outgoing hn
  · refine ⟨⟨es ++ [e], ?_, ?_, hes.snoc (i := i) ?_⟩, fun hparked => absurd hparked hpc⟩
    · rw [List.length_append, List.length_singleton, hlen]
    · rw [hout, List.append_nil] at hsent
      rw [hout', hsent, messages_append, Nat.zero_add, hlen]
      show _ = _ ++ (_ ++ [])
      rw [List.append_nil]
    · rw [hlen]
      exact htaken e (Nat.lt_succ_self _) he
  · rw [hout] at hsent
    exact ⟨⟨es, hlen, hsent, hes⟩, fun _ _ => hge⟩

theorem Loops.send {msg : ApplyMsg} (h : Loops H n sent) (hn : n.applySend = some (n', msg)) :
    Loops H n' (sent ++ n.outgoing) := by
  obtain ⟨es, hlen, hsent, hes⟩ := h.taken
  obtain ⟨-, rfl⟩ := Node.applySend_some hn
  exact ⟨⟨es, hlen, (List.append_nil _).trans hsent, hes⟩, nofun⟩

/-- A loop that has just begun. -/
theorem Loops.fresh (hlast : n.lastApplied = 0) (hcommit : n.commitIndex = 0)
    (hpc : n.applyPc = .parked) : Loops H n [] := by
  refine ⟨⟨[], hlast.symm, ?_, fun k e he => by cases he⟩, fun _ _ => ?_⟩
  · rw [outgoing_eq_nil (Or.inl hpc)]
    rfl
  · rw [hcommit]
    exact Nat.zero_le _

theorem Loops.move {s s' : Cluster} {i : NodeId} (hH : s.history ⊆ s'.history)
    (h : Loops s.history (s.nodes i) sent) (hm : LoopMove s s' i) :
    Loops s'.history (s'.nodes i) sent := by
  cases hm with
  | notifies hn => exact (h.mono hH).notifies hn
  | wake hn => exact (h.mono hH).wake hn
  | take hn htaken => exact (h.mono hH).take hn htaken

end Loops

variable {cfg : Config} {as : List Action} {b b' : Broadcast} {a : Action}

/-- A step of the broadcast is one of the cluster. -/
theorem step_cluster (hs : b.step cfg a = some b') :
    b.cluster.step cfg a = some b'.cluster := by
  obtain ⟨s', hs', h⟩ := Option.bind_eq_some_iff.mp hs
  rw [hs']
  split at h
  · cases h
    rfl
  · split at h <;> cases h <;> rfl

theorem run_cluster (h : Run (step cfg) Unsnapped (initial cfg) as b) :
    Run (Cluster.step cfg) NoSnapshot (Cluster.initial cfg) as b.cluster := by
  induction h with
  | nil => exact Run.nil
  | snoc _ hC hs ih => exact ih.snoc hC (step_cluster hs)

theorem step_isSome {s' : Cluster} (hs : b.cluster.step cfg a = some s') :
    ∃ b', b.step cfg a = some b' := by
  unfold step
  rw [hs]
  dsimp only [Option.bind_eq_bind, Option.bind_some]
  split
  · exact ⟨_, rfl⟩
  · split <;> exact ⟨_, rfl⟩

/-- Every run of the cluster is one of the broadcast. -/
theorem exists_run {s : Cluster}
    (h : Run (Cluster.step cfg) NoSnapshot (Cluster.initial cfg) as s) :
    ∃ b, Run (step cfg) Unsnapped (initial cfg) as b ∧ b.cluster = s := by
  induction h with
  | nil => exact ⟨initial cfg, Run.nil, rfl⟩
  | snoc _ hC hs ih =>
      obtain ⟨b, hb, rfl⟩ := ih
      obtain ⟨b', hb'⟩ := step_isSome hs
      exact ⟨b', hb.snoc hC hb', Option.some.inj ((step_cluster hb').symm.trans hs)⟩

/-- **One step.** -/
theorem keeps_step (hw : Wired cfg b.cluster) (h : Keeps b) (hC : Unsnapped b a)
    (hs : b.step cfg a = some b') : Keeps b' := by
  have hH := history_mono (step_cluster hs)
  have hended : ∀ l ∈ b.ended, ∃ es, l <+: messages 0 es ∧ TakenAll b'.cluster.history es := by
    intro l hl
    obtain ⟨es, hpre, hes⟩ := h.ended l hl
    exact ⟨es, hpre, hes.mono hH⟩
  obtain ⟨s', hs', hb⟩ := Option.bind_eq_some_iff.mp hs
  split at hb
  · rename_i i hv
    cases hb
    obtain ⟨n, hn, hnodes⟩ := restart_of_victim hw hv hs'
    refine ⟨fun j => ?_, ?_⟩
    · by_cases hj : j = i
      · subst hj
        dsimp only
        rw [Function.update_self, hnodes, Function.update_self, hn.restart_eq]
        exact .fresh rfl rfl rfl
      · dsimp only
        rw [Function.update_of_ne hj, hnodes, Function.update_of_ne hj]
        exact (h.loops j).mono hH
    · rintro l (_ | ⟨_, hl⟩)
      · obtain ⟨es, -, hsent, hes⟩ := (h.loops i).taken
        exact ⟨es, ⟨_, hsent⟩, hes.mono hH⟩
      · exact hended l hl
  · rename_i hv
    split at hb
    · rename_i i
      cases hb
      obtain ⟨⟨msg, hn⟩, hother⟩ := applySend_move hs'
      refine ⟨fun j => ?_, hended⟩
      by_cases hj : j = i
      · subst hj
        dsimp only
        rw [Function.update_self]
        exact ((h.loops j).mono hH).send hn
      · dsimp only
        rw [Function.update_of_ne hj, hother j hj]
        exact (h.loops j).mono hH
    · rename_i hsend
      cases hb
      exact ⟨fun j => (h.loops j).move hH (loop_move hC hv hsend hs' j), hended⟩

theorem keeps_run (hterms : ∀ t, cfg.incr t = t + 1)
    (h : Run (step cfg) Unsnapped (initial cfg) as b) : Keeps b := by
  induction h with
  | nil => exact ⟨fun i => .fresh rfl rfl rfl, fun l hl => absurd hl List.not_mem_nil⟩
  | snoc hrun hC hs ih =>
      exact keeps_step (wired_run (plain_run hterms (run_cluster hrun))) ih hC hs

/-! ## §3  One sequence -/

theorem Keeps.received (h : Keeps b) {l : List ApplyMsg} (hl : b.Received l) :
    ∃ es, l <+: messages 0 es ∧ TakenAll b.cluster.history es := by
  rcases hl with hl | ⟨i, rfl⟩
  · exact h.ended l hl
  · obtain ⟨es, -, hsent, hes⟩ := (h.loops i).taken
    exact ⟨es, ⟨_, hsent⟩, hes⟩

section Abstraction

variable {s : Cluster} {A : State NodeId LogEntry}

/-- Entries that were taken are beginnings of one sequence. -/
theorem TakenAll.comparable (hi : Inv (params cfg) A) (habs : Abstracts s A)
    {es fs : List LogEntry} (hes : TakenAll s.history es) (hfs : TakenAll s.history fs) :
    es <+: fs ∨ fs <+: es := by
  refine Foundation.prefix_or_prefix_of_agree fun k x y hx hy => ?_
  obtain ⟨i, htx⟩ := hes k x hx
  obtain ⟨j, hty⟩ := hfs k y hy
  exact hi.delivered_agree (habs.ledger _ htx) (habs.ledger _ hty)

/-- Entries that were taken are those a node has below its commit index. -/
theorem TakenAll.eq_log (hi : Inv (params cfg) A) (habs : Abstracts s A) {i : NodeId}
    {es : List LogEntry} (hes : TakenAll s.history es)
    (hlen : es.length ≤ (s.nodes i).commitIndex) :
    es = ((s.nodes i).log.drop 1).take es.length := by
  rcases Nat.eq_zero_or_pos es.length with h0 | hpos
  · rw [h0, List.take_zero]
    exact List.length_eq_zero_iff.mp h0
  obtain ⟨hlt, hsafe⟩ := (hi.commit i).resolve_left (by rw [habs.commit]; omega)
  rw [habs.commit, habs.log] at hlt hsafe
  refine List.ext_getElem (by rw [List.length_take, List.length_drop]; omega) fun k hk hk' => ?_
  obtain ⟨j, htaken⟩ := hes k es[k] (List.getElem?_eq_getElem hk)
  obtain ⟨P, U, hP, hPk⟩ := hi.delivered _ _ (habs.ledger _ htaken)
  refine hP.agree hi hsafe hPk ?_
  rw [List.getElem?_take_of_lt (by omega), List.getElem_take, List.getElem_drop,
    ← List.getElem?_eq_getElem, Nat.add_comm 1 k]

end Abstraction

/-- **Total order.** What any two processes receive, in any of their lives, are
beginnings of one sequence, with increasing indices. A process has received what its
node has applied, except for the message on its way, and when the apply loop sleeps
without a token that is everything its node knows to be committed. -/
theorem total_order (hterms : ∀ t, cfg.incr t = t + 1)
    (h : Run (step cfg) Unsnapped (initial cfg) as b)
    (huniq : UniqueLeaders b.cluster.history) :
    (∀ l m, b.Received l → b.Received m → l <+: m ∨ m <+: l) ∧
    (∀ l, b.Received l → l.Pairwise fun x y => x.commandIndex < y.commandIndex) ∧
    (∀ i, b.sent i ++ (b.cluster.nodes i).outgoing = (b.cluster.nodes i).due) ∧
    ∀ i, (b.cluster.nodes i).applyPc = .parked → (b.cluster.nodes i).commitNotify = false →
      b.sent i =
        messages 0 (((b.cluster.nodes i).log.drop 1).take (b.cluster.nodes i).commitIndex) := by
  have hkeeps := keeps_run hterms h
  have hplain := plain_run hterms (run_cluster h)
  have hbounded := bounded_run hplain huniq
  obtain ⟨A, hi, habs⟩ := refine_run hplain huniq
  have hdue : ∀ i, b.sent i ++ (b.cluster.nodes i).outgoing = (b.cluster.nodes i).due := by
    intro i
    obtain ⟨es, hlen, hsent, hes⟩ := (hkeeps.loops i).taken
    rw [hsent, Node.due, ← hlen, ← hes.eq_log hi habs (hlen ▸ hbounded.applied i)]
  refine ⟨fun l m hl hm => ?_, fun l hl => ?_, hdue, fun i hpc htoken => ?_⟩
  · obtain ⟨es, hles, hes⟩ := hkeeps.received hl
    obtain ⟨fs, hmfs, hfs⟩ := hkeeps.received hm
    have hgrow : ∀ {es fs : List LogEntry}, es <+: fs → messages 0 es <+: messages 0 fs := by
      rintro es _ ⟨t, rfl⟩
      rw [messages_append]
      exact List.prefix_append _ _
    rcases hes.comparable hi habs hfs with hp | hp
    · exact List.prefix_or_prefix_of_prefix (hles.trans (hgrow hp)) hmfs
    · exact List.prefix_or_prefix_of_prefix hles (hmfs.trans (hgrow hp))
  · obtain ⟨es, hles, -⟩ := hkeeps.received hl
    exact (messages_pairwise 0 es).sublist hles.sublist
  · have hall := (hkeeps.loops i).idle hpc htoken
    have hsent := hdue i
    rw [outgoing_eq_nil (Or.inl hpc), List.append_nil, Node.due] at hsent
    rw [hsent, le_antisymm (hbounded.applied i) hall]

/-- `A` and `B` have delivered a command; the process of `B` dies, and `B` wins a term of
its own. -/
theorem total_order_pair :
    let b := Foundation.endState (step pair) Unsnapped (initial pair)
      (pairActions.take 14 ++ [.crash [66]] ++ pairActions.drop 14)
    b.ended = [[⟨1, [7]⟩]] ∧ b.sent [66] = [] ∧
      ([⟨1, [7]⟩] <+: b.sent [65] ∨ b.sent [65] <+: [⟨1, [7]⟩]) := by
  intro b
  have hended : b.ended = [[⟨1, [7]⟩]] := by decide +kernel
  obtain ⟨horder, -⟩ := total_order (b := b) (fun _ => rfl : ∀ t, pair.incr t = t + 1)
    (Foundation.run_endState (by decide +kernel)) (by decide +kernel)
  refine ⟨hended, by decide +kernel, horder _ _ (Or.inl ?_) (Or.inr ⟨[65], rfl⟩)⟩
  rw [hended]
  exact List.mem_singleton_self _

end Broadcast

end KVEngine.Raft
