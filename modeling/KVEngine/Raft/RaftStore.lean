import KVEngine.Raft.Leaders
import KVEngine.Store.Store

/-!
# Writes through Raft

`raftStore` of `cmd/kvengine/main.go`: `Put` and `Delete` ask the node for its
role, propose a command and wait for its index. A call takes one step for each
time it holds the node's lock, in any order with the steps of the cluster.

`waitApplied` returns `nil` as soon as the node's own log has an entry of the
proposed term at the index. That is so right after `Propose`, before anybody
else has the entry, so a write can be acknowledged and then lost
(`acknowledged_then_lost`).

What is true: a call that returns `nil` while its node still leads the term of
the proposal and a majority has acknowledged the index is committed, and no
later leader lacks its entry (`acknowledged_committed`).
-/

namespace KVEngine.RaftStore

open Foundation (Run guard_bind_eq_some)
open Raft (NodeId Config Cluster Action Event LogEntry Node VotesOnce)
open Store (Call)

/-! ## §1  Calls -/

inductive Error : Type where
  /-- `not leader (try node %s)` -/
  | notLeaderTry (leaderId : NodeId)
  /-- `not leader` -/
  | notLeader
  /-- `log at index %d has term %d, not %d — leader changed` -/
  | leaderChanged (logIndex found term : ℕ)
  /-- `timed out waiting for index %d to be applied` -/
  | timedOut (logIndex : ℕ)
deriving DecidableEq

/-- Where a call stands: before the test of the role, before `Propose`, in the
loop of `waitApplied`, or back with an error or `nil`. -/
inductive Pc : Type where
  | started
  | checked
  | waiting (logIndex term : ℕ)
  | returned (err : Option Error)
deriving DecidableEq

/-- A call of `Put` or `Delete` on the process `life` of a node. -/
structure Request where
  node : NodeId
  life : ℕ
  call : Call
  pc : Pc
deriving DecidableEq

structure System where
  cluster : Cluster
  requests : List Request

inductive Op : Type where
  | raft (a : Action)
  | invoke (i : NodeId) (call : Call)
  | check (c : ℕ)
  | submit (c : ℕ)
  | poll (c : ℕ)
  | expire (c : ℕ)

/-- The test of the role that `Put` and `Delete` begin with. -/
def checkRole (n : Node) : Pc :=
  if n.role ≠ .leader then .returned (some (.notLeaderTry n.leaderId)) else .checked

/-- What follows `Propose`. -/
def afterPropose (idx term : ℕ) (ok : Bool) : Pc :=
  if ok then .waiting idx term else .returned (some .notLeader)

/-- One pass of the loop of `waitApplied` over the log it copied. -/
def waitApplied (snap : List LogEntry) (logIndex term : ℕ) : Pc :=
  match snap[logIndex]? with
  | some entry =>
      if entry.term = term then .returned none
      else .returned (some (.leaderChanged logIndex entry.term term))
  | none => .waiting logIndex term

namespace System

def initial (cfg : Config) : System :=
  { cluster := Cluster.initial cfg, requests := [] }

def setPc (s : System) (c : ℕ) (r : Request) (pc : Pc) : System :=
  { s with requests := s.requests.set c { r with pc } }

/-- The request `c`, if its process is still alive. -/
def running (s : System) (c : ℕ) : Option Request := do
  let r ← s.requests[c]?
  guard (r.life = s.cluster.lives r.node)
  return r

/-- `marshal` is `json.Marshal` of the operation. -/
def step (marshal : Call → Bytes) (cfg : Config) (s : System) : Op → Option System
  | .raft a => do
      let cluster ← s.cluster.step cfg a
      return { s with cluster }
  | .invoke i call => do
      guard (i ∈ cfg.ids)
      return { s with
        requests := s.requests ++
          [{ node := i, life := s.cluster.lives i, call, pc := .started }] }
  | .check c => do
      let r ← s.running c
      guard (r.pc = .started)
      return s.setPc c r (checkRole (s.cluster.nodes r.node))
  | .submit c => do
      let r ← s.running c
      guard (r.pc = .checked)
      let (_, _, idx, term, ok) ←
        (s.cluster.nodes r.node).propose true (some (marshal r.call))
      let cluster ← s.cluster.propose cfg r.node (some (marshal r.call))
      return { s with cluster }.setPc c r (afterPropose idx term ok)
  | .poll c => do
      let r ← s.running c
      match r.pc with
      | .waiting idx term =>
          return s.setPc c r (waitApplied (s.cluster.nodes r.node).log idx term)
      | _ => none
  | .expire c => do
      let r ← s.running c
      match r.pc with
      | .waiting idx _ => return s.setPc c r (.returned (some (.timedOut idx)))
      | _ => none

end System

/-! ## §2  An acknowledged write is lost -/

/-- The steps of the cluster do not wrap a term, discard nothing by snapshots
and ask nobody for a second vote. -/
def OneVote (cfg : Config) (s : System) : Op → Prop
  | .raft a => VotesOnce cfg s.cluster a
  | _ => True

instance (cfg : Config) (s : System) (op : Op) : Decidable (OneVote cfg s op) :=
  match op with
  | .raft a => inferInstanceAs (Decidable (VotesOnce cfg s.cluster a))
  | .invoke _ _ | .check _ | .submit _ | .poll _ | .expire _ => isTrue trivial

/-- `json.Marshal` of an operation whose key and value need no escapes. -/
def plainJson : Call → Bytes
  | .put key value =>
      -- {"k":"…","op":"put","v":"…"}
      [123, 34, 107, 34, 58, 34] ++ key ++
        [34, 44, 34, 111, 112, 34, 58, 34, 112, 117, 116, 34, 44, 34, 118, 34, 58, 34] ++
        value ++ [34, 125]
  | .delete key =>
      -- {"k":"…","op":"del"}
      [123, 34, 107, 34, 58, 34] ++ key ++
        [34, 44, 34, 111, 112, 34, 58, 34, 100, 101, 108, 34, 125]

/-- `A` of three members is elected and `put a 1` is called on it. -/
def ackedOps : List Op :=
  [.raft (.startElection [65]), .raft (.deliverVote 0), .raft (.voteReply 0),
   .invoke [65] (.put [97] [49]), .check 0, .submit 0, .poll 0]

/-- Nothing `A` sent arrives; `B` is elected by `C` in term `2`. -/
def lostOps : List Op :=
  [.raft (.startElection [66]), .raft (.deliverVote 3), .raft (.voteReply 3)]

def ackedEnd : System :=
  Foundation.endState (System.step plainJson Raft.trio) (OneVote Raft.trio)
    (System.initial Raft.trio) ackedOps

def lostEnd : System :=
  Foundation.endState (System.step plainJson Raft.trio) (OneVote Raft.trio) ackedEnd lostOps

/-- The call returns `nil` with nothing committed, and the next leader does not
have the entry. -/
theorem acknowledged_then_lost :
    Run (System.step plainJson Raft.trio) (OneVote Raft.trio) (System.initial Raft.trio)
        ackedOps ackedEnd ∧
      ackedEnd.requests = [⟨[65], 0, .put [97] [49], .returned none⟩] ∧
      (ackedEnd.cluster.nodes [65]).log[1]? = some ⟨1, some (plainJson (.put [97] [49]))⟩ ∧
      (ackedEnd.cluster.nodes [65]).commitIndex = 0 ∧
      Run (System.step plainJson Raft.trio) (OneVote Raft.trio) ackedEnd lostOps lostEnd ∧
      (lostEnd.cluster.nodes [66]).role = .leader ∧
      (lostEnd.cluster.nodes [66]).currentTerm = 2 ∧
      (lostEnd.cluster.nodes [66]).log[1]? = none :=
  ⟨Foundation.run_endState (by decide +kernel), by decide +kernel, by decide +kernel,
    by decide +kernel, Foundation.run_endState (by decide +kernel), by decide +kernel,
    by decide +kernel, by decide +kernel⟩

/-! ## §3  Waiting calls -/

/-- The node leads `term` and a majority, itself included, has acknowledged
`logIndex`. -/
def Replicated (n : Node) (logIndex term : ℕ) : Prop :=
  n.role = .leader ∧ n.currentTerm = term ∧ n.peers.length + 1 < n.matchCount logIndex * 2

instance (n : Node) (logIndex term : ℕ) : Decidable (Replicated n logIndex term) :=
  inferInstanceAs (Decidable (_ ∧ _))

/-- A look at the log that would return `nil` comes when the index is
replicated. -/
def PollsReplicated (n : Node) : Pc → Prop
  | .waiting idx term => waitApplied n.log idx term = .returned none → Replicated n idx term
  | _ => True

instance (n : Node) (pc : Pc) : Decidable (PollsReplicated n pc) :=
  match pc with
  | .waiting _ _ => inferInstanceAs (Decidable (_ → _))
  | .started | .checked | .returned _ => isTrue trivial

/-- One vote a term, and no call looks at the log too early. -/
def Acks (cfg : Config) (s : System) (op : Op) : Prop :=
  OneVote cfg s op ∧
    match op with
    | .poll c => ∀ r ∈ s.requests[c]?, PollsReplicated (s.cluster.nodes r.node) r.pc
    | _ => True

instance (cfg : Config) (s : System) (op : Op) : Decidable (Acks cfg s op) :=
  match op with
  | .poll c => inferInstanceAs (Decidable (_ ∧ ∀ r ∈ s.requests[c]?, PollsReplicated _ _))
  | .raft _ | .invoke _ _ | .check _ | .submit _ | .expire _ =>
      inferInstanceAs (Decidable (_ ∧ True))

section Steps

variable {marshal : Call → Bytes} {cfg : Config} {s s' : System} {ops : List Op}

theorem running_some {c : ℕ} {r : Request} (h : s.running c = some r) :
    s.requests[c]? = some r := by
  obtain ⟨r', hr, h⟩ := Option.bind_eq_some_iff.mp h
  obtain ⟨-, h⟩ := guard_bind_eq_some h
  rw [hr]
  exact h

theorem step_raft {a : Action} (h : s.step marshal cfg (.raft a) = some s') :
    ∃ cluster, s.cluster.step cfg a = some cluster ∧ s' = { s with cluster } := by
  obtain ⟨cluster, hc, h⟩ := Option.bind_eq_some_iff.mp h
  exact ⟨cluster, hc, (Option.some.inj h).symm⟩

theorem step_invoke {i : NodeId} {call : Call}
    (h : s.step marshal cfg (.invoke i call) = some s') :
    s' = { s with requests := s.requests ++ [⟨i, s.cluster.lives i, call, .started⟩] } := by
  obtain ⟨-, h⟩ := guard_bind_eq_some h
  exact (Option.some.inj h).symm

theorem step_check {c : ℕ} (h : s.step marshal cfg (.check c) = some s') :
    ∃ r, s.requests[c]? = some r ∧
      s' = s.setPc c r (checkRole (s.cluster.nodes r.node)) := by
  obtain ⟨r, hr, h⟩ := Option.bind_eq_some_iff.mp h
  obtain ⟨-, h⟩ := guard_bind_eq_some h
  exact ⟨r, running_some hr, (Option.some.inj h).symm⟩

/-- `Propose` on a node that is no leader changes nothing; on a leader it
appends the command at the index that the call then waits for. -/
theorem step_submit {c : ℕ} (h : s.step marshal cfg (.submit c) = some s') :
    ∃ r cluster, s.requests[c]? = some r ∧
      s.cluster.propose cfg r.node (some (marshal r.call)) = some cluster ∧
      (s' = { s with cluster }.setPc c r (.returned (some .notLeader)) ∨
        Event.proposed r.node (s.cluster.nodes r.node).currentTerm
            ((s.cluster.nodes r.node).log ++
              [⟨(s.cluster.nodes r.node).currentTerm, some (marshal r.call)⟩]) ∈
          cluster.history ∧
        s' = { s with cluster }.setPc c r
          (.waiting (s.cluster.nodes r.node).log.length
            (s.cluster.nodes r.node).currentTerm)) := by
  obtain ⟨r, hr, h⟩ := Option.bind_eq_some_iff.mp h
  obtain ⟨-, h⟩ := guard_bind_eq_some h
  obtain ⟨⟨n, calls, idx, term, ok⟩, hn, h⟩ := Option.bind_eq_some_iff.mp h
  obtain ⟨cluster, hc, h⟩ := Option.bind_eq_some_iff.mp h
  refine ⟨r, cluster, running_some hr, hc, ?_⟩
  have hs' := (Option.some.inj h).symm
  -- the proposal of the cluster is the one whose result the call sees
  obtain ⟨-, hc⟩ := guard_bind_eq_some hc
  rw [hn] at hc
  have hcluster := Option.some.inj hc
  rcases Node.propose_cases hn with ⟨-, -, -, rfl⟩ | ⟨-, rfl, -, rfl, rfl, rfl⟩
  · exact Or.inl hs'
  · right
    refine ⟨?_, ?_⟩
    · rw [← hcluster]
      exact List.mem_cons_self
    · rw [hs']
      simp [afterPropose, Node.appendCommand, Node.persist]

theorem step_poll {c : ℕ} (h : s.step marshal cfg (.poll c) = some s') :
    ∃ r idx term, s.requests[c]? = some r ∧ r.pc = .waiting idx term ∧
      s' = s.setPc c r (waitApplied (s.cluster.nodes r.node).log idx term) := by
  obtain ⟨r, hr, h⟩ := Option.bind_eq_some_iff.mp h
  split at h
  · rename_i idx term hpc
    exact ⟨r, idx, term, running_some hr, hpc, (Option.some.inj h).symm⟩
  · cases h

theorem step_expire {c : ℕ} (h : s.step marshal cfg (.expire c) = some s') :
    ∃ r idx, s.requests[c]? = some r ∧
      s' = s.setPc c r (.returned (some (.timedOut idx))) := by
  obtain ⟨r, hr, h⟩ := Option.bind_eq_some_iff.mp h
  split at h
  · rename_i idx _ _
    exact ⟨r, idx, running_some hr, (Option.some.inj h).symm⟩
  · cases h

/-- A step of the system is at most one step of the cluster. -/
theorem cluster_step {op : Op} (hC : OneVote cfg s op) (h : s.step marshal cfg op = some s') :
    s'.cluster = s.cluster ∨
      ∃ a, VotesOnce cfg s.cluster a ∧ s.cluster.step cfg a = some s'.cluster := by
  cases op with
  | raft a =>
      obtain ⟨cluster, hs, rfl⟩ := step_raft h
      exact Or.inr ⟨a, hC, hs⟩
  | invoke i call =>
      rw [step_invoke h]
      exact Or.inl rfl
  | check c =>
      obtain ⟨r, -, rfl⟩ := step_check h
      exact Or.inl rfl
  | submit c =>
      obtain ⟨r, cluster, -, hs, rfl | ⟨-, rfl⟩⟩ := step_submit h
      · exact Or.inr ⟨.propose r.node _, ⟨trivial, trivial⟩, hs⟩
      · exact Or.inr ⟨.propose r.node _, ⟨trivial, trivial⟩, hs⟩
  | poll c =>
      obtain ⟨r, idx, term, -, -, rfl⟩ := step_poll h
      exact Or.inl rfl
  | expire c =>
      obtain ⟨r, idx, -, rfl⟩ := step_expire h
      exact Or.inl rfl

theorem cluster_run (h : Run (System.step marshal cfg) (Acks cfg) s ops s') :
    ∃ as, Run (Cluster.step cfg) (VotesOnce cfg) s.cluster as s'.cluster :=
  h.project System.cluster (I := fun _ => True) trivial
    fun _ hC hs => ⟨trivial, cluster_step hC.1 hs⟩

/-- A waiting call has an entry of its command at its index, in a log that a
leader of its term had. -/
def Awaits (marshal : Call → Bytes) (H : List Event) (r : Request) : Prop :=
  ∀ idx term, r.pc = .waiting idx term → 0 < idx ∧ ∃ L, Event.proposed r.node term L ∈ H ∧
    L[idx]? = some ⟨term, some (marshal r.call)⟩

theorem Awaits.mono {H H' : List Event} {r : Request} (h : Awaits marshal H r)
    (hH : H ⊆ H') : Awaits marshal H' r := by
  intro idx term hpc
  obtain ⟨hpos, L, hL, hentry⟩ := h idx term hpc
  exact ⟨hpos, L, hH hL, hentry⟩

theorem awaits_setPc {H : List Event} {c : ℕ} {r : Request} {pc : Pc}
    (h : ∀ r ∈ s.requests, Awaits marshal H r) (hr : Awaits marshal H { r with pc }) :
    ∀ r' ∈ (s.setPc c r pc).requests, Awaits marshal H r' := by
  intro r' hr'
  rcases List.mem_or_eq_of_mem_set hr' with hold | rfl
  · exact h r' hold
  · exact hr

/-- One look at the log leaves the call waiting as it was, or ends it. -/
theorem waitApplied_waiting {snap : List LogEntry} {logIndex term idx t : ℕ}
    (h : waitApplied snap logIndex term = .waiting idx t) : idx = logIndex ∧ t = term := by
  unfold waitApplied at h
  split at h
  · split at h <;> cases h
  · cases h
    exact ⟨rfl, rfl⟩

theorem waitApplied_nil {snap : List LogEntry} {logIndex term : ℕ}
    (h : waitApplied snap logIndex term = .returned none) :
    snap[logIndex]?.map LogEntry.term = some term := by
  unfold waitApplied at h
  split at h
  · rename_i entry hentry
    split at h
    · rename_i hterm
      rw [hentry, Option.map_some, hterm]
    · cases h
  · cases h

theorem awaits_step {op : Op} (hlen : ∀ i, 0 < (s.cluster.nodes i).log.length)
    (hinv : ∀ r ∈ s.requests, Awaits marshal s.cluster.history r)
    (h : s.step marshal cfg op = some s') :
    ∀ r ∈ s'.requests, Awaits marshal s'.cluster.history r := by
  cases op with
  | raft a =>
      obtain ⟨cluster, hs, rfl⟩ := step_raft h
      exact fun r hr => (hinv r hr).mono (Raft.history_mono hs)
  | invoke i call =>
      rw [step_invoke h]
      intro r hr
      rcases List.mem_append.mp hr with hr | hr
      · exact hinv r hr
      · rw [List.mem_singleton.mp hr]
        rintro idx term ⟨⟩
  | check c =>
      obtain ⟨r, -, rfl⟩ := step_check h
      refine awaits_setPc hinv fun idx term hpc => ?_
      unfold checkRole at hpc
      split at hpc <;> cases hpc
  | submit c =>
      obtain ⟨r, cluster, hr, hs, hcases⟩ := step_submit h
      have hmono : ∀ r ∈ s.requests, Awaits marshal cluster.history r := fun r hr =>
        (hinv r hr).mono (Raft.history_mono (a := .propose _ _) hs)
      rcases hcases with rfl | ⟨hprop, rfl⟩
      · refine awaits_setPc (s := { s with cluster }) hmono ?_
        rintro idx term ⟨⟩
      · refine awaits_setPc (s := { s with cluster }) hmono ?_
        rintro idx term ⟨⟩
        exact ⟨hlen _, _, hprop, by simp⟩
  | poll c =>
      obtain ⟨r, idx, term, hr, hpc, rfl⟩ := step_poll h
      refine awaits_setPc hinv fun idx' term' hpc' => ?_
      obtain ⟨rfl, rfl⟩ := waitApplied_waiting hpc'
      exact hinv r (List.mem_of_getElem? hr) _ _ hpc
  | expire c =>
      obtain ⟨r, idx, -, rfl⟩ := step_expire h
      refine awaits_setPc hinv ?_
      rintro idx term ⟨⟩

theorem awaits_run (h : Run (System.step marshal cfg) (Acks cfg) (System.initial cfg) ops s) :
    ∀ r ∈ s.requests, Awaits marshal s.cluster.history r := by
  induction h with
  | nil => simp [System.initial]
  | snoc hrun _ hs ih =>
      obtain ⟨as, has⟩ := cluster_run hrun
      obtain ⟨hw, -⟩ := Raft.protocol_run has
      exact awaits_step (fun i => (hw.sound i).length_pos) ih hs

end Steps

/-! ## §4  Acknowledged writes are committed -/

/-- **Acknowledged writes are committed.** In every run with one vote a term
whose calls return `nil` only when a majority has acknowledged their index to the
leader of their term: the node has committed the index, the entry there is the
command, and whoever leads this or a later term has it. -/
theorem acknowledged_committed {marshal : Call → Bytes} {cfg : Config} {ops : List Op}
    {s s' : System} {c idx term : ℕ} {r : Request}
    (h : Run (System.step marshal cfg) (Acks cfg) (System.initial cfg) ops s)
    (hr : s.requests[c]? = some r) (hpc : r.pc = .waiting idx term)
    (hC : Acks cfg s (.poll c)) (hs : s.step marshal cfg (.poll c) = some s')
    (hnil : s'.requests[c]? = some { r with pc := .returned none }) :
    idx ≤ (s'.cluster.nodes r.node).commitIndex ∧
      (s'.cluster.nodes r.node).log[idx]? = some ⟨term, some (marshal r.call)⟩ ∧
      ∀ ops' t, Run (System.step marshal cfg) (Acks cfg) s' ops' t →
        ∀ j, (t.cluster.nodes j).role = .leader → term ≤ (t.cluster.nodes j).currentTerm →
          (t.cluster.nodes j).log[idx]? = some ⟨term, some (marshal r.call)⟩ := by
  obtain ⟨r', idx', term', hr', hpc', rfl⟩ := step_poll hs
  obtain rfl := Option.some.inj (hr.symm.trans hr')
  rw [hpc] at hpc'
  cases hpc'
  have hack : waitApplied (s.cluster.nodes r.node).log idx term = .returned none := by
    have hset : (s.setPc c r (waitApplied (s.cluster.nodes r.node).log idx term)).requests[c]? =
        some { r with pc := waitApplied (s.cluster.nodes r.node).log idx term } :=
      List.getElem?_set_self (List.getElem?_eq_some_iff.mp hr).1
    have heq := Option.some.inj (hset.symm.trans hnil)
    exact congrArg Request.pc heq
  obtain ⟨hl, hterm, hmajor⟩ : Replicated (s.cluster.nodes r.node) idx term := by
    have hpolls : PollsReplicated (s.cluster.nodes r.node) r.pc := hC.2 r hr
    rw [hpc] at hpolls
    exact hpolls hack
  obtain ⟨as, has⟩ := cluster_run h
  obtain ⟨hw, A, hi, habs⟩ := Raft.protocol_run has
  -- the commit rule has run over the index …
  have hcommit : idx ≤ (s.cluster.nodes r.node).commitIndex :=
    ((Raft.orderly_run has).leading _ hl).settled idx
      ((waitApplied_nil hack).trans (congrArg some hterm.symm)) hmajor
  -- … and the log it leads with is the one the command was appended to
  obtain ⟨hpos, L, hL, hentry⟩ := awaits_run h r (List.mem_of_getElem? hr) idx term hpc
  have hlog : (s.cluster.nodes r.node).log[idx]? = some ⟨term, some (marshal r.call)⟩ := by
    have hpre : L <+: A.leaderLog term := habs.ledger _ hL
    rw [← hterm, Raft.leaderLog_eq hi habs hl] at hpre
    exact Foundation.prefix_getElem? hpre hentry
  refine ⟨hcommit, hlog, fun ops' t ht j hj hjt => ?_⟩
  obtain ⟨bs, hbs⟩ := cluster_run ht
  exact Raft.committed_stays has hbs hpos hcommit hlog hj (hterm.trans_le hjt)

/-- `put a 1` on the leader of a pair; `B` has acknowledged the entry. -/
def pairOps : List Op :=
  [.raft (.startElection [65]), .raft (.deliverVote 0), .raft (.voteReply 0),
   .invoke [65] (.put [97] [49]), .check 0, .submit 0, .raft (.deliverAppend 1),
   .raft (.appendReply 1)]

theorem acknowledged_committed_pair :
    let s := Foundation.endState (System.step plainJson Raft.pair) (Acks Raft.pair)
      (System.initial Raft.pair) pairOps
    let s' := (s.step plainJson Raft.pair (.poll 0)).getD s
    s'.requests[0]? = some ⟨[65], 0, .put [97] [49], .returned none⟩ ∧
      1 ≤ (s'.cluster.nodes [65]).commitIndex := by
  intro s s'
  have hrun : Run (System.step plainJson Raft.pair) (Acks Raft.pair)
      (System.initial Raft.pair) pairOps s := Foundation.run_endState (by decide +kernel)
  have hpoll : (s.step plainJson Raft.pair (.poll 0)).isSome = true := by decide +kernel
  have hwait : s.requests[0]? = some ⟨[65], 0, .put [97] [49], .waiting 1 1⟩ := by
    decide +kernel
  have hnil : s'.requests[0]? = some ⟨[65], 0, .put [97] [49], .returned none⟩ := by
    decide +kernel
  refine ⟨hnil, (acknowledged_committed hrun hwait rfl (by decide +kernel) ?_ hnil).1⟩
  obtain ⟨t, ht⟩ := Option.isSome_iff_exists.mp hpoll
  exact ht.trans (by simp only [s', ht, Option.getD_some])

end KVEngine.RaftStore
