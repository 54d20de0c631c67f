import KVEngine.Raft.Stability

/-!
# Nodes over a transport

`internal/raft/transport.go` and `sim_transport.go`. A call asks the transport whether
the link lets it through, then for the node registered under the peer's id, and runs
that node's handler; the three take locks of their own, so links and registrations may
change between them. Only the request is tested: an answer always gets back.

Whatever the transport does, the nodes are a cluster in the sense of `Cluster`
(`run_cluster`).
-/

namespace KVEngine.Raft

open Foundation (Run)
open Foundation.ReplicatedLog

/-! ## §1  Transports -/

inductive RpcKind : Type where
  | requestVote
  | appendEntries
deriving DecidableEq

/-- What a call does with a transport of state `T`; `Op` are the calls that change it. -/
structure Transport (T Op : Type) where
  apply : Op → T → T
  /-- Whether the link lets a request through. -/
  passes : RpcKind → NodeId → NodeId → T → Bool × T
  getNode : T → NodeId → Bool

/-- The registered ids, and the links that are cut. -/
structure MemTransport where
  nodes : NodeId → Bool
  partitions : NodeId → NodeId → Bool

namespace MemTransport

inductive Op : Type where
  | register (id : NodeId)
  | unregister (id : NodeId)
  | partition (src dst : NodeId)
  | heal (src dst : NodeId)
  | healAll
deriving DecidableEq

def new : MemTransport := { nodes := fun _ => false, partitions := fun _ _ => false }

def setLink (t : MemTransport) (src dst : NodeId) (cut : Bool) : MemTransport :=
  { t with partitions :=
      Function.update t.partitions src (Function.update (t.partitions src) dst cut) }

def isPartitioned (t : MemTransport) (src dst : NodeId) : Bool := t.partitions src dst

def transport : Transport MemTransport Op where
  apply
    | .register id, t => { t with nodes := Function.update t.nodes id true }
    | .unregister id, t => { t with nodes := Function.update t.nodes id false }
    | .partition src dst, t => t.setLink src dst true
    | .heal src dst, t => t.setLink src dst false
    | .healAll, t => { t with partitions := fun _ _ => false }
  passes _ src dst t := (!t.isPartitioned src dst, t)
  getNode t id := t.nodes id

end MemTransport

/-- A source of random numbers in `[0, 1)`, as `rand.Rand` for some seed. -/
structure Rng (R : Type) where
  float64 : R → ℚ × R
  lt_one : ∀ s, (float64 s).1 < 1

structure SimEvent where
  src : NodeId
  dst : NodeId
  type : RpcKind
  dropped : Bool
deriving DecidableEq

structure SimTransport (R : Type) where
  rng : R
  nodes : NodeId → Bool
  /-- A link without an entry has rate `0`. -/
  dropRate : NodeId → NodeId → ℚ
  history : List SimEvent

namespace SimTransport

variable {R : Type}

inductive Op : Type where
  | register (id : NodeId)
  | setDropRate (src dst : NodeId) (rate : ℚ)
  | healAll
deriving DecidableEq

def new (seed : R) : SimTransport R :=
  { rng := seed, nodes := fun _ => false, dropRate := fun _ _ => 0, history := [] }

def setDropRate (t : SimTransport R) (src dst : NodeId) (rate : ℚ) : SimTransport R :=
  { t with dropRate :=
      Function.update t.dropRate src (Function.update (t.dropRate src) dst rate) }

def shouldDrop (rng : Rng R) (t : SimTransport R) (src dst : NodeId) : Bool × SimTransport R :=
  let (x, r) := rng.float64 t.rng
  (decide (x < t.dropRate src dst), { t with rng := r })

def record (t : SimTransport R) (src dst : NodeId) (type : RpcKind) (dropped : Bool) :
    SimTransport R :=
  { t with history := t.history ++ [{ src, dst, type, dropped }] }

/-- `Partition` and `Heal` are rates of `1` and `0`. -/
def transport (rng : Rng R) : Transport (SimTransport R) Op where
  apply
    | .register id, t => { t with nodes := Function.update t.nodes id true }
    | .setDropRate src dst rate, t => t.setDropRate src dst rate
    | .healAll, t => { t with dropRate := fun _ _ => 0 }
  passes type src dst t :=
    let (dropped, t) := t.shouldDrop rng src dst
    (!dropped, t.record src dst type dropped)
  getNode t id := t.nodes id

end SimTransport

/-! ## §2  Nodes and their calls -/

/-- How far a call has got before the handler runs. -/
inductive Stage : Type where
  | calling
  | admitted
  | found
  | failed
deriving DecidableEq

structure Network (T : Type) where
  cluster : Cluster
  transport : T
  /-- The stage of each vote request of the cluster. -/
  votes : ℕ → Stage
  appends : ℕ → Stage

inductive NetAction (Op : Type) : Type where
  | raft (a : Action)
  | op (o : Op)
  | admitVote (r : ℕ)
  | findVote (r : ℕ)
  | admitAppend (r : ℕ)
  | findAppend (r : ℕ)
deriving DecidableEq

namespace Network

variable {T Op : Type}

def initial (cfg : Config) (t : T) : Network T :=
  { cluster := Cluster.initial cfg, transport := t, votes := fun _ => .calling,
    appends := fun _ => .calling }

/-- A handler runs only for a call that has found its node. -/
def Handles (n : Network T) : Action → Prop
  | .deliverVote r | .crashInVote r => n.votes r = .found
  | .deliverAppend r | .crashInAppend r => n.appends r = .found
  | _ => True

instance (n : Network T) (a : Action) : Decidable (n.Handles a) := by
  cases a <;> unfold Handles <;> infer_instance

def step (τ : Transport T Op) (cfg : Config) (n : Network T) : NetAction Op → Option (Network T)
  | .raft a => do
      guard (n.Handles a)
      let cluster ← n.cluster.step cfg a
      return { n with cluster }
  | .op o => some { n with transport := τ.apply o n.transport }
  | .admitVote r => do
      let rpc ← n.cluster.voteRpcs[r]?
      guard (n.votes r = .calling)
      let (ok, transport) := τ.passes .requestVote rpc.args.candidateId rpc.dst n.transport
      return { n with
        transport, votes := Function.update n.votes r (if ok then .admitted else .failed) }
  | .findVote r => do
      let rpc ← n.cluster.voteRpcs[r]?
      guard (n.votes r = .admitted)
      return { n with
        votes := Function.update n.votes r
          (if τ.getNode n.transport rpc.dst then .found else .failed) }
  | .admitAppend r => do
      let rpc ← n.cluster.appendRpcs[r]?
      guard (n.appends r = .calling)
      let (ok, transport) := τ.passes .appendEntries rpc.args.leaderId rpc.dst n.transport
      return { n with
        transport, appends := Function.update n.appends r (if ok then .admitted else .failed) }
  | .findAppend r => do
      let rpc ← n.cluster.appendRpcs[r]?
      guard (n.appends r = .admitted)
      return { n with
        appends := Function.update n.appends r
          (if τ.getNode n.transport rpc.dst then .found else .failed) }

/-- No snapshot is taken. -/
def Unsnapped (n : Network T) : NetAction Op → Prop
  | .raft a => NoSnapshot n.cluster a
  | _ => True

instance (n : Network T) (a : NetAction Op) : Decidable (n.Unsnapped a) := by
  cases a <;> unfold Unsnapped <;> infer_instance

/-- What a step does: one of the cluster, of the transport, or of a call. -/
theorem step_cases {τ : Transport T Op} {cfg : Config} {n n' : Network T} {a : NetAction Op}
    (h : n.step τ cfg a = some n') :
    (∃ b s', a = .raft b ∧ n.Handles b ∧ n.cluster.step cfg b = some s' ∧
      n' = { n with cluster := s' }) ∨
    n'.cluster = n.cluster := by
  cases a with
  | raft b =>
      obtain ⟨hb, h⟩ := Foundation.guard_bind_eq_some h
      obtain ⟨s', hs', h⟩ := Option.bind_eq_some_iff.mp h
      cases h
      exact Or.inl ⟨b, s', rfl, hb, hs', rfl⟩
  | op o =>
      cases h
      exact Or.inr rfl
  | admitVote r =>
      obtain ⟨rpc, -, h⟩ := Option.bind_eq_some_iff.mp h
      obtain ⟨-, h⟩ := Foundation.guard_bind_eq_some h
      cases h
      exact Or.inr rfl
  | findVote r =>
      obtain ⟨rpc, -, h⟩ := Option.bind_eq_some_iff.mp h
      obtain ⟨-, h⟩ := Foundation.guard_bind_eq_some h
      cases h
      exact Or.inr rfl
  | admitAppend r =>
      obtain ⟨rpc, -, h⟩ := Option.bind_eq_some_iff.mp h
      obtain ⟨-, h⟩ := Foundation.guard_bind_eq_some h
      cases h
      exact Or.inr rfl
  | findAppend r =>
      obtain ⟨rpc, -, h⟩ := Option.bind_eq_some_iff.mp h
      obtain ⟨-, h⟩ := Foundation.guard_bind_eq_some h
      cases h
      exact Or.inr rfl

/-- **Over any transport the nodes are a cluster.** -/
theorem run_cluster {τ : Transport T Op} {cfg : Config} {n n' : Network T}
    {as : List (NetAction Op)} {C : Network T → NetAction Op → Prop}
    (hC : ∀ {u a}, C u a → Unsnapped u a) (h : Run (step τ cfg) C n as n') :
    ∃ bs, Run (Cluster.step cfg) NoSnapshot n.cluster bs n'.cluster := by
  refine h.project cluster (I := fun _ => True) trivial fun _ hc hs => ⟨trivial, ?_⟩
  rcases step_cases hs with ⟨b, s', rfl, -, hs', rfl⟩ | hsame
  · exact Or.inr ⟨b, hC hc, hs'⟩
  · exact Or.inl hsame

end Network

end KVEngine.Raft
