import KVEngine.Raft.Safety
import KVEngine.Raft.Senders
import KVEngine.Raft.Wire

/-!
# Calls over TCP

`internal/raft/tcp_transport.go`. A call opens a connection, writes one envelope, reads one
and closes; `handleConn` reads one envelope, runs the handler and writes one. Either side
may get any number of the bytes that the other has written before the connection ends: the
peer dies, a deadline passes, the network fails.

An envelope says how long it is, and a JSON text is read as a whole, so a handler runs on
the caller's very arguments or not at all, and a caller gets the handler's very reply or an
error (`readRequest_vote`, `readVoteReply_take` and their like). So a cluster over TCP is a
cluster in the sense of `Cluster`, wherever its connections break (`tcp_refines`), and
what is proved of every run of `Cluster` holds of it.

The members' ids are taken to be well formed: an id that is not would arrive as another
one.
-/

namespace KVEngine.Raft

open Foundation (Run toLE ofLE length_toLE)
open Foundation.Utf8 (coerce Valid coerce_eq_iff)

/-! ## §1  Requests and replies -/

def rpcRequestVote : RpcType := 1

inductive Request : Type where
  | vote (args : RequestVoteArgs)
  | append (args : AppendEntriesArgs)

inductive Reply : Type where
  | vote (reply : RequestVoteReply)
  | append (reply : AppendEntriesReply)

def RequestVoteArgs.envelope (args : RequestVoteArgs) : RpcEnvelope :=
  { type := rpcRequestVote, payload := RequestVoteArgs.codec.marshal args }

def RequestVoteReply.envelope (reply : RequestVoteReply) : RpcEnvelope :=
  { type := rpcRequestVote, payload := RequestVoteReply.codec.marshal reply }

def AppendEntriesReply.envelope (reply : AppendEntriesReply) : RpcEnvelope :=
  { type := rpcAppendEntries, payload := AppendEntriesReply.codec.marshal reply }

/-- The request in the bytes that a connection handler gets. -/
def readRequest (received : Bytes) : Option Request := do
  let env ← (readEnvelope received).1.toOption
  if env.type = rpcRequestVote then
    let args ← RequestVoteArgs.codec.unmarshal env.payload
    return .vote args
  else if env.type = rpcAppendEntries then
    let args ← AppendEntriesArgs.codec.unmarshal env.payload
    return .append args
  else none

/-- The handler of the node that a request is for. -/
def Node.serve (n : Node) : Request → Option (Node × Reply)
  | .vote args => (n.handleRequestVote Cluster.persistOk args).map fun p => (p.1, .vote p.2)
  | .append args => (n.handleAppendEntries Cluster.persistOk args).map fun p => (p.1, .append p.2)

/-- `handleConn`, for the node that is registered. The inner `none` is a connection that is
closed without a reply, the outer one a handler that fails. -/
def handleConn (node : Option Node) (received : Bytes) : Option (Option (Node × Reply)) :=
  match node, readRequest received with
  | some n, some request => (n.serve request).map some
  | _, _ => some none

/-- The end of `RequestVote`: the reply in the bytes that come back. Its type is not
looked at. -/
def readVoteReply (received : Bytes) : Option RequestVoteReply := do
  let env ← (readEnvelope received).1.toOption
  RequestVoteReply.codec.unmarshal env.payload

def readAppendReply (received : Bytes) : Option AppendEntriesReply := do
  let env ← (readEnvelope received).1.toOption
  AppendEntriesReply.codec.unmarshal env.payload

/-- What the reader does behind a header. -/
theorem readEnvelope_header (type : RpcType) {length : ℕ} (h : length < 2 ^ 32) (rest : Bytes) :
    (readEnvelope (type :: (toLE 4 length ++ rest))).1.toOption =
      if length ≤ maxPayloadSize ∧ length ≤ rest.length then
        some { type, payload := rest.take length }
      else none := by
  have hhead : type :: (toLE 4 length ++ rest) = (type :: toLE 4 length) ++ rest := rfl
  have hlen : (type :: toLE 4 length).length = 5 := by rw [List.length_cons, length_toLE]
  unfold readEnvelope
  rw [hhead, if_neg (by rw [List.length_append]; omega), List.take_left' hlen,
    List.drop_left' hlen]
  dsimp only
  rw [List.drop_one, List.tail_cons, List.headD_cons, Foundation.ofLE_toLE,
    show 256 ^ 4 = 2 ^ 32 from rfl, Nat.mod_eq_of_lt h]
  by_cases hmax : length > maxPayloadSize
  · rw [if_pos hmax, if_neg fun hle => absurd hle.1 (not_le.mpr hmax)]
    rfl
  · rw [if_neg hmax]
    by_cases hshort : rest.length < length
    · rw [if_pos hshort, if_neg fun hle => absurd hle.2 (not_le.mpr hshort)]
      rfl
    · rw [if_neg hshort, if_pos ⟨not_lt.mp hmax, not_lt.mp hshort⟩]
      rfl

/-- **Envelopes cut off.** Below 4 GiB the length field holds the length, and the reader
gets the envelope if all of it comes and it is not too large, and nothing otherwise. -/
theorem readEnvelope_take {env : RpcEnvelope} (h : env.payload.length < 2 ^ 32) (k : ℕ) :
    (readEnvelope ((writeEnvelope env).take k)).1.toOption =
      if (writeEnvelope env).length ≤ k ∧ env.payload.length ≤ maxPayloadSize then some env
      else none := by
  have hlen : (writeEnvelope env).length = 5 + env.payload.length := by
    rw [writeEnvelope, List.length_cons, List.length_append, length_toLE]
    omega
  rcases Nat.lt_or_ge k 5 with hk | hk
  · -- not even the header
    have hshort : ((writeEnvelope env).take k).length < 5 := by
      rw [List.length_take]
      omega
    rw [readEnvelope, if_pos hshort, if_neg fun hle => by omega]
    rfl
  · have htake : (writeEnvelope env).take k =
        env.type :: (toLE 4 env.payload.length ++ env.payload.take (k - 5)) := by
      obtain ⟨j, rfl⟩ := Nat.exists_eq_add_of_le' hk
      have hhead : (toLE 4 env.payload.length).length = 4 := length_toLE _ _
      rw [writeEnvelope, List.take_succ_cons, List.take_append, hhead,
        List.take_of_length_le (by omega)]
      rfl
    rw [htake, readEnvelope_header _ h, List.length_take]
    by_cases hall : (writeEnvelope env).length ≤ k ∧ env.payload.length ≤ maxPayloadSize
    · rw [if_pos hall, if_pos (by omega), List.take_take, List.take_of_length_le (by omega)]
    · rw [if_neg hall, if_neg (by omega)]

/-- The whole envelope comes, and it is not too large. -/
def Arrives (env : RpcEnvelope) (k : ℕ) : Prop :=
  (writeEnvelope env).length ≤ k ∧ env.payload.length ≤ maxPayloadSize

instance (env : RpcEnvelope) (k : ℕ) : Decidable (Arrives env k) :=
  inferInstanceAs (Decidable (_ ∧ _))

theorem readRequest_vote {args : RequestVoteArgs} (h : args.envelope.payload.length < 2 ^ 32)
    (k : ℕ) :
    readRequest ((writeEnvelope args.envelope).take k) =
      if Arrives args.envelope k ∧ args.Fits then
        some (.vote { args with candidateId := coerce args.candidateId })
      else none := by
  rw [readRequest, readEnvelope_take h]
  by_cases hall : Arrives args.envelope k
  · rw [if_pos (show _ ∧ _ from hall)]
    show (RequestVoteArgs.codec.unmarshal (RequestVoteArgs.codec.marshal args)).bind _ = _
    rw [RequestVoteArgs.unmarshal_marshal, bind_ite]
    simp only [hall, true_and]
    rfl
  · rw [if_neg (show ¬ (_ ∧ _) from hall), if_neg fun hboth => hall hboth.1]
    rfl

theorem readRequest_append {args : AppendEntriesArgs}
    (h : (args.envelope goArgs).payload.length < 2 ^ 32) (k : ℕ) :
    readRequest ((writeEnvelope (args.envelope goArgs)).take k) =
      if Arrives (args.envelope goArgs) k ∧ args.Fits then
        some (.append { args with leaderId := coerce args.leaderId })
      else none := by
  rw [readRequest, readEnvelope_take h]
  by_cases hall : Arrives (args.envelope goArgs) k
  · rw [if_pos (show _ ∧ _ from hall)]
    show (AppendEntriesArgs.codec.unmarshal (goArgs.marshal args)).bind _ = _
    rw [AppendEntriesArgs.unmarshal_marshal, bind_ite]
    simp only [hall, true_and]
    rfl
  · rw [if_neg (show ¬ (_ ∧ _) from hall), if_neg fun hboth => hall hboth.1]
    rfl

theorem readVoteReply_take {reply : RequestVoteReply}
    (h : reply.envelope.payload.length < 2 ^ 32) (k : ℕ) :
    readVoteReply ((writeEnvelope reply.envelope).take k) =
      if Arrives reply.envelope k ∧ reply.Fits then some reply else none := by
  rw [readVoteReply, readEnvelope_take h]
  by_cases hall : Arrives reply.envelope k
  · rw [if_pos (show _ ∧ _ from hall)]
    show RequestVoteReply.codec.unmarshal (RequestVoteReply.codec.marshal reply) = _
    rw [RequestVoteReply.unmarshal_marshal]
    simp only [hall, true_and]
  · rw [if_neg (show ¬ (_ ∧ _) from hall), if_neg fun hboth => hall hboth.1]
    rfl

theorem readAppendReply_take {reply : AppendEntriesReply}
    (h : reply.envelope.payload.length < 2 ^ 32) (k : ℕ) :
    readAppendReply ((writeEnvelope reply.envelope).take k) =
      if Arrives reply.envelope k ∧ reply.Fits then some reply else none := by
  rw [readAppendReply, readEnvelope_take h]
  by_cases hall : Arrives reply.envelope k
  · rw [if_pos (show _ ∧ _ from hall)]
    show AppendEntriesReply.codec.unmarshal (AppendEntriesReply.codec.marshal reply) = _
    rw [AppendEntriesReply.unmarshal_marshal]
    simp only [hall, true_and]
  · rw [if_neg (show ¬ (_ ∧ _) from hall), if_neg fun hboth => hall hboth.1]
    rfl

/-- What a registered node's connection handler does with a request it gets, or not. -/
theorem handleConn_of_read {n : Node} {received : Bytes} {p : Prop} [Decidable p]
    {request : Request} (h : readRequest received = if p then some request else none) :
    handleConn (some n) received = if p then (n.serve request).map some else some none := by
  unfold handleConn
  rw [h]
  by_cases hp : p
  · rw [if_pos hp, if_pos hp]
  · rw [if_neg hp, if_neg hp]

/-! ## §2  Connections -/

/-- A cluster over TCP. Its calls are those of the cluster, each with a connection, which
is used until one side has read nothing from it. -/
structure Tcp where
  cluster : Cluster
  /-- The connections of vote requests that are closed. -/
  votesClosed : ℕ → Bool
  appendsClosed : ℕ → Bool

/-- `k` is how many bytes come before the connection ends; `registered`, whether the
transport of the server has its node. -/
inductive TcpAction : Type where
  | raft (a : Action)
  | serveVote (r k : ℕ) (registered : Bool)
  | serveAppend (r k : ℕ) (registered : Bool)
  | answerVote (r k : ℕ)
  | answerAppend (r k : ℕ)
  /-- The process dies in the handler. -/
  | dieInVote (r k : ℕ)
  | dieInAppend (r k : ℕ)
deriving DecidableEq

/-- A step of one process, without its peers. -/
def Action.isLocal : Action → Bool
  | .deliverVote _ | .voteReply _ | .deliverAppend _ | .appendReply _ | .crashInVote _
  | .crashInAppend _ => false
  | _ => true

namespace Tcp

def initial (cfg : Config) : Tcp :=
  { cluster := Cluster.initial cfg, votesClosed := fun _ => false,
    appendsClosed := fun _ => false }

def serveVote (n : Tcp) (r k : ℕ) (registered : Bool) : Option Tcp := do
  let s := n.cluster
  let rpc ← s.voteRpcs[r]?
  guard (rpc.phase = .requested ∧ n.votesClosed r = false)
  let node := if registered then some (s.nodes rpc.dst) else none
  match ← handleConn node ((writeEnvelope rpc.args.envelope).take k) with
  | some (m, .vote reply) =>
      return { n with
        cluster := ((s.setNode rpc.dst m).setVoteRpc r { rpc with phase := .replied reply }).record
          (if reply.voteGranted then [.voted rpc.dst reply.term rpc.args.candidateId] else []) }
  | _ => return { n with votesClosed := Function.update n.votesClosed r true }

def serveAppend (n : Tcp) (r k : ℕ) (registered : Bool) : Option Tcp := do
  let s := n.cluster
  let rpc ← s.appendRpcs[r]?
  guard (rpc.phase = .requested ∧ n.appendsClosed r = false)
  let node := if registered then some (s.nodes rpc.dst) else none
  match ← handleConn node ((writeEnvelope (rpc.args.envelope goArgs)).take k) with
  | some (m, .append reply) =>
      return { n with
        cluster :=
          ((s.setNode rpc.dst m).setAppendRpc r { rpc with phase := .replied reply }).record
            (if reply.success then
              [.accepted rpc.dst reply.term (rpc.args.prevLogIndex + rpc.args.entries.length)]
             else []) }
  | _ => return { n with appendsClosed := Function.update n.appendsClosed r true }

def answerVote (n : Tcp) (r k : ℕ) : Option Tcp := do
  let s := n.cluster
  let rpc ← s.voteRpcs[r]?
  guard (rpc.life = s.lives rpc.src ∧ n.votesClosed r = false)
  match rpc.phase with
  | .replied written =>
      match readVoteReply ((writeEnvelope written.envelope).take k) with
      | some reply =>
          let (m, calls) ←
            (s.nodes rpc.src).handleVoteReply true rpc.args.term rpc.election reply
          return { n with
            cluster := (((s.setNode rpc.src m).setVoteRpc r
              { rpc with phase := .finished }).spawnAppends rpc.src calls).record
                (if (s.nodes rpc.src).role ≠ .leader ∧ m.role = .leader then
                  [.becameLeader rpc.src m.currentTerm m.log,
                   .accepted rpc.src m.currentTerm (m.log.length - 1)] else []) }
      | none => return { n with votesClosed := Function.update n.votesClosed r true }
  | _ => none

def answerAppend (n : Tcp) (r k : ℕ) : Option Tcp := do
  let s := n.cluster
  let rpc ← s.appendRpcs[r]?
  guard (rpc.life = s.lives rpc.src ∧ n.appendsClosed r = false)
  match rpc.phase with
  | .replied written =>
      match readAppendReply ((writeEnvelope written.envelope).take k) with
      | some reply =>
          let (m, calls) ← (s.nodes rpc.src).handleAppendReply true rpc.dst rpc.args reply
          return { n with
            cluster := (((s.setNode rpc.src m).setAppendRpc r
              { rpc with phase := .finished }).spawnAppends rpc.src calls).record
                (if (s.nodes rpc.src).commitIndex < m.commitIndex then
                  [.advanced rpc.src m.currentTerm m.commitIndex m.log] else []) }
      | none => return { n with appendsClosed := Function.update n.appendsClosed r true }
  | _ => none

/-- A handler has to have its arguments to die. -/
def dieInVote (n : Tcp) (r k : ℕ) : Option Tcp := do
  let s := n.cluster
  let rpc ← s.voteRpcs[r]?
  guard (rpc.phase = .requested ∧ n.votesClosed r = false)
  match readRequest ((writeEnvelope rpc.args.envelope).take k) with
  | some (.vote args) =>
      guard (args.term > (s.nodes rpc.dst).currentTerm)
      return { n with
        cluster := (s.setVoteRpc r { rpc with phase := .finished }).reboot rpc.dst
          ((s.nodes rpc.dst).becomeFollower true args.term) }
  | _ => none

def dieInAppend (n : Tcp) (r k : ℕ) : Option Tcp := do
  let s := n.cluster
  let rpc ← s.appendRpcs[r]?
  guard (rpc.phase = .requested ∧ n.appendsClosed r = false)
  match readRequest ((writeEnvelope (rpc.args.envelope goArgs)).take k) with
  | some (.append args) =>
      guard (args.term ≥ (s.nodes rpc.dst).currentTerm)
      return { n with
        cluster := (s.setAppendRpc r { rpc with phase := .finished }).reboot rpc.dst
          ((s.nodes rpc.dst).becomeFollower true args.term) }
  | _ => none

def step (cfg : Config) (n : Tcp) : TcpAction → Option Tcp
  | .raft a => do
      guard (a.isLocal = true)
      let cluster ← n.cluster.step cfg a
      return { n with cluster }
  | .serveVote r k registered => n.serveVote r k registered
  | .serveAppend r k registered => n.serveAppend r k registered
  | .answerVote r k => n.answerVote r k
  | .answerAppend r k => n.answerAppend r k
  | .dieInVote r k => n.dieInVote r k
  | .dieInAppend r k => n.dieInAppend r k

/-! ## §3  A cluster over TCP is a cluster -/

/-- A reply on its way is below 4 GiB. -/
def Below {R : Type} (envelope : R → RpcEnvelope) : Phase R → Prop
  | .replied reply => (envelope reply).payload.length < 2 ^ 32
  | _ => True

instance {R : Type} (envelope : R → RpcEnvelope) (ph : Phase R) :
    Decidable (Below envelope ph) := by
  cases ph <;> unfold Below <;> infer_instance

/-- No message is 4 GiB long, and no snapshot is taken. -/
def Sized (n : Tcp) : TcpAction → Prop
  | .raft a => NoSnapshot n.cluster a
  | .serveVote r _ _ | .dieInVote r _ =>
      ∀ rpc ∈ n.cluster.voteRpcs[r]?, rpc.args.envelope.payload.length < 2 ^ 32
  | .serveAppend r _ _ | .dieInAppend r _ =>
      ∀ rpc ∈ n.cluster.appendRpcs[r]?, (rpc.args.envelope goArgs).payload.length < 2 ^ 32
  | .answerVote r _ =>
      ∀ rpc ∈ n.cluster.voteRpcs[r]?, Below RequestVoteReply.envelope rpc.phase
  | .answerAppend r _ =>
      ∀ rpc ∈ n.cluster.appendRpcs[r]?, Below AppendEntriesReply.envelope rpc.phase

instance (n : Tcp) (a : TcpAction) : Decidable (n.Sized a) := by
  cases a <;> unfold Sized <;> infer_instance

section Steps

variable {cfg : Config} {n n' : Tcp} {r k : ℕ} {registered : Bool}

theorem serveVote_cluster (hids : ∀ i ∈ cfg.ids, Valid i) (hk : Known cfg n.cluster)
    (hsize : ∀ rpc ∈ n.cluster.voteRpcs[r]?, rpc.args.envelope.payload.length < 2 ^ 32)
    (hs : n.serveVote r k registered = some n') :
    n'.cluster = n.cluster ∨ n.cluster.step cfg (.deliverVote r) = some n'.cluster := by
  obtain ⟨rpc, hr, hs⟩ := Option.bind_eq_some_iff.mp hs
  obtain ⟨⟨hph, -⟩, hs⟩ := Foundation.guard_bind_eq_some hs
  obtain ⟨out, hout, hs⟩ := Option.bind_eq_some_iff.mp hs
  obtain ⟨hsrc, -, hcand, -⟩ := hk.wired.ballots.call rpc (List.mem_of_getElem? hr)
  have hid : coerce rpc.args.candidateId = rpc.args.candidateId := by
    rw [coerce_eq_iff, hcand]
    exact hids rpc.src hsrc
  have hread := readRequest_vote (hsize rpc hr) k
  rw [hid] at hread
  cases registered with
  | false =>
      cases hout
      cases hs
      exact Or.inl rfl
  | true =>
      rw [if_pos rfl, handleConn_of_read hread] at hout
      split at hout
      · obtain ⟨served, hserve, rfl⟩ := Option.map_eq_some_iff.mp hout
        obtain ⟨⟨m, reply⟩, hm, rfl⟩ := Option.map_eq_some_iff.mp hserve
        cases hs
        right
        show n.cluster.deliverVote r = _
        simp [Cluster.deliverVote, hr, hph, hm, guard]
      · cases hout
        cases hs
        exact Or.inl rfl

theorem serveAppend_cluster (hids : ∀ i ∈ cfg.ids, Valid i) (hk : Known cfg n.cluster)
    (hsize : ∀ rpc ∈ n.cluster.appendRpcs[r]?,
      (rpc.args.envelope goArgs).payload.length < 2 ^ 32)
    (hs : n.serveAppend r k registered = some n') :
    n'.cluster = n.cluster ∨ n.cluster.step cfg (.deliverAppend r) = some n'.cluster := by
  obtain ⟨rpc, hr, hs⟩ := Option.bind_eq_some_iff.mp hs
  obtain ⟨⟨hph, -⟩, hs⟩ := Foundation.guard_bind_eq_some hs
  obtain ⟨out, hout, hs⟩ := Option.bind_eq_some_iff.mp hs
  have hmem := List.mem_of_getElem? hr
  have hid : coerce rpc.args.leaderId = rpc.args.leaderId := by
    rw [coerce_eq_iff, hk.signed.id rpc hmem]
    exact hids rpc.src (hk.wired.replicas.src rpc hmem)
  have hread := readRequest_append (hsize rpc hr) k
  rw [hid] at hread
  cases registered with
  | false =>
      cases hout
      cases hs
      exact Or.inl rfl
  | true =>
      rw [if_pos rfl, handleConn_of_read hread] at hout
      split at hout
      · obtain ⟨served, hserve, rfl⟩ := Option.map_eq_some_iff.mp hout
        obtain ⟨⟨m, reply⟩, hm, rfl⟩ := Option.map_eq_some_iff.mp hserve
        cases hs
        right
        show n.cluster.deliverAppend r = _
        simp [Cluster.deliverAppend, hr, hph, hm, guard]
      · cases hout
        cases hs
        exact Or.inl rfl

theorem answerVote_cluster
    (hsize : ∀ rpc ∈ n.cluster.voteRpcs[r]?, Below RequestVoteReply.envelope rpc.phase)
    (hs : n.answerVote r k = some n') :
    n'.cluster = n.cluster ∨ n.cluster.step cfg (.voteReply r) = some n'.cluster := by
  obtain ⟨rpc, hr, hs⟩ := Option.bind_eq_some_iff.mp hs
  obtain ⟨⟨hlife, -⟩, hs⟩ := Foundation.guard_bind_eq_some hs
  split at hs
  · rename_i written hph
    have hbelow := hsize rpc hr
    rw [hph] at hbelow
    rw [readVoteReply_take hbelow] at hs
    by_cases hall : Arrives written.envelope k ∧ written.Fits
    · rw [if_pos hall] at hs
      obtain ⟨⟨m, calls⟩, hm, hs⟩ := Option.bind_eq_some_iff.mp hs
      cases hs
      right
      show n.cluster.voteReply r = _
      simp [Cluster.voteReply, hr, hlife, hph, hm, guard]
    · rw [if_neg hall] at hs
      cases hs
      exact Or.inl rfl
  · cases hs

theorem answerAppend_cluster
    (hsize : ∀ rpc ∈ n.cluster.appendRpcs[r]?, Below AppendEntriesReply.envelope rpc.phase)
    (hs : n.answerAppend r k = some n') :
    n'.cluster = n.cluster ∨ n.cluster.step cfg (.appendReply r) = some n'.cluster := by
  obtain ⟨rpc, hr, hs⟩ := Option.bind_eq_some_iff.mp hs
  obtain ⟨⟨hlife, -⟩, hs⟩ := Foundation.guard_bind_eq_some hs
  split at hs
  · rename_i written hph
    have hbelow := hsize rpc hr
    rw [hph] at hbelow
    rw [readAppendReply_take hbelow] at hs
    by_cases hall : Arrives written.envelope k ∧ written.Fits
    · rw [if_pos hall] at hs
      obtain ⟨⟨m, calls⟩, hm, hs⟩ := Option.bind_eq_some_iff.mp hs
      cases hs
      right
      show n.cluster.appendReply r = _
      simp [Cluster.appendReply, hr, hlife, hph, hm, guard]
    · rw [if_neg hall] at hs
      cases hs
      exact Or.inl rfl
  · cases hs

theorem dieInVote_cluster
    (hsize : ∀ rpc ∈ n.cluster.voteRpcs[r]?, rpc.args.envelope.payload.length < 2 ^ 32)
    (hs : n.dieInVote r k = some n') :
    n.cluster.step cfg (.crashInVote r) = some n'.cluster := by
  obtain ⟨rpc, hr, hs⟩ := Option.bind_eq_some_iff.mp hs
  obtain ⟨⟨hph, -⟩, hs⟩ := Foundation.guard_bind_eq_some hs
  rw [readRequest_vote (hsize rpc hr)] at hs
  by_cases hall : Arrives rpc.args.envelope k ∧ rpc.args.Fits
  · rw [if_pos hall] at hs
    obtain ⟨hterm, hs⟩ := Foundation.guard_bind_eq_some hs
    cases hs
    show n.cluster.crashInVote r = _
    have hboth : rpc.phase = .requested ∧ (n.cluster.nodes rpc.dst).currentTerm < rpc.args.term :=
      ⟨hph, hterm⟩
    simp [Cluster.crashInVote, hr, hboth, guard]
  · rw [if_neg hall] at hs
    cases hs

theorem dieInAppend_cluster
    (hsize : ∀ rpc ∈ n.cluster.appendRpcs[r]?,
      (rpc.args.envelope goArgs).payload.length < 2 ^ 32)
    (hs : n.dieInAppend r k = some n') :
    n.cluster.step cfg (.crashInAppend r) = some n'.cluster := by
  obtain ⟨rpc, hr, hs⟩ := Option.bind_eq_some_iff.mp hs
  obtain ⟨⟨hph, -⟩, hs⟩ := Foundation.guard_bind_eq_some hs
  rw [readRequest_append (hsize rpc hr)] at hs
  by_cases hall : Arrives (rpc.args.envelope goArgs) k ∧ rpc.args.Fits
  · rw [if_pos hall] at hs
    obtain ⟨hterm, hs⟩ := Foundation.guard_bind_eq_some hs
    cases hs
    show n.cluster.crashInAppend r = _
    have hboth : rpc.phase = .requested ∧ (n.cluster.nodes rpc.dst).currentTerm ≤ rpc.args.term :=
      ⟨hph, hterm⟩
    simp [Cluster.crashInAppend, hr, hboth, guard]
  · rw [if_neg hall] at hs
    cases hs

/-- **One step** over TCP is a step of the cluster, or none. -/
theorem step_cluster (hids : ∀ i ∈ cfg.ids, Valid i) (hk : Known cfg n.cluster)
    {a : TcpAction} (hC : Sized n a) (hs : n.step cfg a = some n') :
    n'.cluster = n.cluster ∨
      ∃ b, NoSnapshot n.cluster b ∧ n.cluster.step cfg b = some n'.cluster := by
  cases a with
  | raft a =>
      obtain ⟨-, hs⟩ := Foundation.guard_bind_eq_some hs
      obtain ⟨s', hs', hs⟩ := Option.bind_eq_some_iff.mp hs
      cases hs
      exact Or.inr ⟨a, hC, hs'⟩
  | serveVote r k registered =>
      exact (serveVote_cluster hids hk hC hs).imp_right fun h => ⟨.deliverVote r, rfl, h⟩
  | serveAppend r k registered =>
      exact (serveAppend_cluster hids hk hC hs).imp_right fun h => ⟨.deliverAppend r, rfl, h⟩
  | answerVote r k => exact (answerVote_cluster hC hs).imp_right fun h => ⟨.voteReply r, rfl, h⟩
  | answerAppend r k =>
      exact (answerAppend_cluster hC hs).imp_right fun h => ⟨.appendReply r, rfl, h⟩
  | dieInVote r k => exact Or.inr ⟨.crashInVote r, rfl, dieInVote_cluster hC hs⟩
  | dieInAppend r k => exact Or.inr ⟨.crashInAppend r, rfl, dieInAppend_cluster hC hs⟩

/-- **Refinement.** A cluster over TCP, whose connections break after any number of bytes,
runs as a cluster does. -/
theorem tcp_refines (hterms : ∀ t, cfg.incr t = t + 1) (hids : ∀ i ∈ cfg.ids, Valid i)
    {as : List TcpAction} (h : Run (step cfg) Sized (initial cfg) as n) :
    ∃ bs, Run (Cluster.step cfg) NoSnapshot (Cluster.initial cfg) bs n.cluster := by
  refine h.project cluster (I := fun u => Known cfg u.cluster) (known_initial cfg) ?_
  intro u v a hu hC hs
  rcases step_cluster hids hu hC hs with hsame | ⟨b, hb, hstep⟩
  · rw [hsame]
    exact ⟨hu, Or.inl rfl⟩
  · exact ⟨known_step hu (plain_of_noSnapshot hterms hb) hstep, Or.inr ⟨b, hb, hstep⟩⟩

/-- `A` is elected and takes a command. The first connection to `B` breaks in the middle of
the request; the next heartbeat carries the command again, and `A` commits it. -/
def wiredActions : List TcpAction :=
  [.raft (.startElection [65]), .serveVote 0 100 true, .answerVote 0 100,
   .raft (.propose [65] (some [7])), .serveAppend 1 100 true, .raft (.heartbeat [65]),
   .serveAppend 2 200 true, .answerAppend 2 100]

def wiredEnd : Tcp := Foundation.endState (step pair) Sized (initial pair) wiredActions

theorem tcp_refines_pair :
    (wiredEnd.cluster.nodes [65]).commitIndex = 1 ∧
      ∃ bs, Run (Cluster.step pair) NoSnapshot (Cluster.initial pair) bs wiredEnd.cluster := by
  have hrun : Run (step pair) Sized (initial pair) wiredActions wiredEnd :=
    Foundation.run_endState (by decide +kernel)
  exact ⟨by decide +kernel, tcp_refines (fun _ => rfl) (by decide +kernel) hrun⟩

end Steps

end Tcp

end KVEngine.Raft
