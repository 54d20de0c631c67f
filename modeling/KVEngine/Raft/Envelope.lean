import KVEngine.Foundation.Json
import KVEngine.Raft.NodeSpec

/-!
# Requests on the wire

`internal/raft/tcp_transport.go`: an RPC is an envelope of one byte for the type, four
for the length of the payload and the payload, which is JSON. The writer takes a
payload of any length; the reader refuses more than 32 MiB, and from 4 GiB on the
length field does not even hold the length.

`sendAppendEntries` puts everything that a peer lacks into one request. So a peer that
lacks more than 32 MiB of commands never gets them (`lagging_peer_unreached`); what
arrives is exactly what fits (`append_received_iff`).
-/

namespace KVEngine.Raft

open Foundation (toLE ofLE length_toLE ofLE_toLE)
open Foundation.Text (text decimal)
open Foundation.Json (quote field object array byteSlice null)

/-! ## §1  Envelopes -/

abbrev RpcType : Type := UInt8

def rpcAppendEntries : RpcType := 2

structure RpcEnvelope where
  type : RpcType
  payload : Bytes
deriving DecidableEq

/-- What `writeEnvelope` writes. The length is converted to `uint32`. -/
def writeEnvelope (env : RpcEnvelope) : Bytes :=
  env.type :: (toLE 4 env.payload.length ++ env.payload)

inductive EnvelopeError : Type where
  | eof
  | unexpectedEOF
  | payloadTooLarge (length : ℕ)
deriving DecidableEq

/-- 32 MiB. -/
def maxPayloadSize : ℕ := 32 * 2 ^ 20

/-- The error of `io.ReadFull` on a reader with too few bytes. -/
def shortRead (r : Bytes) : EnvelopeError := if r = [] then .eof else .unexpectedEOF

/-- `readEnvelope`: the envelope or the error, and what is left in the reader. -/
def readEnvelope (r : Bytes) : Except EnvelopeError RpcEnvelope × Bytes :=
  if r.length < 5 then (.error (shortRead r), [])
  else
    let hdr := r.take 5
    let r := r.drop 5
    let length := ofLE (hdr.drop 1)
    if length > maxPayloadSize then (.error (.payloadTooLarge length), r)
    else if r.length < length then (.error (shortRead r), [])
    else (.ok { type := hdr.headD 0, payload := r.take length }, r.drop length)

/-- What the reader makes of an envelope: it takes as many bytes for the payload as
the low 32 bits of its length say. -/
theorem readEnvelope_append (env : RpcEnvelope) (rest : Bytes) :
    readEnvelope (writeEnvelope env ++ rest) =
      if maxPayloadSize < env.payload.length % 2 ^ 32 then
        (.error (.payloadTooLarge (env.payload.length % 2 ^ 32)), env.payload ++ rest)
      else (.ok { env with payload := env.payload.take (env.payload.length % 2 ^ 32) },
        env.payload.drop (env.payload.length % 2 ^ 32) ++ rest) := by
  have hhead : writeEnvelope env ++ rest =
      (env.type :: toLE 4 env.payload.length) ++ (env.payload ++ rest) := by
    simp [writeEnvelope]
  have hlen : (env.type :: toLE 4 env.payload.length).length = 5 := by simp
  have hle : env.payload.length % 2 ^ 32 ≤ env.payload.length := Nat.mod_le _ _
  unfold readEnvelope
  rw [hhead, if_neg (by rw [List.length_append]; omega), List.take_left' hlen,
    List.drop_left' hlen]
  dsimp only
  rw [List.drop_one, List.tail_cons, List.headD_cons, ofLE_toLE, show 256 ^ 4 = 2 ^ 32 from rfl]
  split
  · rfl
  · rw [if_neg (by rw [List.length_append]; omega), List.take_append_of_le_length hle,
      List.drop_append_of_le_length hle]

/-- **Envelopes.** The reader gets the envelope that was written, whatever follows it,
exactly when its payload is not larger than the reader allows. -/
theorem readEnvelope_eq_ok_iff (env : RpcEnvelope) (rest : Bytes) :
    (readEnvelope (writeEnvelope env ++ rest)).1 = .ok env ↔
      env.payload.length ≤ maxPayloadSize := by
  rw [readEnvelope_append]
  constructor
  · intro h
    split at h
    · cases h
    · rename_i hfit
      -- the payload was not cut
      have htake : env.payload.take (env.payload.length % 2 ^ 32) = env.payload :=
        congrArg RpcEnvelope.payload (Except.ok.inj h)
      have hle := congrArg List.length htake
      rw [List.length_take] at hle
      omega
  · intro h
    have hmod : env.payload.length % 2 ^ 32 = env.payload.length :=
      Nat.mod_eq_of_lt (lt_of_le_of_lt h (by decide))
    rw [hmod, if_neg (not_lt.mpr h), List.take_length]

/-! ## §2  Append requests -/

/-- How many bytes of commands a request carries. -/
def AppendEntriesArgs.commandBytes (args : AppendEntriesArgs) : ℕ :=
  (args.entries.map fun e => (e.command.getD []).length).sum

/-- `json.Marshal` of the arguments, of which only this is used: a command is written
out, so that the text is at least as long as the commands. -/
structure ArgsFormat where
  marshal : AppendEntriesArgs → Bytes
  carries : ∀ args, args.commandBytes ≤ (marshal args).length

def marshalEntry (e : LogEntry) : Bytes :=
  object [field (text "Term") (decimal e.term), field (text "Command") (byteSlice e.command)]

/-- No entries are a nil slice. -/
def marshalEntries (entries : List LogEntry) : Bytes :=
  if entries = [] then null else array (entries.map marshalEntry)

theorem commandBytes_le_marshalEntries (entries : List LogEntry) :
    (entries.map fun e => (e.command.getD []).length).sum ≤ (marshalEntries entries).length := by
  have hentry : ∀ e : LogEntry, (e.command.getD []).length ≤ (marshalEntry e).length := by
    intro e
    refine (Foundation.Json.length_le_byteSlice e.command).trans ?_
    exact Foundation.Json.length_le_object (text "Command") (by simp)
  unfold marshalEntries
  split
  · rename_i hnil
    simp [hnil]
  · refine le_trans ?_ (Foundation.Json.sum_length_le_array _)
    rw [List.map_map]
    exact List.sum_le_sum fun e _ => hentry e

/-- What `encoding/json` writes. -/
def goArgs : ArgsFormat where
  marshal args :=
    object [field (text "Term") (decimal args.term),
      field (text "LeaderId") (quote args.leaderId),
      field (text "PrevLogIndex") (decimal args.prevLogIndex),
      field (text "PrevLogTerm") (decimal args.prevLogTerm),
      field (text "Entries") (marshalEntries args.entries),
      field (text "LeaderCommit") (decimal args.leaderCommit)]
  carries args :=
    (commandBytes_le_marshalEntries args.entries).trans
      (Foundation.Json.length_le_object (text "Entries") (by simp))

/-- The envelope that `TCPTransport.AppendEntries` writes. -/
def AppendEntriesArgs.envelope (J : ArgsFormat) (args : AppendEntriesArgs) : RpcEnvelope :=
  { type := rpcAppendEntries, payload := J.marshal args }

/-! ## §3  What a leader sends -/

/-- More commands than fit are not received, however they are written. -/
theorem readEnvelope_ne_ok (J : ArgsFormat) {args : AppendEntriesArgs}
    (h : maxPayloadSize < args.commandBytes) (rest : Bytes) :
    (readEnvelope (writeEnvelope (args.envelope J) ++ rest)).1 ≠ .ok (args.envelope J) := by
  intro hok
  have hfit : (J.marshal args).length ≤ maxPayloadSize :=
    (readEnvelope_eq_ok_iff (args.envelope J) rest).mp hok
  have hcarries := J.carries args
  omega

/-- **Requests that arrive.** Whatever a leader has in its log and wherever it thinks
its peer is, it sends a request; the peer reads the envelope that was written,
whatever bytes follow it, exactly when the payload is at most 32 MiB, so never when the
commands that the leader thinks missing are more than that. -/
theorem append_received_iff (J : ArgsFormat) {n : Node} {p : NodeId} (hlog : 0 < n.log.length)
    (hnext : n.nextIndex p ≤ n.log.length) :
    ∃ call, n.sendAppendEntries p = some call ∧
      (∀ rest, (readEnvelope (writeEnvelope (call.args.envelope J) ++ rest)).1 =
          .ok (call.args.envelope J) ↔ (J.marshal call.args).length ≤ maxPayloadSize) ∧
      (maxPayloadSize <
          ((n.log.drop (max (n.nextIndex p) 1)).map fun e => (e.command.getD []).length).sum →
        ∀ rest, (readEnvelope (writeEnvelope (call.args.envelope J) ++ rest)).1 ≠
          .ok (call.args.envelope J)) := by
  obtain ⟨call, hcall⟩ := Node.sendAppendEntries_isSome hlog hnext
  obtain ⟨-, -, -, hidx, -, -, -, hentries, -⟩ := Node.sendAppendEntries_some hcall
  refine ⟨call, hcall, fun rest => readEnvelope_eq_ok_iff (call.args.envelope J) rest,
    fun hlarge rest => readEnvelope_ne_ok J ?_ rest⟩
  rw [AppendEntriesArgs.commandBytes, hentries, hidx, Nat.sub_add_cancel (le_max_right _ _)]
  exact hlarge

/-- A leader of two with three commands of `k` bytes that its peer lacks. -/
def lagging (k : ℕ) : Node :=
  let e : LogEntry := { term := 1, command := some (List.replicate k 0) }
  { Node.newNode [65] [[66]] none none with
    currentTerm := 1, role := .leader, log := [sentinel, e, e, e], nextIndex := fun _ => 1 }

/-- Commands of one byte arrive. -/
theorem append_received_small :
    ∃ call, (lagging 1).sendAppendEntries [66] = some call ∧
      ∀ rest, (readEnvelope (writeEnvelope (call.args.envelope goArgs) ++ rest)).1 =
        .ok (call.args.envelope goArgs) := by
  obtain ⟨call, hcall, hiff, -⟩ :=
    append_received_iff goArgs (n := lagging 1) (p := [66]) (by decide) (by decide)
  have hfit : ((lagging 1).sendAppendEntries [66]).map
      (fun c => decide ((goArgs.marshal c.args).length ≤ maxPayloadSize)) = some true := by
    decide +kernel
  rw [hcall] at hfit
  exact ⟨call, hcall, fun rest => (hiff rest).mpr (of_decide_eq_true (Option.some.inj hfit))⟩

theorem lagging_unreached {k : ℕ} (hk : maxPayloadSize < 3 * k) :
    ∃ call, (lagging k).sendAppendEntries [66] = some call ∧ ∀ J rest,
      (readEnvelope (writeEnvelope (call.args.envelope J) ++ rest)).1 ≠
        .ok (call.args.envelope J) := by
  obtain ⟨call, hcall⟩ := Node.sendAppendEntries_isSome (n := lagging k) (p := [66])
    (Nat.succ_pos _) (Nat.succ_pos _)
  obtain ⟨-, -, -, hidx, -, -, -, hentries, -⟩ := Node.sendAppendEntries_some hcall
  refine ⟨call, hcall, fun J rest => readEnvelope_ne_ok J ?_ rest⟩
  have hidx' : call.args.prevLogIndex = 0 := hidx
  rw [AppendEntriesArgs.commandBytes, hentries, hidx']
  simp [lagging]
  omega

/-- Three commands of 16 MiB, each no longer than the largest value that the server
accepts, are one request that no peer reads. -/
theorem lagging_peer_unreached :
    ∃ call, (lagging (2 ^ 24)).sendAppendEntries [66] = some call ∧ ∀ J rest,
      (readEnvelope (writeEnvelope (call.args.envelope J) ++ rest)).1 ≠
        .ok (call.args.envelope J) :=
  lagging_unreached (by decide)

end KVEngine.Raft
