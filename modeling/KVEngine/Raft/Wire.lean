import KVEngine.Foundation.JsonValue
import KVEngine.Raft.Envelope

/-!
# Messages on the wire

The requests and replies of `internal/raft/tcp_transport.go` as `encoding/json` writes and
reads them: structs without tags, so that the members have the names of the fields, and
terms and indices of 64 bits. A message is read back as it was, with its id made well
formed, exactly when its numbers fit.
-/

namespace KVEngine.Raft

open Foundation.Text (text)
open Foundation.Json (Codec uint64Member stringMember boolMember bytesMember Value
  store_uint64Member store_stringMember store_boolMember store_bytesMember)
open Foundation.Utf8 (coerce Valid coerce_eq_iff)

/-! ## §1  The messages -/

def LogEntry.codec : Codec 0 LogEntry where
  members := [uint64Member (text "Term") LogEntry.term fun e n => { e with term := n },
    bytesMember (text "Command") LogEntry.command fun e c => { e with command := c }]
  zero := { term := 0, command := none }
  nodup := by decide +kernel
  valid := by decide +kernel

def RequestVoteArgs.codec : Codec 0 RequestVoteArgs where
  members := [uint64Member (text "Term") RequestVoteArgs.term fun a n => { a with term := n },
    stringMember (text "CandidateId") RequestVoteArgs.candidateId
      fun a s => { a with candidateId := s },
    uint64Member (text "LastLogIndex") RequestVoteArgs.lastLogIndex
      fun a n => { a with lastLogIndex := n },
    uint64Member (text "LastLogTerm") RequestVoteArgs.lastLogTerm
      fun a n => { a with lastLogTerm := n }]
  zero := { term := 0, candidateId := [], lastLogIndex := 0, lastLogTerm := 0 }
  nodup := by decide +kernel
  valid := by decide +kernel

def RequestVoteReply.codec : Codec 0 RequestVoteReply where
  members := [uint64Member (text "Term") RequestVoteReply.term fun a n => { a with term := n },
    boolMember (text "VoteGranted") RequestVoteReply.voteGranted
      fun a b => { a with voteGranted := b }]
  zero := { term := 0, voteGranted := false }
  nodup := by decide +kernel
  valid := by decide +kernel

def AppendEntriesArgs.codec : Codec 2 AppendEntriesArgs where
  members := [uint64Member (text "Term") AppendEntriesArgs.term fun a n => { a with term := n },
    stringMember (text "LeaderId") AppendEntriesArgs.leaderId fun a s => { a with leaderId := s },
    uint64Member (text "PrevLogIndex") AppendEntriesArgs.prevLogIndex
      fun a n => { a with prevLogIndex := n },
    uint64Member (text "PrevLogTerm") AppendEntriesArgs.prevLogTerm
      fun a n => { a with prevLogTerm := n },
    LogEntry.codec.sliceMember (text "Entries") AppendEntriesArgs.entries
      fun a es => { a with entries := es },
    uint64Member (text "LeaderCommit") AppendEntriesArgs.leaderCommit
      fun a n => { a with leaderCommit := n }]
  zero :=
    { term := 0, leaderId := [], prevLogIndex := 0, prevLogTerm := 0, entries := [],
      leaderCommit := 0 }
  nodup := by decide +kernel
  valid := by decide +kernel

def AppendEntriesReply.codec : Codec 0 AppendEntriesReply where
  members := [uint64Member (text "Term") AppendEntriesReply.term fun a n => { a with term := n },
    boolMember (text "Success") AppendEntriesReply.success fun a b => { a with success := b },
    uint64Member (text "ConflictIndex") AppendEntriesReply.conflictIndex
      fun a n => { a with conflictIndex := n },
    uint64Member (text "ConflictTerm") AppendEntriesReply.conflictTerm
      fun a n => { a with conflictTerm := n }]
  zero := { term := 0, success := false, conflictIndex := 0, conflictTerm := 0 }
  nodup := by decide +kernel
  valid := by decide +kernel

/-- The codec writes what `goArgs` says. -/
theorem AppendEntriesArgs.codec_marshal (args : AppendEntriesArgs) :
    AppendEntriesArgs.codec.marshal args = goArgs.marshal args := rfl

/-! ## §2  Round trips -/

def LogEntry.Fits (e : LogEntry) : Prop := e.term < 2 ^ 64

def RequestVoteArgs.Fits (args : RequestVoteArgs) : Prop :=
  args.term < 2 ^ 64 ∧ args.lastLogIndex < 2 ^ 64 ∧ args.lastLogTerm < 2 ^ 64

def RequestVoteReply.Fits (reply : RequestVoteReply) : Prop := reply.term < 2 ^ 64

def AppendEntriesArgs.Fits (args : AppendEntriesArgs) : Prop :=
  args.term < 2 ^ 64 ∧ args.prevLogIndex < 2 ^ 64 ∧ args.prevLogTerm < 2 ^ 64 ∧
    (∀ e ∈ args.entries, e.Fits) ∧ args.leaderCommit < 2 ^ 64

def AppendEntriesReply.Fits (reply : AppendEntriesReply) : Prop :=
  reply.term < 2 ^ 64 ∧ reply.conflictIndex < 2 ^ 64 ∧ reply.conflictTerm < 2 ^ 64

instance (e : LogEntry) : Decidable e.Fits := inferInstanceAs (Decidable (_ < _))

instance (args : RequestVoteArgs) : Decidable args.Fits := inferInstanceAs (Decidable (_ ∧ _))

instance (reply : RequestVoteReply) : Decidable reply.Fits := inferInstanceAs (Decidable (_ < _))

instance (args : AppendEntriesArgs) : Decidable args.Fits := inferInstanceAs (Decidable (_ ∧ _))

instance (reply : AppendEntriesReply) : Decidable reply.Fits :=
  inferInstanceAs (Decidable (_ ∧ _))

theorem LogEntry.stored_eq (e : LogEntry) :
    LogEntry.codec.stored e = if e.Fits then some e else none := by
  unfold Codec.stored LogEntry.codec
  simp only [List.foldlM_cons, List.foldlM_nil, store_uint64Member, store_bytesMember]
  by_cases h : e.term < 2 ^ 64
  · rw [if_pos h, if_pos (show e.Fits from h)]
    rfl
  · rw [if_neg h, if_neg (show ¬ e.Fits from h)]
    rfl

theorem mapM_stored (es : List LogEntry) :
    es.mapM LogEntry.codec.stored = if ∀ e ∈ es, e.Fits then some es else none := by
  induction es with
  | nil => rfl
  | cons e es ih =>
      rw [List.mapM_cons, ih, LogEntry.stored_eq]
      by_cases he : e.Fits
      · by_cases hes : ∀ e ∈ es, e.Fits
        · rw [if_pos he, if_pos hes, if_pos (List.forall_mem_cons.mpr ⟨he, hes⟩)]
          rfl
        · rw [if_pos he, if_neg hes, if_neg fun h => hes (List.forall_mem_cons.mp h).2]
          rfl
      · rw [if_neg he, if_neg fun h => he (List.forall_mem_cons.mp h).1]
        rfl

/-- A number that does not fit ends the decoding, whatever comes after it. -/
theorem bind_ite {α β : Type} {p : Prop} [Decidable p] (x : α) (f : α → Option β) :
    ((if p then some x else none).bind f) = if p then f x else none := by
  split <;> rfl

theorem RequestVoteArgs.unmarshal_marshal (args : RequestVoteArgs) :
    RequestVoteArgs.codec.unmarshal (RequestVoteArgs.codec.marshal args) =
      if args.Fits then some { args with candidateId := coerce args.candidateId } else none := by
  rw [Codec.unmarshal_marshal _ (by decide)]
  unfold Codec.stored RequestVoteArgs.codec
  simp only [List.foldlM_cons, List.foldlM_nil, store_uint64Member, store_stringMember,
    Option.bind_eq_bind, bind_ite, Option.bind_some, Option.pure_def, ← ite_and]
  rfl

theorem RequestVoteReply.unmarshal_marshal (reply : RequestVoteReply) :
    RequestVoteReply.codec.unmarshal (RequestVoteReply.codec.marshal reply) =
      if reply.Fits then some reply else none := by
  rw [Codec.unmarshal_marshal _ (by decide)]
  unfold Codec.stored RequestVoteReply.codec
  simp only [List.foldlM_cons, List.foldlM_nil, store_uint64Member, store_boolMember,
    Option.bind_eq_bind, bind_ite, Option.bind_some, Option.pure_def]
  rfl

theorem AppendEntriesArgs.unmarshal_marshal (args : AppendEntriesArgs) :
    AppendEntriesArgs.codec.unmarshal (goArgs.marshal args) =
      if args.Fits then some { args with leaderId := coerce args.leaderId } else none := by
  rw [← codec_marshal, Codec.unmarshal_marshal _ (by decide)]
  unfold Codec.stored AppendEntriesArgs.codec
  simp only [List.foldlM_cons, List.foldlM_nil, store_uint64Member, store_stringMember,
    Codec.store_sliceMember, mapM_stored, Option.map_if, Option.bind_eq_bind, bind_ite,
    Option.bind_some, Option.pure_def, ← ite_and]
  rfl

theorem AppendEntriesReply.unmarshal_marshal (reply : AppendEntriesReply) :
    AppendEntriesReply.codec.unmarshal (AppendEntriesReply.codec.marshal reply) =
      if reply.Fits then some reply else none := by
  rw [Codec.unmarshal_marshal _ (by decide)]
  unfold Codec.stored AppendEntriesReply.codec
  simp only [List.foldlM_cons, List.foldlM_nil, store_uint64Member, store_boolMember,
    Option.bind_eq_bind, bind_ite, Option.bind_some, Option.pure_def, ← ite_and]
  rfl

end KVEngine.Raft
