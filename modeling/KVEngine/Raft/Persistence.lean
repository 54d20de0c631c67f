import KVEngine.Foundation.Run
import KVEngine.Foundation.Utf8
import KVEngine.Raft.NodeSpec

/-!
# The state file

A node by itself: any sequence of its critical sections, with whatever the other
side sends. When every file operation succeeds, the state file holds term, vote
and log as they are in memory whenever the lock is free, so a restart gives them
back (`state_persisted`).

The handlers ignore the error of `persist`. When it fails they answer all the
same, and the answer is ahead of the disk (`reply_ahead_of_file`); what is on disk
behind each answer is said by `reply_on_disk`.
-/

namespace KVEngine.Raft

open Foundation (Run splice Stores)
open Foundation.Utf8 (Valid)

/-! ## §1  Critical sections -/

/-- What makes a node move: a timer, an RPC, a reply with what the goroutine that
waits for it captured, a client, the apply loop. -/
inductive Input : Type where
  | startElection
  | requestVote (args : RequestVoteArgs)
  | appendEntries (args : AppendEntriesArgs)
  | voteReply (term election : ℕ) (reply : RequestVoteReply)
  | appendReply (peer : NodeId) (args : AppendEntriesArgs) (reply : AppendEntriesReply)
  | propose (command : Option Bytes)
  /-- `marshals`: whether the data is the JSON text that `writeSnapshot` needs. -/
  | takeSnapshot (marshals : Bool) (upToIndex : ℕ) (data : Bytes)
  | applyWake
  | applyTake
  | applySend
deriving DecidableEq

/-- The candidates of a request for a vote. -/
def Input.candidates : Input → List NodeId
  | .requestVote args => [args.candidateId]
  | _ => []

namespace Node

/-- One critical section, every file operation succeeding. -/
def handle (incr : ℕ → ℕ) (n : Node) : Input → Option Node
  | .startElection => (n.startElection incr true).map Prod.fst
  | .requestVote args => (n.handleRequestVote (fun _ => true) args).map Prod.fst
  | .appendEntries args => (n.handleAppendEntries (fun _ => true) args).map Prod.fst
  | .voteReply term election reply => (n.handleVoteReply true term election reply).map Prod.fst
  | .appendReply peer args reply => (n.handleAppendReply true peer args reply).map Prod.fst
  | .propose command => (n.propose true command).map Prod.fst
  | .takeSnapshot marshals upToIndex data =>
      (n.takeSnapshot marshals true upToIndex data).map Prod.fst
  | .applyWake => n.applyWake
  | .applyTake => n.applyTake
  | .applySend => n.applySend.map Prod.fst

/-- The step persisted what it left behind, or changed nothing that is persisted. A
vote is for nobody, the node itself, whom it was for before, or who asked. -/
structure Saves (asked : List NodeId) (n n' : Node) : Prop where
  id : n'.id = n.id
  peers : n'.peers = n.peers
  log : n.log ≠ [] → n'.log ≠ []
  vote : n'.votedFor ∈ [] :: n.id :: n.votedFor :: asked
  files : n'.stateFile = some n'.persistentState ∨
    (n'.stateFile = n.stateFile ∧ n'.persistentState = n.persistentState ∧
      n'.snapshotFile = n.snapshotFile)

section Saves

variable {asked : List NodeId} {n m n' : Node}

/-- Only memory that is not persisted has changed. -/
theorem Saves.of_same (hid : n'.id = n.id) (hpeers : n'.peers = n.peers)
    (hps : n'.persistentState = n.persistentState) (hst : n'.stateFile = n.stateFile)
    (hsf : n'.snapshotFile = n.snapshotFile) : Saves asked n n' := by
  refine ⟨hid, hpeers, fun hlog => ?_, ?_, Or.inr ⟨hst, hps, hsf⟩⟩
  · have : n'.log = n.log := congrArg PersistentState.log hps
    rwa [this]
  · have : n'.votedFor = n.votedFor := congrArg PersistentState.votedFor hps
    simp [this]

theorem Saves.refl (n : Node) : Saves asked n n := .of_same rfl rfl rfl rfl rfl

theorem Saves.trans (h : Saves asked n m) (h' : Saves asked m n') : Saves asked n n' := by
  refine ⟨h'.id.trans h.id, h'.peers.trans h.peers, fun hlog => h'.log (h.log hlog), ?_, ?_⟩
  · have hvote := h'.vote
    rw [h.id] at hvote
    simp only [List.mem_cons] at hvote ⊢
    rcases hvote with hnone | hself | hsame | hasked
    · exact Or.inl hnone
    · exact Or.inr (Or.inl hself)
    · rw [hsame]
      simpa only [List.mem_cons] using h.vote
    · exact Or.inr (Or.inr (Or.inr hasked))
  · rcases h'.files with hnew | ⟨hst, hps, hsf⟩
    · exact Or.inl hnew
    · rw [hst, hps, hsf]
      exact h.files

theorem saves_persist (hid : m.id = n.id) (hpeers : m.peers = n.peers)
    (hlog : n.log ≠ [] → m.log ≠ []) (hvote : m.votedFor ∈ [] :: n.id :: n.votedFor :: asked) :
    Saves asked n (persist true m) :=
  ⟨hid, hpeers, hlog, hvote, Or.inl rfl⟩

theorem saves_becomeFollower (n : Node) (t : ℕ) : Saves asked n (n.becomeFollower true t) :=
  saves_persist rfl rfl (fun h => h) List.mem_cons_self

theorem saves_adoptTerm (n : Node) (t : ℕ) : Saves asked n (n.adoptTerm true t) :=
  adoptTerm_rule (fun _ => saves_becomeFollower n t) (Saves.refl n)

theorem saves_follow (n : Node) (args : AppendEntriesArgs) : Saves asked n (n.follow true args) :=
  (saves_becomeFollower n args.term).trans (.of_same rfl rfl rfl rfl rfl)

theorem saves_followCommit (n : Node) (args : AppendEntriesArgs) :
    Saves asked n (n.followCommit args) := by
  obtain ⟨hid, hpeers, hterm, hvote, -, hlog, -, -, -, hsf, -, hst⟩ := n.followCommit_rest args
  refine .of_same hid hpeers ?_ hst hsf
  rw [persistentState, persistentState, hterm, hvote, hlog]

/-- The log part of an accepted request is persisted, or there is none. -/
theorem saves_appendAndPersist {args : AppendEntriesArgs}
    (hprev : args.prevLogIndex < n.log.length) : Saves asked n (n.appendAndPersist true args) := by
  cases hes : args.entries with
  | nil =>
      have hsame : n.appendAndPersist true args = n := by
        rw [appendAndPersist, hes]
        rfl
      rw [hsame]
      exact Saves.refl n
  | cons e es =>
      have hnew : n.appendAndPersist true args =
          persist true
            { n with log := appendLoop n.log (args.prevLogIndex + 1) args.entries } := by
        rw [appendAndPersist, hes]
        rfl
      rw [hnew]
      refine saves_persist rfl rfl (fun hlog (hnil : appendLoop _ _ _ = []) => hlog ?_) (by simp)
      -- below the first new index the log is as it was
      have hsplice : (splice LogEntry.term n.log (args.prevLogIndex + 1) args.entries)[0]? =
          n.log[0]? := Foundation.splice_getElem?_lt hprev (Nat.succ_pos _)
      rw [← appendLoop_eq_splice, hnil] at hsplice
      have hlen : n.log.length ≤ 0 := List.getElem?_eq_none_iff.mp hsplice.symm
      exact List.eq_nil_of_length_eq_zero (Nat.le_zero.mp hlen)

theorem saves_advanceCommitFrom (n : Node) (idx : ℕ) : Saves asked n (n.advanceCommitFrom idx) := by
  rcases n.advanceCommitFrom_cases idx with h | ⟨k, -, -, -, -, h⟩
  · rw [h]
    exact Saves.refl n
  · rw [h]
    exact .of_same rfl rfl rfl rfl rfl

theorem saves_takeSnapshot {marshals b : Bool} {k : ℕ} {data : Bytes}
    (h : n.takeSnapshot marshals true k data = some (n', b)) : Saves asked n n' := by
  rcases takeSnapshot_outcome h with rfl | ⟨last, rfl⟩
  · exact Saves.refl n'
  · exact saves_persist rfl rfl (fun _ => List.cons_ne_nil _ _) (by simp)

/-- **Every critical section saves.** -/
theorem handle_saves {incr : ℕ → ℕ} {a : Input} (h : n.handle incr a = some n') :
    Saves a.candidates n n' := by
  cases a with
  | startElection =>
      obtain ⟨⟨m, calls⟩, hm, rfl⟩ := Option.map_eq_some_iff.mp h
      obtain ⟨e, -, rfl, -⟩ := startElection_some hm
      have hcampaign : Saves [] n (n.campaign incr true) :=
        saves_persist rfl rfl (fun h => h) (by simp)
      exact hcampaign.trans (.of_same rfl rfl rfl rfl rfl)
  | requestVote args =>
      obtain ⟨⟨m, reply⟩, hm, rfl⟩ := Option.map_eq_some_iff.mp h
      have hadopt : Saves [args.candidateId] n (n.adoptTerm true args.term) :=
        saves_adoptTerm n args.term
      rcases handleRequestVote_cases hm with ⟨-, rfl, -⟩ |
        ⟨-, lastIdx, lastTerm, -, ⟨-, rfl, -⟩ | ⟨-, rfl, -⟩⟩
      · exact Saves.refl _
      · exact hadopt.trans (saves_persist rfl rfl (fun h => h) (by simp))
      · exact hadopt
  | appendEntries args =>
      obtain ⟨⟨m, reply⟩, hm, rfl⟩ := Option.map_eq_some_iff.mp h
      have hfollow : Saves [] n (n.follow true args) := saves_follow n args
      rcases handleAppendEntries_cases hm with ⟨-, rfl, -⟩ |
        ⟨-, ⟨-, rfl, -⟩ | ⟨prev, hprev, ⟨-, rfl, -⟩ | ⟨-, rfl, -⟩⟩⟩
      · exact Saves.refl _
      · exact hfollow
      · exact hfollow
      · refine (hfollow.trans (saves_appendAndPersist ?_)).trans (saves_followCommit _ _)
        rw [follow_log]
        exact (List.getElem?_eq_some_iff.mp hprev).1
  | voteReply term election reply =>
      obtain ⟨⟨m, calls⟩, hm, rfl⟩ := Option.map_eq_some_iff.mp h
      rcases handleVoteReply_cases hm with ⟨-, rfl, -⟩ | ⟨rfl, -⟩ |
        ⟨-, -, -, ⟨-, rfl, -⟩ | ⟨-, rfl, -⟩⟩
      · exact saves_becomeFollower _ _
      · exact Saves.refl _
      · exact .of_same rfl rfl rfl rfl rfl
      · exact .of_same rfl rfl rfl rfl rfl
  | appendReply peer args reply =>
      obtain ⟨⟨m, calls⟩, hm, rfl⟩ := Option.map_eq_some_iff.mp h
      rcases handleAppendReply_cases hm with ⟨-, rfl, -⟩ | ⟨rfl, -⟩ |
        ⟨-, -, -, ⟨-, -, rfl⟩ | ⟨-, rfl, -⟩⟩
      · exact saves_becomeFollower _ _
      · exact Saves.refl _
      · have hmatch : Saves [] n (n.recordMatch peer args) := .of_same rfl rfl rfl rfl rfl
        exact hmatch.trans (saves_advanceCommitFrom _ _)
      · exact .of_same rfl rfl rfl rfl rfl
  | propose command =>
      obtain ⟨⟨m, calls, idx, term, isLeader⟩, hm, rfl⟩ := Option.map_eq_some_iff.mp h
      rcases propose_cases hm with ⟨-, rfl, -⟩ | ⟨-, rfl, -⟩
      · exact Saves.refl _
      · refine saves_persist rfl rfl (fun _ => ?_) (by simp)
        exact List.append_ne_nil_of_right_ne_nil _ (List.cons_ne_nil _ _)
  | takeSnapshot marshals upToIndex data =>
      obtain ⟨⟨m, b⟩, hm, rfl⟩ := Option.map_eq_some_iff.mp h
      exact saves_takeSnapshot hm
  | applyWake =>
      rw [handle, applyWake] at h
      split at h
      · cases h
        exact .of_same rfl rfl rfl rfl rfl
      · cases h
  | applyTake =>
      obtain ⟨-, ⟨-, e, pc, -, rfl, -⟩ | ⟨-, rfl⟩⟩ := applyTake_cases h
      · exact .of_same rfl rfl rfl rfl rfl
      · exact .of_same rfl rfl rfl rfl rfl
  | applySend =>
      obtain ⟨⟨m, msg⟩, hm, rfl⟩ := Option.map_eq_some_iff.mp h
      obtain ⟨-, rfl⟩ := applySend_some hm
      exact .of_same rfl rfl rfl rfl rfl

end Saves

end Node

/-! ## §2  The file behind the node -/

/-- What `encoding/json` makes of `persistentState`: it comes back if the one
string in it is UTF-8. -/
structure Format (F : Type) where
  marshal : PersistentState → F
  unmarshal : F → Option PersistentState
  unmarshal_marshal : ∀ ps, Valid ps.votedFor → unmarshal (marshal ps) = some ps

/-- A node and its state file. The field `stateFile` of the node is only what the
critical section in progress has written. -/
structure Process (F : Type) where
  node : Node
  file : Option F

namespace Process

variable {F : Type} (json : Format F)

/-- The lock is released with the node in state `n`. -/
def release (p : Process F) (n : Node) : Process F :=
  { node := { n with stateFile := none }
    file :=
      match n.stateFile with
      | some ps => some (json.marshal ps)
      | none => p.file }

/-- `NewNode` with what the state file decoded to. -/
def start (p : Process F) (stateFile : Option PersistentState) : Process F :=
  { p with
    node :=
      { Node.newNode p.node.id p.node.peers stateFile p.node.snapshotFile with
        stateFile := none } }

/-- `NewNode` on the two files; `none` is its error for a state file that cannot
be decoded. -/
def restart (p : Process F) : Option (Process F) :=
  match p.file with
  | none => some (p.start none)
  | some file => (json.unmarshal file).map fun ps => p.start (some ps)

inductive Action : Type where
  | input (a : Input)
  | restart
deriving DecidableEq

def step (incr : ℕ → ℕ) (p : Process F) : Action → Option (Process F)
  | .input a => (p.node.handle incr a).map (p.release json)
  | .restart => p.restart json

/-- A fresh node without files. -/
def initial (id : NodeId) (peers : List NodeId) : Process F :=
  { node := Node.newNode id peers none none, file := none }

/-- Candidates have UTF-8 ids. -/
def ValidIds : Process F → Action → Prop
  | _, .input a => ∀ c ∈ a.candidates, Valid c
  | _, .restart => True

instance (p : Process F) (a : Action) : Decidable (ValidIds p a) :=
  match a with
  | .input a => inferInstanceAs (Decidable (∀ c ∈ a.candidates, Valid c))
  | .restart => isTrue trivial

/-- Memory as a fresh node has it. -/
def Fresh (n : Node) : Prop := n.persistentState = ⟨0, [], [sentinel]⟩

/-- The file holds term, vote and log as they are in memory. -/
structure Persisted (p : Process F) : Prop where
  released : p.node.stateFile = none
  log : p.node.log ≠ []
  ids : Valid p.node.id ∧ Valid p.node.votedFor
  file : p.file = some (json.marshal p.node.persistentState) ∨
    (p.file = none ∧ Fresh p.node ∧ p.node.snapshotFile = none)

variable {json} {incr : ℕ → ℕ} {p p' : Process F}

theorem persisted_initial {id : NodeId} (hid : Valid id) (peers : List NodeId) :
    Persisted json (initial id peers) :=
  ⟨rfl, List.cons_ne_nil _ _, ⟨hid, rfl⟩, Or.inr ⟨rfl, rfl, rfl⟩⟩

theorem newNode_files (id : NodeId) (peers : List NodeId) (stateFile : Option PersistentState)
    (snapshotFile : Option Snapshot) :
    (Node.newNode id peers stateFile snapshotFile).id = id ∧
      (Node.newNode id peers stateFile snapshotFile).snapshotFile = snapshotFile := by
  unfold Node.newNode
  dsimp only
  split <;> cases stateFile <;> cases snapshotFile <;> exact ⟨rfl, rfl⟩

/-- The state file overrides whatever the snapshot says about the log. -/
theorem newNode_some (id : NodeId) (peers : List NodeId) {ps : PersistentState}
    (hlog : ps.log ≠ []) (snapshotFile : Option Snapshot) :
    (Node.newNode id peers (some ps) snapshotFile).persistentState = ps := by
  have hlen : ps.log.length ≠ 0 := fun h => hlog (List.eq_nil_of_length_eq_zero h)
  have hnew : Node.newNode id peers (some ps) snapshotFile =
      (Node.blank id peers (some ps) snapshotFile).restoreSnapshot.restoreState := by
    cases snapshotFile <;> exact if_neg hlen
  rw [hnew]
  cases snapshotFile <;> rfl

theorem Persisted.start (h : Persisted json p) {stateFile : Option PersistentState}
    (hps : (p.start stateFile).node.persistentState = p.node.persistentState) :
    Persisted json (p.start stateFile) := by
  obtain ⟨hid, hsnap⟩ := newNode_files p.node.id p.node.peers stateFile p.node.snapshotFile
  have hlog : (p.start stateFile).node.log = p.node.log := congrArg PersistentState.log hps
  have hvote : (p.start stateFile).node.votedFor = p.node.votedFor :=
    congrArg PersistentState.votedFor hps
  refine ⟨rfl, ?_, ⟨?_, ?_⟩, ?_⟩
  · rw [hlog]
    exact h.log
  · show Valid (Node.newNode p.node.id p.node.peers stateFile p.node.snapshotFile).id
    rw [hid]
    exact h.ids.1
  · rw [hvote]
    exact h.ids.2
  · rw [hps, Fresh, hps]
    show _ ∨ _ ∧ _ ∧
      (Node.newNode p.node.id p.node.peers stateFile p.node.snapshotFile).snapshotFile = none
    rw [hsnap]
    exact h.file

/-- **Restart.** Term, vote and log come back. -/
theorem Persisted.restart (h : Persisted json p) :
    ∃ q, p.restart json = some q ∧ q.node.persistentState = p.node.persistentState ∧
      Persisted json q := by
  rcases h.file with hfile | ⟨hfile, hfresh, hsnap⟩
  · have hps : (p.start (some p.node.persistentState)).node.persistentState =
        p.node.persistentState := newNode_some _ _ h.log _
    refine ⟨_, ?_, hps, h.start hps⟩
    rw [Process.restart, hfile]
    show (json.unmarshal _).map _ = _
    rw [json.unmarshal_marshal _ h.ids.2]
    rfl
  · have hps : (p.start none).node.persistentState = p.node.persistentState := by
      rw [Process.start, hsnap, hfresh]
      rfl
    refine ⟨_, ?_, hps, h.start hps⟩
    rw [Process.restart, hfile]

theorem Persisted.release {n : Node} {asked : List NodeId} (h : Persisted json p)
    (hn : Node.Saves asked p.node n) (hasked : ∀ c ∈ asked, Valid c) :
    Persisted json (p.release json n) := by
  have hvote : Valid n.votedFor := by
    have := hn.vote
    simp only [List.mem_cons] at this
    rcases this with hnone | hself | hsame | hc
    · rw [hnone]
      rfl
    · rw [hself]
      exact h.ids.1
    · rw [hsame]
      exact h.ids.2
    · exact hasked _ hc
  refine ⟨rfl, hn.log h.log, ⟨?_, hvote⟩, ?_⟩
  · show Valid n.id
    rw [hn.id]
    exact h.ids.1
  · rcases hn.files with hnew | ⟨hst, hps, hsf⟩
    · left
      show (match n.stateFile with
        | some ps => some (json.marshal ps)
        | none => p.file) = some (json.marshal n.persistentState)
      rw [hnew]
    · have hsame : (p.release json n).file = p.file := by
        rw [Process.release, hst, h.released]
      have hmem : (p.release json n).node.persistentState = p.node.persistentState := hps
      rw [hsame, hmem, Fresh, hmem]
      show _ ∨ _ ∧ _ ∧ n.snapshotFile = none
      rw [hsf]
      exact h.file

theorem Persisted.step {a : Action} (h : Persisted json p) (hC : ValidIds p a)
    (hstep : p.step json incr a = some p') : Persisted json p' := by
  cases a with
  | input a =>
      obtain ⟨n, hn, rfl⟩ := Option.map_eq_some_iff.mp hstep
      exact h.release (Node.handle_saves hn) hC
  | restart =>
      obtain ⟨q, hq, -, hpersisted⟩ := h.restart
      obtain rfl : q = p' := Option.some.inj (hq.symm.trans hstep)
      exact hpersisted

/-- **Every state change is persisted.** Whatever the inputs, with every file
operation succeeding: between critical sections the state file decodes to the
node's term, vote and log, or there is no file and they are those of a fresh node.
So a crash followed by `NewNode` gives back exactly these three. -/
theorem state_persisted {id : NodeId} {peers : List NodeId} {as : List Action} (hid : Valid id)
    (hrun : Run (Process.step json incr) ValidIds (initial id peers) as p) :
    ((∃ file, p.file = some file ∧ json.unmarshal file = some p.node.persistentState) ∨
      (p.file = none ∧ p.node.currentTerm = 0 ∧ p.node.votedFor = [] ∧
        p.node.log = [sentinel])) ∧
    ∃ q, p.restart json = some q ∧ q.node.currentTerm = p.node.currentTerm ∧
      q.node.votedFor = p.node.votedFor ∧ q.node.log = p.node.log := by
  have h : Persisted json p := hrun.invariant (persisted_initial hid peers) Persisted.step
  refine ⟨?_, ?_⟩
  · rcases h.file with hfile | ⟨hfile, hfresh, -⟩
    · exact Or.inl ⟨_, hfile, json.unmarshal_marshal _ h.ids.2⟩
    · exact Or.inr ⟨hfile, congrArg PersistentState.currentTerm hfresh,
        congrArg PersistentState.votedFor hfresh, congrArg PersistentState.log hfresh⟩
  · obtain ⟨q, hq, hps, -⟩ := h.restart
    exact ⟨q, hq, congrArg PersistentState.currentTerm hps,
      congrArg PersistentState.votedFor hps, congrArg PersistentState.log hps⟩

/-- The state file as the struct itself. -/
def plainFormat : Format PersistentState where
  marshal := id
  unmarshal := some
  unmarshal_marshal _ _ := rfl

/-- `A` votes for `B`, stores two entries of `B`, snapshots the first, restarts and
campaigns. -/
theorem state_persisted_snapshot :
    let as : List Action :=
      [.input (.requestVote ⟨1, [66], 0, 0⟩),
        .input (.appendEntries ⟨1, [66], 0, 0, [⟨1, some [7]⟩, ⟨1, some [8]⟩], 1⟩),
        .input (.takeSnapshot true 1 [123, 125]), .restart, .input .startElection]
    let p := Foundation.endState (step plainFormat (· + 1)) ValidIds (initial [65] [[66]]) as
    p.node.persistentState = ⟨2, [65], [⟨1, none⟩, ⟨1, some [8]⟩]⟩ ∧
      ∃ q, p.restart plainFormat = some q ∧ q.node.currentTerm = p.node.currentTerm ∧
        q.node.votedFor = p.node.votedFor ∧ q.node.log = p.node.log := by
  intro as p
  have hrun : Run (step plainFormat (· + 1)) ValidIds (initial [65] [[66]]) as p :=
    Foundation.run_endState (by decide +kernel)
  exact ⟨by decide +kernel, (state_persisted (by decide) hrun).2⟩

end Process

/-! ## §3  Answers and the disk -/

namespace Node

/-- The state file says what memory says. -/
def Matches (n : Node) : Prop :=
  n.stateFile = some n.persistentState ∨
    (n.stateFile = none ∧ n.persistentState = ⟨0, [], [sentinel]⟩)

instance (n : Node) : Decidable n.Matches := inferInstanceAs (Decidable (_ ∨ _))

/-- The log in the state file. -/
def diskLog (n : Node) : List LogEntry :=
  match n.stateFile with
  | some ps => ps.log
  | none => []

/-- The state file holds a vote for the candidate in the term of its request. -/
def VoteOnDisk (n : Node) (args : RequestVoteArgs) : Prop :=
  ∃ ps ∈ n.stateFile, ps.currentTerm = args.term ∧ ps.votedFor = args.candidateId

instance (n : Node) (args : RequestVoteArgs) : Decidable (n.VoteOnDisk args) :=
  inferInstanceAs (Decidable (∃ ps ∈ n.stateFile, _))

/-- The log has every entry of the request at its index. -/
def HoldsEntries (log : List LogEntry) (args : AppendEntriesArgs) : Prop :=
  ∀ (k : ℕ) (e : LogEntry), args.entries[k]? = some e →
    log[args.prevLogIndex + 1 + k]? = some e

/-- Up to the first index where the log ends or has another term, where the loop skips
the entries of the request, it has them. -/
def NoClash (log : List LogEntry) (args : AppendEntriesArgs) : Prop :=
  ∀ (k : ℕ) (e : LogEntry), args.entries[k]? = some e →
    (∀ j ≤ k, Stores LogEntry.term log (args.prevLogIndex + 1) args.entries j) →
    log[args.prevLogIndex + 1 + k]? = some e

/-- The vote is in the state file by itself: it was there, or the term is new and a first
`persist` that goes through writes it with no vote, for a candidate without a name. -/
def AlreadyVoted (n : Node) (ok : Bool) (args : RequestVoteArgs) : Prop :=
  n.VoteOnDisk args ∨ n.currentTerm < args.term ∧ ok = true ∧ args.candidateId = []

/-- Every `persist` fails, and every answer is given all the same: a vote, an
accepted entry and an accepted proposal of which the file does not know. -/
theorem reply_ahead_of_file :
    let file : PersistentState := ⟨1, [65], [sentinel]⟩
    let n := newNode [65] [[66]] (some file) none
    let leader := { n with role := .leader }
    let entry : LogEntry := ⟨2, some [7]⟩
    let fails : ℕ → Bool := fun _ => false
    (n.Matches ∧ leader.Matches) ∧
      (n.handleRequestVote fails ⟨2, [66], 0, 0⟩).map
          (fun r => (r.2.term, r.2.voteGranted, r.1.stateFile)) =
        some (2, true, some file) ∧
      (n.handleAppendEntries fails ⟨2, [66], 0, 0, [entry], 0⟩).map
          (fun r => (r.2.success, r.1.log, r.1.stateFile)) =
        some (true, [sentinel, entry], some file) ∧
      (leader.propose false (some [7])).map (fun r => (r.2.2.1, r.2.2.2.2, r.1.stateFile)) =
        some (1, true, some file) := by
  decide +kernel

section Replies

variable {n n' : Node}

theorem persist_stateFile (ok : Bool) (n : Node) :
    (persist ok n).stateFile = if ok then some n.persistentState else n.stateFile := by
  unfold persist
  split <;> rfl

/-- In a node whose file matches, the log on disk is the one in memory, or there is
no file and none but the sentinel. -/
theorem Matches.diskLog (h : n.Matches) :
    n.diskLog = n.log ∨ (n.diskLog = [] ∧ n.log = [sentinel]) := by
  unfold Node.diskLog
  rcases h with hst | ⟨hst, hps⟩
  · rw [hst]
    exact Or.inl rfl
  · rw [hst]
    exact Or.inr ⟨rfl, congrArg PersistentState.log hps⟩

theorem Matches.diskLog_getElem? (h : n.Matches) {idx : ℕ} (hidx : 0 < idx) :
    n.diskLog[idx]? = n.log[idx]? := by
  rcases h.diskLog with hsame | ⟨hnil, hlog⟩
  · rw [hsame]
  · rw [hnil, hlog, List.getElem?_eq_none (Nat.zero_le _)]
    exact (List.getElem?_eq_none hidx).symm

/-- A file that matches holds the vote in no other term than the node is in. -/
theorem Matches.voteOnDisk_term (h : n.Matches) {args : RequestVoteArgs}
    (hv : n.VoteOnDisk args) : n.currentTerm = args.term := by
  obtain ⟨ps, hps, hterm, -⟩ := hv
  rcases h with hst | ⟨hst, -⟩
  · cases Option.some.inj (hst.symm.trans hps)
    exact hterm
  · cases hst.symm.trans hps

theorem Matches.voteOnDisk_adoptTerm (h : n.Matches) (ok : Bool) (args : RequestVoteArgs) :
    (n.adoptTerm ok args.term).VoteOnDisk args ↔ n.AlreadyVoted ok args := by
  unfold adoptTerm AlreadyVoted
  split
  · rename_i hnew
    have hold : ¬ n.VoteOnDisk args := fun hv => hnew.ne (h.voteOnDisk_term hv)
    rw [or_iff_right hold, VoteOnDisk, becomeFollower, persist_stateFile]
    cases ok with
    | true => simp [hnew, persistentState, eq_comm]
    | false => simpa [VoteOnDisk] using hold
  · rename_i hold
    exact ⟨Or.inl, fun hv => hv.resolve_right fun hnew => hold hnew.1⟩

theorem vote_on_disk (hm : n.Matches) {ok : ℕ → Bool} {args : RequestVoteArgs}
    {reply : RequestVoteReply} (h : n.handleRequestVote ok args = some (n', reply))
    (hgranted : reply.voteGranted = true) :
    n'.VoteOnDisk args ↔ ok 1 = true ∨ n.AlreadyVoted (ok 0) args := by
  rw [← hm.voteOnDisk_adoptTerm]
  rcases handleRequestVote_cases h with ⟨-, -, rfl⟩ |
    ⟨hle, lastIdx, lastTerm, -, ⟨-, rfl, -⟩ | ⟨-, -, rfl⟩⟩
  · cases hgranted
  · rw [VoteOnDisk, persist_stateFile]
    cases ok 1 with
    | true =>
        refine iff_of_true ⟨_, rfl, ?_, rfl⟩ (Or.inl rfl)
        exact adoptTerm_currentTerm hle
    | false => exact ⟨Or.inr, fun h => h.resolve_left Bool.false_ne_true⟩
  · cases hgranted

theorem follow_diskLog (hm : n.Matches) (ok : Bool) (args : AppendEntriesArgs) {idx : ℕ}
    (hidx : 0 < idx) : (n.follow ok args).diskLog[idx]? = n.log[idx]? := by
  cases ok with
  | true => rfl
  | false => exact hm.diskLog_getElem? hidx

theorem appendAndPersist_diskLog {args : AppendEntriesArgs} (hne : 0 < args.entries.length)
    (ok : Bool) (n : Node) : (n.appendAndPersist ok args).diskLog =
      if ok then (n.appendAndPersist ok args).log else n.diskLog := by
  have happ : n.appendAndPersist ok args = persist ok
      { n with log := appendLoop n.log (args.prevLogIndex + 1) args.entries } := if_pos hne
  rw [happ]
  cases ok <;> rfl

theorem append_on_disk (hm : n.Matches) {ok : ℕ → Bool} {args : AppendEntriesArgs}
    {reply : AppendEntriesReply} (h : n.handleAppendEntries ok args = some (n', reply))
    (hsuccess : reply.success = true) :
    HoldsEntries n'.diskLog args ↔
      if ok 1 then NoClash n.log args else HoldsEntries n.log args := by
  obtain ⟨prev, hprev, hn'⟩ : ∃ prev, n.log[args.prevLogIndex]? = some prev ∧
      n' = ((n.follow (ok 0) args).appendAndPersist (ok 1) args).followCommit args := by
    rcases handleAppendEntries_cases h with ⟨-, -, rfl⟩ |
      ⟨-, ⟨-, -, rfl⟩ | ⟨prev, hprev, ⟨-, -, rfl⟩ | ⟨-, hn', -⟩⟩⟩
    · cases hsuccess
    · cases hsuccess
    · cases hsuccess
    · exact ⟨prev, hprev, hn'⟩
  -- the commit index is not persisted
  have hdisk : n'.diskLog = ((n.follow (ok 0) args).appendAndPersist (ok 1) args).diskLog := by
    obtain ⟨-, -, -, -, -, -, -, -, -, -, -, hst⟩ :=
      ((n.follow (ok 0) args).appendAndPersist (ok 1) args).followCommit_rest args
    rw [hn', Node.diskLog, hst]
    rfl
  -- nor is anything for a request without entries, which is on any disk
  have hread : HoldsEntries n'.diskLog args ↔ HoldsEntries
      (if ok 1 then splice LogEntry.term n.log (args.prevLogIndex + 1) args.entries else n.log)
      args := by
    refine forall_congr' fun k => forall_congr' fun e => imp_congr_right fun he => ?_
    have hne : 0 < args.entries.length :=
      Nat.zero_lt_of_lt (List.getElem?_eq_some_iff.mp he).1
    rw [hdisk, appendAndPersist_diskLog hne]
    cases ok 1 with
    | true =>
        rw [if_pos rfl, if_pos rfl, appendAndPersist_log, follow_log]
    | false =>
        show (n.follow (ok 0) args).diskLog[args.prevLogIndex + 1 + k]? = some e ↔ _
        rw [follow_diskLog hm (ok 0) args (by omega)]
        exact Iff.rfl
  rw [hread]
  cases ok 1 with
  | true => exact Foundation.splice_holds_iff (List.getElem?_eq_some_iff.mp hprev).1
  | false => exact Iff.rfl

theorem propose_on_disk (hm : n.Matches) {ok : Bool} {command : Option Bytes}
    {calls : List AppendCall} {idx term : ℕ}
    (h : n.propose ok command = some (n', calls, idx, term, true)) :
    n'.diskLog[idx]? = some ⟨term, command⟩ ↔ ok = true := by
  rcases propose_cases h with ⟨-, -, -, hf⟩ | ⟨-, rfl, -, rfl, rfl, -⟩
  · cases hf
  · have hidx : (n.appendCommand ok command).log.length - 1 = n.log.length := by
      simp [appendCommand]
    rw [hidx]
    cases ok with
    | true => exact iff_of_true List.getElem?_concat_length rfl
    | false =>
        have hshort : n.diskLog.length ≤ n.log.length := by
          rcases hm.diskLog with hsame | ⟨hnil, -⟩
          · rw [hsame]
          · rw [hnil]
            exact Nat.zero_le _
        refine iff_of_false ?_ Bool.false_ne_true
        show n.diskLog[n.log.length]? ≠ _
        rw [List.getElem?_eq_none hshort]
        exact (Option.some_ne_none _).symm

/-- **Answers and the disk.** In a node whose file matches memory, for every
outcome of every `persist`:
a granted vote is on disk exactly when the `persist` behind it succeeded or it is
there without it;
the entries of an accepted request are on disk exactly when the `persist` behind the
loop succeeded and the loop skipped no entry for another one of its term, or the
`persist` failed and the log had them all;
an accepted proposal is on disk exactly when its `persist` succeeded. -/
theorem reply_on_disk (hm : n.Matches) :
    (∀ ok args n' reply, n.handleRequestVote ok args = some (n', reply) →
      reply.voteGranted = true →
        (n'.VoteOnDisk args ↔ ok 1 = true ∨ n.AlreadyVoted (ok 0) args)) ∧
    (∀ ok args n' reply, n.handleAppendEntries ok args = some (n', reply) →
      reply.success = true →
        (HoldsEntries n'.diskLog args ↔
          if ok 1 then NoClash n.log args else HoldsEntries n.log args)) ∧
    (∀ ok command n' calls idx term,
      n.propose ok command = some (n', calls, idx, term, true) →
        (n'.diskLog[idx]? = some ⟨term, command⟩ ↔ ok = true)) :=
  ⟨fun _ _ _ _ h hgranted => vote_on_disk hm h hgranted,
    fun _ _ _ _ h hsuccess => append_on_disk hm h hsuccess,
    fun _ _ _ _ _ _ h => propose_on_disk hm h⟩

/-- A follower whose first `persist` fails and whose second one succeeds: vote and new
entries are on disk. The log is cut at the first entry of the request, so that the second
one does not meet the other entry of its term. -/
theorem reply_on_disk_second :
    let log : List LogEntry := [sentinel, ⟨1, some [7]⟩, ⟨2, some [8]⟩]
    let n := { newNode [65] [[66]] none none with
      currentTerm := 2, log, stateFile := some ⟨2, [], log⟩ }
    let ok : ℕ → Bool := fun k => k = 1
    let args : AppendEntriesArgs := ⟨2, [66], 0, 0, [⟨2, some [1]⟩, ⟨2, some [9]⟩], 0⟩
    (∃ n' reply, n.handleRequestVote ok ⟨3, [66], 2, 2⟩ = some (n', reply) ∧
      reply.voteGranted = true ∧ n'.VoteOnDisk ⟨3, [66], 2, 2⟩) ∧
    ∃ n' reply, n.handleAppendEntries ok args = some (n', reply) ∧ reply.success = true ∧
      HoldsEntries n'.diskLog args := by
  intro log n ok args
  have hdisk := reply_on_disk (n := n) (by decide +kernel)
  refine ⟨⟨_, _, rfl, rfl, (hdisk.1 ok ⟨3, [66], 2, 2⟩ _ _ rfl rfl).mpr (Or.inl rfl)⟩,
    _, _, rfl, rfl, (hdisk.2.1 ok args _ _ rfl rfl).mpr ?_⟩
  have hmiss : ¬ Stores LogEntry.term n.log (args.prevLogIndex + 1) args.entries 0 := by decide
  exact fun k e _ hstored => absurd (hstored 0 (Nat.zero_le k)) hmiss

end Replies

end Node

end KVEngine.Raft
