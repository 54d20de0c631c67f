import KVEngine.Raft.Progress
import KVEngine.Raft.Twin

/-!
# Log compaction

`TakeSnapshot` shortens the log, and no other function of `raft.go` takes
`snapshotIndex` into account. A leader that has compacted indexes its log out of
range at its next heartbeat, and its next proposal gets an index that is used
already (`compacted_leader_panics`).

What is true: as long as a node that has compacted takes no step that uses a
position in its log, the run without the snapshots exists as well, with the same
requests, answers and deliveries, and no index goes out of range
(`compaction_transparent`).
-/

namespace KVEngine.Raft

open Foundation (Run rel_bind rel_bind_same rel_guard)
open Foundation.ReplicatedLog (Role)

/-! ## §1  The condition -/

def Phase.reply? {R : Type} : Phase R → Option R
  | .replied reply => some reply
  | _ => none

/-- No term wraps. -/
def NoWrap (cfg : Config) (s : Cluster) : Action → Prop
  | .startElection i =>
      cfg.incr (s.nodes i).currentTerm = (s.nodes i).currentTerm + 1
  | _ => True

/-- A node that has compacted starts no election and wins none, sends nothing as
leader and accepts nothing as follower, applies nothing, compacts no further and
is not restarted. It answers vote requests that the length of its log does not
decide. -/
def SparesLog (s : Cluster) : Action → Prop
  | .startElection i => (s.nodes i).snapshotIndex = 0
  | .heartbeat i => (s.nodes i).snapshotIndex = 0
  | .propose i _ => (s.nodes i).snapshotIndex = 0 ∨ (s.nodes i).role ≠ .leader
  | .deliverVote r => ∀ rpc ∈ s.voteRpcs[r]?, ComparesAlike (s.nodes rpc.dst) rpc.args
  | .voteReply r => ∀ rpc ∈ s.voteRpcs[r]?,
      (s.nodes rpc.src).snapshotIndex = 0 ∨ (s.nodes rpc.src).role ≠ .candidate ∨
        (s.nodes rpc.src).currentTerm ≠ rpc.args.term ∨
        (s.nodes rpc.src).elections.getD rpc.election 0 + 1 < (s.nodes rpc.src).needed
  | .deliverAppend r => ∀ rpc ∈ s.appendRpcs[r]?,
      (s.nodes rpc.dst).snapshotIndex = 0 ∨ rpc.args.term < (s.nodes rpc.dst).currentTerm
  | .appendReply r => ∀ rpc ∈ s.appendRpcs[r]?, ∀ reply ∈ rpc.phase.reply?,
      (s.nodes rpc.src).snapshotIndex = 0 ∨ (s.nodes rpc.src).currentTerm < reply.term ∨
        (s.nodes rpc.src).role ≠ .leader ∨ (s.nodes rpc.src).currentTerm ≠ rpc.args.term
  | .applyWake _ => True
  | .applyTake i =>
      (s.nodes i).snapshotIndex = 0 ∨ (s.nodes i).commitIndex ≤ (s.nodes i).lastApplied
  | .applySend _ => True
  | .takeSnapshot i upToIndex _ =>
      (s.nodes i).snapshotIndex = 0 ∨ upToIndex < (s.nodes i).snapshotIndex ∨
        (s.nodes i).commitIndex < upToIndex ∨ (s.nodes i).log.length ≤ upToIndex
  | .crash i => (s.nodes i).snapshotIndex = 0
  | .crashInVote r => ∀ rpc ∈ s.voteRpcs[r]?, (s.nodes rpc.dst).snapshotIndex = 0
  | .crashInAppend r => ∀ rpc ∈ s.appendRpcs[r]?, (s.nodes rpc.dst).snapshotIndex = 0

def Harmless (cfg : Config) (s : Cluster) (a : Action) : Prop :=
  NoWrap cfg s a ∧ NoRevote s a ∧ SparesLog s a

instance (cfg : Config) (s : Cluster) (a : Action) : Decidable (NoWrap cfg s a) :=
  match a with
  | .startElection _ => inferInstanceAs (Decidable (_ = _))
  | .heartbeat _ | .propose _ _ | .deliverVote _ | .voteReply _ | .deliverAppend _
  | .appendReply _ | .applyWake _ | .applyTake _ | .applySend _ | .takeSnapshot _ _ _
  | .crash _ | .crashInVote _ | .crashInAppend _ => isTrue trivial

instance (s : Cluster) (a : Action) : Decidable (SparesLog s a) :=
  match a with
  | .startElection _ | .heartbeat _ | .crash _ => inferInstanceAs (Decidable (_ = _))
  | .propose _ _ | .applyTake _ | .takeSnapshot _ _ _ => inferInstanceAs (Decidable (_ ∨ _))
  | .deliverVote r | .voteReply r | .crashInVote r =>
      inferInstanceAs (Decidable (∀ rpc ∈ s.voteRpcs[r]?, _))
  | .deliverAppend r | .crashInAppend r =>
      inferInstanceAs (Decidable (∀ rpc ∈ s.appendRpcs[r]?, _))
  | .appendReply r =>
      inferInstanceAs (Decidable (∀ rpc ∈ s.appendRpcs[r]?, ∀ reply ∈ _, _))
  | .applyWake _ | .applySend _ => isTrue trivial

instance (cfg : Config) (s : Cluster) (a : Action) : Decidable (Harmless cfg s a) :=
  inferInstanceAs (Decidable (_ ∧ _))

/-! ## §2  A leader that has compacted -/

/-- `A` is elected in term `1` and commits a command at index `1`. -/
def committedActions : List Action :=
  [.startElection [65], .deliverVote 0, .voteReply 0, .propose [65] (some [7]),
   .deliverAppend 1, .appendReply 1]

def committedEnd : Cluster :=
  Foundation.endState (Cluster.step pair) (Harmless pair) (Cluster.initial pair)
    committedActions

/-- The same, followed by `TakeSnapshot(1)`. -/
def compactedEnd : Cluster :=
  Foundation.endState (Cluster.step pair) (Harmless pair) (Cluster.initial pair)
    (committedActions ++ [.takeSnapshot [65] 1 [123, 125]])

/-- The heartbeat after the snapshot is enabled and has no result; without the
snapshot it has one. The next proposal gets index `1` again instead of `2`. -/
theorem compacted_leader_panics :
    Run (Cluster.step pair) (Harmless pair) (Cluster.initial pair) committedActions
        committedEnd ∧
      Run (Cluster.step pair) (Harmless pair) (Cluster.initial pair)
        (committedActions ++ [.takeSnapshot [65] 1 [123, 125]]) compactedEnd ∧
      (committedEnd.nodes [65]).commitIndex = 1 ∧
      Enabled pair compactedEnd (.heartbeat [65]) ∧
      (compactedEnd.step pair (.heartbeat [65])).isSome = false ∧
      (committedEnd.step pair (.heartbeat [65])).isSome = true ∧
      ((committedEnd.nodes [65]).propose true (some [8])).map (fun x => x.2.2.1) = some 2 ∧
      ((compactedEnd.nodes [65]).propose true (some [8])).map (fun x => x.2.2.1) = some 1 :=
  ⟨Foundation.run_endState (by decide +kernel), Foundation.run_endState (by decide +kernel),
    by decide +kernel, ⟨by decide, by decide +kernel⟩, by decide +kernel, by decide +kernel,
    by decide +kernel, by decide +kernel⟩

/-! ## §3  Clusters of twins -/

/-- The same requests and answers, the same history, and twins for nodes. -/
structure Twins (cfg : Config) (s u : Cluster) : Prop where
  nodes : ∀ i, Twin cfg i (s.nodes i) (u.nodes i)
  lives : s.lives = u.lives
  voteRpcs : s.voteRpcs = u.voteRpcs
  appendRpcs : s.appendRpcs = u.appendRpcs
  history : s.history = u.history

theorem twins_initial (cfg : Config) : Twins cfg (Cluster.initial cfg) (Cluster.initial cfg) where
  nodes := fun i => .of_sound (sound_newNode cfg i) (sound_newNode cfg i) rfl rfl
  lives := rfl
  voteRpcs := rfl
  appendRpcs := rfl
  history := rfl

namespace Twins

variable {cfg : Config} {s u : Cluster} {i : NodeId} {n m : Node}

theorem setNode (h : Twins cfg s u) (hn : Twin cfg i n m) :
    Twins cfg (s.setNode i n) (u.setNode i m) := by
  refine ⟨fun j => ?_, h.lives, h.voteRpcs, h.appendRpcs, h.history⟩
  by_cases hj : j = i
  · subst hj
    simpa using hn
  · simpa [hj] using h.nodes j

theorem record (h : Twins cfg s u) (evs : List Event) :
    Twins cfg (s.record evs) (u.record evs) :=
  ⟨h.nodes, h.lives, h.voteRpcs, h.appendRpcs, congrArg (evs ++ ·) h.history⟩

theorem setVoteRpc (h : Twins cfg s u) (r : ℕ) (rpc : VoteRpc) :
    Twins cfg (s.setVoteRpc r rpc) (u.setVoteRpc r rpc) :=
  ⟨h.nodes, h.lives, congrArg (·.set r rpc) h.voteRpcs, h.appendRpcs, h.history⟩

theorem setAppendRpc (h : Twins cfg s u) (r : ℕ) (rpc : AppendRpc) :
    Twins cfg (s.setAppendRpc r rpc) (u.setAppendRpc r rpc) :=
  ⟨h.nodes, h.lives, h.voteRpcs, congrArg (·.set r rpc) h.appendRpcs, h.history⟩

theorem spawnVotes (h : Twins cfg s u) (calls : List VoteCall) :
    Twins cfg (s.spawnVotes i calls) (u.spawnVotes i calls) := by
  refine ⟨h.nodes, h.lives, ?_, h.appendRpcs, h.history⟩
  simp only [Cluster.spawnVotes, h.voteRpcs, h.lives]

theorem spawnAppends (h : Twins cfg s u) (calls : List AppendCall) :
    Twins cfg (s.spawnAppends i calls) (u.spawnAppends i calls) := by
  refine ⟨h.nodes, h.lives, h.voteRpcs, ?_, h.history⟩
  simp only [Cluster.spawnAppends, h.appendRpcs, h.lives]

theorem reboot (h : Twins cfg s u) (hn : Twin cfg i n m) (hm : Sound cfg i m)
    (h0 : n.snapshotIndex = 0) : Twins cfg (s.reboot i n) (u.reboot i m) := by
  obtain ⟨hnodes, -, h3, h4, h5⟩ := h.setNode (hn.restart hm h0)
  refine ⟨hnodes, ?_, h3, h4, h5⟩
  simp only [Cluster.reboot, h.lives]

end Twins

/-! ## §4  Steps -/

section Steps

variable {cfg : Config} {s u : Cluster} {i : NodeId} {r : ℕ}

theorem twins_startElection (h : Twins cfg s u) (hu : ∀ i, Sound cfg i (u.nodes i))
    (hh : SparesLog s (.startElection i)) :
    Option.Rel (Twins cfg) (s.startElection cfg i) (u.startElection cfg i) := by
  refine rel_guard (by rw [(h.nodes i).role]) fun _ => ?_
  refine rel_bind (startElection_twin (h.nodes i) (hu i) hh cfg.incr) ?_
  rintro ⟨n, calls⟩ ⟨m, _⟩ ⟨hn, rfl⟩
  have hterm : n.currentTerm = m.currentTerm := hn.currentTerm
  dsimp only
  rw [hterm]
  exact .some (((h.setNode hn).spawnVotes calls).record _)

theorem twins_heartbeat (h : Twins cfg s u) (hu : ∀ i, Sound cfg i (u.nodes i))
    (hh : SparesLog s (.heartbeat i)) :
    Option.Rel (Twins cfg) (s.heartbeat cfg i) (u.heartbeat cfg i) := by
  refine rel_guard (by rw [(h.nodes i).role]) fun _ => ?_
  rw [broadcast_twin (h.nodes i) (hu i) hh]
  exact rel_bind_same fun calls _ => .some (h.spawnAppends calls)

theorem twins_propose {command : Option Bytes} (h : Twins cfg s u)
    (hu : ∀ i, Sound cfg i (u.nodes i)) (hh : SparesLog s (.propose i command)) :
    Option.Rel (Twins cfg) (s.propose cfg i command) (u.propose cfg i command) := by
  refine rel_guard Iff.rfl fun _ => ?_
  refine rel_bind (propose_twin (h.nodes i) (hu i) hh) ?_
  rintro ⟨n, calls, idx, term, ok⟩ ⟨m, _⟩ ⟨⟨hn, rfl⟩, hlog⟩
  have hnext := (h.setNode hn).spawnAppends (i := i) calls
  cases ok with
  | false => exact .some (hnext.record _)
  | true =>
      have hlogs : n.log = m.log := hlog rfl
      dsimp only
      rw [hlogs]
      exact .some (hnext.record _)

theorem twins_deliverVote (h : Twins cfg s u) (hh : SparesLog s (.deliverVote r)) :
    Option.Rel (Twins cfg) (s.deliverVote r) (u.deliverVote r) := by
  unfold Cluster.deliverVote
  rw [← h.voteRpcs]
  refine rel_bind_same fun rpc hr => rel_guard Iff.rfl fun _ => ?_
  refine rel_bind (handleRequestVote_twin (h.nodes rpc.dst) (hh rpc hr)) ?_
  rintro ⟨n, reply⟩ ⟨m, _⟩ ⟨hn, rfl⟩
  exact .some (((h.setNode hn).setVoteRpc r _).record _)

theorem twins_voteReply (h : Twins cfg s u) (hu : ∀ i, Sound cfg i (u.nodes i))
    (hh : SparesLog s (.voteReply r)) :
    Option.Rel (Twins cfg) (s.voteReply r) (u.voteReply r) := by
  unfold Cluster.voteReply
  rw [← h.voteRpcs, ← h.lives]
  refine rel_bind_same fun rpc hr => rel_guard Iff.rfl fun _ => ?_
  cases rpc.phase with
  | requested => exact .none
  | finished => exact .none
  | replied reply =>
      refine rel_bind (handleVoteReply_twin (h.nodes rpc.src) (hu rpc.src) (hh rpc hr)) ?_
      rintro ⟨n, calls⟩ ⟨m, _⟩ ⟨⟨hn, rfl⟩, hlog⟩
      have hnext := ((h.setNode hn).setVoteRpc r { rpc with phase := .finished }).spawnAppends
        (i := rpc.src) calls
      have hrole : n.role = m.role := hn.role
      have hterm : n.currentTerm = m.currentTerm := hn.currentTerm
      dsimp only
      rw [← (h.nodes rpc.src).role, ← hrole, ← hterm]
      by_cases hwon : (s.nodes rpc.src).role ≠ .leader ∧ n.role = .leader
      · have hlogs : n.log = m.log := hlog hwon.1 hwon.2
        rw [← hlogs]
        exact .some (hnext.record _)
      · simp only [if_neg hwon]
        exact .some (hnext.record _)

theorem twins_deliverAppend (h : Twins cfg s u) (hu : ∀ i, Sound cfg i (u.nodes i))
    (hh : SparesLog s (.deliverAppend r)) :
    Option.Rel (Twins cfg) (s.deliverAppend r) (u.deliverAppend r) := by
  unfold Cluster.deliverAppend
  rw [← h.appendRpcs]
  refine rel_bind_same fun rpc hr => rel_guard Iff.rfl fun _ => ?_
  refine rel_bind (handleAppendEntries_twin (h.nodes rpc.dst) (hu rpc.dst) (hh rpc hr)) ?_
  rintro ⟨n, reply⟩ ⟨m, _⟩ ⟨hn, rfl⟩
  exact .some (((h.setNode hn).setAppendRpc r _).record _)

theorem twins_appendReply (h : Twins cfg s u) (hu : ∀ i, Sound cfg i (u.nodes i))
    (hh : SparesLog s (.appendReply r)) :
    Option.Rel (Twins cfg) (s.appendReply r) (u.appendReply r) := by
  unfold Cluster.appendReply
  rw [← h.appendRpcs, ← h.lives]
  refine rel_bind_same fun rpc hr => rel_guard Iff.rfl fun _ => ?_
  cases hph : rpc.phase with
  | requested => exact .none
  | finished => exact .none
  | replied reply =>
      have hdrop := hh rpc hr reply (by rw [hph]; rfl)
      refine rel_bind (handleAppendReply_twin (h.nodes rpc.src) (hu rpc.src) hdrop) ?_
      rintro ⟨n, calls⟩ ⟨m, _⟩ ⟨⟨hn, rfl⟩, hlog⟩
      have hnext := ((h.setNode hn).setAppendRpc r
        { rpc with phase := .finished }).spawnAppends (i := rpc.src) calls
      have hcommit : n.commitIndex = m.commitIndex := hn.commitIndex
      have hterm : n.currentTerm = m.currentTerm := hn.currentTerm
      dsimp only
      rw [← (h.nodes rpc.src).commitIndex, ← hcommit, ← hterm]
      by_cases hadv : (s.nodes rpc.src).commitIndex < n.commitIndex
      · have hlogs : n.log = m.log := hlog hadv
        rw [← hlogs]
        exact .some (hnext.record _)
      · simp only [if_neg hadv]
        exact .some (hnext.record _)

theorem twins_applyWake (h : Twins cfg s u) :
    Option.Rel (Twins cfg) (s.applyWake cfg i) (u.applyWake cfg i) :=
  rel_guard Iff.rfl fun _ => rel_bind (applyWake_twin (h.nodes i))
    fun _ _ hn => .some (h.setNode hn)

theorem twins_applyTake (h : Twins cfg s u) (hu : ∀ i, Sound cfg i (u.nodes i))
    (hh : SparesLog s (.applyTake i)) :
    Option.Rel (Twins cfg) (s.applyTake cfg i) (u.applyTake cfg i) := by
  refine rel_guard Iff.rfl fun _ => ?_
  refine rel_bind (applyTake_twin (h.nodes i) (hu i) hh) ?_
  rintro n m ⟨hn, hlog⟩
  have hnext := h.setNode hn
  rw [← (h.nodes i).lastApplied, ← hn.lastApplied]
  by_cases htook : (s.nodes i).lastApplied < n.lastApplied
  · rw [← hlog htook]
    exact .some (hnext.record _)
  · simp only [if_neg htook]
    exact .some (hnext.record _)

theorem twins_applySend (h : Twins cfg s u) :
    Option.Rel (Twins cfg) (s.applySend cfg i) (u.applySend cfg i) := by
  refine rel_guard Iff.rfl fun _ => rel_bind (applySend_twin (h.nodes i)) ?_
  rintro ⟨n, msg⟩ ⟨m, _⟩ ⟨hn, rfl⟩
  exact .some ((h.setNode hn).record _)

theorem twins_crashInVote (h : Twins cfg s u) (hu : ∀ i, Sound cfg i (u.nodes i))
    (hh : SparesLog s (.crashInVote r)) :
    Option.Rel (Twins cfg) (s.crashInVote r) (u.crashInVote r) := by
  unfold Cluster.crashInVote
  rw [← h.voteRpcs]
  refine rel_bind_same fun rpc hr => rel_guard (by rw [(h.nodes rpc.dst).currentTerm])
    fun _ => ?_
  exact .some ((h.setVoteRpc r _).reboot ((h.nodes rpc.dst).becomeFollower rpc.args.term)
    ((hu rpc.dst).becomeFollower rpc.args.term) (hh rpc hr))

theorem twins_crashInAppend (h : Twins cfg s u) (hu : ∀ i, Sound cfg i (u.nodes i))
    (hh : SparesLog s (.crashInAppend r)) :
    Option.Rel (Twins cfg) (s.crashInAppend r) (u.crashInAppend r) := by
  unfold Cluster.crashInAppend
  rw [← h.appendRpcs]
  refine rel_bind_same fun rpc hr => rel_guard (by rw [(h.nodes rpc.dst).currentTerm])
    fun _ => ?_
  exact .some ((h.setAppendRpc r _).reboot ((h.nodes rpc.dst).becomeFollower rpc.args.term)
    ((hu rpc.dst).becomeFollower rpc.args.term) (hh rpc hr))

/-- **One action.** A harmless action other than a snapshot does the same to
twins, or is enabled for neither. -/
theorem twins_step {a : Action} (h : Twins cfg s u) (hu : ∀ i, Sound cfg i (u.nodes i))
    (hh : SparesLog s a) (ha : a.isSnapshot = false) :
    Option.Rel (Twins cfg) (s.step cfg a) (u.step cfg a) := by
  cases a with
  | startElection i => exact twins_startElection h hu hh
  | heartbeat i => exact twins_heartbeat h hu hh
  | propose i command => exact twins_propose h hu hh
  | deliverVote r => exact twins_deliverVote h hh
  | voteReply r => exact twins_voteReply h hu hh
  | deliverAppend r => exact twins_deliverAppend h hu hh
  | appendReply r => exact twins_appendReply h hu hh
  | applyWake i => exact twins_applyWake h
  | applyTake i => exact twins_applyTake h hu hh
  | applySend i => exact twins_applySend h
  | takeSnapshot i upToIndex data => cases ha
  | crash i => exact rel_guard Iff.rfl fun _ => .some (h.reboot (h.nodes i) (hu i) hh)
  | crashInVote r => exact twins_crashInVote h hu hh
  | crashInAppend r => exact twins_crashInAppend h hu hh

/-- The twin does not see a snapshot. -/
theorem twins_takeSnapshot {s' : Cluster} {upToIndex : ℕ} {data : Bytes} (h : Twins cfg s u)
    (hu : ∀ i, Sound cfg i (u.nodes i)) (hh : SparesLog s (.takeSnapshot i upToIndex data))
    (hs : s.takeSnapshot cfg i upToIndex data = some s') : Twins cfg s' u := by
  obtain ⟨n, b, hn, rfl⟩ := Cluster.takeSnapshot_some hs
  have hset := h.setNode (takeSnapshot_twin (h.nodes i) (hu i) hh hn)
  have hsame : u.setNode i (u.nodes i) = u := by
    simp [Cluster.setNode]
  rwa [hsame] at hset

theorem enabled_twins {a : Action} (h : Twins cfg s u) :
    Enabled cfg s a ↔ Enabled cfg u a := by
  have hrole := fun j => (h.nodes j).role
  have hterm := fun j => (h.nodes j).currentTerm
  have hpc := fun j => (h.nodes j).applyPc
  have hnotify := fun j => (h.nodes j).commitNotify
  cases a <;>
    simp only [Enabled, hrole, hterm, hpc, hnotify, h.voteRpcs, h.appendRpcs, h.lives]

/-- The twin takes the same action, with one vote a term. -/
theorem votesOnce_twins {a : Action} (h : Twins cfg s u) (hh : Harmless cfg s a)
    (ha : a.isSnapshot = false) : VotesOnce cfg u a := by
  obtain ⟨hwrap, hrevote, hspares⟩ := hh
  constructor
  · cases a with
    | startElection i =>
        have hwrap' : cfg.incr (s.nodes i).currentTerm = (s.nodes i).currentTerm + 1 := hwrap
        rw [(h.nodes i).currentTerm] at hwrap'
        exact hwrap'
    | takeSnapshot i upToIndex data => cases ha
    | _ => trivial
  · cases a with
    | deliverVote r =>
        intro rpc hr hterm hvote last hlast hgrants
        rw [← h.voteRpcs] at hr
        have htwin := h.nodes rpc.dst
        rw [← htwin.currentTerm] at hterm
        rw [← htwin.votedFor] at hvote
        rw [← h.history]
        obtain ⟨T, hT, hlast', hlast''⟩ := lastLogIndexAndTerm_twin htwin
        cases hlast''.symm.trans hlast
        exact hrevote rpc hr hterm hvote _ hlast'
          ((grantsVote_twin htwin (hspares rpc hr) hT).mpr hgrants)
    | _ => trivial

end Steps

/-! ## §5  Transparency -/

section Runs

variable {cfg : Config} {as : List Action} {s : Cluster}

/-- A harmless run and the run without its snapshots end in twins. -/
theorem twins_run (h : Run (Cluster.step cfg) (Harmless cfg) (Cluster.initial cfg) as s) :
    ∃ u, Run (Cluster.step cfg) (VotesOnce cfg) (Cluster.initial cfg)
        (as.filter fun a => !a.isSnapshot) u ∧ Twins cfg s u ∧ Wired cfg u := by
  refine h.simulate (R := fun s u => Twins cfg s u ∧ Wired cfg u)
    ⟨twins_initial cfg, wired_initial cfg⟩ ?_ ?_
  · rintro s s' u a ⟨htwins, hw⟩ hh hs hskip
    refine ⟨?_, hw⟩
    cases a with
    | takeSnapshot i upToIndex data => exact twins_takeSnapshot htwins hw.sound hh.2.2 hs
    | _ => cases hskip
  · rintro s s' u a ⟨htwins, hw⟩ hh hs hskip
    have hC := votesOnce_twins htwins hh hskip
    obtain ⟨u', hu', htwins'⟩ :=
      Foundation.rel_of_some (twins_step htwins hw.sound hh.2.2 hskip) hs
    exact ⟨u', hC, hu', htwins', wired_step hw hC.1 hu'⟩

/-- **Compaction is transparent** as long as compacted nodes spare their logs.
In every such run no index goes out of range, and the run without the snapshots
reaches a state with the same requests, the same answers to them and the same
history of votes, proposals and deliveries; every further action does the same to
both. -/
theorem compaction_transparent
    (h : Run (Cluster.step cfg) (Harmless cfg) (Cluster.initial cfg) as s) :
    (∀ a, Harmless cfg s a → Enabled cfg s a → ∃ s', s.step cfg a = some s') ∧
      ∃ u, Run (Cluster.step cfg) (VotesOnce cfg) (Cluster.initial cfg)
          (as.filter fun a => !a.isSnapshot) u ∧ Twins cfg s u ∧
        ∀ a, Harmless cfg s a → a.isSnapshot = false →
          Option.Rel (Twins cfg) (s.step cfg a) (u.step cfg a) := by
  obtain ⟨u, hrun, htwins, hw⟩ := twins_run h
  have hstep : ∀ a, Harmless cfg s a → a.isSnapshot = false →
      Option.Rel (Twins cfg) (s.step cfg a) (u.step cfg a) :=
    fun a hh ha => twins_step htwins hw.sound hh.2.2 ha
  refine ⟨fun a hh ha => ?_, u, hrun, htwins, hstep⟩
  cases hsnap : a.isSnapshot with
  | false =>
      exact Foundation.rel_isSome (hstep a hh hsnap)
        (enabled_isSome hrun ((enabled_twins htwins).mp ha))
  | true =>
      cases a with
      | takeSnapshot i upToIndex data =>
          exact Foundation.guard_isSome ha <|
            Foundation.bind_isSome (Node.takeSnapshot_isSome _ _ _) fun _ _ => ⟨_, rfl⟩
      | _ => cases hsnap

/-- The run of `pairActions` with a snapshot of `A` before the election of `B`.
The compacted `A` is asked for its vote and grants it. -/
def snapshotActions : List Action :=
  [.startElection [65], .deliverVote 0, .voteReply 0, .propose [65] (some [7]),
   .deliverAppend 1, .appendReply 1, .applyWake [65], .applyTake [65], .applySend [65],
   .heartbeat [65], .deliverAppend 2, .takeSnapshot [65] 1 [3], .startElection [66],
   .deliverVote 1, .voteReply 1]

theorem compaction_transparent_pair :
    let s := Foundation.endState (Cluster.step pair) (Harmless pair) (Cluster.initial pair)
      snapshotActions
    (s.nodes [65]).log = [⟨1, none⟩] ∧ (s.nodes [66]).role = .leader ∧
      ∃ u, Run (Cluster.step pair) (VotesOnce pair) (Cluster.initial pair)
          (snapshotActions.filter fun a => !a.isSnapshot) u ∧
        Compacted (s.nodes [65]).snapshotIndex (s.nodes [65]).log (u.nodes [65]).log ∧
        s.history = u.history := by
  intro s
  have hrun : Run (Cluster.step pair) (Harmless pair) (Cluster.initial pair)
      snapshotActions s := Foundation.run_endState (by decide +kernel)
  obtain ⟨-, u, hu, htwins, -⟩ := compaction_transparent hrun
  exact ⟨by decide +kernel, by decide +kernel, u, hu, (htwins.nodes [65]).log, htwins.history⟩

end Runs

end KVEngine.Raft
