import KVEngine.Foundation.Replace
import KVEngine.Raft.Snapshots

/-!
# The files of a snapshot

`TakeSnapshot` of `snapshot.go` down to its file operations: it replaces the snapshot
file, changes memory, and replaces the state file. Each file is replaced whole or not at
all, but the two are not replaced together. Between the renames the new snapshot stands
beside the old log, and `NewNode` puts the two together. So a call that replaces the
snapshot file alone is all or nothing only where that makes no difference, and one that
replaces neither only where the files were right before (`takeSnapshot_all_or_nothing`).
-/

namespace KVEngine.Raft

open Foundation (Slot Fault Faults Replaced)

/-! ## §1  Files -/

/-- `encoding/json` for the two files. What is read back may differ in the vote, which
need not be UTF-8, and in the data, which is compacted; data that is not JSON is not
written. -/
structure Formats (α : Type) where
  state : PersistentState → List α
  readState : List α → Option PersistentState
  readState_state : ∀ ps, ∃ votedFor, readState (state ps) = some { ps with votedFor }
  snapshot : Snapshot → Option (List α)
  readSnapshot : List α → Option Snapshot
  readSnapshot_snapshot : ∀ snap text, snapshot snap = some text →
    ∃ data, readSnapshot text = some { snap with data }

structure Files (α : Type) where
  state : Slot α
  snapshot : Slot α

variable {α : Type} (J : Formats α)

namespace Files

def latestSnapshot (f : Files α) : Option Snapshot := f.snapshot.file.bind J.readSnapshot

/-- `NewNode` on the two files; it ignores a snapshot that cannot be read and returns an
error (`none`) for such a state. -/
def newNode (f : Files α) (id : NodeId) (peers : List NodeId) : Option Node :=
  match f.state.file with
  | none => some (Node.newNode id peers none (f.latestSnapshot J))
  | some text => (J.readState text).map fun ps =>
      Node.newNode id peers (some ps) (f.latestSnapshot J)

/-- The log that `NewNode` comes to beside a snapshot of this term: that of the state file,
or without one the snapshot's own. -/
def logBeside (f : Files α) (term : ℕ) : Option (List LogEntry) :=
  match f.state.file with
  | none => some [⟨term, none⟩]
  | some text => (J.readState text).map fun ps => if ps.log = [] then [sentinel] else ps.log

end Files

/-- How a call ends: it returns, with an error or without, or the process stops. -/
inductive Ended : Type where
  | returned (ok : Bool)
  | crashed
deriving DecidableEq

theorem Ended.eq_of_ne {ended : Ended} (h : ended ≠ .returned true) :
    ended = .returned false ∨ ended = .crashed := by
  cases ended with
  | returned ok => cases ok <;> simp_all
  | crashed => exact Or.inr rfl

namespace Node

/-- The log truncated at `k`, whose entry is `last`, once the snapshot is written. -/
def compacted (n : Node) (k : ℕ) (last : LogEntry) (data : Bytes) : Node :=
  { n with
    snapshotFile := some { lastIncludedIndex := k, lastIncludedTerm := last.term, data }
    log := { term := last.term, command := none } :: n.log.drop (k + 1)
    snapshotIndex := k
    snapshotTerm := last.term }

/-- `TakeSnapshot`, with what goes wrong at the operations on each file. -/
def takeSnapshotOn (snapFaults stateFaults : Faults α) (n : Node) (f : Files α)
    (upToIndex : ℕ) (stateMachineData : Bytes) : Option (Node × Files α × Ended) :=
  if upToIndex > n.commitIndex then some (n, f, .returned false)
  else if upToIndex < n.snapshotIndex then some (n, f, .returned true)
  else if upToIndex ≥ n.log.length then some (n, f, .returned false)
  else do
    let last ← n.log[upToIndex]?
    let snap : Snapshot := { lastIncludedIndex := upToIndex,
                             lastIncludedTerm := last.term,
                             data := stateMachineData }
    match J.snapshot snap with
    | none => return (n, f, .returned false)
    | some text =>
        match f.snapshot.replace snapFaults text with
        | (snapshot, .failed) => return (n, { f with snapshot }, .returned false)
        | (snapshot, .crashed) => return (n, { f with snapshot }, .crashed)
        | (snapshot, .done) =>
            let n := n.compacted upToIndex last stateMachineData
            match f.state.replace stateFaults (J.state n.persistentState) with
            | (state, .failed) => return (n, { state, snapshot }, .returned false)
            | (state, .crashed) => return (n, { state, snapshot }, .crashed)
            | (state, .done) => return (n.persist true, { state, snapshot }, .returned true)

/-- What a snapshot changes. -/
def view (n : Node) : ℕ × ℕ × List LogEntry := (n.snapshotIndex, n.snapshotTerm, n.log)

/-- An error leaves memory as it was, and a node that starts from the files is the one
before the call or the one after a complete call. -/
def AllOrNothing (snapFaults stateFaults : Faults α) (n : Node) (f : Files α) (k : ℕ)
    (data : Bytes) : Prop :=
  ∃ n' f' ended, n.takeSnapshotOn J snapFaults stateFaults f k data = some (n', f', ended) ∧
    (ended = .returned false → n'.view = n.view) ∧
    ∃ r, f'.newNode J n.id n.peers = some r ∧
      (r.view = n.view ∨
        ∃ c g, n.takeSnapshotOn J (fun _ => none) (fun _ => none) f k data =
            some (c, g, .returned true) ∧ r.view = c.view)

/-! ## §2  What a call leaves -/

/-- The ways a call at a legal index ends, `last` being the entry there. -/
inductive Leaves (J : Formats α) (snapFaults stateFaults : Faults α) (n : Node) (f : Files α)
    (k : ℕ) (last : LogEntry) (data : Bytes) : Node × Files α × Ended → Prop where
  | nothing {f' : Files α} {ended : Ended}
      (why : J.snapshot ⟨k, last.term, data⟩ = none ∨ ¬ Slot.Completes snapFaults)
      (snapshot : f'.snapshot.file = f.snapshot.file) (state : f'.state.file = f.state.file)
      (ended_ne : ended ≠ .returned true) :
      Leaves J snapFaults stateFaults n f k last data (n, f', ended)
  | snapshotOnly {f' : Files α} {ended : Ended} {text : List α}
      (marshals : J.snapshot ⟨k, last.term, data⟩ = some text)
      (replaced : Slot.Completes snapFaults) (kept : ¬ Slot.Completes stateFaults)
      (snapshot : f'.snapshot.file = some text) (state : f'.state.file = f.state.file)
      (ended_ne : ended ≠ .returned true)
      (ended_error : ended = .returned false ↔ Slot.Errs stateFaults) :
      Leaves J snapFaults stateFaults n f k last data (n.compacted k last data, f', ended)
  | both {f' : Files α} {text : List α}
      (marshals : J.snapshot ⟨k, last.term, data⟩ = some text)
      (snapReplaced : Slot.Completes snapFaults) (replaced : Slot.Completes stateFaults)
      (snapshot : f'.snapshot.file = some text)
      (state : f'.state.file = some (J.state (n.snapshotAt k last data).persistentState)) :
      Leaves J snapFaults stateFaults n f k last data
        (n.snapshotAt k last data, f', .returned true)

variable {J} {snapFaults stateFaults : Faults α} {n : Node} {f : Files α} {k : ℕ} {data : Bytes}
  {last : LogEntry}

theorem takeSnapshotOn_leaves (J : Formats α) (snapFaults stateFaults : Faults α) (f : Files α)
    (data : Bytes) (hold : n.snapshotIndex ≤ k) (hcommit : k ≤ n.commitIndex)
    (hlast : n.log[k]? = some last) :
    ∃ res, n.takeSnapshotOn J snapFaults stateFaults f k data = some res ∧
      Leaves J snapFaults stateFaults n f k last data res := by
  have hlen : k < n.log.length := (List.getElem?_eq_some_iff.mp hlast).1
  unfold takeSnapshotOn
  rw [if_neg (by omega), if_neg (by omega), if_neg (by omega), hlast]
  dsimp only [Option.bind_eq_bind, Option.bind_some]
  cases htext : J.snapshot ⟨k, last.term, data⟩ with
  | none => exact ⟨_, rfl, .nothing (Or.inl htext) rfl rfl (by decide)⟩
  | some text =>
      dsimp only
      rcases Slot.replace_file snapFaults text f.snapshot with
        ⟨hsnap, snapshot, heq, hfile⟩ | ⟨hsnap, snapshot, r, heq, hr, hfile⟩
      · rw [heq]
        dsimp only
        rcases Slot.replace_file stateFaults
            (J.state (n.compacted k last data).persistentState) f.state with
          ⟨hstate, state, heq', hfile'⟩ | ⟨hstate, state, r, heq', hr, hfile'⟩
        · rw [heq']
          exact ⟨_, rfl, .both htext hsnap hstate hfile hfile'⟩
        · have herrs : r = .failed ↔ Slot.Errs stateFaults := by
            rw [← Slot.replace_failed_iff, heq']
          rw [heq']
          cases r with
          | done => exact absurd rfl hr
          | failed =>
              exact ⟨_, rfl, .snapshotOnly htext hsnap hstate hfile hfile' (by decide)
                (iff_of_true rfl (herrs.mp rfl))⟩
          | crashed =>
              exact ⟨_, rfl, .snapshotOnly htext hsnap hstate hfile hfile' (by decide)
                (iff_of_false (by decide) fun h => absurd (herrs.mpr h) (by decide))⟩
      · rw [heq]
        cases r with
        | done => exact absurd rfl hr
        | failed => exact ⟨_, rfl, .nothing (Or.inr hsnap) hfile rfl (by decide)⟩
        | crashed => exact ⟨_, rfl, .nothing (Or.inr hsnap) hfile rfl (by decide)⟩

/-- At another index nothing is done. -/
theorem takeSnapshotOn_refused
    (h : k > n.commitIndex ∨ k < n.snapshotIndex ∨ k ≥ n.log.length) :
    ∃ b, n.takeSnapshotOn J snapFaults stateFaults f k data = some (n, f, .returned b) ∧
      ∀ okSnap okState, n.takeSnapshot okSnap okState k data = some (n, b) := by
  unfold takeSnapshotOn takeSnapshot
  by_cases hcommit : k > n.commitIndex
  · exact ⟨false, if_pos hcommit, fun _ _ => if_pos hcommit⟩
  by_cases hold : k < n.snapshotIndex
  · simp only [if_neg hcommit, if_pos hold]
    exact ⟨true, rfl, fun _ _ => rfl⟩
  · have hlen : k ≥ n.log.length := (h.resolve_left hcommit).resolve_left hold
    simp only [if_neg hcommit, if_neg hold, if_pos hlen]
    exact ⟨false, rfl, fun _ _ => rfl⟩

/-- **A call on files** is `takeSnapshot` with the outcomes of the two replacements. -/
theorem takeSnapshotOn_node {n' : Node} {f' : Files α} {ended : Ended}
    (h : n.takeSnapshotOn J snapFaults stateFaults f k data = some (n', f', ended)) :
    ∃ okSnap okState b, n.takeSnapshot okSnap okState k data = some (n', b) ∧
      (ended = .returned b ∨ ended = .crashed) := by
  by_cases hrefused : k > n.commitIndex ∨ k < n.snapshotIndex ∨ k ≥ n.log.length
  · obtain ⟨b, hon, hnode⟩ := takeSnapshotOn_refused hrefused
    rw [hon] at h
    cases h
    exact ⟨true, true, b, hnode _ _, Or.inl rfl⟩
  · obtain ⟨hcommit, hold, hlen⟩ : k ≤ n.commitIndex ∧ n.snapshotIndex ≤ k ∧
        k < n.log.length := by omega
    obtain ⟨last, hlast⟩ : ∃ e, n.log[k]? = some e := ⟨_, List.getElem?_eq_getElem hlen⟩
    have hflags : ∀ okSnap okState, n.takeSnapshot okSnap okState k data =
        some (if okSnap then ((n.compacted k last data).persist okState, okState)
          else (n, false)) := by
      intro okSnap okState
      unfold takeSnapshot
      rw [if_neg (by omega), if_neg (by omega), if_neg (by omega), hlast]
      cases okSnap <;> rfl
    obtain ⟨res, hres, hleaves⟩ :=
      takeSnapshotOn_leaves J snapFaults stateFaults f data hold hcommit hlast
    rw [hres] at h
    cases h
    cases hleaves with
    | nothing _ _ _ hended => exact ⟨false, true, false, hflags _ _, Ended.eq_of_ne hended⟩
    | snapshotOnly _ _ _ _ _ hended =>
        exact ⟨true, false, false, hflags _ _, Ended.eq_of_ne hended⟩
    | both => exact ⟨true, true, true, hflags _ _, Or.inl rfl⟩

/-! ## §3  Starting from the files -/

theorem newNode_snapshot (id : NodeId) (peers : List NodeId) (st : Option PersistentState)
    (snap : Snapshot) :
    (newNode id peers st (some snap)).snapshotIndex = snap.lastIncludedIndex ∧
      (newNode id peers st (some snap)).snapshotTerm = snap.lastIncludedTerm := by
  unfold newNode
  dsimp only
  split <;> cases st <;> exact ⟨rfl, rfl⟩

theorem newNode_log_some (id : NodeId) (peers : List NodeId) (ps : PersistentState)
    (sf : Option Snapshot) :
    (newNode id peers (some ps) sf).log = if ps.log = [] then [sentinel] else ps.log := by
  unfold newNode
  cases sf <;> by_cases hlog : ps.log = [] <;> simp [restoreState, restoreSnapshot, blank, hlog]

theorem newNode_congr {f' : Files α} (hsnap : f'.snapshot.file = f.snapshot.file)
    (hstate : f'.state.file = f.state.file) (id : NodeId) (peers : List NodeId) :
    f'.newNode J id peers = f.newNode J id peers := by
  rw [Files.newNode, Files.newNode, Files.latestSnapshot, Files.latestSnapshot, hsnap, hstate]

theorem logBeside_congr {f' : Files α} (hstate : f'.state.file = f.state.file) (term : ℕ) :
    f'.logBeside J term = f.logBeside J term := by
  rw [Files.logBeside, Files.logBeside, hstate]

/-- **Beside a snapshot that was written**, the node has its index and term, and the log of
the state file. -/
theorem newNode_view {snap : Snapshot} {text : List α} (hmarshal : J.snapshot snap = some text)
    (hsnap : f.snapshot.file = some text) (id : NodeId) (peers : List NodeId) :
    (f.newNode J id peers).map view = (f.logBeside J snap.lastIncludedTerm).map
      fun log => (snap.lastIncludedIndex, snap.lastIncludedTerm, log) := by
  obtain ⟨data, hdata⟩ := J.readSnapshot_snapshot snap text hmarshal
  have hlatest : f.latestSnapshot J = some { snap with data } := by
    rw [Files.latestSnapshot, hsnap, Option.bind_some, hdata]
  rw [Files.newNode, Files.logBeside, hlatest]
  cases f.state.file with
  | none => rfl
  | some stext =>
      dsimp only
      cases J.readState stext with
      | none => rfl
      | some ps =>
          obtain ⟨hindex, hterm⟩ := newNode_snapshot id peers (some ps) { snap with data }
          show some (view _) = some _
          rw [view, hindex, hterm, newNode_log_some]

/-! ## §4  All or nothing -/

/-- Without faults a call is complete exactly when its data can be written. -/
theorem takeSnapshotOn_complete (hold : n.snapshotIndex ≤ k) (hcommit : k ≤ n.commitIndex)
    (hlast : n.log[k]? = some last) {c : Node} :
    (∃ g, n.takeSnapshotOn J (fun _ => none) (fun _ => none) f k data =
        some (c, g, .returned true)) ↔
      (J.snapshot ⟨k, last.term, data⟩).isSome = true ∧ c = n.snapshotAt k last data := by
  obtain ⟨res, hres, hleaves⟩ := takeSnapshotOn_leaves J (fun _ => none) (fun _ => none) f data hold
    hcommit hlast
  rw [hres]
  cases hleaves with
  | nothing why _ _ hended =>
      refine iff_of_false ?_ ?_
      · rintro ⟨g, hg⟩
        cases hg
        exact hended rfl
      · rintro ⟨hsome, -⟩
        rcases why with hnone | hfault
        · rw [hnone] at hsome
          cases hsome
        · exact hfault Slot.completes_none
  | snapshotOnly _ _ kept => exact absurd Slot.completes_none kept
  | both hmarshal =>
      rw [hmarshal]
      constructor
      · rintro ⟨g, hg⟩
        cases hg
        exact ⟨rfl, rfl⟩
      · rintro ⟨-, rfl⟩
        exact ⟨_, rfl⟩

/-- What is all or nothing about a call, once it is known what it leaves. -/
theorem allOrNothing_iff (hold : n.snapshotIndex ≤ k) (hcommit : k ≤ n.commitIndex)
    (hlast : n.log[k]? = some last) {n' : Node} {f' : Files α} {ended : Ended}
    (hres : n.takeSnapshotOn J snapFaults stateFaults f k data = some (n', f', ended)) :
    n.AllOrNothing J snapFaults stateFaults f k data ↔
      (ended = .returned false → n'.view = n.view) ∧
        ∃ v, (f'.newNode J n.id n.peers).map view = some v ∧
          (v = n.view ∨ (J.snapshot ⟨k, last.term, data⟩).isSome = true ∧
            v = (n.snapshotAt k last data).view) := by
  have hcomplete : ∀ v, (∃ c g, n.takeSnapshotOn J (fun _ => none) (fun _ => none) f k data =
      some (c, g, .returned true) ∧ v = c.view) ↔
      (J.snapshot ⟨k, last.term, data⟩).isSome = true ∧ v = (n.snapshotAt k last data).view := by
    intro v
    constructor
    · rintro ⟨c, g, hg, rfl⟩
      obtain ⟨hsome, rfl⟩ := (takeSnapshotOn_complete hold hcommit hlast).mp ⟨g, hg⟩
      exact ⟨hsome, rfl⟩
    · rintro ⟨hsome, rfl⟩
      obtain ⟨g, hg⟩ := (takeSnapshotOn_complete hold hcommit hlast).mpr ⟨hsome, rfl⟩
      exact ⟨_, g, hg, rfl⟩
  constructor
  · rintro ⟨m, g, e, hcall, hmem, r, hr, hview⟩
    rw [hres] at hcall
    cases hcall
    exact ⟨hmem, r.view, by rw [hr]; rfl, hview.imp_right (hcomplete _).mp⟩
  · rintro ⟨hmem, v, hv, hview⟩
    obtain ⟨r, hr, rfl⟩ := Option.map_eq_some_iff.mp hv
    exact ⟨n', f', ended, hres, hmem, r, hr, hview.imp_right (hcomplete _).mpr⟩

/-- The snapshot file is replaced: the data can be written and no operation on the file
goes wrong. -/
def ReplacesSnapshot (J : Formats α) (snapFaults : Faults α) (k : ℕ) (last : LogEntry)
    (data : Bytes) : Prop :=
  (J.snapshot ⟨k, last.term, data⟩).isSome = true ∧ Slot.Completes snapFaults

/-- The files give back the node as it is, or already as the call would make it. -/
def FilesAgree (J : Formats α) (n : Node) (f : Files α) (k : ℕ) (last : LogEntry)
    (data : Bytes) : Prop :=
  ∃ r, f.newNode J n.id n.peers = some r ∧
    (r.view = n.view ∨ (J.snapshot ⟨k, last.term, data⟩).isSome = true ∧
      r.view = (k, last.term, ⟨last.term, none⟩ :: n.log.drop (k + 1)))

/-- The log begins with a sentinel of the last snapshot, which was at `0`, and the new one is
at `0` too: there is nothing to truncate. -/
structure NothingToTruncate (n : Node) (k : ℕ) (last : LogEntry) : Prop where
  index : k = 0
  snapshotIndex : n.snapshotIndex = 0
  snapshotTerm : n.snapshotTerm = last.term
  sentinel : last.command = none

/-- The new snapshot beside the old state file makes no difference: the state file has the
truncated log already, or the snapshot before was the same. -/
def SplitHarmless (J : Formats α) (n : Node) (f : Files α) (k : ℕ) (last : LogEntry) : Prop :=
  f.logBeside J last.term = some (⟨last.term, none⟩ :: n.log.drop (k + 1)) ∨
    f.logBeside J last.term = some n.log ∧ n.snapshotIndex = k ∧ n.snapshotTerm = last.term

/-- Truncating changes nothing exactly when there is nothing to truncate. -/
theorem view_compacted_eq_iff (hlast : n.log[k]? = some last) :
    (n.compacted k last data).view = n.view ↔ n.NothingToTruncate k last := by
  have hlen : k < n.log.length := (List.getElem?_eq_some_iff.mp hlast).1
  constructor
  · intro h
    have hindex : k = n.snapshotIndex := congrArg Prod.fst h
    have hterm : last.term = n.snapshotTerm := congrArg (fun v => v.2.1) h
    have hlog : ⟨last.term, none⟩ :: n.log.drop (k + 1) = n.log := congrArg (fun v => v.2.2) h
    have hk : k = 0 := by
      have := congrArg List.length hlog
      rw [List.length_cons, List.length_drop] at this
      omega
    subst hk
    rw [← hlog] at hlast
    have hentry : ⟨last.term, none⟩ = last := Option.some.inj hlast
    exact ⟨rfl, hindex.symm, hterm.symm, (congrArg LogEntry.command hentry).symm⟩
  · rintro ⟨rfl, hindex, hterm, hcommand⟩
    have hhead : n.log = last :: n.log.drop 1 := by
      obtain ⟨rest, hrest⟩ : ∃ rest, n.log = last :: rest := by
        cases hlog : n.log with
        | nil =>
            rw [hlog] at hlast
            cases hlast
        | cons e rest =>
            rw [hlog] at hlast
            cases hlast
            exact ⟨rest, rfl⟩
      rw [hrest]
      rfl
    have hentry : last = ⟨last.term, none⟩ := by
      rw [← hcommand]
    show (0, last.term, ⟨last.term, none⟩ :: n.log.drop 1) =
      (n.snapshotIndex, n.snapshotTerm, n.log)
    rw [hindex, hterm, ← hentry, ← hhead]

/-- With the new snapshot, the node that the old state file gives is the node before the call
or after it exactly when the new snapshot makes no difference there. -/
theorem exists_view_iff_splitHarmless
    (hsome : (J.snapshot ⟨k, last.term, data⟩).isSome = true) :
    (∃ v, (f.logBeside J last.term).map (fun log => (k, last.term, log)) = some v ∧
      (v = n.view ∨ (J.snapshot ⟨k, last.term, data⟩).isSome = true ∧
        v = (n.snapshotAt k last data).view)) ↔ SplitHarmless J n f k last := by
  constructor
  · rintro ⟨v, hv, hview⟩
    obtain ⟨log, hlog, rfl⟩ := Option.map_eq_some_iff.mp hv
    rcases hview with hsame | ⟨-, hsame⟩
    · have hsnap : k = n.snapshotIndex ∧ last.term = n.snapshotTerm ∧ log = n.log := by
        simpa [view] using hsame
      exact Or.inr ⟨hsnap.2.2 ▸ hlog, hsnap.1.symm, hsnap.2.1.symm⟩
    · have htrunc : log = ⟨last.term, none⟩ :: n.log.drop (k + 1) :=
        congrArg (fun v => v.2.2) hsame
      exact Or.inl (htrunc ▸ hlog)
  · rintro (hlog | ⟨hlog, hindex, hterm⟩)
    · exact ⟨_, by rw [hlog]; rfl, Or.inr ⟨hsome, rfl⟩⟩
    · refine ⟨_, by rw [hlog]; rfl, Or.inl ?_⟩
      rw [view, hindex, hterm]

/-- **Snapshots and their files.** For every node, all files and every legal index, with
`last` the entry there: a call is all or nothing exactly when
the files were right, in case it does not replace the snapshot file;
and, in case it replaces that one alone, the new snapshot beside the old state file makes no
difference, nor, if the call returns its error, does the truncation in memory. -/
theorem takeSnapshot_all_or_nothing (J : Formats α) (snapFaults stateFaults : Faults α)
    {n : Node} (f : Files α) {k : ℕ} {last : LogEntry} (data : Bytes)
    (hold : n.snapshotIndex ≤ k) (hcommit : k ≤ n.commitIndex) (hlast : n.log[k]? = some last) :
    n.AllOrNothing J snapFaults stateFaults f k data ↔
      (¬ ReplacesSnapshot J snapFaults k last data → FilesAgree J n f k last data) ∧
      (ReplacesSnapshot J snapFaults k last data → ¬ Slot.Completes stateFaults →
        SplitHarmless J n f k last ∧
          (Slot.Errs stateFaults → n.NothingToTruncate k last)) := by
  obtain ⟨res, hres, hleaves⟩ := takeSnapshotOn_leaves J snapFaults stateFaults f data hold hcommit
    hlast
  cases hleaves with
  | nothing why hsnap hstate hended =>
      have hno : ¬ ReplacesSnapshot J snapFaults k last data := by
        rintro ⟨hsome, hcompletes⟩
        rcases why with hnone | hfault
        · rw [hnone] at hsome
          cases hsome
        · exact hfault hcompletes
      rw [allOrNothing_iff hold hcommit hlast hres, newNode_congr hsnap hstate]
      constructor
      · rintro ⟨-, v, hv, hview⟩
        obtain ⟨r, hr, rfl⟩ := Option.map_eq_some_iff.mp hv
        exact ⟨fun _ => ⟨r, hr, hview⟩, fun h => absurd h hno⟩
      · rintro ⟨hagree, -⟩
        obtain ⟨r, hr, hview⟩ := hagree hno
        exact ⟨fun _ => rfl, r.view, by rw [hr]; rfl, hview⟩
  | snapshotOnly hmarshal hreplaced hkept hsnap hstate hended herror =>
      have hdone : ReplacesSnapshot J snapFaults k last data := ⟨by rw [hmarshal]; rfl, hreplaced⟩
      rw [allOrNothing_iff hold hcommit hlast hres, newNode_view hmarshal hsnap,
        logBeside_congr hstate, herror, view_compacted_eq_iff hlast,
        exists_view_iff_splitHarmless hdone.1]
      constructor
      · rintro ⟨hmem, hharmless⟩
        exact ⟨fun h => absurd hdone h, fun _ _ => ⟨hharmless, hmem⟩⟩
      · rintro ⟨-, hsplit⟩
        exact (hsplit hdone hkept).symm
  | both hmarshal hsnapDone hdone hsnap hstate =>
      obtain ⟨votedFor, hread⟩ := J.readState_state (n.snapshotAt k last data).persistentState
      refine iff_of_true ?_ ⟨fun h => absurd ⟨by rw [hmarshal]; rfl, hsnapDone⟩ h,
        fun _ h => absurd hdone h⟩
      rw [allOrNothing_iff hold hcommit hlast hres, newNode_view hmarshal hsnap]
      have hreturned : Ended.returned true ≠ .returned false := by decide
      refine ⟨fun h => absurd h hreturned, (n.snapshotAt k last data).view, ?_,
        Or.inr ⟨by rw [hmarshal]; rfl, rfl⟩⟩
      rw [Files.logBeside, hstate]
      show ((J.readState _).map _).map _ = _
      rw [hread]
      rfl

/-- Files that hold the two records themselves. -/
def plainFormats : Formats (PersistentState ⊕ Snapshot) where
  state ps := [.inl ps]
  readState
    | [.inl ps] => some ps
    | _ => none
  readState_state ps := ⟨ps.votedFor, rfl⟩
  snapshot snap := some [.inr snap]
  readSnapshot
    | [.inr snap] => some snap
    | _ => none
  readSnapshot_snapshot snap text h := by
    cases h
    exact ⟨snap.data, rfl⟩

/-- The files of `filled`. -/
def filledFiles : Files (PersistentState ⊕ Snapshot) :=
  { state := { file := some (plainFormats.state filled.persistentState), tmp := none }
    snapshot := { file := none, tmp := none } }

theorem filledFiles_restored :
    ∃ r, filledFiles.newNode plainFormats filled.id filled.peers = some r ∧
      r.view = filled.view :=
  ⟨_, rfl, rfl⟩

/-- The first operation on a file returns an error, the others go through. -/
def createFails {α : Type} : Faults α
  | .create => some (.fails none)
  | _ => none

/-- The process stops at the first operation on a file. -/
def createCrashes {α : Type} : Faults α
  | .create => some (.crashes none)
  | _ => none

/-- The snapshot file cannot be created: an error, and everything is as before. -/
theorem takeSnapshot_all_or_nothing_refused :
    filled.AllOrNothing plainFormats createFails (fun _ => none) filledFiles 2 [123, 125] := by
  have hno : ¬ ReplacesSnapshot plainFormats createFails 2 ⟨1, some [20]⟩ [123, 125] := by
    rintro ⟨-, h⟩
    rcases h .create with hnone | ⟨hclose, -⟩
    · cases hnone
    · cases hclose
  refine (takeSnapshot_all_or_nothing plainFormats createFails (fun _ => none) filledFiles
    [123, 125] (by decide) (by decide) rfl).mpr ⟨fun _ => ?_, fun h => absurd h hno⟩
  obtain ⟨r, hr, hview⟩ := filledFiles_restored
  exact ⟨r, hr, Or.inl hview⟩

/-- The state file cannot be created: the call returns an error with the log truncated in
memory, and a restart has the new snapshot beside the whole old log. A crash there leaves
the same files. -/
theorem snapshot_beside_old_log :
    (∃ r, filledFiles.newNode plainFormats filled.id filled.peers = some r ∧
        r.view = filled.view) ∧
      filled.view = (0, 0, [⟨0, none⟩, ⟨1, some [10]⟩, ⟨1, some [20]⟩, ⟨1, some [30]⟩]) ∧
      (∃ n' f' r, filled.takeSnapshotOn plainFormats (fun _ => none) createFails filledFiles 2
            [123, 125] = some (n', f', .returned false) ∧
        n'.view = (2, 1, [⟨1, none⟩, ⟨1, some [30]⟩]) ∧
        f'.newNode plainFormats filled.id filled.peers = some r ∧
        r.view = (2, 1, filled.log)) ∧
      ∃ n' f' r, filled.takeSnapshotOn plainFormats (fun _ => none) createCrashes filledFiles 2
            [123, 125] = some (n', f', .crashed) ∧
        f'.newNode plainFormats filled.id filled.peers = some r ∧
        r.view = (2, 1, filled.log) :=
  ⟨filledFiles_restored, rfl, ⟨_, _, _, rfl, rfl, rfl, rfl⟩, _, _, _, rfl, rfl, rfl⟩

end Node

end KVEngine.Raft
