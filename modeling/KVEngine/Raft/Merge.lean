import KVEngine.Raft.NodeSpec

/-!
# Merging a request into a log

`HandleAppendEntries` on one node, whatever its log and whatever the request:
once term and previous entry are accepted, the log is kept as far as it already
has entries of the right terms, and from the first index on where it has not, the
request's entries take over. So a request that comes twice does nothing the second
time, and one that was overtaken by a longer request from the same leader log does
nothing at all (`appendEntries_merge`).
-/

namespace KVEngine.Raft

open Foundation (splice Stores)

/-! ## §1  Requests -/

namespace AppendEntriesArgs

/-- The index of the last entry a request speaks about. -/
def last (args : AppendEntriesArgs) : ℕ := args.prevLogIndex + args.entries.length

/-- The request has an entry for index `k`. -/
def Carries (args : AppendEntriesArgs) (k : ℕ) : Prop := args.prevLogIndex < k ∧ k ≤ args.last

/-- The log has an entry at `k` with the term that the request has there. -/
def StoredAt (args : AppendEntriesArgs) (log : List LogEntry) (k : ℕ) : Prop :=
  log[k]?.map LogEntry.term = args.entries[k - (args.prevLogIndex + 1)]?.map LogEntry.term

/-- The log has an entry of the right term for each one of the request. -/
def AllStored (args : AppendEntriesArgs) (log : List LogEntry) : Prop :=
  ∀ j < args.entries.length, Stores LogEntry.term log (args.prevLogIndex + 1) args.entries j

instance (args : AppendEntriesArgs) (log : List LogEntry) : Decidable (args.AllStored log) :=
  inferInstanceAs (Decidable (∀ _ < _, _))

/-- The request was cut from the log `L`. -/
def CutFrom (args : AppendEntriesArgs) (L : List LogEntry) : Prop :=
  L[args.prevLogIndex]?.map LogEntry.term = some args.prevLogTerm ∧
    args.entries <+: L.drop (args.prevLogIndex + 1)

/-- Indices of the log, offsets into the request. -/
theorem carries_iff {args : AppendEntriesArgs} {k : ℕ} :
    args.Carries k ↔ ∃ j < args.entries.length, k = args.prevLogIndex + 1 + j := by
  unfold Carries last
  constructor
  · rintro ⟨hlt, hle⟩
    exact ⟨k - (args.prevLogIndex + 1), by omega, by omega⟩
  · rintro ⟨j, hj, rfl⟩
    omega

theorem storedAt_iff {args : AppendEntriesArgs} {log : List LogEntry} {j : ℕ} :
    args.StoredAt log (args.prevLogIndex + 1 + j) ↔
      Stores LogEntry.term log (args.prevLogIndex + 1) args.entries j := by
  rw [StoredAt, Nat.add_sub_cancel_left]
  rfl

theorem CutFrom.entry {args : AppendEntriesArgs} {L : List LogEntry} (h : args.CutFrom L)
    {j : ℕ} (hj : j < args.entries.length) :
    args.entries[j]? = L[args.prevLogIndex + 1 + j]? := by
  obtain ⟨rest, hrest⟩ := h.2
  rw [← List.getElem?_drop, ← hrest, List.getElem?_append_left hj]

end AppendEntriesArgs

namespace Node

/-! ## §2  The log after an accepted request -/

variable {n : Node} {args : AppendEntriesArgs}

/-- The node after a request that it accepts. -/
def merged (ok : ℕ → Bool) (n : Node) (args : AppendEntriesArgs) : Node :=
  ((n.follow (ok 0) args).appendAndPersist (ok 1) args).followCommit args

theorem merged_log (ok : ℕ → Bool) (n : Node) (args : AppendEntriesArgs) :
    (n.merged ok args).log =
      splice LogEntry.term n.log (args.prevLogIndex + 1) args.entries := by
  obtain ⟨-, -, -, -, -, hlog, -⟩ :=
    followCommit_rest ((n.follow (ok 0) args).appendAndPersist (ok 1) args) args
  rw [merged, hlog, appendAndPersist_log, follow_log]

theorem merged_currentTerm (ok : ℕ → Bool) (n : Node) (args : AppendEntriesArgs) :
    (n.merged ok args).currentTerm = args.term := by
  obtain ⟨-, -, hT, -⟩ :=
    followCommit_rest ((n.follow (ok 0) args).appendAndPersist (ok 1) args) args
  obtain ⟨-, -, hT', -⟩ := appendAndPersist_rest (ok 1) (n.follow (ok 0) args) args
  rw [merged, hT, hT', follow_currentTerm]

theorem merged_commitIndex (ok : ℕ → Bool) (n : Node) (args : AppendEntriesArgs) :
    (n.merged ok args).commitIndex =
      if n.commitIndex < args.leaderCommit then min args.leaderCommit args.last
      else n.commitIndex := by
  obtain ⟨-, -, -, -, -, hc, -⟩ := appendAndPersist_rest (ok 1) (n.follow (ok 0) args) args
  have hc' : (n.follow (ok 0) args).commitIndex = n.commitIndex := by
    simp [follow, becomeFollower]
  rw [merged, followCommit_commitIndex, hc, hc']
  rfl

theorem Accepts.length (h : n.Accepts args) : args.prevLogIndex + 1 ≤ n.log.length := by
  obtain ⟨prev, hprev, -⟩ := Option.map_eq_some_iff.mp h.2
  exact (List.getElem?_eq_some_iff.mp hprev).1

theorem merged_lastApplied (ok : ℕ → Bool) (n : Node) (args : AppendEntriesArgs) :
    (n.merged ok args).lastApplied = n.lastApplied := by
  obtain ⟨-, -, -, -, -, -, ha, -⟩ :=
    followCommit_rest ((n.follow (ok 0) args).appendAndPersist (ok 1) args) args
  obtain ⟨-, -, -, -, -, -, ha', -⟩ := appendAndPersist_rest (ok 1) (n.follow (ok 0) args) args
  rw [merged, ha, ha']
  simp [follow, becomeFollower]

/-- The entry before the request stays, the request's own terms are there. -/
theorem merged_stored (ok : ℕ → Bool) (h : n.Accepts args) :
    (n.merged ok args).log[args.prevLogIndex]?.map LogEntry.term = some args.prevLogTerm ∧
      ∀ k, args.Carries k → args.StoredAt (n.merged ok args).log k := by
  rw [merged_log]
  constructor
  · rw [Foundation.splice_getElem?_lt h.length (Nat.lt_succ_self _)]
    exact h.2
  · intro k hk
    obtain ⟨j, hj, rfl⟩ := AppendEntriesArgs.carries_iff.mp hk
    exact AppendEntriesArgs.storedAt_iff.mpr (Foundation.stores_splice h.length j hj)

/-- A request whose entries are all stored leaves the log alone. -/
theorem merged_log_of_stored (ok : ℕ → Bool)
    (h : ∀ k, args.Carries k → args.StoredAt n.log k) : (n.merged ok args).log = n.log := by
  rw [merged_log]
  refine Foundation.splice_of_stores fun j hj => ?_
  exact AppendEntriesArgs.storedAt_iff.mp
    (h _ (AppendEntriesArgs.carries_iff.mpr ⟨j, hj, rfl⟩))

/-- At the first entry that is not stored the request takes over. -/
theorem merged_log_of_miss (ok : ℕ → Bool) (hacc : n.Accepts args) {k : ℕ}
    (hk : args.Carries k) (hmiss : ¬ args.StoredAt n.log k)
    (hbefore : ∀ j, args.Carries j → j < k → args.StoredAt n.log j) :
    (n.merged ok args).log =
      n.log.take k ++ args.entries.drop (k - (args.prevLogIndex + 1)) := by
  obtain ⟨i, hi, rfl⟩ := AppendEntriesArgs.carries_iff.mp hk
  rw [merged_log, Nat.add_sub_cancel_left]
  refine Foundation.splice_of_miss hacc.length hi (fun j hj => ?_)
    (fun hs => hmiss (AppendEntriesArgs.storedAt_iff.mpr hs))
  refine AppendEntriesArgs.storedAt_iff.mp (hbefore _ ?_ (by omega))
  exact AppendEntriesArgs.carries_iff.mpr ⟨j, by omega, rfl⟩

/-! ## §3  Repeated and overtaken requests -/

theorem merged_accepts (ok : ℕ → Bool) (h : n.Accepts args) :
    (n.merged ok args).Accepts args :=
  ⟨(merged_currentTerm ok n args).le, (merged_stored ok h).1⟩

theorem merged_commitIndex_again (ok ok' : ℕ → Bool) (n : Node) (args : AppendEntriesArgs) :
    ((n.merged ok args).merged ok' args).commitIndex = (n.merged ok args).commitIndex := by
  rw [merged_commitIndex ok', merged_commitIndex ok]
  split_ifs <;> rfl

/-- After a request cut from `L` the log has the terms of `L` as far as the
request went. -/
theorem merged_terms (ok : ℕ → Bool) (h : n.Accepts args) {L : List LogEntry}
    (hcut : args.CutFrom L) {k : ℕ} (hge : args.prevLogIndex ≤ k) (hle : k ≤ args.last) :
    (n.merged ok args).log[k]?.map LogEntry.term = L[k]?.map LogEntry.term := by
  obtain ⟨hprev, hstored⟩ := merged_stored ok h
  rcases hge.eq_or_lt with rfl | hlt
  · rw [hprev, hcut.1]
  · obtain ⟨j, hj, rfl⟩ := AppendEntriesArgs.carries_iff.mp ⟨hlt, hle⟩
    have hk := hstored _ (AppendEntriesArgs.carries_iff.mpr ⟨j, hj, rfl⟩)
    rw [AppendEntriesArgs.StoredAt, Nat.add_sub_cancel_left, hcut.entry hj] at hk
    exact hk

/-- A request from the same leader log that starts no earlier and ends no later
is accepted and finds all its entries stored. -/
theorem merged_covers (ok : ℕ → Bool) (h : n.Accepts args) {L : List LogEntry}
    (hcut : args.CutFrom L) {args' : AppendEntriesArgs} (hcut' : args'.CutFrom L)
    (hterm : args'.term = args.term) (hprev : args.prevLogIndex ≤ args'.prevLogIndex)
    (hlast : args'.last ≤ args.last) :
    (n.merged ok args).Accepts args' ∧
      ∀ k, args'.Carries k → args'.StoredAt (n.merged ok args).log k := by
  refine ⟨⟨?_, ?_⟩, fun k hk => ?_⟩
  · rw [merged_currentTerm, hterm]
  · have hle : args'.prevLogIndex ≤ args'.last := Nat.le_add_right _ _
    rw [merged_terms ok h hcut hprev (hle.trans hlast), hcut'.1]
  · obtain ⟨j, hj, rfl⟩ := AppendEntriesArgs.carries_iff.mp hk
    rw [AppendEntriesArgs.StoredAt, merged_terms ok h hcut (hprev.trans hk.1.le) (hk.2.trans hlast),
      Nat.add_sub_cancel_left, hcut'.entry hj]

/-- **Merging.** An accepted request leaves the log alone if it has an entry of the
right term for each of the request's; otherwise the log is cut at the first index
where it has not and continues with the request's entries from there. Delivered
again, the same request changes neither log nor commit index and gets the same
answer, and a request cut from the same leader log that starts no earlier and ends
no later leaves the log alone. -/
theorem appendEntries_merge (ok : ℕ → Bool) (n : Node) (args : AppendEntriesArgs)
    (h : n.Accepts args) :
    ∃ n', n.handleAppendEntries ok args = some (n', ⟨args.term, true, 0, 0⟩) ∧
      ((∀ k, args.Carries k → args.StoredAt n.log k) → n'.log = n.log) ∧
      (∀ k, args.Carries k → ¬ args.StoredAt n.log k →
        (∀ j, args.Carries j → j < k → args.StoredAt n.log j) →
        n'.log = n.log.take k ++ args.entries.drop (k - (args.prevLogIndex + 1))) ∧
      (∀ ok', ∃ n'', n'.handleAppendEntries ok' args = some (n'', ⟨args.term, true, 0, 0⟩) ∧
        n''.log = n'.log ∧ n''.commitIndex = n'.commitIndex) ∧
      ∀ ok' L args', args.CutFrom L → args'.CutFrom L → args'.term = args.term →
        args.prevLogIndex ≤ args'.prevLogIndex → args'.last ≤ args.last →
        ∃ n'', n'.handleAppendEntries ok' args' = some (n'', ⟨args.term, true, 0, 0⟩) ∧
          n''.log = n'.log := by
  refine ⟨n.merged ok args, handleAppendEntries_accept n args ok h, merged_log_of_stored ok,
    fun k => merged_log_of_miss ok h, fun ok' => ?_, ?_⟩
  · refine ⟨_, handleAppendEntries_accept _ args ok' (merged_accepts ok h), ?_,
      merged_commitIndex_again ok ok' n args⟩
    exact merged_log_of_stored ok' (merged_stored ok h).2
  · intro ok' L args' hcut hcut' hterm hprev hlast
    obtain ⟨hacc, hstored⟩ := merged_covers ok h hcut hcut' hterm hprev hlast
    rw [← hterm]
    exact ⟨_, handleAppendEntries_accept _ args' ok' hacc, merged_log_of_stored ok' hstored⟩

/-- A follower whose second entry is of an old term. -/
def behind : Node :=
  { newNode [2] [[1]] none none with
    currentTerm := 2
    log := [sentinel, ⟨1, some [10]⟩, ⟨1, some [11]⟩, ⟨1, some [12]⟩] }

/-- The leader of term `2` sends its log from index `1` on. -/
def catchUp : AppendEntriesArgs :=
  { term := 2, leaderId := [1], prevLogIndex := 0, prevLogTerm := 0,
    entries := [⟨1, some [10]⟩, ⟨2, some [20]⟩], leaderCommit := 1 }

theorem behind_catchUp : ∃ n', behind.handleAppendEntries (fun _ => true) catchUp =
      some (n', ⟨2, true, 0, 0⟩) ∧
    n'.log = [sentinel, ⟨1, some [10]⟩, ⟨2, some [20]⟩] := by
  obtain ⟨n', h, -, hmiss, -⟩ :=
    appendEntries_merge (fun _ => true) behind catchUp (by decide)
  refine ⟨n', h, hmiss 2 (by unfold AppendEntriesArgs.Carries; decide)
    (by unfold AppendEntriesArgs.StoredAt; decide) ?_⟩
  intro j hj hlt
  obtain ⟨i, -, rfl⟩ := AppendEntriesArgs.carries_iff.mp hj
  obtain rfl : i = 0 := by
    have : catchUp.prevLogIndex = 0 := rfl
    omega
  rfl

end Node

end KVEngine.Raft
