import KVEngine.Raft.Merge

/-!
# Successive snapshots

After a snapshot at `k` the entry of index `j > k` stands at position `j - k` of
the log. `TakeSnapshot` does not subtract: it looks its argument up as a position,
whatever was discarded before. A second snapshot therefore discards as many entries
again (`snapshotAt_twice`), and it agrees with the snapshot taken alone only if the
first one was at `0` and discarded nothing (`snapshots_compose_iff`).
-/

namespace KVEngine.Raft.Node

/-! ## §1  One snapshot -/

/-- The node after a snapshot at `k`, whose entry is `last`. -/
def snapshotAt (n : Node) (k : ℕ) (last : LogEntry) (data : Bytes) : Node :=
  persist true
    { n with
      snapshotFile := some { lastIncludedIndex := k, lastIncludedTerm := last.term, data }
      log := { term := last.term, command := none } :: n.log.drop (k + 1)
      snapshotIndex := k
      snapshotTerm := last.term }

section Fields

variable (n : Node) (k : ℕ) (last : LogEntry) (data : Bytes)

@[simp] theorem snapshotAt_log :
    (n.snapshotAt k last data).log = ⟨last.term, none⟩ :: n.log.drop (k + 1) := rfl

@[simp] theorem snapshotAt_snapshotIndex : (n.snapshotAt k last data).snapshotIndex = k := rfl

end Fields

variable {n : Node} {k : ℕ} {last : LogEntry} {data : Bytes}

theorem snapshotAt_length (h : n.log[k]? = some last) :
    (n.snapshotAt k last data).log.length = n.log.length - k := by
  have hlt : k < n.log.length := (List.getElem?_eq_some_iff.mp h).1
  rw [snapshotAt_log, List.length_cons, List.length_drop]
  omega

/-- What a snapshot at `k` keeps stands `k` places further down. -/
theorem snapshotAt_getElem? {j : ℕ} (hj : 0 < j) :
    (n.snapshotAt k last data).log[j]? = n.log[k + j]? := by
  obtain ⟨i, rfl⟩ := Nat.exists_eq_add_of_lt hj
  rw [snapshotAt_log, Nat.zero_add, List.getElem?_cons_succ, List.getElem?_drop]
  congr 1
  omega

/-- A committed index not below the last snapshot that is a position of the log. -/
theorem takeSnapshot_of_getElem? (hcommit : k ≤ n.commitIndex) (hold : n.snapshotIndex ≤ k)
    (h : n.log[k]? = some last) :
    n.takeSnapshot true true k data = some (n.snapshotAt k last data, true) := by
  have hlt : k < n.log.length := (List.getElem?_eq_some_iff.mp h).1
  unfold takeSnapshot
  rw [if_neg (by omega), if_neg (by omega), if_neg (by omega), h]
  rfl

/-- A snapshot that succeeds found its index in the log. -/
theorem takeSnapshot_true {n' : Node}
    (h : n.takeSnapshot true true k data = some (n', true)) (hcommit : k ≤ n.commitIndex)
    (hold : n.snapshotIndex ≤ k) :
    ∃ last, n.log[k]? = some last ∧ n' = n.snapshotAt k last data := by
  cases hlast : n.log[k]? with
  | none =>
      have hlen : n.log.length ≤ k := List.getElem?_eq_none_iff.mp hlast
      unfold takeSnapshot at h
      rw [if_neg (by omega), if_neg (by omega), if_pos hlen] at h
      cases h
  | some last =>
      rw [takeSnapshot_of_getElem? hcommit hold hlast] at h
      cases h
      exact ⟨last, rfl, rfl⟩

/-! ## §2  Two snapshots -/

/-- A second snapshot counts from where the first one left the log. -/
theorem snapshotAt_twice {k₂ : ℕ} {last₂ : LogEntry} {data₂ : Bytes} (h : 0 < k₂) :
    ((n.snapshotAt k last data).snapshotAt k₂ last₂ data₂).log =
        ⟨last₂.term, none⟩ :: n.log.drop (k + k₂ + 1) ∧
      (n.snapshotAt k last data).log[k₂]? = n.log[k + k₂]? := by
  refine ⟨?_, snapshotAt_getElem? h⟩
  rw [snapshotAt_log, snapshotAt_log, List.drop_succ_cons, List.drop_drop]
  congr 2
  omega

/-- The entry of index `j`, an index that counts the discarded entries too. -/
def entryAt (n : Node) (j : ℕ) : Option LogEntry := n.log[j - n.snapshotIndex]?

/-- Both snapshots succeed, the second leaves the log as it would have alone, and
no entry above it is gone. -/
def SnapshotsCompose (n : Node) (k₁ k₂ : ℕ) (data₁ data₂ : Bytes) : Prop :=
  ∃ n₁ n₂ n', n.takeSnapshot true true k₁ data₁ = some (n₁, true) ∧
    n₁.takeSnapshot true true k₂ data₂ = some (n₂, true) ∧
    n.takeSnapshot true true k₂ data₂ = some (n', true) ∧
    n₂.log = n'.log ∧ n₂.snapshotIndex = n'.snapshotIndex ∧
    n₂.snapshotTerm = n'.snapshotTerm ∧ ∀ j, k₂ < j → n₂.entryAt j = n.entryAt j

theorem compose_of_zero {k₂ : ℕ} {data₁ data₂ : Bytes} (hold : n.snapshotIndex = 0)
    (hcommit : k₂ ≤ n.commitIndex) (hlen : k₂ < n.log.length) :
    n.SnapshotsCompose 0 k₂ data₁ data₂ := by
  obtain ⟨first, hfirst⟩ : ∃ e, n.log[0]? = some e :=
    ⟨_, List.getElem?_eq_getElem (by omega)⟩
  obtain ⟨last, hlast⟩ : ∃ e, n.log[k₂]? = some e := ⟨_, List.getElem?_eq_getElem hlen⟩
  -- at `0` only the command of the first entry goes
  obtain ⟨last₁, hlast₁, hterm⟩ : ∃ e,
      (n.snapshotAt 0 first data₁).log[k₂]? = some e ∧ e.term = last.term := by
    rcases Nat.eq_zero_or_pos k₂ with rfl | hpos
    · rw [hfirst] at hlast
      cases hlast
      exact ⟨⟨first.term, none⟩, rfl, rfl⟩
    · exact ⟨last, by rw [snapshotAt_getElem? hpos, Nat.zero_add, hlast], rfl⟩
  refine ⟨_, _, _, takeSnapshot_of_getElem? (Nat.zero_le _) hold.le hfirst,
    takeSnapshot_of_getElem? hcommit (Nat.zero_le _) hlast₁,
    takeSnapshot_of_getElem? hcommit (by omega) hlast, ?_, rfl, hterm, ?_⟩
  · simp [hterm]
  · intro j hj
    have hkept : (n.snapshotAt 0 first data₁).log[j]? = n.log[j]? := by
      rw [snapshotAt_getElem? (by omega), Nat.zero_add]
    rw [entryAt, entryAt, snapshotAt_snapshotIndex, snapshotAt_getElem? (by omega),
      Nat.add_sub_cancel' hj.le, hkept, hold, Nat.sub_zero]

/-- The second snapshot discards as many entries again, so the first must have
discarded none. -/
theorem zero_of_compose {k₁ k₂ : ℕ} {data₁ data₂ : Bytes} (hold : n.snapshotIndex ≤ k₁)
    (hle : k₁ ≤ k₂) (hcommit : k₂ ≤ n.commitIndex)
    (h : n.SnapshotsCompose k₁ k₂ data₁ data₂) : k₁ = 0 ∧ k₂ < n.log.length := by
  obtain ⟨n₁, n₂, n', h₁, h₂, h', hlog, -⟩ := h
  obtain ⟨last₁, hlast₁, rfl⟩ := takeSnapshot_true h₁ (hle.trans hcommit) hold
  obtain ⟨last₂, hlast₂, rfl⟩ := takeSnapshot_true h₂ hcommit hle
  obtain ⟨last', hlast', rfl⟩ := takeSnapshot_true h' hcommit (hold.trans hle)
  have hlen := congrArg List.length hlog
  have hlt : k₂ < n.log.length := (List.getElem?_eq_some_iff.mp hlast').1
  have hlt₂ := (List.getElem?_eq_some_iff.mp hlast₂).1
  rw [snapshotAt_length hlast₂, snapshotAt_length hlast₁, snapshotAt_length hlast'] at hlen
  rw [snapshotAt_length hlast₁] at hlt₂
  omega

/-- **Snapshots compose only after one that discards nothing.** For indices that a
snapshot may be taken at, `TakeSnapshot(k₁)` followed by `TakeSnapshot(k₂)` does
what `TakeSnapshot(k₂)` does exactly if `k₁` is `0` and `k₂` is still a position of
the log. -/
theorem snapshots_compose_iff (n : Node) (k₁ k₂ : ℕ) (data₁ data₂ : Bytes)
    (hold : n.snapshotIndex ≤ k₁) (hle : k₁ ≤ k₂) (hcommit : k₂ ≤ n.commitIndex) :
    n.SnapshotsCompose k₁ k₂ data₁ data₂ ↔ k₁ = 0 ∧ k₂ < n.log.length := by
  constructor
  · exact zero_of_compose hold hle hcommit
  · rintro ⟨rfl, hlen⟩
    exact compose_of_zero (Nat.le_zero.mp hold) hcommit hlen

/-- A leader sends three entries and says they are committed. -/
def threeEntries : AppendEntriesArgs :=
  { term := 1, leaderId := [1], prevLogIndex := 0, prevLogTerm := 0,
    entries := [⟨1, some [10]⟩, ⟨1, some [20]⟩, ⟨1, some [30]⟩], leaderCommit := 3 }

/-- The follower that took them in. -/
def filled : Node := (newNode [2] [[1]] none none).merged (fun _ => true) threeEntries

theorem filled_composes : filled.SnapshotsCompose 0 2 [123, 125] [123, 125] :=
  (snapshots_compose_iff filled 0 2 [123, 125] [123, 125] (by decide) (by decide)
    (by decide)).mpr ⟨rfl, by decide⟩

/-- The same snapshot taken again discards the next entry, a snapshot at `1` and
then at `2` discards the entry at `3`, and after one at `1` the one at `3` is
refused. -/
theorem second_snapshot_discards :
    (newNode [2] [[1]] none none).handleAppendEntries (fun _ => true) threeEntries =
        some (filled, ⟨1, true, 0, 0⟩) ∧
      filled.commitIndex = 3 ∧ filled.snapshotIndex = 0 ∧
      ∃ one again both alone,
        filled.takeSnapshot true true 1 [123, 125] = some (one, true) ∧
        one.log = [⟨1, none⟩, ⟨1, some [20]⟩, ⟨1, some [30]⟩] ∧
        one.takeSnapshot true true 1 [123, 125] = some (again, true) ∧
        again.log = [⟨1, none⟩, ⟨1, some [30]⟩] ∧
        one.takeSnapshot true true 2 [123, 125] = some (both, true) ∧
        both.log = [⟨1, none⟩] ∧
        filled.takeSnapshot true true 2 [123, 125] = some (alone, true) ∧
        alone.log = [⟨1, none⟩, ⟨1, some [30]⟩] ∧
        filled.takeSnapshot true true 3 [123, 125] =
          some (filled.snapshotAt 3 ⟨1, none⟩ [123, 125], true) ∧
        one.takeSnapshot true true 3 [123, 125] = some (one, false) :=
  ⟨rfl, rfl, rfl, _, _, _, _, rfl, rfl, rfl, rfl, rfl, rfl, rfl, rfl, rfl, rfl⟩

end KVEngine.Raft.Node
