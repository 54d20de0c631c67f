import KVEngine.LSM.Refinement

/-!
# Contents of the engine

Two laws of `internal/lsm/lsm.go`. A deletion is a value among others: a key reads as
the value of its last `Put` unless that value is the tombstone (`get_put_iff`).
Compaction keeps what the tables say about every key, in one sorted table without
tombstones (`compact_content`).
-/

namespace KVEngine.LSM

open Foundation

/-! ## §1  Values that were put -/

/-- `Get` never answers with the tombstone. -/
theorem Represents.get_ne_tombstone {e : Engine} {runs : List (SortedTable Bytes Bytes)}
    (h : Represents e runs) (key : Bytes) : e.get key ≠ some tombstone := by
  cases hmem : e.memtable.data.lookup key with
  | some raw =>
      rw [Engine.get, hmem]
      by_cases hraw : raw = tombstone <;> simp [hraw]
  | none =>
      rw [h.get_tables key hmem]
      intro hget
      obtain ⟨t, -, ht⟩ := List.exists_of_findSome?_eq_some hget
      exact live_eq_true_iff.mp (Option.filter_eq_some_iff.mp ht).2 rfl

/-- A live newest mention is what is read, wherever it is. -/
theorem Represents.get_of_reading {e : Engine} {runs : List (SortedTable Bytes Bytes)}
    (h : Represents e runs) {key v : Bytes} (hv : reading e runs key = some v) :
    e.get key = some v := by
  obtain ⟨hnewest, hlive⟩ := Option.filter_eq_some_iff.mp hv
  cases hmem : e.memtable.data.lookup key with
  | some raw =>
      rw [hmem, Option.some_or] at hnewest
      cases hnewest
      rw [Engine.get, hmem]
      exact if_neg (live_eq_true_iff.mp hlive)
  | none =>
      rw [hmem, Option.none_or] at hnewest
      rw [h.get_tables key hmem]
      exact firstLive_of_live hlive hnewest

/-- **Values are opaque but for one.** After any calls, a key whose last write put
`value` reads as `value` exactly when that is not the tombstone. -/
theorem get_put_iff {cs : List Call} (h : ∀ c ∈ cs, c.Sized) {key value : Bytes}
    (hlast : lastWrite (cs.filterMap Call.write?) key = some (some value)) :
    (runCalls cs).get key = some value ↔ value ≠ tombstone := by
  obtain ⟨runs, hrep, hread⟩ := refines_runCalls_sized h
  constructor
  · rintro hget rfl
    exact hrep.get_ne_tombstone key hget
  · intro hvalue
    apply hrep.get_of_reading
    have hwrites : lastWrite ((cs.filterMap Call.write?).map readable) key =
        some ((some value).filter live) := by
      rw [show readable = fun w => { w with value := w.value.filter live } from rfl,
        lastWrite_map, hlast]
      rfl
    rw [← hread, lookup_applyAll, hwrites]
    simp [Option.filter, live, hvalue]

/-- Empty keys and values are read back from a table. -/
theorem get_put_iff_empty :
    let cs : List Call := [.put [] [1], .put [97] [], .flush, .put [97] [2], .put [] [], .flush]
    (runCalls cs).get [] = some [] ∧ (runCalls cs).get [97] = some [2] :=
  ⟨(get_put_iff (by decide +kernel) (by decide +kernel)).mpr (by decide),
    (get_put_iff (by decide +kernel) (by decide +kernel)).mpr (by decide)⟩

/-- The tombstone as value is not found, in memory or in a table, and under it an
older value is. -/
theorem tombstone_value_lost :
    let cs : List Call := [.put [97] [1], .flush, .put [97] tombstone]
    (∀ c ∈ cs, c.Sized) ∧
      lastWrite (cs.filterMap Call.write?) [97] = some (some tombstone) ∧
      (runCalls cs).get [97] = none ∧ (runCalls (cs ++ [.flush])).get [97] = some [1] := by
  decide +kernel

/-! ## §2  The layers -/

/-- The newest mention of a key in the memory table and the tables behind it. -/
def Engine.latest (e : Engine) (key : Bytes) : Option Bytes :=
  (e.memtable.data.lookup key).or ((e.l0.reverse ++ e.l1).findSome? (e.mention key))

/-- What the layers say about a key, a tombstone meaning absent. -/
def Engine.layered (e : Engine) (key : Bytes) : Option Bytes := (e.latest key).filter live

theorem Represents.latest {e : Engine} {runs : List (SortedTable Bytes Bytes)}
    (h : Represents e runs) (key : Bytes) :
    e.latest key = (e.memtable.data.lookup key).or (newest runs key) := by
  rw [Engine.latest, findSome?_stored (fun _ _ hst => hst.mention key) h.tables]
  rfl

theorem Refines.layered {e : Engine} {m : Dict Bytes Bytes} (h : Refines e m) (key : Bytes) :
    e.layered key = m.lookup key := by
  obtain ⟨runs, hrep, hread⟩ := h
  rw [Engine.layered, hrep.latest, hread]
  rfl

/-! ## §3  Compaction -/

/-- The newest entry of the tables for a key, a tombstone meaning absent. -/
def Engine.content (e : Engine) (key : Bytes) : Option Bytes :=
  ((e.l0.reverse ++ e.l1).findSome? (e.mention key)).filter live

theorem Represents.content {e : Engine} {runs : List (SortedTable Bytes Bytes)}
    (h : Represents e runs) (key : Bytes) :
    e.content key = (newest runs key).filter live := by
  rw [Engine.content, findSome?_stored (fun _ _ hst => hst.mention key) h.tables]
  rfl

/-- A table that lists each of its keys once, in order, and no tombstones. -/
structure Clean (entries : List Entry) : Prop where
  sorted : entries.Pairwise fun a b => a.1 < b.1
  nodup : (entries.map Prod.fst).Nodup
  live : ∀ x ∈ entries, x.2 ≠ tombstone

theorem clean_of_mem_compactRuns {runs : List (SortedTable Bytes Bytes)}
    {t : SortedTable Bytes Bytes} (ht : t ∈ compactRuns live runs) : Clean t.entries := by
  refine ⟨t.sorted, ?_, ?_⟩
  · rw [List.Nodup, List.pairwise_map]
    exact t.sorted.imp fun hlt => ne_of_lt hlt
  · intro x hx
    rw [compactRuns] at ht
    split at ht
    · cases ht
    · obtain rfl := List.mem_singleton.mp ht
      exact live_eq_true_iff.mp (List.mem_filter.mp hx).2

/-- **Compaction.** From every reachable state it succeeds and leaves no level-0 table,
at most one level-1 table, which is clean, and the content of every key. -/
theorem compact_content {ss : List Step} (h : ∀ s ∈ ss, s.Sized) :
    let e := runSteps ss
    let e' := e.compact.1
    e.compact.2 = none ∧ e'.l0 = [] ∧ e'.l1.length ≤ 1 ∧
      (∀ sst ∈ e'.l1, ∃ entries, sst.readAll e'.disk = .ok entries ∧ Clean entries) ∧
      ∀ key, e'.content key = e.content key := by
  intro e e'
  obtain ⟨runs, hrep, -⟩ := refines_runSteps h
  obtain ⟨hrep', hok, hl0, -⟩ := hrep.compact
  refine ⟨hok, hl0, hrep'.l1, ?_, ?_⟩
  · intro sst hsst
    obtain ⟨hlen, hall⟩ := List.forall₂_iff_get.mp hrep'.tables
    obtain ⟨i, hi, rfl⟩ := List.getElem_of_mem (List.mem_append_right e'.l0.reverse hsst)
    exact ⟨_, (hall i hi (hlen ▸ hi)).readAll,
      clean_of_mem_compactRuns (List.getElem_mem (hlen ▸ hi))⟩
  · intro key
    rw [hrep'.content, hrep.content, newest_compactRuns, Option.filter_filter]
    simp

/-- Overlapping tables with a tombstone over a value, after an earlier compaction. -/
theorem compact_content_deleted :
    let ss : List Step := [.call (.put [97] [1]), .call .flush, .compact,
      .call (.put [98] [2]), .call .flush, .call (.delete [97]), .call .flush]
    (runSteps ss).compact.1.content [97] = none ∧
      (runSteps ss).compact.1.content [98] = some [2] := by
  intro ss
  have hsized : ∀ s ∈ ss, s.Sized := by decide +kernel
  obtain ⟨-, -, -, -, hcontent⟩ := compact_content hsized
  rw [hcontent, hcontent]
  decide +kernel

end KVEngine.LSM
