import KVEngine.LSM.Engine

/-!
# The engine and the map it stands for

The engine's tables are layers over a map: the newest mention of a key decides
it, and a tombstone means absent. Every call keeps that (`refines_call`), the
automatic flushes and compactions included, and none of them fails.

`Get` reads the layers by skipping tombstones, so it is right at a key exactly
when no table's tombstone hides a value in an older table (`get_eq_iff`).
-/

namespace KVEngine.LSM

open Foundation

/-! ## §1  Tables on disk -/

/-- The tables of the engine, newest first, are `runs`. -/
structure Represents (e : Engine) (runs : List (SortedTable Bytes Bytes)) : Prop where
  tables : List.Forall₂ (Stored e.disk) (e.l0.reverse ++ e.l1) runs
  fits : ∀ k v, e.memtable.data.lookup k = some v → Fits (k, v)
  fresh : ∀ sst ∈ e.l0 ++ e.l1, sst.path.id ≤ e.nextID
  l1 : e.l1.length ≤ 1

/-- What the layers say about a key. -/
def reading (e : Engine) (runs : List (SortedTable Bytes Bytes)) (k : Bytes) : Option Bytes :=
  ((e.memtable.data.lookup k).or (newest runs k)).filter live

/-- The engine stands for the map `m`. -/
def Refines (e : Engine) (m : Dict Bytes Bytes) : Prop :=
  ∃ runs, Represents e runs ∧ ∀ k, m.lookup k = reading e runs k

theorem stored_forall₂ {disk disk' : Disk} {ssts : List SSTable}
    {ts : List (SortedTable Bytes Bytes)} (h : List.Forall₂ (Stored disk) ssts ts)
    (hsame : ∀ sst ∈ ssts, disk' sst.path = disk sst.path) :
    List.Forall₂ (Stored disk') ssts ts := by
  induction h with
  | nil => exact .nil
  | cons hhead _ ih =>
      exact .cons (hhead.frame (hsame _ List.mem_cons_self))
        (ih fun sst hsst => hsame sst (List.mem_cons_of_mem _ hsst))

theorem mergeTables_stored {disk : Disk} {ssts : List SSTable}
    {ts : List (SortedTable Bytes Bytes)} (h : List.Forall₂ (Stored disk) ssts ts)
    (m : Dict Bytes Bytes) : mergeTables disk m ssts = .ok (merge m ts) := by
  induction h generalizing m with
  | nil => rfl
  | cons hhead _ ih =>
      rw [mergeTables, hhead.readAll]
      exact ih _

theorem mergeTables_append (disk : Disk) (m : Dict Bytes Bytes) (as bs : List SSTable) :
    mergeTables disk m (as ++ bs) =
      (mergeTables disk m as).bind fun merged => mergeTables disk merged bs := by
  induction as generalizing m with
  | nil => rfl
  | cons sst as ih =>
      rw [List.cons_append, mergeTables, mergeTables]
      cases sst.readAll disk with
      | error err => rfl
      | ok entries => exact ih _

namespace Represents

variable {e : Engine} {runs : List (SortedTable Bytes Bytes)}

/-- Oldest first, the tables are those of level 1 and then of level 0. -/
theorem reverse (h : Represents e runs) :
    List.Forall₂ (Stored e.disk) (e.l1 ++ e.l0) runs.reverse := by
  have hrev := List.rel_reverse h.tables
  have hl1 : e.l1.reverse = e.l1 := by
    have hlen := h.l1
    match e.l1, hlen with
    | [], _ => rfl
    | [_], _ => rfl
  rwa [List.reverse_append, List.reverse_reverse, hl1] at hrev

/-- Other files, and ids that were passed over, do not matter. -/
theorem frame (h : Represents e runs) {disk : Disk} {nextID : ℕ}
    (hdisk : ∀ sst ∈ e.l0 ++ e.l1, disk sst.path = e.disk sst.path) (hid : e.nextID ≤ nextID) :
    Represents { e with disk, nextID } runs where
  tables := stored_forall₂ h.tables fun sst hsst => hdisk sst (by simpa [or_comm] using hsst)
  fits := h.fits
  fresh := fun sst hsst => (h.fresh sst hsst).trans hid
  l1 := h.l1

theorem fits_newest (h : Represents e runs) {k v : Bytes} (hv : newest runs k = some v) :
    Fits (k, v) := by
  obtain ⟨t, ht, hget⟩ := List.exists_of_findSome?_eq_some hv
  obtain ⟨hlen, hall⟩ := List.forall₂_iff_get.mp h.tables
  obtain ⟨i, hi, rfl⟩ := List.getElem_of_mem ht
  exact (hall i (hlen ▸ hi) hi).fits _ (SortedTable.get_eq_some_iff.mp hget)

end Represents

/-! ## §2  Calls -/

/-- Setting a key of the memory table. -/
theorem Refines.insert {e : Engine} {m : Dict Bytes Bytes} (h : Refines e m)
    {key raw : Bytes} (hfits : Fits (key, raw)) (size : ℕ) :
    Refines { e with memtable := { data := e.memtable.data.insert key raw, size } }
      (({ key, value := (some raw).filter live } : Write Bytes Bytes).apply m) := by
  obtain ⟨runs, ⟨htables, hmem, hfresh, hl1⟩, hread⟩ := h
  refine ⟨runs, ⟨htables, fun k v hv => ?_, hfresh, hl1⟩, fun k => ?_⟩
  · by_cases hk : k = key
    · subst hk
      rw [Finmap.lookup_insert] at hv
      cases hv
      exact hfits
    · rw [Finmap.lookup_insert_of_ne _ hk] at hv
      exact hmem k v hv
  · rw [Write.lookup_apply, reading]
    by_cases hk : k = key
    · subst hk
      rw [if_pos rfl, Finmap.lookup_insert, Option.some_or]
    · rw [if_neg hk, Finmap.lookup_insert_of_ne _ hk, hread]
      rfl

theorem Represents.fits_sorted {e : Engine} {runs : List (SortedTable Bytes Bytes)}
    (h : Represents e runs) : ∀ x ∈ e.memtable.sorted, Fits x := by
  intro x hx
  refine h.fits x.1 x.2 ?_
  rw [← SortedTable.get_ofDict]
  exact SortedTable.get_eq_some_iff.mpr hx

/-- The memory table becomes the newest run. -/
theorem Represents.flushMemTable {e : Engine} {runs : List (SortedTable Bytes Bytes)}
    (h : Represents e runs) :
    Represents e.flushMemTable (SortedTable.ofDict e.memtable.data :: runs) := by
  have hstored := stored_flush (t := SortedTable.ofDict e.memtable.data) h.fits_sorted e.disk
    ⟨.l0, e.nextID + 1⟩
  refine ⟨?_, ?_, fun sst hsst => ?_, h.l1⟩
  · show List.Forall₂ _ ((e.l0 ++ [_]).reverse ++ e.l1) _
    rw [List.reverse_append, List.reverse_singleton, List.singleton_append, List.cons_append]
    refine .cons hstored (stored_forall₂ h.tables fun sst hsst => ?_)
    have hid := h.fresh sst (by simpa [or_comm] using hsst)
    exact Function.update_of_ne (Path.ne_next hid .l0) _ _
  · intro k v hv
    cases (Finmap.lookup_empty k).symm.trans hv
  · show sst.path.id ≤ e.nextID + 1
    change sst ∈ (e.l0 ++ [_]) ++ e.l1 at hsst
    rcases List.mem_append.mp hsst with hsst | hsst
    · rcases List.mem_append.mp hsst with hsst | hsst
      · exact Nat.le_succ_of_le (h.fresh sst (List.mem_append_left _ hsst))
      · rw [List.mem_singleton.mp hsst]
    · exact Nat.le_succ_of_le (h.fresh sst (List.mem_append_right _ hsst))

/-- Freezing the memory table changes no reading. -/
theorem Refines.flushMemTable {e : Engine} {m : Dict Bytes Bytes} (h : Refines e m) :
    Refines e.flushMemTable m := by
  obtain ⟨runs, hrep, hread⟩ := h
  refine ⟨_, hrep.flushMemTable, fun k => ?_⟩
  rw [hread, reading, reading, newest_cons, SortedTable.get_ofDict]
  show _ = ((Finmap.lookup k (∅ : Dict Bytes Bytes)).or _).filter live
  rw [Finmap.lookup_empty, Option.none_or]

/-- What `compact` merges. -/
theorem Represents.merged {e : Engine} {runs : List (SortedTable Bytes Bytes)}
    (h : Represents e runs) :
    ((mergeTables e.disk ∅ e.l1).bind fun merged => mergeTables e.disk merged e.l0) =
      .ok (merge ∅ runs.reverse) := by
  rw [← mergeTables_append, mergeTables_stored h.reverse]

theorem Represents.fits_merged {e : Engine} {runs : List (SortedTable Bytes Bytes)}
    (h : Represents e runs) :
    ∀ x ∈ ((SortedTable.ofDict (merge ∅ runs.reverse)).filter live).entries, Fits x := by
  intro x hx
  have hget : (SortedTable.ofDict (merge ∅ runs.reverse)).get x.1 = some x.2 :=
    SortedTable.get_eq_some_iff.mpr (List.mem_filter.mp hx).1
  rw [SortedTable.get_ofDict, lookup_merge, List.reverse_reverse, Finmap.lookup_empty,
    Option.or_none] at hget
  exact h.fits_newest hget

/-- Compaction never fails, and leaves one table of the live entries. -/
theorem Represents.compact {e : Engine} {runs : List (SortedTable Bytes Bytes)}
    (h : Represents e runs) :
    Represents e.compact.1 (compactRuns live runs) ∧ e.compact.2 = none ∧
      e.compact.1.l0 = [] ∧ e.compact.1.memtable = e.memtable := by
  rw [Engine.compact, h.merged]
  dsimp only
  split
  · rename_i hnil
    refine ⟨⟨?_, h.fits, ?_, Nat.zero_le _⟩, rfl, rfl, rfl⟩
    · rw [compactRuns, if_pos hnil]
      exact .nil
    · intro sst hsst
      cases hsst
  · rename_i hne
    have hstored := stored_flush h.fits_merged e.disk ⟨.l1, e.nextID + 1⟩
    refine ⟨⟨?_, h.fits, ?_, le_refl _⟩, rfl, rfl, rfl⟩
    · rw [compactRuns, if_neg hne]
      refine .cons (hstored.frame (if_neg fun hmem => ?_)) .nil
      -- the new file's id is greater than those of the files removed
      obtain ⟨sst, hsst, hpath⟩ := List.mem_map.mp hmem
      exact Path.ne_next (h.fresh sst hsst) .l1 hpath
    · intro sst hsst
      rw [List.mem_singleton.mp hsst]
      exact le_refl _

/-- Compacting the runs changes no reading. -/
theorem reading_compactRuns (e : Engine) (runs : List (SortedTable Bytes Bytes)) (k : Bytes) :
    reading e (compactRuns live runs) k = reading e runs k := by
  rw [reading, reading, newest_compactRuns]
  cases e.memtable.data.lookup k with
  | none => rw [Option.none_or, Option.none_or, Option.filter_filter]; simp
  | some v => rfl

theorem Refines.compact {e : Engine} {m : Dict Bytes Bytes} (h : Refines e m) :
    Refines e.compact.1 m ∧ e.compact.2 = none := by
  obtain ⟨runs, hrep, hread⟩ := h
  obtain ⟨hrep', hok, -, hmem⟩ := hrep.compact
  refine ⟨⟨_, hrep', fun k => ?_⟩, hok⟩
  rw [hread, ← reading_compactRuns, reading, reading, hmem]

/-- What can be read back of a write: the tombstone as value deletes. -/
def readable (w : Write Bytes Bytes) : Write Bytes Bytes := { w with value := w.value.filter live }

theorem Refines.write {e : Engine} {m : Dict Bytes Bytes} (h : Refines e m) {c : Call}
    (hc : c.Sized) : Refines (e.write c) (applyAll m (c.write?.map readable).toList) := by
  cases c with
  | put key value => exact h.insert hc (e.memtable.size + (key.length + value.length))
  | delete key =>
      have hlen : tombstone.length < 2 ^ 32 := by decide
      have hfits : Fits (key, tombstone) := ⟨hc, hlen⟩
      exact h.insert hfits (e.memtable.size + (key.length + tombstone.length))
  | flush => exact h

/-- **A call** does to the map what can be read back of it, and returns no error. -/
theorem refines_call {e : Engine} {m : Dict Bytes Bytes} (h : Refines e m) {c : Call}
    (hc : c.Sized) :
    Refines (e.call c).1 (applyAll m (c.write?.map readable).toList) ∧ (e.call c).2 = none := by
  have hwrite := h.write hc
  rcases e.call_cases c with ⟨rfl, ⟨-, hcall⟩ | ⟨-, hcall⟩⟩ |
    ⟨-, ⟨-, hcall⟩ | ⟨-, -, hcall⟩ | ⟨-, -, hcall⟩⟩
  · rw [hcall]
    exact ⟨h, rfl⟩
  · rw [hcall]
    exact ⟨h.flushMemTable, rfl⟩
  · rw [hcall]
    exact ⟨hwrite, rfl⟩
  · rw [hcall]
    exact ⟨hwrite.flushMemTable, rfl⟩
  · rw [hcall]
    exact hwrite.flushMemTable.compact

theorem refines_step {e : Engine} {m : Dict Bytes Bytes} (h : Refines e m) {s : Step}
    (hs : s.Sized) :
    Refines (e.step s).1 (applyAll m (s.write?.map readable).toList) ∧ (e.step s).2 = none := by
  cases s with
  | call c => exact refines_call h hs
  | compact => exact h.compact

theorem refines_open : Refines openEngine ∅ :=
  ⟨[], ⟨.nil, fun k v hv => (by cases (Finmap.lookup_empty k).symm.trans hv),
    fun _ hsst => absurd hsst List.not_mem_nil, Nat.zero_le _⟩, fun _ => rfl⟩

theorem refines_runSteps {ss : List Step} (h : ∀ s ∈ ss, s.Sized) :
    Refines (runSteps ss) (applyAll ∅ ((ss.filterMap Step.write?).map readable)) := by
  induction ss using List.reverseRecOn with
  | nil => exact refines_open
  | append_singleton ss s ih =>
      have hss := ih fun s' hs' => h s' (List.mem_append_left _ hs')
      have hs := h s (List.mem_append_right _ (List.mem_singleton_self s))
      have hrun : runSteps (ss ++ [s]) = ((runSteps ss).step s).1 := by
        rw [runSteps, List.foldl_append]
        rfl
      have hlast : ([s].filterMap Step.write?).map readable =
          (s.write?.map readable).toList := by
        cases hw : s.write? <;> simp [hw]
      rw [hrun, List.filterMap_append, List.map_append, applyAll_append, hlast]
      exact (refines_step hss hs).1

theorem refines_runCalls_sized {cs : List Call} (h : ∀ c ∈ cs, c.Sized) :
    Refines (runCalls cs) (applyAll ∅ ((cs.filterMap Call.write?).map readable)) := by
  have hsized : ∀ s ∈ cs.map Step.call, s.Sized := List.forall_mem_map.mpr h
  have hsteps := refines_runSteps hsized
  rw [← runCalls_eq_runSteps, List.filterMap_map] at hsteps
  exact hsteps

theorem Call.Allowed.sized {c : Call} (h : c.Allowed) : c.Sized := by
  cases c with
  | put key value => exact h.2
  | delete key => exact h
  | flush => exact trivial

/-- All of an allowed write can be read back. -/
theorem readable_writes {cs : List Call} (h : ∀ c ∈ cs, c.Allowed) :
    (cs.filterMap Call.write?).map readable = cs.filterMap Call.write? := by
  have hread : ∀ w ∈ cs.filterMap Call.write?, readable w = w := by
    intro w hw
    obtain ⟨c, hc, hcw⟩ := List.mem_filterMap.mp hw
    have hallowed := h c hc
    cases c with
    | put key value =>
        cases hcw
        simp [readable, Option.filter, live, hallowed.1]
    | delete key =>
        cases hcw
        rfl
    | flush => cases hcw
  rw [List.map_congr_left hread, List.map_id']

theorem refines_runCalls {cs : List Call} (h : ∀ c ∈ cs, c.Allowed) :
    Refines (runCalls cs) (expected cs) := by
  have hrun := refines_runCalls_sized fun c hc => (h c hc).sized
  rwa [readable_writes h] at hrun

/-! ## §3  Reading -/

namespace Engine

/-- What a table holds for a key, tombstones included. -/
def mention (e : Engine) (key : Bytes) (sst : SSTable) : Option Bytes :=
  match sst.readAll e.disk with
  | .ok entries => assoc entries key
  | .error _ => none

/-- The key is not in the memory table, the newest table that has it holds a
tombstone, and some table holds a value. -/
def Resurrects (e : Engine) (key : Bytes) : Prop :=
  e.memtable.data.lookup key = none ∧
    (e.l0.reverse ++ e.l1).findSome? (e.mention key) = some tombstone ∧
    ∃ sst ∈ e.l0.reverse ++ e.l1, ∃ v ∈ e.mention key sst, v ≠ tombstone

instance (e : Engine) (key : Bytes) : Decidable (e.Resurrects key) :=
  inferInstanceAs (Decidable (_ ∧ _ ∧ _))

end Engine

theorem Stored.mention {e : Engine} {sst : SSTable} {t : SortedTable Bytes Bytes}
    (h : Stored e.disk sst t) (key : Bytes) : e.mention key sst = t.get key := by
  rw [Engine.mention, h.readAll]
  rfl

/-- Asking the tables one by one is asking the runs. -/
theorem findSome?_stored {R : SSTable → SortedTable Bytes Bytes → Prop}
    {f : SSTable → Option Bytes} {g : SortedTable Bytes Bytes → Option Bytes}
    (hfg : ∀ sst t, R sst t → f sst = g t) {ssts : List SSTable}
    {ts : List (SortedTable Bytes Bytes)} (h : List.Forall₂ R ssts ts) :
    ssts.findSome? f = ts.findSome? g := by
  induction h with
  | nil => rfl
  | cons hhead _ ih => rw [List.findSome?_cons, List.findSome?_cons, hfg _ _ hhead, ih]

theorem live_eq_false_iff {v : Bytes} : live v = false ↔ v = tombstone := by
  simp [live]

theorem live_eq_true_iff {v : Bytes} : live v = true ↔ v ≠ tombstone := by
  simp [live]

namespace Represents

variable {e : Engine} {runs : List (SortedTable Bytes Bytes)}

/-- The tables are read by skipping tombstones. -/
theorem get_tables (h : Represents e runs) (key : Bytes)
    (hmem : e.memtable.data.lookup key = none) : e.get key = firstLive live runs key := by
  rw [Engine.get, hmem]
  show (e.l0.reverse.findSome? _).or (e.l1.findSome? _) = _
  rw [← List.findSome?_append]
  refine findSome?_stored (fun sst t hst => ?_) h.tables
  rw [hst.get]
  rfl

theorem hides_iff (h : Represents e runs) (key : Bytes) :
    Hides live runs key ↔
      (e.l0.reverse ++ e.l1).findSome? (e.mention key) = some tombstone ∧
        ∃ sst ∈ e.l0.reverse ++ e.l1, ∃ v ∈ e.mention key sst, v ≠ tombstone := by
  obtain ⟨hlen, hall⟩ := List.forall₂_iff_get.mp h.tables
  have hnewest : (e.l0.reverse ++ e.l1).findSome? (e.mention key) = newest runs key :=
    findSome?_stored (fun _ _ hst => hst.mention key) h.tables
  rw [Hides, hnewest]
  refine and_congr ?_ ?_
  · simp only [live_eq_false_iff]
    constructor
    · rintro ⟨v, hv, hdead⟩
      exact hdead ▸ hv
    · exact fun hv => ⟨_, hv, rfl⟩
  · simp only [live_eq_true_iff]
    constructor
    · rintro ⟨t, ht, v, hv, hlive⟩
      obtain ⟨i, hi, rfl⟩ := List.getElem_of_mem ht
      exact ⟨_, List.getElem_mem (hlen ▸ hi), v,
        ((hall i (hlen ▸ hi) hi).mention key).trans hv, hlive⟩
    · rintro ⟨sst, hsst, v, hv, hlive⟩
      obtain ⟨i, hi, rfl⟩ := List.getElem_of_mem hsst
      exact ⟨_, List.getElem_mem (hlen ▸ hi), v,
        ((hall i hi (hlen ▸ hi)).mention key).symm.trans hv, hlive⟩

end Represents

/-- **`Get` and the map.** After any calls, `Get` returns what the calls left at
the key exactly when no tombstone among the tables hides an older value. -/
theorem get_eq_iff {cs : List Call} (h : ∀ c ∈ cs, c.Allowed) (key : Bytes) :
    (runCalls cs).get key = (expected cs).lookup key ↔ ¬ (runCalls cs).Resurrects key := by
  obtain ⟨runs, hrep, hread⟩ := refines_runCalls h
  rw [hread, reading, Engine.Resurrects]
  cases hmem : (runCalls cs).memtable.data.lookup key with
  | some raw =>
      rw [Engine.get, hmem]
      by_cases hraw : raw = tombstone <;> simp [hraw, live, Option.filter]
  | none =>
      rw [hrep.get_tables key hmem, Option.none_or, firstLive_eq_iff, hrep.hides_iff]
      simp

/-- A value and the deletion of another key in two tables: nothing is hidden. -/
theorem get_eq_iff_flushed :
    let cs : List Call := [.put [97] [1], .flush, .delete [98], .flush, .put [99] [2]]
    ((runCalls cs).get [98] = (expected cs).lookup [98] ↔ ¬ (runCalls cs).Resurrects [98]) ∧
      ¬ (runCalls cs).Resurrects [98] ∧ (runCalls cs).get [97] = some [1] :=
  ⟨get_eq_iff (by decide +kernel) [98], by decide +kernel, by decide +kernel⟩

end KVEngine.LSM
