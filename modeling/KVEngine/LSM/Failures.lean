import KVEngine.LSM.Contents

/-!
# Failing file operations

`Put`, `Delete` and `Flush` of `internal/lsm/lsm.go` when the creation, a write, the flush
or the fsync of a new table fails, when a table cannot be opened for a compaction, or when
an old one cannot be removed. A table that was not finished may leave anything at its path.

A call that fails loses nothing: every table in use keeps its file, and the layers say of
every key what the last call for it wrote, whether that call returned an error or not
(`failures_lose_nothing`). The reason is that a path is used once (`nextID` moves on before
the file is created), and that a table enters or leaves the lists after all that can fail.
-/

namespace KVEngine.LSM

open Foundation

/-! ## §1  Faults -/

/-- The operations of `flushToSSTable` that return an error. -/
inductive WriteOp : Type where
  | create
  | write
  | flush
  | sync
deriving DecidableEq

/-- The operation that fails, and what is found at the path afterwards. -/
structure WriteFault where
  op : WriteOp
  left : Option Bytes

/-- What goes wrong in one call. -/
structure Faults where
  /-- While the memory table is written. -/
  flush : Option WriteFault
  /-- Which tables `os.Open` opens. -/
  opens : Path → Bool
  /-- While the level-1 table is written. -/
  merge : Option WriteFault
  /-- Which files `os.Remove` removes. -/
  removes : Path → Bool

/-- Nothing fails. -/
def Faults.none : Faults :=
  { flush := .none, opens := fun _ => true, merge := .none, removes := fun _ => true }

inductive Failure : Type where
  | write (op : WriteOp)
  | unopened (path : Path)
  | read (err : IoError)
deriving DecidableEq

/-! ## §2  The engine -/

/-- How a call ends, with the tables it wrote and their entries. -/
structure Outcome where
  engine : Engine
  error : Option Failure
  wrote : List (SSTable × List Entry)

def flushToSSTableOn (fault : Option WriteFault) (disk : Disk) (path : Path)
    (entries : List Entry) : Disk × Except Failure SSTable :=
  match fault with
  | none => ((flushToSSTable disk path entries).1, .ok (flushToSSTable disk path entries).2)
  | some f => (Function.update disk path f.left, .error (.write f.op))

def mergeTablesOn (opens : Path → Bool) (disk : Disk) : Dict Bytes Bytes → List SSTable →
    Except Failure (Dict Bytes Bytes)
  | merged, [] => .ok merged
  | merged, sst :: ssts =>
      if opens sst.path then
        match sst.readAll disk with
        | .ok entries => mergeTablesOn opens disk (insertAll merged entries) ssts
        | .error err => .error (.read err)
      else .error (.unopened sst.path)

/-- `os.Remove` of the tables' files, whose errors are ignored. -/
def Disk.removeOn (removes : Path → Bool) (disk : Disk) (ssts : List SSTable) : Disk :=
  fun p => if p ∈ ssts.map SSTable.path ∧ removes p then none else disk p

namespace Engine

def flushMemTableOn (fault : Option WriteFault) (e : Engine) : Outcome :=
  let entries := e.memtable.sorted
  let nextID := e.nextID + 1
  match flushToSSTableOn fault e.disk ⟨.l0, nextID⟩ entries with
  | (disk, .error err) => { engine := { e with disk, nextID }, error := some err, wrote := [] }
  | (disk, .ok sst) =>
      { engine := { e with disk, nextID, l0 := e.l0 ++ [sst], memtable := newMemTable }
        error := none
        wrote := [(sst, entries)] }

def compactOn (f : Faults) (e : Engine) : Outcome :=
  match (mergeTablesOn f.opens e.disk ∅ e.l1).bind
      fun merged => mergeTablesOn f.opens e.disk merged e.l0 with
  | .error err => { engine := e, error := some err, wrote := [] }
  | .ok merged =>
      let entries := ((SortedTable.ofDict merged).filter live).entries
      if entries = [] then
        { engine := { e with disk := e.disk.removeOn f.removes (e.l0 ++ e.l1), l0 := [], l1 := [] }
          error := none
          wrote := [] }
      else
        let nextID := e.nextID + 1
        match flushToSSTableOn f.merge e.disk ⟨.l1, nextID⟩ entries with
        | (disk, .error err) =>
            { engine := { e with disk, nextID }, error := some err, wrote := [] }
        | (disk, .ok sst) =>
            { engine :=
                { e with
                  disk := Disk.removeOn f.removes disk (e.l0 ++ e.l1)
                  nextID
                  l0 := []
                  l1 := [sst] }
              error := none
              wrote := [(sst, entries)] }

def maybeFlushOn (f : Faults) (e : Engine) : Outcome :=
  if e.memtable.bytesUsed < memTableSizeLimit then { engine := e, error := none, wrote := [] }
  else
    let o := e.flushMemTableOn f.flush
    if o.error.isSome then o
    else if o.engine.l0.length ≥ maxL0Tables then
      let o' := o.engine.compactOn f
      { o' with wrote := o.wrote ++ o'.wrote }
    else o

def callOn (f : Faults) (e : Engine) : Call → Outcome
  | .put key value => maybeFlushOn f { e with memtable := e.memtable.put key value }
  | .delete key => maybeFlushOn f { e with memtable := e.memtable.delete key }
  | .flush =>
      if e.memtable.bytesUsed = 0 then { engine := e, error := none, wrote := [] }
      else e.flushMemTableOn f.flush

end Engine

/-- The engine and the tables written so far, after one more call. -/
def attempt (s : Engine × List (SSTable × List Entry)) (x : Call × Faults) :
    Engine × List (SSTable × List Entry) :=
  let o := s.1.callOn x.2 x.1
  (o.engine, s.2 ++ o.wrote)

/-- Calls from a fresh directory, each with its faults. -/
def runOn (xs : List (Call × Faults)) : Engine × List (SSTable × List Entry) :=
  xs.foldl attempt (openEngine, [])

/-! ### Without faults -/

theorem mergeTablesOn_true (disk : Disk) (m : Dict Bytes Bytes) (ssts : List SSTable) :
    mergeTablesOn (fun _ => true) disk m ssts = (mergeTables disk m ssts).mapError .read := by
  induction ssts generalizing m with
  | nil => rfl
  | cons sst ssts ih =>
      rw [mergeTablesOn, if_pos rfl, mergeTables]
      cases sst.readAll disk with
      | error err => rfl
      | ok entries => exact ih _

theorem removeOn_true (disk : Disk) (ssts : List SSTable) :
    disk.removeOn (fun _ => true) ssts = disk.remove ssts := by
  funext p
  simp [Disk.removeOn, Disk.remove]

theorem compactOn_none (e : Engine) : (e.compactOn .none).engine = e.compact.1 ∧
    (e.compactOn .none).error = e.compact.2.map .read := by
  have hmerge : ((mergeTablesOn (fun _ => true) e.disk ∅ e.l1).bind
      fun merged => mergeTablesOn (fun _ => true) e.disk merged e.l0) =
      ((mergeTables e.disk ∅ e.l1).bind fun merged => mergeTables e.disk merged e.l0).mapError
        .read := by
    rw [mergeTablesOn_true]
    cases mergeTables e.disk ∅ e.l1 with
    | error err => rfl
    | ok merged => exact mergeTablesOn_true _ _ _
  rw [Engine.compactOn, Engine.compact]
  dsimp only [Faults.none]
  rw [hmerge]
  cases (mergeTables e.disk ∅ e.l1).bind fun merged => mergeTables e.disk merged e.l0 with
  | error err => exact ⟨rfl, rfl⟩
  | ok merged =>
      dsimp only [Except.mapError, flushToSSTableOn]
      split_ifs
      · exact ⟨by rw [removeOn_true], rfl⟩
      · exact ⟨by rw [removeOn_true], rfl⟩

/-- Where nothing fails this is the engine. -/
theorem callOn_none (e : Engine) (c : Call) : (e.callOn .none c).engine = (e.call c).1 ∧
    (e.callOn .none c).error = (e.call c).2.map .read := by
  have hmaybe : ∀ w : Engine, (w.maybeFlushOn .none).engine = w.maybeFlush.1 ∧
      (w.maybeFlushOn .none).error = w.maybeFlush.2.map .read := by
    intro w
    rw [Engine.maybeFlushOn, Engine.maybeFlush]
    split_ifs with hsize
    · exact ⟨rfl, rfl⟩
    · have hflush : (w.flushMemTableOn Faults.none.flush).engine = w.flushMemTable := rfl
      have hok : ¬ (w.flushMemTableOn Faults.none.flush).error.isSome = true := Bool.false_ne_true
      dsimp only
      rw [if_neg hok, hflush]
      by_cases hfull : w.flushMemTable.l0.length ≥ maxL0Tables
      · rw [if_pos hfull, if_pos hfull]
        exact compactOn_none _
      · rw [if_neg hfull, if_neg hfull]
        exact ⟨rfl, rfl⟩
  cases c with
  | put key value => exact hmaybe _
  | delete key => exact hmaybe _
  | flush =>
      show (e.callOn .none .flush).engine = e.flush.1 ∧
        (e.callOn .none .flush).error = e.flush.2.map .read
      rw [Engine.callOn, Engine.flush]
      split_ifs <;> exact ⟨rfl, rfl⟩

/-! ## §3  What failures leave -/

/-- Every table in use has a path of its own, where the entries are that it was written
with; `w` lists all tables ever written. -/
structure Kept (w : List (SSTable × List Entry)) (e : Engine) : Prop where
  tables : ∀ sst ∈ e.l0 ++ e.l1, ∃ entries, (sst, entries) ∈ w ∧
    e.disk sst.path = some (entries.flatMap writeEntry) ∧ ∀ x ∈ entries, Fits x
  distinct : ((e.l0 ++ e.l1).map SSTable.path).Nodup
  paths : (w.map fun x => x.1.path).Nodup
  fresh : ∀ x ∈ w, x.1.path.id ≤ e.nextID

section Steps

variable {e : Engine} {w : List (SSTable × List Entry)} {runs : List (SortedTable Bytes Bytes)}

theorem Kept.path_id (h : Kept w e) {sst : SSTable} (hsst : sst ∈ e.l0 ++ e.l1) :
    sst.path.id ≤ e.nextID := by
  obtain ⟨entries, hw, -⟩ := h.tables sst hsst
  exact h.fresh _ hw

/-- A path that was not used yet belongs to no table in use. -/
theorem Kept.path_ne (h : Kept w e) {sst : SSTable} (hsst : sst ∈ e.l0 ++ e.l1) (level : Level) :
    sst.path ≠ ⟨level, e.nextID + 1⟩ :=
  Path.ne_next (h.path_id hsst) level

theorem Kept.frame (h : Kept w e) {disk : Disk} {nextID : ℕ}
    (hdisk : ∀ sst ∈ e.l0 ++ e.l1, disk sst.path = e.disk sst.path) (hid : e.nextID ≤ nextID) :
    Kept w { e with disk, nextID } where
  tables := fun sst hsst => by
    obtain ⟨entries, hw, hfile, hfits⟩ := h.tables sst hsst
    exact ⟨entries, hw, (hdisk sst hsst).trans hfile, hfits⟩
  distinct := h.distinct
  paths := h.paths
  fresh := fun x hx => (h.fresh x hx).trans hid

/-- What comes to an unused path is in no table's way. -/
theorem Kept.unused (h : Kept w e) (level : Level) (left : Option Bytes) :
    ∀ sst ∈ e.l0 ++ e.l1,
      Function.update e.disk ⟨level, e.nextID + 1⟩ left sst.path = e.disk sst.path :=
  fun _ hsst => Function.update_of_ne (h.path_ne hsst level) _ _

/-- A new table at an unused path. -/
theorem Kept.paths_snoc (h : Kept w e) (sst : SSTable) {level : Level}
    (hpath : sst.path = ⟨level, e.nextID + 1⟩) (entries : List Entry) :
    ((w ++ [(sst, entries)]).map fun x => x.1.path).Nodup ∧
      ∀ x ∈ w ++ [(sst, entries)], x.1.path.id ≤ e.nextID + 1 := by
  constructor
  · rw [List.map_append, List.nodup_append]
    refine ⟨h.paths, List.nodup_singleton _, fun p hp q hq => ?_⟩
    obtain ⟨x, hx, rfl⟩ := List.mem_map.mp hp
    rw [List.mem_singleton.mp hq]
    show x.1.path ≠ sst.path
    rw [hpath]
    exact Path.ne_next (h.fresh x hx) level
  · intro x hx
    rcases List.mem_append.mp hx with hx | hx
    · exact Nat.le_succ_of_le (h.fresh x hx)
    · rw [List.mem_singleton.mp hx, hpath]

theorem Kept.flushMemTable (h : Kept w e) (hrep : Represents e runs) :
    Kept (w ++ [((flushToSSTable e.disk ⟨.l0, e.nextID + 1⟩ e.memtable.sorted).2,
      e.memtable.sorted)]) e.flushMemTable := by
  obtain ⟨hpaths, hfresh⟩ := h.paths_snoc
    (flushToSSTable e.disk ⟨.l0, e.nextID + 1⟩ e.memtable.sorted).2 rfl e.memtable.sorted
  have hperm : (e.flushMemTable.l0 ++ e.flushMemTable.l1).Perm
      ((flushToSSTable e.disk ⟨.l0, e.nextID + 1⟩ e.memtable.sorted).2 :: (e.l0 ++ e.l1)) := by
    show ((e.l0 ++ [_]) ++ e.l1).Perm _
    rw [List.append_assoc]
    exact List.perm_middle
  refine ⟨fun sst hsst => ?_, ?_, hpaths, hfresh⟩
  · rcases List.mem_cons.mp (hperm.subset hsst) with rfl | hsst
    · exact ⟨_, List.mem_append_right _ (List.mem_singleton_self _),
        Function.update_self _ _ _, hrep.fits_sorted⟩
    · obtain ⟨entries, hw, hfile, hfits⟩ := h.tables sst hsst
      exact ⟨entries, List.mem_append_left _ hw, (h.unused .l0 _ sst hsst).trans hfile, hfits⟩
  · rw [(hperm.map SSTable.path).nodup_iff, List.map_cons, List.nodup_cons]
    refine ⟨fun hmem => ?_, h.distinct⟩
    obtain ⟨sst, hsst, hpath⟩ := List.mem_map.mp hmem
    exact h.path_ne hsst .l0 hpath

theorem mergeTablesOn_ok {opens : Path → Bool} {disk : Disk} {m m' : Dict Bytes Bytes}
    {ssts : List SSTable} (h : mergeTablesOn opens disk m ssts = .ok m') :
    mergeTables disk m ssts = .ok m' := by
  induction ssts generalizing m with
  | nil =>
      cases h
      rfl
  | cons sst ssts ih =>
      rw [mergeTablesOn] at h
      split_ifs at h
      cases hread : sst.readAll disk with
      | error err =>
          rw [hread] at h
          cases h
      | ok entries =>
          rw [hread] at h
          rw [mergeTables, hread]
          exact ih h

/-- What is read for a compaction is what there is. -/
theorem merged_ok (hrep : Represents e runs) {opens : Path → Bool} {m : Dict Bytes Bytes}
    (h : ((mergeTablesOn opens e.disk ∅ e.l1).bind
      fun merged => mergeTablesOn opens e.disk merged e.l0) = .ok m) :
    m = merge ∅ runs.reverse := by
  have hmerged := hrep.merged
  cases hl1 : mergeTablesOn opens e.disk ∅ e.l1 with
  | error err =>
      rw [hl1] at h
      cases h
  | ok m₁ =>
      rw [hl1] at h
      rw [mergeTablesOn_ok hl1] at hmerged
      exact Except.ok.inj ((mergeTablesOn_ok h).symm.trans hmerged)

/-- **A compaction** that fails leaves the layers as they are; one that succeeds leaves
what it does without failures, whichever old files stay behind. -/
theorem compactOn_kept (h : Kept w e) (hrep : Represents e runs) (f : Faults) :
    let o := e.compactOn f
    Kept (w ++ o.wrote) o.engine ∧ o.engine.memtable = e.memtable ∧
      (Represents o.engine runs ∨ Represents o.engine (compactRuns live runs)) := by
  have hcompact := hrep.compact.1
  rw [Engine.compact, hrep.merged] at hcompact
  rw [Engine.compactOn]
  split
  · show Kept (w ++ []) e ∧ _
    rw [List.append_nil]
    exact ⟨h, rfl, Or.inl hrep⟩
  · rename_i merged hmerged
    obtain rfl := merged_ok hrep hmerged
    dsimp only at hcompact ⊢
    split_ifs with hnil
    · rw [if_pos hnil] at hcompact
      rw [List.append_nil]
      refine ⟨⟨fun sst hsst => absurd hsst List.not_mem_nil, List.nodup_nil, h.paths, h.fresh⟩,
        rfl, Or.inr ?_⟩
      exact hcompact.frame (fun sst hsst => absurd hsst List.not_mem_nil) (le_refl _)
    · rw [if_neg hnil] at hcompact
      cases hfault : f.merge with
      | some fault =>
          dsimp only [flushToSSTableOn]
          rw [List.append_nil]
          have hdisk := h.unused .l1 fault.left
          exact ⟨h.frame hdisk (Nat.le_succ _), rfl, Or.inl (hrep.frame hdisk (Nat.le_succ _))⟩
      | none =>
          -- the new file is none of those that are removed
          have hnew : ∀ q : Prop, ¬ ((⟨.l1, e.nextID + 1⟩ : Path) ∈
              (e.l0 ++ e.l1).map SSTable.path ∧ q) := by
            rintro q ⟨hmem, -⟩
            obtain ⟨sst, hsst, hpath⟩ := List.mem_map.mp hmem
            exact h.path_ne hsst .l1 hpath
          dsimp only [flushToSSTableOn]
          obtain ⟨hpaths, hfresh⟩ :=
            h.paths_snoc (flushToSSTable e.disk ⟨.l1, e.nextID + 1⟩ _).2 rfl _
          refine ⟨⟨fun sst hsst => ?_, List.nodup_singleton _, hpaths, hfresh⟩, rfl, Or.inr ?_⟩
          · rw [List.mem_singleton.mp hsst]
            refine ⟨_, List.mem_append_right _ (List.mem_singleton_self _), ?_, hrep.fits_merged⟩
            exact (if_neg (hnew _)).trans (Function.update_self _ _ _)
          · refine hcompact.frame (fun sst hsst => ?_) (le_refl _)
            rw [List.mem_singleton.mp hsst]
            refine (if_neg (hnew _)).trans (if_neg fun hmem => hnew True ⟨hmem, trivial⟩).symm

end Steps

/-! ## §4  Calls that may fail -/

/-- All tables are kept and the engine stands for the map `m`. -/
structure Intact (w : List (SSTable × List Entry)) (e : Engine) (m : Dict Bytes Bytes) : Prop where
  kept : Kept w e
  refines : Refines e m

namespace Intact

variable {e : Engine} {w : List (SSTable × List Entry)} {m : Dict Bytes Bytes}

theorem flushMemTableOn (h : Intact w e m) (fault : Option WriteFault) :
    let o := e.flushMemTableOn fault
    Intact (w ++ o.wrote) o.engine m := by
  obtain ⟨runs, hrep, hread⟩ := h.refines
  cases fault with
  | none => exact ⟨h.kept.flushMemTable hrep, h.refines.flushMemTable⟩
  | some fault =>
      have hdisk := h.kept.unused .l0 fault.left
      show Intact (w ++ []) _ m
      rw [List.append_nil]
      exact ⟨h.kept.frame hdisk (Nat.le_succ _), runs, hrep.frame hdisk (Nat.le_succ _), hread⟩

theorem compactOn (h : Intact w e m) (f : Faults) :
    let o := e.compactOn f
    Intact (w ++ o.wrote) o.engine m := by
  obtain ⟨runs, hrep, hread⟩ := h.refines
  obtain ⟨hkept, hmem, hrep' | hrep'⟩ := compactOn_kept h.kept hrep f
  · refine ⟨hkept, runs, hrep', fun k => ?_⟩
    rw [hread, reading, reading, hmem]
  · refine ⟨hkept, _, hrep', fun k => ?_⟩
    rw [hread, ← reading_compactRuns, reading, reading, hmem]

theorem maybeFlushOn (h : Intact w e m) (f : Faults) :
    let o := e.maybeFlushOn f
    Intact (w ++ o.wrote) o.engine m := by
  have hflush := h.flushMemTableOn f.flush
  rw [Engine.maybeFlushOn]
  split_ifs
  · show Intact (w ++ []) e m
    rwa [List.append_nil]
  · dsimp only
    split_ifs
    · exact hflush
    · have hcompact := hflush.compactOn f
      dsimp only at hcompact
      rwa [List.append_assoc] at hcompact
    · exact hflush

/-- **A call**, whatever fails in it. -/
theorem callOn (h : Intact w e m) (f : Faults) {c : Call} (hc : c.Sized) :
    let o := e.callOn f c
    Intact (w ++ o.wrote) o.engine (applyAll m (c.write?.map readable).toList) := by
  have hwrite : Intact w (e.write c) (applyAll m (c.write?.map readable).toList) := by
    refine ⟨?_, h.refines.write hc⟩
    cases c <;> exact ⟨h.kept.tables, h.kept.distinct, h.kept.paths, h.kept.fresh⟩
  cases c with
  | put key value => exact hwrite.maybeFlushOn f
  | delete key => exact hwrite.maybeFlushOn f
  | flush =>
      rw [Engine.callOn]
      split_ifs
      · show Intact (w ++ []) e m
        rwa [List.append_nil]
      · exact h.flushMemTableOn f.flush

end Intact

theorem intact_runOn {xs : List (Call × Faults)} (h : ∀ x ∈ xs, x.1.Sized) :
    Intact (runOn xs).2 (runOn xs).1
      (applyAll ∅ (((xs.map Prod.fst).filterMap Call.write?).map readable)) := by
  induction xs using List.reverseRecOn with
  | nil => exact ⟨⟨by simp [runOn, openEngine], List.nodup_nil, List.nodup_nil, by simp [runOn]⟩,
      refines_open⟩
  | append_singleton xs x ih =>
      obtain ⟨hxs, hx⟩ := List.forall_mem_append.mp h
      have hrun : runOn (xs ++ [x]) = attempt (runOn xs) x := by
        rw [runOn, List.foldl_append]
        rfl
      have hlast : ([x].map Prod.fst).filterMap Call.write? = x.1.write?.toList := by
        cases hw : x.1.write? <;> simp [hw]
      have hcall := (ih hxs).callOn x.2 (hx x List.mem_cons_self)
      rw [hrun, List.map_append, List.filterMap_append, List.map_append, applyAll_append, hlast,
        ← Option.toList_map]
      exact hcall

/-- **Failures lose nothing.** After any calls with any failures, the tables in use have
paths of their own and no path was used twice; the file of each holds the entries it was
written with; and the layers say of every key what its last `Put` or `Delete` said. -/
theorem failures_lose_nothing {xs : List (Call × Faults)} (h : ∀ x ∈ xs, x.1.Allowed) :
    let e := (runOn xs).1
    let written := (runOn xs).2
    ((e.l0 ++ e.l1).map SSTable.path).Nodup ∧ (written.map fun x => x.1.path).Nodup ∧
      (∀ sst ∈ e.l0 ++ e.l1, ∃ entries, (sst, entries) ∈ written ∧
        e.disk sst.path = some (entries.flatMap writeEntry) ∧
        sst.readAll e.disk = .ok entries) ∧
      ∀ key, e.layered key = (expected (xs.map Prod.fst)).lookup key := by
  intro e written
  have hallowed : ∀ c ∈ xs.map Prod.fst, c.Allowed := List.forall_mem_map.mpr h
  obtain ⟨hkept, hrefines⟩ := intact_runOn fun x hx => (h x hx).sized
  rw [readable_writes hallowed] at hrefines
  refine ⟨hkept.distinct, hkept.paths, fun sst hsst => ?_, hrefines.layered⟩
  obtain ⟨entries, hw, hfile, hfits⟩ := hkept.tables sst hsst
  refine ⟨entries, hw, hfile, ?_⟩
  rw [SSTable.readAll, hfile]
  exact readEntries_entries hfits

/-- A flush whose fsync fails, another one whose file cannot be created, and a third. -/
theorem failures_lose_nothing_retried :
    let unsynced : Faults := { Faults.none with flush := some ⟨.sync, some [7]⟩ }
    let uncreated : Faults := { Faults.none with flush := some ⟨.create, none⟩ }
    let xs : List (Call × Faults) := [(.put [97] [1], .none), (.flush, unsynced),
      (.delete [98], .none), (.flush, uncreated), (.flush, .none)]
    let e := (runOn xs).1
    e.nextID = 3 ∧ e.memtable.size = 0 ∧ e.layered [97] = some [1] ∧ e.layered [98] = none := by
  intro unsynced uncreated xs e
  have hallowed : ∀ x ∈ xs, x.1.Allowed := by decide +kernel
  obtain ⟨-, -, -, hlayered⟩ := failures_lose_nothing hallowed
  refine ⟨by decide +kernel, by decide +kernel, (hlayered [97]).trans (by decide +kernel),
    (hlayered [98]).trans (by decide +kernel)⟩

end KVEngine.LSM
