import KVEngine.LSM.Failures

/-!
# Opening a directory that has files

`Open` of `internal/lsm/lsm.go` reads nothing. The tables of an engine that ran on the
directory before are not loaded, and the ids start again at one, so the tables of the new
engine come to lie on the paths of the old ones.

Nothing of what was there is ever seen: errors, `Get` and `Stats` are those of an engine
opened on an empty directory, whatever the files are and whichever operations fail
(`reopened_as_new`). So all that an earlier engine had flushed is lost, and none of it comes
back through a path that is used twice.
-/

namespace KVEngine.LSM

open Foundation

/-! ## §1  Two engines -/

/-- `Open` on a directory with the files `left`. -/
def reopen (left : Disk) : Engine := { openEngine with disk := left }

structure Stats where
  memtableBytes : ℕ
  l0Files : ℕ
  l1Files : ℕ
deriving DecidableEq

def Engine.stats (e : Engine) : Stats :=
  { memtableBytes := e.memtable.bytesUsed
    l0Files := e.l0.length
    l1Files := e.l1.length }

/-- The same operation fails, or none. What is then found at the path may differ: where
the creation fails, it is what was there. -/
def SameOp (f f' : Option WriteFault) : Prop := f'.map WriteFault.op = f.map WriteFault.op

/-- The same call, in which the same operations fail. `os.Remove` is not among them: its
errors are ignored. -/
structure Alike (x x' : Call × Faults) : Prop where
  call : x'.1 = x.1
  flush : SameOp x.2.flush x'.2.flush
  opens : x'.2.opens = x.2.opens
  merge : SameOp x.2.merge x'.2.merge

/-- The engine after one more call, and what the calls so far returned. -/
def serve (s : Engine × List (Option Failure)) (x : Call × Faults) :
    Engine × List (Option Failure) :=
  let o := s.1.callOn x.2 x.1
  (o.engine, s.2 ++ [o.error])

def serveAll (e : Engine) (xs : List (Call × Faults)) : Engine × List (Option Failure) :=
  xs.foldl serve (e, [])

/-- `e'` differs from `e` in its directory only, and there not at the tables in use. Past
the ids it has given out, its directory is still as it was opened. -/
structure Beside (left : Disk) (e e' : Engine) : Prop where
  same : ∃ disk, e' = { e with disk }
  files : ∀ sst ∈ e.l0 ++ e.l1, e'.disk sst.path = e.disk sst.path
  fresh : ∀ sst ∈ e.l0 ++ e.l1, sst.path.id ≤ e.nextID
  beyond : ∀ p : Path, e.nextID < p.id → e'.disk p = left p

/-- The two engines of two outcomes, with one error. -/
def Ends (left : Disk) (o o' : Outcome) : Prop :=
  Beside left o.engine o'.engine ∧ o'.error = o.error

/-- The two engines after calls that returned the same. -/
def Served (left : Disk) (s s' : Engine × List (Option Failure)) : Prop :=
  Beside left s.1 s'.1 ∧ s'.2 = s.2

theorem SameOp.cases {f f' : Option WriteFault} (h : SameOp f f') :
    (f = none ∧ f' = none) ∨
      ∃ fault fault', f = some fault ∧ f' = some fault' ∧ fault'.op = fault.op := by
  cases f with
  | none => exact Or.inl ⟨rfl, Option.map_eq_none_iff.mp h⟩
  | some fault =>
      obtain ⟨fault', hf', hop⟩ := Option.map_eq_some_iff.mp h
      exact Or.inr ⟨fault, fault', rfl, hf', hop⟩

theorem update_same (disk disk' : Disk) (p : Path) (x : Option Bytes) :
    Function.update disk' p x p = Function.update disk p x p := by
  rw [Function.update_self, Function.update_self]

theorem beside_open (left : Disk) : Beside left openEngine (reopen left) where
  same := ⟨left, rfl⟩
  files := fun _ hsst => absurd hsst List.not_mem_nil
  fresh := fun _ hsst => absurd hsst List.not_mem_nil
  beyond := fun _ _ => rfl

/-! ## §2  Reading -/

theorem SSTable.readAll_congr {disk disk' : Disk} {sst : SSTable}
    (h : disk' sst.path = disk sst.path) : sst.readAll disk' = sst.readAll disk := by
  rw [readAll, readAll, h]

theorem SSTable.get_congr {disk disk' : Disk} {sst : SSTable}
    (h : disk' sst.path = disk sst.path) (key : Bytes) :
    sst.get disk' key = sst.get disk key := by
  rw [get, get, h]

theorem findSome?_get_congr {disk disk' : Disk} {ssts : List SSTable}
    (h : ∀ sst ∈ ssts, disk' sst.path = disk sst.path) (key : Bytes) :
    ssts.findSome? (fun sst => hit (sst.get disk' key)) =
      ssts.findSome? fun sst => hit (sst.get disk key) := by
  induction ssts with
  | nil => rfl
  | cons sst ssts ih =>
      rw [List.findSome?_cons, List.findSome?_cons, SSTable.get_congr (h sst List.mem_cons_self),
        ih fun sst' hsst' => h sst' (List.mem_cons_of_mem _ hsst')]

theorem mergeTablesOn_congr (opens : Path → Bool) {disk disk' : Disk} {ssts : List SSTable}
    (h : ∀ sst ∈ ssts, disk' sst.path = disk sst.path) (m : Dict Bytes Bytes) :
    mergeTablesOn opens disk' m ssts = mergeTablesOn opens disk m ssts := by
  induction ssts generalizing m with
  | nil => rfl
  | cons sst ssts ih =>
      have hrest := ih fun sst' hsst' => h sst' (List.mem_cons_of_mem _ hsst')
      rw [mergeTablesOn, mergeTablesOn, SSTable.readAll_congr (h sst List.mem_cons_self)]
      simp only [hrest]

namespace Beside

variable {left : Disk} {e e' : Engine}

theorem stats (h : Beside left e e') : e'.stats = e.stats := by
  obtain ⟨⟨disk, rfl⟩, -, -, -⟩ := h
  rfl

theorem get (h : Beside left e e') (key : Bytes) : e'.get key = e.get key := by
  obtain ⟨⟨disk, rfl⟩, hfiles, -, -⟩ := h
  rw [Engine.get, Engine.get]
  dsimp only
  rw [findSome?_get_congr fun sst hsst =>
      hfiles sst (List.mem_append_left _ (List.mem_reverse.mp hsst)),
    findSome?_get_congr fun sst hsst => hfiles sst (List.mem_append_right _ hsst)]

/-- What a compaction reads. -/
theorem merged (h : Beside left e e') (opens : Path → Bool) :
    ((mergeTablesOn opens e'.disk ∅ e'.l1).bind
        fun merged => mergeTablesOn opens e'.disk merged e'.l0) =
      (mergeTablesOn opens e.disk ∅ e.l1).bind
        fun merged => mergeTablesOn opens e.disk merged e.l0 := by
  obtain ⟨⟨disk, rfl⟩, hfiles, -, -⟩ := h
  have hl0 := mergeTablesOn_congr opens
    fun sst hsst => hfiles sst (List.mem_append_left _ hsst)
  have hl1 := mergeTablesOn_congr opens
    fun sst hsst => hfiles sst (List.mem_append_right _ hsst)
  dsimp only at hl0 hl1 ⊢
  simp only [hl0, hl1]

/-! ## §3  Calls -/

theorem memtable (h : Beside left e e') (m : MemTable) :
    Beside left { e with memtable := m } { e' with memtable := m } := by
  obtain ⟨⟨disk, rfl⟩, hfiles, hfresh, hbeyond⟩ := h
  exact ⟨⟨disk, rfl⟩, hfiles, hfresh, hbeyond⟩

/-- Something comes to the next path, in each directory its own. -/
theorem unfinished (h : Beside left e e') (level : Level) (x x' : Option Bytes) :
    Beside left
      { e with
        disk := Function.update e.disk ⟨level, e.nextID + 1⟩ x
        nextID := e.nextID + 1 }
      { e' with
        disk := Function.update e'.disk ⟨level, e'.nextID + 1⟩ x'
        nextID := e'.nextID + 1 } := by
  have hne : ∀ sst ∈ e.l0 ++ e.l1, sst.path ≠ ⟨level, e.nextID + 1⟩ :=
    fun sst hsst => Path.ne_next (h.fresh sst hsst) level
  obtain ⟨⟨disk, rfl⟩, hfiles, hfresh, hbeyond⟩ := h
  refine ⟨⟨_, rfl⟩, fun sst hsst => ?_, fun sst hsst => ?_, fun p hp => ?_⟩
  · dsimp only
    rw [Function.update_of_ne (hne sst hsst), Function.update_of_ne (hne sst hsst)]
    exact hfiles sst hsst
  · exact Nat.le_succ_of_le (hfresh sst hsst)
  · dsimp only at hp ⊢
    have hnew : p ≠ ⟨level, e.nextID + 1⟩ := fun heq => absurd (heq ▸ hp) (lt_irrefl _)
    rw [Function.update_of_ne hnew]
    exact hbeyond p (Nat.lt_of_succ_lt hp)

/-- The file at the next path has become a table of level 0. -/
theorem finished (h : Beside left e e') (m : MemTable) {sst : SSTable}
    (hid : sst.path.id ≤ e.nextID) (hfile : e'.disk sst.path = e.disk sst.path) :
    Beside left { e with l0 := e.l0 ++ [sst], memtable := m }
      { e' with l0 := e'.l0 ++ [sst], memtable := m } := by
  obtain ⟨⟨disk, rfl⟩, hfiles, hfresh, hbeyond⟩ := h
  have hmem : ∀ sst' ∈ (e.l0 ++ [sst]) ++ e.l1, sst' = sst ∨ sst' ∈ e.l0 ++ e.l1 := by
    intro sst' hsst'
    simp only [List.mem_append, List.mem_singleton] at hsst' ⊢
    tauto
  refine ⟨⟨disk, rfl⟩, fun sst' hsst' => ?_, fun sst' hsst' => ?_, hbeyond⟩
  · rcases hmem sst' hsst' with rfl | hold
    · exact hfile
    · exact hfiles sst' hold
  · rcases hmem sst' hsst' with rfl | hold
    · exact hid
    · exact hfresh sst' hold

/-- The tables `gone` go out of use, whether their files are removed or not, for others at
paths of their own. -/
theorem replaced (h : Beside left e e') (removes removes' : Path → Bool)
    {gone kept : List SSTable} (hgone : ∀ sst ∈ gone, sst.path.id ≤ e.nextID)
    (hkept : ∀ sst ∈ kept, sst.path ∉ gone.map SSTable.path ∧ sst.path.id ≤ e.nextID ∧
      e'.disk sst.path = e.disk sst.path) :
    Beside left
      { e with disk := Disk.removeOn removes e.disk gone, l0 := [], l1 := kept }
      { e' with disk := Disk.removeOn removes' e'.disk gone, l0 := [], l1 := kept } := by
  obtain ⟨⟨disk, rfl⟩, -, -, hbeyond⟩ := h
  refine ⟨⟨_, rfl⟩, fun sst hsst => ?_, fun sst hsst => (hkept sst hsst).2.1, fun p hp => ?_⟩
  · obtain ⟨hout, -, hfile⟩ := hkept sst hsst
    dsimp only [Disk.removeOn]
    rw [if_neg fun hin => hout hin.1, if_neg fun hin => hout hin.1]
    exact hfile
  · have hout : p ∉ gone.map SSTable.path := by
      intro hin
      obtain ⟨sst, hsst, rfl⟩ := List.mem_map.mp hin
      exact absurd (hgone sst hsst) (not_le.mpr hp)
    dsimp only [Disk.removeOn]
    rw [if_neg fun hin => hout hin.1]
    exact hbeyond p hp

theorem flushMemTableOn (h : Beside left e e') {f f' : Option WriteFault} (hop : SameOp f f') :
    Ends left (e.flushMemTableOn f) (e'.flushMemTableOn f') := by
  obtain ⟨disk, rfl⟩ := h.same
  obtain ⟨rfl, rfl⟩ | ⟨fault, fault', rfl, rfl, heq⟩ := hop.cases
  · have hnext := h.unfinished .l0 (some (e.memtable.sorted.flatMap writeEntry))
      (some (e.memtable.sorted.flatMap writeEntry))
    exact ⟨hnext.finished newMemTable (le_refl _) (update_same _ _ _ _), rfl⟩
  · refine ⟨h.unfinished .l0 fault.left fault'.left, ?_⟩
    show some (Failure.write fault'.op) = some (Failure.write fault.op)
    rw [heq]

theorem compactOn (h : Beside left e e') {f f' : Faults} (hopens : f'.opens = f.opens)
    (hop : SameOp f.merge f'.merge) : Ends left (e.compactOn f) (e'.compactOn f') := by
  have hmerged := h.merged f.opens
  obtain ⟨disk, rfl⟩ := h.same
  rw [Engine.compactOn, Engine.compactOn, hopens, hmerged]
  cases (mergeTablesOn f.opens e.disk ∅ e.l1).bind
      fun merged => mergeTablesOn f.opens e.disk merged e.l0 with
  | error err => exact ⟨h, rfl⟩
  | ok merged =>
      dsimp only
      generalize ((SortedTable.ofDict merged).filter live).entries = entries
      by_cases hnil : entries = []
      · rw [if_pos hnil, if_pos hnil]
        exact ⟨h.replaced f.removes f'.removes h.fresh
          (fun _ hsst => absurd hsst List.not_mem_nil), rfl⟩
      · rw [if_neg hnil, if_neg hnil]
        obtain ⟨hf, hf'⟩ | ⟨fault, fault', hf, hf', heq⟩ := hop.cases
        · rw [hf, hf']
          have hnext := h.unfinished .l1 (some (entries.flatMap writeEntry))
            (some (entries.flatMap writeEntry))
          refine ⟨hnext.replaced f.removes f'.removes hnext.fresh fun sst hsst => ?_, rfl⟩
          -- the new table is none of those it replaces
          rw [List.mem_singleton.mp hsst]
          refine ⟨fun hin => ?_, le_refl _, update_same _ _ _ _⟩
          obtain ⟨sst', hsst', hpath⟩ := List.mem_map.mp hin
          exact Path.ne_next (h.fresh sst' hsst') .l1 hpath
        · rw [hf, hf']
          refine ⟨h.unfinished .l1 fault.left fault'.left, ?_⟩
          show some (Failure.write fault'.op) = some (Failure.write fault.op)
          rw [heq]

theorem maybeFlushOn (h : Beside left e e') {f f' : Faults} (hflush : SameOp f.flush f'.flush)
    (hopens : f'.opens = f.opens) (hmerge : SameOp f.merge f'.merge) :
    Ends left (e.maybeFlushOn f) (e'.maybeFlushOn f') := by
  obtain ⟨hengine, herror⟩ := h.flushMemTableOn hflush
  have hsize : e'.memtable.bytesUsed = e.memtable.bytesUsed := congrArg Stats.memtableBytes h.stats
  have hlen := congrArg Stats.l0Files hengine.stats
  dsimp only [Engine.stats] at hlen
  rw [Engine.maybeFlushOn, Engine.maybeFlushOn]
  dsimp only
  rw [hsize, herror, hlen]
  split_ifs
  · exact ⟨h, rfl⟩
  · exact ⟨hengine, herror⟩
  · exact hengine.compactOn hopens hmerge
  · exact ⟨hengine, herror⟩

theorem callOn (h : Beside left e e') {x x' : Call × Faults} (hx : Alike x x') :
    Ends left (e.callOn x.2 x.1) (e'.callOn x'.2 x'.1) := by
  obtain ⟨hcall, hflush, hopens, hmerge⟩ := hx
  have hmem : e'.memtable = e.memtable := by
    obtain ⟨disk, rfl⟩ := h.same
    rfl
  rw [hcall]
  cases x.1 with
  | put key value =>
      rw [Engine.callOn, Engine.callOn, hmem]
      exact (h.memtable _).maybeFlushOn hflush hopens hmerge
  | delete key =>
      rw [Engine.callOn, Engine.callOn, hmem]
      exact (h.memtable _).maybeFlushOn hflush hopens hmerge
  | flush =>
      rw [Engine.callOn, Engine.callOn, hmem]
      split_ifs
      · exact ⟨h, rfl⟩
      · exact h.flushMemTableOn hflush

end Beside

theorem served_serve {left : Disk} {s s' : Engine × List (Option Failure)} (h : Served left s s')
    {x x' : Call × Faults} (hx : Alike x x') : Served left (serve s x) (serve s' x') := by
  obtain ⟨hengine, herror⟩ := h.1.callOn hx
  refine ⟨hengine, ?_⟩
  show s'.2 ++ [_] = s.2 ++ [_]
  rw [h.2, herror]

theorem served_serveAll (left : Disk) {xs xs' : List (Call × Faults)}
    (h : List.Forall₂ Alike xs xs') :
    Served left (serveAll openEngine xs) (serveAll (reopen left) xs') := by
  have hopen : Served left (openEngine, []) (reopen left, []) := ⟨beside_open left, rfl⟩
  exact List.rel_foldl (P := Served left) (R := Alike)
    (fun _ _ hs _ _ hx => served_serve hs hx) hopen h

/-! ## §4  The reopened engine -/

/-- **An engine opened on any files** finds no key, and from then on returns what one
opened on an empty directory returns for calls in which the same operations fail. Files
whose ids it has not reached stay as they were. -/
theorem reopened_as_new (left : Disk) {xs xs' : List (Call × Faults)}
    (h : List.Forall₂ Alike xs xs') :
    let new := serveAll openEngine xs
    let again := serveAll (reopen left) xs'
    (∀ key, (reopen left).get key = none) ∧
      again.2 = new.2 ∧ again.1.stats = new.1.stats ∧
      (∀ key, again.1.get key = new.1.get key) ∧
      ∀ p : Path, new.1.nextID < p.id → again.1.disk p = left p := by
  intro new again
  obtain ⟨hbeside, hreturned⟩ := served_serveAll left h
  exact ⟨fun _ => rfl, hreturned, hbeside.stats, hbeside.get, hbeside.beyond⟩

/-- A table of an earlier engine holds the key `a` at the first path. The new engine fails to
create its own file there, and the next `Flush` goes to the path after it. -/
theorem reopened_as_new_stale :
    let left : Disk := fun p => if p = ⟨.l0, 1⟩ then some (writeEntry ([97], [1])) else none
    let failed : Option Bytes → Faults := fun x => { Faults.none with flush := some ⟨.create, x⟩ }
    let calls : Option Bytes → List (Call × Faults) :=
      fun x => [(.put [98] [2], .none), (.flush, failed x), (.flush, .none)]
    let again := serveAll (reopen left) (calls (left ⟨.l0, 1⟩))
    again.2 = (serveAll openEngine (calls none)).2 ∧
      again.2 = [none, some (.write .create), none] ∧ again.1.get [97] = none ∧
      again.1.get [98] = some [2] := by
  intro left failed calls again
  have h := reopened_as_new left
    (.cons ⟨rfl, rfl, rfl, rfl⟩ (.cons ⟨rfl, rfl, rfl, rfl⟩ (.cons ⟨rfl, rfl, rfl, rfl⟩ .nil)) :
      List.Forall₂ Alike (calls none) (calls (left ⟨.l0, 1⟩)))
  exact ⟨h.2.1, by decide +kernel, by decide +kernel, by decide +kernel⟩

end KVEngine.LSM
