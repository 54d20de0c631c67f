import KVEngine.LSM.Table

/-!
# The LSM engine

`Engine` of `internal/lsm/lsm.go`: a memory table, level-0 tables from its
flushes and one level-1 table from compaction, with the files they live in.

`Get` goes on to older tables when a table answers "deleted", so a deletion that
has left the memory table does not hide an older value
(`deleted_key_returns`).
-/

namespace KVEngine.LSM

open Foundation

/-- 4 MiB. -/
def memTableSizeLimit : ℕ := 4 * 1024 * 1024

def maxL0Tables : ℕ := 4

/-! ## §1  Memory table -/

structure MemTable where
  data : Dict Bytes Bytes
  size : ℕ

def newMemTable : MemTable := { data := ∅, size := 0 }

namespace MemTable

def put (m : MemTable) (key value : Bytes) : MemTable :=
  { size := m.size + (key.length + value.length), data := m.data.insert key value }

def delete (m : MemTable) (key : Bytes) : MemTable :=
  { size := m.size + (key.length + tombstone.length), data := m.data.insert key tombstone }

def bytesUsed (m : MemTable) : ℕ := m.size

def sorted (m : MemTable) : List Entry := (SortedTable.ofDict m.data).entries

end MemTable

/-! ## §2  Engine -/

structure Engine where
  disk : Disk
  memtable : MemTable
  l0 : List SSTable
  l1 : List SSTable
  nextID : ℕ

/-- `Open` on a fresh directory. -/
def openEngine : Engine :=
  { disk := fun _ => none, memtable := newMemTable, l0 := [], l1 := [], nextID := 0 }

/-- `os.Remove` of the tables' files. -/
def Disk.remove (disk : Disk) (ssts : List SSTable) : Disk :=
  fun p => if p ∈ ssts.map SSTable.path then none else disk p

/-- A loop of `compact`: later entries over earlier ones. -/
def mergeTables (disk : Disk) : Dict Bytes Bytes → List SSTable →
    Except IoError (Dict Bytes Bytes)
  | merged, [] => .ok merged
  | merged, sst :: ssts => do
      let entries ← sst.readAll disk
      mergeTables disk (insertAll merged entries) ssts

/-- `err == nil && ok`. -/
def hit : Except IoError (Option Bytes) → Option Bytes
  | .ok v => v
  | .error _ => none

namespace Engine

/-- What `maybeFlush` and `Flush` share: the memory table becomes the newest
level-0 table. -/
def flushMemTable (e : Engine) : Engine :=
  let entries := e.memtable.sorted
  let nextID := e.nextID + 1
  let (disk, sst) := flushToSSTable e.disk ⟨.l0, nextID⟩ entries
  { e with disk, nextID, l0 := e.l0 ++ [sst], memtable := newMemTable }

def compact (e : Engine) : Engine × Option IoError :=
  match (mergeTables e.disk ∅ e.l1).bind fun merged => mergeTables e.disk merged e.l0 with
  | .error err => (e, some err)
  | .ok merged =>
      -- the source drops the tombstones before it sorts
      let entries := ((SortedTable.ofDict merged).filter live).entries
      if entries = [] then
        ({ e with disk := e.disk.remove (e.l0 ++ e.l1), l0 := [], l1 := [] }, none)
      else
        let nextID := e.nextID + 1
        let (disk, sst) := flushToSSTable e.disk ⟨.l1, nextID⟩ entries
        ({ e with disk := Disk.remove disk (e.l0 ++ e.l1), nextID, l0 := [], l1 := [sst] }, none)

def maybeFlush (e : Engine) : Engine × Option IoError :=
  if e.memtable.bytesUsed < memTableSizeLimit then (e, none)
  else
    let e := e.flushMemTable
    if e.l0.length ≥ maxL0Tables then e.compact else (e, none)

def put (e : Engine) (key value : Bytes) : Engine × Option IoError :=
  maybeFlush { e with memtable := e.memtable.put key value }

def delete (e : Engine) (key : Bytes) : Engine × Option IoError :=
  maybeFlush { e with memtable := e.memtable.delete key }

def flush (e : Engine) : Engine × Option IoError :=
  if e.memtable.bytesUsed = 0 then (e, none) else (e.flushMemTable, none)

def get (e : Engine) (key : Bytes) : Option Bytes :=
  match e.memtable.data.lookup key with
  | some raw => if raw = tombstone then none else some raw
  | none =>
      (e.l0.reverse.findSome? fun sst => hit (sst.get e.disk key)).or
        (e.l1.findSome? fun sst => hit (sst.get e.disk key))

end Engine

/-! ## §3  Calls -/

inductive Call : Type where
  | put (key value : Bytes)
  | delete (key : Bytes)
  | flush
deriving DecidableEq

namespace Call

/-- What a call means for the map. -/
def write? : Call → Option (Write Bytes Bytes)
  | put key value => some { key, value := some value }
  | delete key => some { key, value := none }
  | flush => none

/-- The lengths fit in a `uint32`. -/
def Sized : Call → Prop
  | put key value => Fits (key, value)
  | delete key => key.length < 2 ^ 32
  | flush => True

instance (c : Call) : Decidable c.Sized :=
  match c with
  | put key value => inferInstanceAs (Decidable (Fits (key, value)))
  | delete _ => inferInstanceAs (Decidable (_ < _))
  | flush => inferInstanceAs (Decidable True)

/-- No value is the tombstone, and lengths fit in a `uint32`. -/
def Allowed : Call → Prop
  | put key value => value ≠ tombstone ∧ Fits (key, value)
  | delete key => key.length < 2 ^ 32
  | flush => True

instance (c : Call) : Decidable c.Allowed :=
  match c with
  | put _ _ => inferInstanceAs (Decidable (_ ∧ _))
  | delete _ => inferInstanceAs (Decidable (_ < _))
  | flush => inferInstanceAs (Decidable True)

end Call

def Engine.call (e : Engine) : Call → Engine × Option IoError
  | .put key value => e.put key value
  | .delete key => e.delete key
  | .flush => e.flush

/-- The engine after the write of a call, before `maybeFlush`. -/
def Engine.write (e : Engine) : Call → Engine
  | .put key value => { e with memtable := e.memtable.put key value }
  | .delete key => { e with memtable := e.memtable.delete key }
  | .flush => e

/-- What a call does: a `Flush` flushes a memory table that counts as not empty; the
others flush one that has become too large, and compact if that fills level 0. -/
theorem Engine.call_cases (e : Engine) (c : Call) :
    (c = .flush ∧ (e.memtable.bytesUsed = 0 ∧ e.call c = (e, none) ∨
        e.memtable.bytesUsed ≠ 0 ∧ e.call c = (e.flushMemTable, none))) ∨
      (c ≠ .flush ∧ ((e.write c).memtable.bytesUsed < memTableSizeLimit ∧
          e.call c = (e.write c, none) ∨
        memTableSizeLimit ≤ (e.write c).memtable.bytesUsed ∧ e.l0.length + 1 < maxL0Tables ∧
          e.call c = ((e.write c).flushMemTable, none) ∨
        memTableSizeLimit ≤ (e.write c).memtable.bytesUsed ∧ maxL0Tables ≤ e.l0.length + 1 ∧
          e.call c = (e.write c).flushMemTable.compact)) := by
  have hmaybe : ∀ w : Engine, w.l0 = e.l0 →
      w.memtable.bytesUsed < memTableSizeLimit ∧ w.maybeFlush = (w, none) ∨
      memTableSizeLimit ≤ w.memtable.bytesUsed ∧ e.l0.length + 1 < maxL0Tables ∧
        w.maybeFlush = (w.flushMemTable, none) ∨
      memTableSizeLimit ≤ w.memtable.bytesUsed ∧ maxL0Tables ≤ e.l0.length + 1 ∧
        w.maybeFlush = w.flushMemTable.compact := by
    intro w hl0
    have hlen : w.flushMemTable.l0.length = e.l0.length + 1 := by
      rw [← hl0]
      exact List.length_append
    rw [maybeFlush]
    split
    · rename_i hsmall
      exact Or.inl ⟨hsmall, rfl⟩
    · rename_i hlarge
      have hlarge : memTableSizeLimit ≤ w.memtable.bytesUsed := not_lt.mp hlarge
      dsimp only
      rw [hlen]
      split
      · rename_i hfull
        exact Or.inr (Or.inr ⟨hlarge, hfull, rfl⟩)
      · rename_i hroom
        exact Or.inr (Or.inl ⟨hlarge, not_le.mp hroom, rfl⟩)
  cases c with
  | put key value => exact Or.inr ⟨by simp, hmaybe (e.write (.put key value)) rfl⟩
  | delete key => exact Or.inr ⟨by simp, hmaybe (e.write (.delete key)) rfl⟩
  | flush =>
      refine Or.inl ⟨rfl, ?_⟩
      show _ ∧ e.flush = _ ∨ _ ∧ e.flush = _
      rw [flush]
      split
      · rename_i hzero
        exact Or.inl ⟨hzero, rfl⟩
      · rename_i hsize
        exact Or.inr ⟨hsize, rfl⟩

def runCalls (cs : List Call) : Engine := cs.foldl (fun e c => (e.call c).1) openEngine

theorem runCalls_snoc (cs : List Call) (c : Call) :
    runCalls (cs ++ [c]) = ((runCalls cs).call c).1 := by
  rw [runCalls, List.foldl_append]
  rfl

/-- The map of the calls. -/
def expected (cs : List Call) : Dict Bytes Bytes := applyAll ∅ (cs.filterMap Call.write?)

/-- A call, or a compaction between calls. -/
inductive Step : Type where
  | call (c : Call)
  | compact
deriving DecidableEq

namespace Step

def write? : Step → Option (Write Bytes Bytes)
  | call c => c.write?
  | compact => none

def Sized : Step → Prop
  | call c => c.Sized
  | compact => True

instance (s : Step) : Decidable s.Sized :=
  match s with
  | call c => inferInstanceAs (Decidable c.Sized)
  | compact => inferInstanceAs (Decidable True)

end Step

def Engine.step (e : Engine) : Step → Engine × Option IoError
  | .call c => e.call c
  | .compact => e.compact

def runSteps (ss : List Step) : Engine := ss.foldl (fun e s => (e.step s).1) openEngine

theorem runCalls_eq_runSteps (cs : List Call) : runCalls cs = runSteps (cs.map .call) := by
  rw [runSteps, List.foldl_map]
  rfl

/-- A key put, flushed, deleted and flushed again has its old value. -/
theorem deleted_key_returns :
    let cs : List Call := [.put [97] [1], .flush, .delete [97], .flush]
    (∀ c ∈ cs, c.Allowed) ∧ (runCalls cs).get [97] = some [1] ∧
      (expected cs).lookup [97] = none := by
  decide +kernel

end KVEngine.LSM
