import KVEngine.Foundation.KeyValue
import KVEngine.WAL.Log

/-!
# The store

`internal/store/store.go`: a map behind a write-ahead log. A mutation is
appended and fsynced before the map changes; opening replays the log.
-/

namespace KVEngine

open Foundation (Dict Write applyAll)
open WAL (Record recordPut recordDelete Log openLog replay)

structure Store where
  data : Dict Bytes Bytes
  log : Log

namespace Store

/-- The `switch` of `Open`; a record of another type is skipped. -/
def applyRecord (data : Dict Bytes Bytes) (rec : Record) : Dict Bytes Bytes :=
  if rec.type = recordPut then data.insert rec.key rec.value
  else if rec.type = recordDelete then data.erase rec.key
  else data

/-- `Open`: replay, then open the same file for appending. -/
def openStore (file : Bytes) : Store :=
  { data := (replay file).foldl applyRecord ∅, log := openLog file }

def put (s : Store) (key value : Bytes) : Store :=
  let log := (s.log.append { type := recordPut, key, value }).sync
  { data := s.data.insert key value, log }

def delete (s : Store) (key : Bytes) : Store :=
  let log := (s.log.append { type := recordDelete, key, value := [] }).sync
  { data := s.data.erase key, log }

def get (s : Store) (key : Bytes) : Option Bytes := s.data.lookup key

def len (s : Store) : ℕ := s.data.keys.card

/-! ## Mutating calls -/

inductive Call : Type where
  | put (key value : Bytes)
  | delete (key : Bytes)
deriving DecidableEq

namespace Call

/-- The record a call appends. -/
def record : Call → Record
  | put key value => { type := recordPut, key, value }
  | delete key => { type := recordDelete, key, value := [] }

/-- What a call means for the map. -/
def write : Call → Write Bytes Bytes
  | put key value => { key, value := some value }
  | delete key => { key, value := none }

end Call

def call (s : Store) : Call → Store
  | .put key value => s.put key value
  | .delete key => s.delete key

/-- Replaying a call's record does to the map what the call does. -/
theorem applyRecord_record (data : Dict Bytes Bytes) (c : Call) :
    applyRecord data c.record = c.write.apply data := by
  cases c with
  | put key value => rfl
  | delete key => rfl

theorem foldl_applyRecord (data : Dict Bytes Bytes) (cs : List Call) :
    (cs.map Call.record).foldl applyRecord data = applyAll data (cs.map Call.write) := by
  rw [applyAll, List.foldl_map, List.foldl_map]
  simp only [applyRecord_record]

theorem call_data (s : Store) (c : Call) : (s.call c).data = c.write.apply s.data := by
  cases c <;> rfl

theorem call_log (s : Store) (c : Call) :
    (s.call c).log = (s.log.append c.record).sync := by
  cases c <;> rfl

end Store

end KVEngine
