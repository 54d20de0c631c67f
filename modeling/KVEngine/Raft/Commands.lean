import KVEngine.Foundation.Json
import KVEngine.Store.Store

/-!
# Commands in the Raft log

`raftStore` of `cmd/kvengine/main.go` writes an operation into the log as a JSON
object of strings, and `applyRaftToStore` reads it back on every node. Keys and
values are arbitrary bytes but JSON strings are Unicode: a byte that begins no
character comes back as U+FFFD, so the store is changed at another key or to
another value (`invalid_keys_collide`).

What is true: an operation comes back as it was exactly when its key and value
are well-formed UTF-8 (`command_lossless_iff`).
-/

namespace KVEngine.RaftStore

open Foundation (Utf8.Valid Utf8.coerce Utf8.coerce_eq_iff)
open Foundation.Json (Members)
open Store (Call)

/-! ## §1  Writing and reading a command -/

/-- The struct of `applyRaftToStore`. -/
structure Cmd where
  op : Bytes
  key : Bytes
  val : Bytes
deriving DecidableEq

/-- `op`, `k` and `v` -/
def opName : Bytes := [111, 112]
def keyName : Bytes := [107]
def valName : Bytes := [118]

/-- `put` and `del` -/
def putOp : Bytes := [112, 117, 116]
def delOp : Bytes := [100, 101, 108]

/-- One member goes to the field of its name. -/
def Cmd.set (cmd : Cmd) (m : Bytes × Bytes) : Cmd :=
  if m.1 = opName then { cmd with op := m.2 }
  else if m.1 = keyName then { cmd with key := m.2 }
  else if m.1 = valName then { cmd with val := m.2 }
  else cmd

def Cmd.ofMembers (ms : Members) : Cmd := ms.foldl Cmd.set ⟨[], [], []⟩

/-- `encoding/json` as far as commands go: `Marshal` of a `map[string]string` and
`Unmarshal` into `Cmd`. A string comes back made well formed. -/
structure Codec where
  marshal : Members → Bytes
  unmarshal : Bytes → Option Cmd
  unmarshal_marshal : ∀ ms : Members, (∀ m ∈ ms, m.1 ∈ [opName, keyName, valName]) →
    unmarshal (marshal ms) = some (Cmd.ofMembers (ms.map fun m => (m.1, Utf8.coerce m.2)))

/-- The command `Put` and `Delete` propose; the members of a map are written in
the order of their names. -/
def command (J : Codec) : Call → Bytes
  | .put key value => J.marshal [(keyName, key), (opName, putOp), (valName, value)]
  | .delete key => J.marshal [(keyName, key), (opName, delOp)]

/-- What one pass of `applyRaftToStore` makes of a command: `none` if it cannot be
decoded, and otherwise the call it makes on the store, if any. -/
def decode (J : Codec) (msg : Bytes) : Option (Option Call) := do
  let cmd ← J.unmarshal msg
  return if cmd.op = putOp then some (.put cmd.key cmd.val)
    else if cmd.op = delOp then some (.delete cmd.key)
    else none

/-- The writer and reader of `Foundation.Json`. -/
def goJson : Codec where
  marshal := Foundation.Json.marshal
  unmarshal msg := do
    let (ms, rest) ← Foundation.Json.parseObject msg
    guard (rest = [])
    return Cmd.ofMembers ms
  unmarshal_marshal ms hnames := by
    have hparse := Foundation.Json.parseObject_marshal ms []
    rw [List.append_nil] at hparse
    have hmembers : ms.map Foundation.Json.coerceMember =
        ms.map fun m => (m.1, Utf8.coerce m.2) := by
      refine List.map_congr_left fun m hm => Prod.ext ?_ rfl
      have hvalid : ∀ name ∈ [opName, keyName, valName], Utf8.coerce name = name := by decide
      exact hvalid m.1 (hnames m hm)
    rw [hparse, ← hmembers]
    rfl

/-! ## §2  What arrives -/

/-- Two keys that are no UTF-8 arrive as one and the same. -/
theorem invalid_keys_collide :
    decode goJson (command goJson (.put [0xFF] [49])) =
        some (some (.put [0xEF, 0xBF, 0xBD] [49])) ∧
      command goJson (.put [0xFF] [49]) = command goJson (.put [0xFE] [49]) ∧
      decode goJson (command goJson (.put [97] [0xFF])) =
        some (some (.put [97] [0xEF, 0xBF, 0xBD])) ∧
      decode goJson (command goJson (.delete [0xFF])) =
        some (some (.delete [0xEF, 0xBF, 0xBD])) := by
  decide +kernel

variable (J : Codec)

theorem decode_put (key value : Bytes) : decode J (command J (.put key value)) =
    some (some (.put (Utf8.coerce key) (Utf8.coerce value))) := by
  rw [decode, command, J.unmarshal_marshal _ (by simp)]
  rfl

theorem decode_delete (key : Bytes) :
    decode J (command J (.delete key)) = some (some (.delete (Utf8.coerce key))) := by
  rw [decode, command, J.unmarshal_marshal _ (by simp)]
  rfl

/-- **Lossless commands.** On every node, what `Put` proposed becomes `Store.Put`
with the same key and value exactly when both are well-formed UTF-8, and likewise
`Delete`. -/
theorem command_lossless_iff (key value : Bytes) :
    (decode J (command J (.put key value)) = some (some (.put key value)) ↔
      Utf8.Valid key ∧ Utf8.Valid value) ∧
    (decode J (command J (.delete key)) = some (some (.delete key)) ↔ Utf8.Valid key) := by
  rw [decode_put, decode_delete]
  simp only [Option.some.injEq, Call.put.injEq, Call.delete.injEq, Utf8.coerce_eq_iff, and_self]

/-- A key of two bytes that need escapes and a value of one character of three
bytes. -/
theorem command_lossless_iff_escaped :
    Utf8.Valid [34, 10] ∧ Utf8.Valid [0xE2, 0x82, 0xAC] ∧
      decode goJson (command goJson (.put [34, 10] [0xE2, 0x82, 0xAC])) =
        some (some (.put [34, 10] [0xE2, 0x82, 0xAC])) :=
  ⟨by decide +kernel, by decide +kernel,
    (command_lossless_iff goJson [34, 10] [0xE2, 0x82, 0xAC]).1.mpr
      ⟨by decide +kernel, by decide +kernel⟩⟩

end KVEngine.RaftStore
