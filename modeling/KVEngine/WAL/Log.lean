import KVEngine.WAL.Record

/-!
# The log file

`Open`, `Append` and `Sync` of `internal/wal/wal.go`. The bytes appended since
the last `Sync` are in the process's buffer or in the page cache; a crash leaves
every fsynced byte and some prefix of those.
-/

namespace KVEngine.WAL

structure Log where
  /-- What `fsync` has made durable. -/
  file : Bytes
  /-- Appended since. -/
  pending : Bytes
  durableOff : ℕ
  pendingBytes : ℕ

/-- `Open`: the file as it is, to be appended to at its physical end. -/
def openLog (file : Bytes) : Log :=
  { file, pending := [], durableOff := file.length, pendingBytes := 0 }

namespace Log

def append (w : Log) (rec : Record) : Log :=
  let b := encode rec
  { w with pending := w.pending ++ b, pendingBytes := w.pendingBytes + b.length }

def sync (w : Log) : Log :=
  { file := w.file ++ w.pending, pending := [],
    durableOff := w.durableOff + w.pendingBytes, pendingBytes := 0 }

/-- `Close`: the file once the buffer is flushed. -/
def close (w : Log) : Bytes := w.file ++ w.pending

/-- The file after a crash that `n` of the pending bytes survive. -/
def crash (w : Log) (n : ℕ) : Bytes := w.file ++ w.pending.take n

end Log

end KVEngine.WAL
