import KVEngine.WAL.Log

/-!
# The log with failing files

`Append` and `Sync` of `internal/wal/wal.go` with the outcome of every file
operation left open. `bufio.Writer` hands bytes to the file when it is flushed
and whenever its buffer is full; a write that fails may have handed over a part,
and from then on the writer refuses everything. A failed `fsync` changes no
counter, so a later one can still succeed.

`durableOff` and `pendingBytes` count whole records whatever fails
(`Holds.append`, `Holds.sync`). Without failures this is the `Log`
(`toLog_append`, `toLog_sync`).
-/

namespace KVEngine.WAL

/-! ## §1  The calls -/

/-- `WAL`. Channels are numbered in the order they are made. -/
structure Writer where
  /-- What the file holds. -/
  file : Bytes
  /-- What `bufio.Writer` still holds. -/
  buffer : Bytes
  /-- A write of `bufio.Writer` has failed. -/
  failed : Bool
  durableOff : ℕ
  pendingBytes : ℕ
  notify : ℕ
  closed : List ℕ

/-- What `Write` of `bufio.Writer` did with a frame: how much it handed to the
file and, if that failed, how much of the frame it had taken before. -/
inductive AppendOutcome : Type where
  | ok (flushed : ℕ)
  | writeFails (taken flushed : ℕ)
deriving DecidableEq

inductive SyncOutcome : Type where
  | ok
  | flushFails (flushed : ℕ)
  | fsyncFails
deriving DecidableEq

namespace Writer

/-- `Open` on the file as it is. -/
def openFile (file : Bytes) : Writer :=
  { file, buffer := [], failed := false, durableOff := file.length, pendingBytes := 0,
    notify := 0, closed := [] }

/-- `bufio.Writer` takes `b` and hands the first `n` bytes it holds to the file. -/
def write (w : Writer) (b : Bytes) (n : ℕ) : Writer :=
  { w with file := w.file ++ (w.buffer ++ b).take n, buffer := (w.buffer ++ b).drop n }

/-- `Flush` of everything buffered. -/
def flush (w : Writer) : Writer := w.write [] w.buffer.length

/-- `Append`, and whether it returned `nil`. -/
def append (w : Writer) (rec : Record) (out : AppendOutcome) : Writer × Bool :=
  let b := encode rec
  if w.failed then (w, false)
  else
    match out with
    | .ok n => ({ w.write b n with pendingBytes := w.pendingBytes + b.length }, true)
    | .writeFails taken n => ({ w.write (b.take taken) n with failed := true }, false)

/-- `Sync`, and whether it returned `nil`. -/
def sync (w : Writer) (out : SyncOutcome) : Writer × Bool :=
  if w.failed then (w, false)
  else
    match out with
    | .ok =>
        -- close the old channel and replace it
        ({ w.flush with
            durableOff := w.durableOff + w.pendingBytes, pendingBytes := 0,
            notify := w.notify + 1, closed := w.closed ++ [w.notify] }, true)
    | .flushFails n => ({ w.write [] n with failed := true }, false)
    | .fsyncFails => (w.flush, false)

/-! ## §2  What is counted -/

theorem write_bytes (w : Writer) (b : Bytes) (n : ℕ) :
    (w.write b n).file ++ (w.write b n).buffer = w.file ++ w.buffer ++ b := by
  simp only [write, List.append_assoc, List.take_append_drop]

theorem write_file (w : Writer) (b : Bytes) (n : ℕ) : w.file <+: (w.write b n).file :=
  List.prefix_append _ _

theorem flush_file (w : Writer) : w.flush.file = w.file ++ w.buffer := by
  rw [flush, write, List.append_nil, List.take_length]

theorem flush_buffer (w : Writer) : w.flush.buffer = [] := by
  rw [flush, write, List.append_nil, List.drop_length]

/-- The accepted records encode to `bytes`: these stand at the front of file and
buffer, and the two counters add up to their length. -/
structure Holds (w : Writer) (bytes : Bytes) : Prop where
  whole : w.failed = false → w.file ++ w.buffer = bytes
  kept : bytes <+: w.file ++ w.buffer
  counted : w.durableOff + w.pendingBytes = bytes.length
  durable : w.durableOff ≤ w.file.length

theorem holds_openFile (file : Bytes) : (openFile file).Holds file := by
  refine ⟨fun _ => List.append_nil _, ?_, rfl, le_refl _⟩
  exact List.prefix_append _ _

variable {w w' : Writer} {bytes : Bytes}

theorem Holds.durable_le (h : w.Holds bytes) : w.durableOff ≤ bytes.length := by
  rw [← h.counted]
  exact Nat.le_add_right _ _

/-- Every durable byte is in the file and is a byte of an accepted record. -/
theorem Holds.durable_bytes (h : w.Holds bytes) :
    w.file.take w.durableOff = bytes.take w.durableOff := by
  obtain ⟨rest, hrest⟩ := h.kept
  calc w.file.take w.durableOff = (w.file ++ w.buffer).take w.durableOff :=
        (List.take_append_of_le_length h.durable).symm
    _ = (bytes ++ rest).take w.durableOff := by rw [hrest]
    _ = bytes.take w.durableOff := List.take_append_of_le_length h.durable_le

/-- Handing over bytes, or failing to, loses nothing that was accepted. -/
theorem Holds.write_fails (h : w.Holds bytes) (b : Bytes) (n : ℕ) :
    { w.write b n with failed := true }.Holds bytes := by
  refine ⟨fun hf => (by cases hf), ?_, h.counted,
    h.durable.trans (write_file w b n).length_le⟩
  show _ <+: (w.write b n).file ++ (w.write b n).buffer
  rw [write_bytes]
  exact h.kept.trans (List.prefix_append _ _)

theorem Holds.flush (h : w.Holds bytes) (hok : w.failed = false) : w.flush.Holds bytes := by
  have hall : w.flush.file ++ w.flush.buffer = bytes := by
    rw [flush_file, flush_buffer, List.append_nil, h.whole hok]
  refine ⟨fun _ => hall, ⟨[], by rw [hall, List.append_nil]⟩, h.counted, ?_⟩
  exact h.durable.trans (write_file w _ _).length_le

/-- **Append.** An accepted record is counted; a refused one leaves what was
accepted before. -/
theorem Holds.append (h : w.Holds bytes) {rec : Record} {out : AppendOutcome} {ok : Bool}
    (hstep : w.append rec out = (w', ok)) :
    w'.Holds (if ok then bytes ++ encode rec else bytes) ∧ w.file <+: w'.file ∧
      w'.durableOff = w.durableOff ∧ w'.notify = w.notify ∧ w'.closed = w.closed := by
  unfold Writer.append at hstep
  split at hstep
  · cases hstep
    exact ⟨h, List.prefix_rfl, rfl, rfl, rfl⟩
  · rename_i hok
    have hwhole := h.whole (by simpa using hok)
    cases out with
    | ok n =>
        cases hstep
        have hall : (w.write (encode rec) n).file ++ (w.write (encode rec) n).buffer =
            bytes ++ encode rec := by
          rw [write_bytes, hwhole]
        refine ⟨⟨fun _ => hall, ⟨[], ?_⟩, ?_, ?_⟩, write_file w _ n, rfl, rfl, rfl⟩
        · rw [List.append_nil]
          exact hall.symm
        · show w.durableOff + (w.pendingBytes + (encode rec).length) = (bytes ++ encode rec).length
          rw [← Nat.add_assoc, h.counted, List.length_append]
        · exact h.durable.trans (write_file w _ n).length_le
    | writeFails taken n =>
        cases hstep
        exact ⟨h.write_fails _ n, write_file w _ n, rfl, rfl, rfl⟩

/-- **Sync.** A successful one makes every accepted record durable and replaces
the channel; a failed one changes no counter. -/
theorem Holds.sync (h : w.Holds bytes) {out : SyncOutcome} {ok : Bool}
    (hstep : w.sync out = (w', ok)) :
    w'.Holds bytes ∧ w.file <+: w'.file ∧
      (if ok then w'.durableOff = bytes.length ∧ w'.notify = w.notify + 1 ∧
          w'.closed = w.closed ++ [w.notify]
        else w'.durableOff = w.durableOff ∧ w'.notify = w.notify ∧ w'.closed = w.closed) := by
  unfold Writer.sync at hstep
  split at hstep
  · cases hstep
    exact ⟨h, List.prefix_rfl, rfl, rfl, rfl⟩
  · rename_i hok
    have hgood : w.failed = false := by simpa using hok
    have hflush := h.flush hgood
    cases out with
    | ok =>
        cases hstep
        refine ⟨⟨hflush.whole, hflush.kept, h.counted, ?_⟩, write_file w _ _, h.counted, rfl, rfl⟩
        -- nothing is left in the buffer, so the file holds all accepted bytes
        show w.durableOff + w.pendingBytes ≤ w.flush.file.length
        rw [h.counted, flush_file, h.whole hgood]
    | flushFails n =>
        cases hstep
        exact ⟨h.write_fails [] n, write_file w _ n, rfl, rfl, rfl⟩
    | fsyncFails =>
        cases hstep
        exact ⟨hflush, write_file w _ _, rfl, rfl, rfl⟩

/-- A writer that has failed takes nothing; one that has not takes a part of the
frame, and all of it unless it fails. -/
theorem append_bytes {rec : Record} {out : AppendOutcome} {ok : Bool}
    (hstep : w.append rec out = (w', ok)) :
    if w.failed then w' = w ∧ ok = false
    else w'.failed = !ok ∧ w'.file ++ w'.buffer <+: w.file ++ w.buffer ++ encode rec := by
  unfold Writer.append at hstep
  split at hstep
  · rename_i hfailed
    cases hstep
    rw [if_pos hfailed]
    exact ⟨rfl, rfl⟩
  · rename_i hok
    rw [if_neg hok]
    cases out with
    | ok n =>
        cases hstep
        refine ⟨Bool.eq_false_of_not_eq_true hok, ?_⟩
        show (w.write _ n).file ++ (w.write _ n).buffer <+: _
        rw [write_bytes]
    | writeFails taken n =>
        cases hstep
        refine ⟨rfl, ?_⟩
        show (w.write _ n).file ++ (w.write _ n).buffer <+: _
        rw [write_bytes]
        exact (List.prefix_append_right_inj _).mpr (List.take_prefix _ _)

theorem sync_bytes {out : SyncOutcome} {ok : Bool} (hstep : w.sync out = (w', ok)) :
    w'.file ++ w'.buffer = w.file ++ w.buffer ∧ (w'.failed = false → w.failed = false) ∧
      (ok = true → w.failed = false) := by
  have hwrite : ∀ n, (w.write [] n).file ++ (w.write [] n).buffer = w.file ++ w.buffer := by
    intro n
    rw [write_bytes, List.append_nil]
  unfold Writer.sync at hstep
  split at hstep
  · cases hstep
    exact ⟨rfl, id, fun h => (by cases h)⟩
  · rename_i hok
    have hgood : w.failed = false := Bool.eq_false_of_not_eq_true hok
    cases out <;> cases hstep <;> exact ⟨hwrite _, fun _ => hgood, fun _ => hgood⟩

/-- From an empty buffer `Append` hands over a beginning of the frame and, if it
succeeds, keeps the rest. -/
theorem append_handed {rec : Record} {out : AppendOutcome} {ok : Bool} (hbuffer : w.buffer = [])
    (hok : w.failed = false) (hstep : w.append rec out = (w', ok)) :
    ∃ n, w'.file = w.file ++ (encode rec).take n ∧ w'.failed = !ok ∧
      (ok = true → w'.buffer = (encode rec).drop n) := by
  unfold Writer.append at hstep
  rw [hok] at hstep
  cases out with
  | ok n =>
      cases hstep
      refine ⟨n, ?_, hok, fun _ => ?_⟩
      · simp only [write, hbuffer, List.nil_append]
      · simp only [write, hbuffer, List.nil_append]
  | writeFails taken n =>
      cases hstep
      refine ⟨min n taken, ?_, rfl, nofun⟩
      simp only [write, hbuffer, List.nil_append, List.take_take]

/-- `Sync` hands over a beginning of the buffer, all of it unless the writer fails. -/
theorem sync_handed {out : SyncOutcome} {ok : Bool} (hok : w.failed = false)
    (hstep : w.sync out = (w', ok)) :
    ∃ n, w'.file = w.file ++ w.buffer.take n ∧ (w'.failed = false → w'.buffer = []) ∧
      (n < w.buffer.length → w'.failed = true ∧ ok = false) := by
  unfold Writer.sync at hstep
  rw [hok] at hstep
  have hflush : w.flush.file = w.file ++ w.buffer.take w.buffer.length := by
    rw [flush_file, List.take_length]
  cases out with
  | ok =>
      cases hstep
      exact ⟨_, hflush, fun _ => flush_buffer w, fun hlt => absurd hlt (lt_irrefl _)⟩
  | fsyncFails =>
      cases hstep
      exact ⟨_, hflush, fun _ => flush_buffer w, fun hlt => absurd hlt (lt_irrefl _)⟩
  | flushFails n =>
      cases hstep
      refine ⟨n, ?_, nofun, fun _ => ⟨rfl, rfl⟩⟩
      simp only [write, List.append_nil]

/-! ## §3  Without failures -/

/-- The durable part of the file, and everything appended since. -/
def toLog (w : Writer) : Log :=
  { file := w.file.take w.durableOff, pending := (w.file ++ w.buffer).drop w.durableOff,
    durableOff := w.durableOff, pendingBytes := w.pendingBytes }

theorem toLog_append (h : w.Holds bytes) (hok : w.failed = false) (rec : Record) (n : ℕ) :
    (w.append rec (.ok n)).1.toLog = w.toLog.append rec := by
  have happ : (w.append rec (.ok n)).1 =
      { w.write (encode rec) n with pendingBytes := w.pendingBytes + (encode rec).length } := by
    rw [Writer.append, hok]
    rfl
  have hfile : (w.write (encode rec) n).file.take w.durableOff = w.file.take w.durableOff :=
    List.take_append_of_le_length h.durable
  have hpending : ((w.write (encode rec) n).file ++ (w.write (encode rec) n).buffer).drop
      w.durableOff = (w.file ++ w.buffer).drop w.durableOff ++ encode rec := by
    rw [write_bytes, List.drop_append_of_le_length]
    rw [List.length_append]
    exact h.durable.trans (Nat.le_add_right _ _)
  rw [happ, Log.append]
  show Log.mk ((w.write (encode rec) n).file.take w.durableOff)
    (((w.write (encode rec) n).file ++ (w.write (encode rec) n).buffer).drop w.durableOff) _ _ = _
  rw [hfile, hpending]
  rfl

theorem toLog_sync (h : w.Holds bytes) (hok : w.failed = false) :
    (w.sync .ok).1.toLog = w.toLog.sync := by
  have hsync : (w.sync .ok).1 =
      { w.flush with
        durableOff := w.durableOff + w.pendingBytes, pendingBytes := 0,
        notify := w.notify + 1, closed := w.closed ++ [w.notify] } := by
    rw [Writer.sync, hok]
    rfl
  have hlen : w.durableOff + w.pendingBytes = (w.file ++ w.buffer).length := by
    rw [h.counted, h.whole hok]
  have htake : (w.file ++ w.buffer).take w.durableOff = w.file.take w.durableOff :=
    List.take_append_of_le_length h.durable
  have hsplit : w.file.take w.durableOff ++ (w.file ++ w.buffer).drop w.durableOff =
      w.file ++ w.buffer := by
    rw [← htake, List.take_append_drop]
  rw [hsync, Log.sync]
  show Log.mk (w.flush.file.take (w.durableOff + w.pendingBytes))
    ((w.flush.file ++ w.flush.buffer).drop (w.durableOff + w.pendingBytes))
      (w.durableOff + w.pendingBytes) 0 =
    Log.mk (w.file.take w.durableOff ++ (w.file ++ w.buffer).drop w.durableOff) []
      (w.durableOff + w.pendingBytes) 0
  rw [flush_buffer, flush_file, List.append_nil, hlen, List.take_length, List.drop_length, hsplit]

end Writer

end KVEngine.WAL
