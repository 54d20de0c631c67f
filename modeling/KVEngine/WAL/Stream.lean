import KVEngine.Foundation.Run
import KVEngine.WAL.Writer

/-!
# Streaming the log

`StreamFrom` of `internal/wal/wal.go`, any number of times at once, while
writers append and sync. A stream reads the durable offset and the current
channel under the lock, copies up to that offset with the lock released, and
when there is nothing to copy waits for the channel to be closed.

`io.CopyN` moves its bytes in chunks and `pos` follows them here; the source
adds their number to `pos` when the last one is through. Opening the file a
second time and the flush of the destination change nothing that is modelled,
except that they can fail and end the stream.

Whatever fails and in whatever order things happen, a stream has written exactly
the log bytes up to its position, never beyond the durable offset, and it never
sleeps through a `Sync` (`streaming_exact`).
-/

namespace KVEngine.WAL.Streaming

open Foundation

/-! ## §1  Steps -/

/-- Where a stream stands: about to take the lock, copying up to `target`, blocked
on the channel it captured, or returned. -/
inductive Pc : Type where
  | looping
  | copying (target : ℕ)
  | waiting (ch : ℕ)
  | stopped
deriving DecidableEq

structure Stream where
  fromOffset : ℕ
  /-- The durable offset when `StreamFrom` was called; the code does not keep it. -/
  frontier : ℕ
  pos : ℕ
  /-- Everything written to `dst`. -/
  written : Bytes
  pc : Pc
deriving DecidableEq

inductive StreamAction : Type where
  | look
  | copy (n : ℕ)
  /-- Writing to `dst` or flushing it fails. -/
  | fail
  | wake
  /-- `done` is closed. -/
  | shutdown
deriving DecidableEq

def Stream.step (w : Writer) (t : Stream) : StreamAction → Option Stream
  | .look =>
      match t.pc with
      | .looping =>
          let target := w.durableOff
          let ch := w.notify
          some { t with pc := if t.pos < target then .copying target else .waiting ch }
      | _ => none
  | .copy n =>
      match t.pc with
      | .copying target =>
          let chunk := (w.file.drop t.pos).take (min n (target - t.pos))
          let pos := t.pos + chunk.length
          some { t with
            pos
            written := t.written ++ chunk
            -- an empty chunk is the end of the file
            pc := if chunk = [] then .stopped
              else if pos < target then .copying target else .looping }
      | _ => none
  | .fail =>
      match t.pc with
      | .looping | .copying _ => some { t with pc := .stopped }
      | _ => none
  | .wake =>
      match t.pc with
      | .waiting ch => if ch ∈ w.closed then some { t with pc := .looping } else none
      | _ => none
  | .shutdown =>
      match t.pc with
      | .waiting _ => some { t with pc := .stopped }
      | _ => none

/-- The log, its streams and, for stating what is covered, the records accepted by
`Append` and those among them that a successful `Sync` has covered. -/
structure State where
  wal : Writer
  streams : List Stream
  records : List Record
  synced : List Record

inductive Action : Type where
  | append (rec : Record) (out : AppendOutcome)
  | sync (out : SyncOutcome)
  | start (fromOffset : ℕ)
  | stream (j : ℕ) (a : StreamAction)
deriving DecidableEq

/-- A log opened on the frames of `rs`. -/
def initial (rs : List Record) : State :=
  { wal := Writer.openFile (framing.frames rs), streams := [], records := [], synced := [] }

/-- A call of `StreamFrom`. -/
def Stream.new (w : Writer) (fromOffset : ℕ) : Stream :=
  { fromOffset, frontier := w.durableOff, pos := fromOffset, written := [], pc := .looping }

def step (s : State) : Action → Option State
  | .append rec out =>
      let (wal, ok) := s.wal.append rec out
      some { s with wal, records := if ok then s.records ++ [rec] else s.records }
  | .sync out =>
      let (wal, ok) := s.wal.sync out
      some { s with wal, synced := if ok then s.records else s.synced }
  | .start fromOffset =>
      some { s with streams := s.streams ++ [Stream.new s.wal fromOffset] }
  | .stream j a => do
      let t ← s.streams[j]?
      let t ← t.step s.wal a
      return { s with streams := s.streams.set j t }

/-- All bytes of the log: the file it was opened on and every accepted record. -/
def State.log (rs : List Record) (s : State) : Bytes := framing.frames (rs ++ s.records)

/-! ## §2  One stream -/

/-- A stream that was started inside the durable part has copied the log from its
offset to its position, and does not wait for a `Sync` that has happened. -/
structure Faithful (log : Bytes) (w : Writer) (t : Stream) : Prop where
  started : t.fromOffset ≤ t.pos
  reached : t.pos ≤ w.durableOff
  copied : t.written = (log.take t.pos).drop t.fromOffset
  target : ∀ target, t.pc = .copying target → target ≤ w.durableOff
  asleep : ∀ ch, t.pc = .waiting ch → ch ∈ w.closed ∨ (ch = w.notify ∧ t.pos = w.durableOff)

variable {log : Bytes} {w w' : Writer} {t t' : Stream}

/-- A stream is not disturbed by a log that grows and a durable offset that
advances, as long as an advance closes the channel. -/
theorem Faithful.frame (h : Faithful log w t) {log' : Bytes} (hlog : log <+: log')
    (hdur : w.durableOff ≤ w'.durableOff) (hlen : w.durableOff ≤ log.length)
    (hch : (w'.durableOff = w.durableOff ∧ w'.notify = w.notify ∧ w'.closed = w.closed) ∨
      w'.closed = w.closed ++ [w.notify]) : Faithful log' w' t := by
  refine ⟨h.started, h.reached.trans hdur, ?_, fun T hT => (h.target T hT).trans hdur,
    fun ch hpc => ?_⟩
  · obtain ⟨more, rfl⟩ := hlog
    rw [List.take_append_of_le_length (h.reached.trans hlen)]
    exact h.copied
  · rcases hch with ⟨hoff, hnot, hcl⟩ | hcl
    · rw [hoff, hnot, hcl]
      exact h.asleep ch hpc
    · refine Or.inl ?_
      rw [hcl]
      rcases h.asleep ch hpc with hclosed | ⟨rfl, -⟩
      · exact List.mem_append_left _ hclosed
      · exact List.mem_append_right _ (List.mem_singleton_self _)

theorem faithful_new (log : Bytes) {o : ℕ} (h : o ≤ w.durableOff) :
    Faithful log w (Stream.new w o) := by
  refine ⟨le_refl _, h, ?_, fun _ hpc => (by cases hpc), fun _ hpc => (by cases hpc)⟩
  show [] = (log.take o).drop o
  exact (List.drop_eq_nil_of_le (List.length_take_le _ _)).symm

/-- A chunk below the durable offset is read off the log. -/
theorem chunk_eq (h : w.Holds log) {pos k : ℕ} (hk : pos + k ≤ w.durableOff) :
    (w.file.drop pos).take k = (log.drop pos).take k ∧ ((log.drop pos).take k).length = k := by
  have hcut : ∀ bytes : Bytes,
      (bytes.drop pos).take k = ((bytes.take w.durableOff).drop pos).take k := by
    intro bytes
    rw [List.drop_take, List.take_take, min_eq_left (by omega)]
  refine ⟨by rw [hcut w.file, hcut log, h.durable_bytes], ?_⟩
  have hle := h.durable_le
  rw [List.length_take, List.length_drop, min_eq_left (by omega)]

/-- A stream stays where it was started and only ever writes more. -/
theorem step_start {a : StreamAction} (hstep : t.step w a = some t') :
    t'.fromOffset = t.fromOffset ∧ t'.frontier = t.frontier ∧ t.written <+: t'.written := by
  unfold Stream.step at hstep
  cases a with
  | copy n =>
      dsimp only at hstep
      split at hstep
      · cases hstep
        exact ⟨rfl, rfl, List.prefix_append _ _⟩
      · cases hstep
  | _ =>
      dsimp only at hstep
      (repeat' split at hstep) <;> cases hstep <;> exact ⟨rfl, rfl, List.prefix_rfl⟩

/-- A stream that neither copies nor waits promises nothing but what it has written. -/
theorem Faithful.pause (h : Faithful log w t) {pc : Pc} (hcopy : ∀ T, pc ≠ .copying T)
    (hwait : ∀ ch, pc ≠ .waiting ch) : Faithful log w { t with pc } :=
  ⟨h.started, h.reached, h.copied, fun T hpc => absurd hpc (hcopy T),
    fun ch hpc => absurd hpc (hwait ch)⟩

/-- The target and the channel are read together, under the mutex. -/
theorem Faithful.look (h : Faithful log w t) :
    Faithful log w { t with
      pc := if t.pos < w.durableOff then .copying w.durableOff else .waiting w.notify } := by
  by_cases hlt : t.pos < w.durableOff
  · rw [if_pos hlt]
    refine ⟨h.started, h.reached, h.copied, fun T hpc => ?_, fun ch hpc => (by cases hpc)⟩
    cases hpc
    exact le_refl _
  · rw [if_neg hlt]
    refine ⟨h.started, h.reached, h.copied, fun T hpc => (by cases hpc), fun ch hpc => ?_⟩
    cases hpc
    exact Or.inr ⟨rfl, le_antisymm h.reached (not_lt.mp hlt)⟩

/-- Copying the next `k` bytes of the log. -/
theorem Faithful.copy (h : Faithful log w t) (hw : w.Holds log) {k target : ℕ} {pc : Pc}
    (hk : t.pos + k ≤ w.durableOff) (htarget : target ≤ w.durableOff)
    (hpc : pc = .copying target ∨ pc = .looping ∨ pc = .stopped) :
    Faithful log w { t with
      pos := t.pos + k, written := t.written ++ (log.drop t.pos).take k, pc } := by
  refine ⟨h.started.trans (Nat.le_add_right _ _), hk, ?_, ?_, ?_⟩
  · show t.written ++ _ = (log.take (t.pos + k)).drop t.fromOffset
    have hfrom : t.fromOffset ≤ (log.take t.pos).length := by
      rw [List.length_take]
      exact le_min h.started ((h.started.trans h.reached).trans hw.durable_le)
    rw [h.copied, List.take_add, List.drop_append_of_le_length hfrom]
  · rintro T rfl
    rcases hpc with hpc | hpc | hpc <;> cases hpc
    exact htarget
  · rintro ch rfl
    rcases hpc with hpc | hpc | hpc <;> cases hpc

/-- A step of a stream keeps it faithful. -/
theorem Faithful.step (h : Faithful log w t) (hw : w.Holds log) {a : StreamAction}
    (hstep : t.step w a = some t') : Faithful log w t' := by
  have hstopped : Faithful log w { t with pc := .stopped } := h.pause nofun nofun
  unfold Stream.step at hstep
  cases a with
  | look =>
      dsimp only at hstep
      split at hstep <;> cases hstep
      exact h.look
  | copy n =>
      dsimp only at hstep
      split at hstep
      · rename_i target hpc
        have htarget := h.target target hpc
        have hk : t.pos + min n (target - t.pos) ≤ w.durableOff := by
          have := h.reached
          omega
        obtain ⟨hchunk, hlen⟩ := chunk_eq hw hk
        rw [hchunk, hlen] at hstep
        cases hstep
        apply h.copy hw hk htarget
        split_ifs
        · exact Or.inr (Or.inr rfl)
        · exact Or.inl rfl
        · exact Or.inr (Or.inl rfl)
      · cases hstep
  | fail =>
      dsimp only at hstep
      split at hstep <;> cases hstep <;> exact hstopped
  | wake =>
      dsimp only at hstep
      split at hstep
      · split at hstep <;> cases hstep
        exact h.pause nofun nofun
      · cases hstep
  | shutdown =>
      dsimp only at hstep
      split at hstep <;> cases hstep
      exact hstopped

/-! ## §3  All streams -/

structure Consistent (rs : List Record) (s : State) : Prop where
  holds : s.wal.Holds (s.log rs)
  covered : s.synced <+: s.records
  durable : s.wal.durableOff = (framing.frames (rs ++ s.synced)).length
  faithful : ∀ t ∈ s.streams, t.fromOffset ≤ t.frontier → Faithful (s.log rs) s.wal t

variable {rs : List Record} {s s' : State}

theorem consistent_initial (rs : List Record) : Consistent rs (initial rs) := by
  have hlog : (initial rs).log rs = framing.frames rs := by
    rw [State.log]
    exact congrArg framing.frames (List.append_nil rs)
  refine ⟨?_, List.prefix_rfl, ?_, fun t ht => absurd ht List.not_mem_nil⟩
  · rw [hlog]
    exact Writer.holds_openFile _
  · show (framing.frames rs).length = (framing.frames (rs ++ [])).length
    rw [List.append_nil]

theorem consistent_append (h : Consistent rs s) {rec : Record} {out : AppendOutcome}
    (hstep : step s (.append rec out) = some s') : Consistent rs s' := by
  cases happ : s.wal.append rec out with
  | mk w ok =>
      obtain ⟨hholds, -, hdur, hnot, hcl⟩ := h.holds.append happ
      have hs' : s' = { s with
          wal := w, records := if ok then s.records ++ [rec] else s.records } := by
        rw [step, happ] at hstep
        exact (Option.some.inj hstep).symm
      have hlog : s'.log rs = if ok then s.log rs ++ encode rec else s.log rs := by
        rw [hs', State.log]
        cases ok with
        | false => rfl
        | true =>
            show framing.frames (rs ++ (s.records ++ [rec])) = framing.frames _ ++ encode rec
            rw [← List.append_assoc, Framing.frames_append]
            exact congrArg _ (List.append_nil _)
      have hgrow : s.log rs <+: s'.log rs := by
        rw [hlog]
        cases ok with
        | false => exact List.prefix_rfl
        | true => exact List.prefix_append _ _
      have hwal : s'.wal = w := by rw [hs']
      refine ⟨?_, ?_, ?_, ?_⟩
      · rw [hlog, hwal]
        exact hholds
      · rw [hs']
        cases ok with
        | false => exact h.covered
        | true => exact h.covered.trans (List.prefix_append _ _)
      · rw [hwal, hdur, hs']
        exact h.durable
      · intro t ht hstart
        rw [hwal]
        refine (h.faithful t (by rw [hs'] at ht; exact ht) hstart).frame hgrow (le_of_eq hdur.symm)
          h.holds.durable_le (Or.inl ⟨hdur, hnot, hcl⟩)

theorem consistent_sync (h : Consistent rs s) {out : SyncOutcome}
    (hstep : step s (.sync out) = some s') : Consistent rs s' := by
  cases hsync : s.wal.sync out with
  | mk w ok =>
      obtain ⟨hholds, -, hcases⟩ := h.holds.sync hsync
      have hs' : s' = { s with wal := w, synced := if ok then s.records else s.synced } := by
        rw [step, hsync] at hstep
        exact (Option.some.inj hstep).symm
      have hle := h.holds.durable_le
      subst hs'
      cases ok with
      | false =>
          obtain ⟨hdur, hnot, hcl⟩ := hcases
          refine ⟨hholds, h.covered, hdur.trans h.durable, fun t ht hstart => ?_⟩
          exact (h.faithful t ht hstart).frame List.prefix_rfl (le_of_eq hdur.symm) hle
            (Or.inl ⟨hdur, hnot, hcl⟩)
      | true =>
          obtain ⟨hdur, -, hcl⟩ := hcases
          refine ⟨hholds, List.prefix_rfl, hdur, fun t ht hstart => ?_⟩
          refine (h.faithful t ht hstart).frame List.prefix_rfl ?_ hle (Or.inr hcl)
          show s.wal.durableOff ≤ w.durableOff
          rw [hdur]
          exact hle

theorem consistent_start (h : Consistent rs s) {o : ℕ}
    (hstep : step s (.start o) = some s') : Consistent rs s' := by
  cases hstep
  refine ⟨h.holds, h.covered, h.durable, fun t ht hstart => ?_⟩
  rcases List.mem_append.mp ht with ht | ht
  · exact h.faithful t ht hstart
  · rw [List.mem_singleton.mp ht] at hstart ⊢
    exact faithful_new _ hstart

theorem consistent_stream (h : Consistent rs s) {j : ℕ} {a : StreamAction}
    (hstep : step s (.stream j a) = some s') : Consistent rs s' := by
  obtain ⟨t, ht, hstep⟩ := Option.bind_eq_some_iff.mp hstep
  obtain ⟨t', ht', hstep⟩ := Option.bind_eq_some_iff.mp hstep
  cases hstep
  refine ⟨h.holds, h.covered, h.durable, fun u hu hstart => ?_⟩
  rcases List.mem_or_eq_of_mem_set hu with hu | rfl
  · exact h.faithful u hu hstart
  · obtain ⟨hfrom, hfront, -⟩ := step_start ht'
    rw [hfrom, hfront] at hstart
    exact (h.faithful t (List.mem_of_getElem? ht) hstart).step h.holds ht'

theorem consistent_step (h : Consistent rs s) {a : Action} (hstep : step s a = some s') :
    Consistent rs s' := by
  cases a with
  | append rec out => exact consistent_append h hstep
  | sync out => exact consistent_sync h hstep
  | start o => exact consistent_start h hstep
  | stream j a => exact consistent_stream h hstep

theorem consistent_run {as : List Action} (h : Run step Always (initial rs) as s) :
    Consistent rs s :=
  h.invariant (consistent_initial rs) fun hu _ hstep => consistent_step hu hstep

/-- What those who read from a stream rely on: records, the durable offset and
what each stream has written only grow. -/
structure Grows (s s' : State) : Prop where
  records : s.records <+: s'.records
  durable : s.wal.durableOff ≤ s'.wal.durableOff
  streams : ∀ {j : ℕ} {t : Stream}, s.streams[j]? = some t → ∃ t', s'.streams[j]? = some t' ∧
    t'.fromOffset = t.fromOffset ∧ t'.frontier = t.frontier ∧ t.written <+: t'.written

theorem step_grows (h : Consistent rs s) {a : Action} (hstep : step s a = some s') :
    Grows s s' := by
  have hsame : ∀ {j : ℕ} {t : Stream}, s.streams[j]? = some t → ∃ t', s.streams[j]? = some t' ∧
      t'.fromOffset = t.fromOffset ∧ t'.frontier = t.frontier ∧ t.written <+: t'.written :=
    fun ht => ⟨_, ht, rfl, rfl, List.prefix_rfl⟩
  cases a with
  | append rec out =>
      cases happ : s.wal.append rec out with
      | mk w ok =>
          obtain ⟨-, -, hdur, -⟩ := h.holds.append happ
          rw [step, happ] at hstep
          cases hstep
          refine ⟨?_, le_of_eq hdur.symm, hsame⟩
          cases ok with
          | false => exact List.prefix_rfl
          | true => exact List.prefix_append _ _
  | sync out =>
      cases hsync : s.wal.sync out with
      | mk w ok =>
          obtain ⟨-, -, hcases⟩ := h.holds.sync hsync
          rw [step, hsync] at hstep
          cases hstep
          refine ⟨List.prefix_rfl, ?_, hsame⟩
          show s.wal.durableOff ≤ w.durableOff
          cases ok with
          | false => exact le_of_eq hcases.1.symm
          | true => exact h.holds.durable_le.trans (le_of_eq hcases.1.symm)
  | start o =>
      cases hstep
      refine ⟨List.prefix_rfl, le_refl _, fun {j t} ht => ⟨t, ?_, rfl, rfl, List.prefix_rfl⟩⟩
      show (s.streams ++ _)[j]? = some t
      rw [List.getElem?_append_left (List.getElem?_eq_some_iff.mp ht).1]
      exact ht
  | stream i a =>
      obtain ⟨u, hu, hstep⟩ := Option.bind_eq_some_iff.mp hstep
      obtain ⟨u', hu', hstep⟩ := Option.bind_eq_some_iff.mp hstep
      cases hstep
      refine ⟨List.prefix_rfl, le_refl _, fun {j t} ht => ?_⟩
      show ∃ t', (s.streams.set i u')[j]? = some t' ∧ _
      by_cases hij : i = j
      · subst hij
        rw [hu] at ht
        cases ht
        exact ⟨u', List.getElem?_set_self (List.getElem?_eq_some_iff.mp hu).1, step_start hu'⟩
      · rw [List.getElem?_set_ne hij]
        exact hsame ht

/-- A new record was appended by this step. -/
theorem mem_records {a : Action} (hstep : step s a = some s') {r : Record}
    (hr : r ∈ s'.records) : r ∈ s.records ∨ ∃ out, a = .append r out := by
  cases a with
  | append rec out =>
      cases happ : s.wal.append rec out with
      | mk w ok =>
          rw [step, happ] at hstep
          cases hstep
          cases ok with
          | false => exact Or.inl hr
          | true =>
              rcases List.mem_append.mp hr with hr | hr
              · exact Or.inl hr
              · rw [List.mem_singleton.mp hr]
                exact Or.inr ⟨out, rfl⟩
  | sync out =>
      cases hstep
      exact Or.inl hr
  | start o =>
      cases hstep
      exact Or.inl hr
  | stream j a =>
      obtain ⟨t, -, hstep⟩ := Option.bind_eq_some_iff.mp hstep
      obtain ⟨t', -, hstep⟩ := Option.bind_eq_some_iff.mp hstep
      cases hstep
      exact Or.inl hr

/-- **Streaming is exact and loses no wake-up.** The durable offset is the length
of the file at the start and of the records that successful `Sync`s cover. A
stream started inside the durable part has written the log from its offset to
its position, is not ahead of the durable offset, and when it is blocked it has
either everything or a channel that is already closed. -/
theorem streaming_exact {as : List Action} (h : Run step Always (initial rs) as s) :
    s.synced <+: s.records ∧
      s.wal.durableOff = (framing.frames rs).length + (framing.frames s.synced).length ∧
      ∀ t ∈ s.streams, t.fromOffset ≤ t.frontier →
        t.fromOffset ≤ t.pos ∧ t.pos ≤ s.wal.durableOff ∧
          t.written = ((framing.frames (rs ++ s.records)).take t.pos).drop t.fromOffset ∧
          ∀ ch, t.pc = .waiting ch → t.pos = s.wal.durableOff ∨ ch ∈ s.wal.closed := by
  obtain ⟨-, hcovered, hdurable, hfaithful⟩ := consistent_run h
  refine ⟨hcovered, ?_, fun t ht hstart => ?_⟩
  · rw [hdurable, Framing.frames_append, List.length_append]
  · obtain ⟨hstarted, hreached, hcopied, -, hasleep⟩ := hfaithful t ht hstart
    refine ⟨hstarted, hreached, hcopied, fun ch hpc => ?_⟩
    rcases hasleep ch hpc with hclosed | ⟨-, hpos⟩
    · exact Or.inr hclosed
    · exact Or.inl hpos

/-- A stream that is blocked when a `Sync` comes, after one whose `fsync` failed,
and a second stream that starts at the first record boundary. -/
theorem streaming_exact_woken :
    let r : Record := { type := recordPut, key := [97], value := [1] }
    let as : List Action :=
      [.start 19, .stream 0 .look, .append r (.ok 3), .sync .fsyncFails, .append r (.ok 0),
        .sync .ok, .stream 0 .wake, .stream 0 .look, .stream 0 (.copy 5), .start 38,
        .append r (.writeFails 4 2), .stream 1 .look, .stream 1 (.copy 100), .stream 1 .look]
    let s := endState step Always (initial [r]) as
    (s.wal.durableOff = 57 ∧ s.synced = [r, r] ∧ s.synced <+: s.records) ∧
      ∀ t ∈ s.streams, t.fromOffset ≤ t.pos ∧ t.pos ≤ s.wal.durableOff := by
  intro r as s
  have hrun : Run step Always (initial [r]) as s := run_endState (by decide +kernel)
  obtain ⟨hcovered, -, hstreams⟩ := streaming_exact hrun
  refine ⟨⟨by decide +kernel, by decide +kernel, hcovered⟩, fun t ht => ?_⟩
  have hstart : ∀ t ∈ s.streams, t.fromOffset ≤ t.frontier := by decide +kernel
  obtain ⟨hstarted, hreached, -⟩ := hstreams t ht (hstart t ht)
  exact ⟨hstarted, hreached⟩

end KVEngine.WAL.Streaming
