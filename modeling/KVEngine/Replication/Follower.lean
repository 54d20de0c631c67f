import KVEngine.Store.Store
import KVEngine.WAL.Stream

/-!
# A follower of the log

`internal/replication`: the leader streams the raw bytes of its log from the
offset the follower asks for (`handleFollower`), the follower decodes them with
`ReadRecord`, applies each record to its store and then persists the offset
behind it (`runOnce`). A connection can be cut at any byte, and the follower can
stop between applying a record and persisting the offset, or fail to persist it.

Reading an offset, dialling, sending the offset and the leader's call of
`StreamFrom` are one step: the follower does nothing else in between, and the
leader is only further on when it starts later. An error of `ReadRecord` ends the
connection, which can end at any time anyway. The follower's own store is taken
as a durable map with atomic updates.

`encode` writes lengths into `uint32` fields without a check, so a body of
`2 ^ 32` bytes or more is framed with a wrong length. The follower can then read
a record that was never written and persist an offset that is no boundary
(`misread_wrapped_record`). For shorter bodies the persisted offset is always
that of a number of whole records, and the store shows these or one more
(`follower_prefix`).
-/

namespace KVEngine.Replication

open Foundation
open WAL (Record encode encodeBody framing readRecord)
open WAL.Streaming (Stream)
open Store (applyRecord)

/-! ## §1  Steps -/

/-- Where `runOnce` stands: in `ReadRecord`, or between applying the record it
returned and `writeOffset`. -/
inductive Pc : Type where
  | reading
  | applied (frameSize : ℕ)
deriving DecidableEq

structure Conn where
  /-- The leader's stream behind the connection. -/
  stream : ℕ
  /-- How many bytes of it have arrived. -/
  arrived : ℕ
  /-- What the reader holds. -/
  unread : Bytes
  /-- The local variable of `runOnce`. -/
  offset : ℕ
  pc : Pc
deriving DecidableEq

structure Follower where
  store : Dict Bytes Bytes
  /-- The contents of the offset file, if it exists. -/
  offsetFile : Option ℕ
  conn : Option Conn

def Follower.readOffset (f : Follower) : ℕ := f.offsetFile.getD 0

structure State where
  leader : WAL.Streaming.State
  follower : Follower

inductive Action : Type where
  | leader (a : WAL.Streaming.Action)
  | connect
  | arrive (n : ℕ)
  | apply
  | writeOffset (ok : Bool)
  /-- The connection is cut, `runOnce` returns with an error, or the follower
  stops and is started again. -/
  | disconnect
deriving DecidableEq

/-- A leader opened on the frames of `rs`; an empty follower. -/
def initial (rs : List Record) : State :=
  { leader := WAL.Streaming.initial rs,
    follower := { store := ∅, offsetFile := none, conn := none } }

/-- The follower's part of a step, with the leader's streams to read from. -/
def Follower.step (streams : List Stream) (f : Follower) : Action → Option Follower
  | .arrive n => do
      let c ← f.conn
      let t ← streams[c.stream]?
      let chunk := (t.written.drop c.arrived).take n
      return { f with
        conn := some { c with arrived := c.arrived + chunk.length, unread := c.unread ++ chunk } }
  | .apply => do
      let c ← f.conn
      guard (c.pc = .reading)
      match readRecord c.unread with
      | (.ok rec, frameSize, rest) =>
          return { f with
            store := applyRecord f.store rec
            conn := some { c with unread := rest, pc := .applied frameSize } }
      | (.error _, _, _) => none
  | .writeOffset ok => do
      let c ← f.conn
      match c.pc with
      | .applied frameSize =>
          let offset := c.offset + frameSize
          if ok then
            return { f with
              offsetFile := some offset, conn := some { c with offset, pc := .reading } }
          else return { f with conn := none }
      | .reading => none
  | .disconnect => some { f with conn := none }
  | .leader _ | .connect => none

def step (s : State) : Action → Option State
  | .leader a => do
      let leader ← WAL.Streaming.step s.leader a
      return { s with leader }
  | .connect => do
      guard (s.follower.conn = none)
      let offset := s.follower.readOffset
      let leader ← WAL.Streaming.step s.leader (.start offset)
      return {
        leader
        follower := { s.follower with
          conn := some { stream := s.leader.streams.length, arrived := 0, unread := [], offset,
                         pc := .reading } } }
  | a => do
      let follower ← s.follower.step s.leader.streams a
      return { s with follower }

/-- The leader's records, oldest first. -/
def State.records (rs : List Record) (s : State) : List Record := rs ++ s.leader.records

/-- The persisted offset is that of the first `m` records, and the store shows
these or one more. -/
def AppliedTo (rs : List Record) (s : State) (m : ℕ) : Prop :=
  m ≤ (s.records rs).length ∧
    s.follower.readOffset = (framing.frames ((s.records rs).take m)).length ∧
    (s.follower.store = ((s.records rs).take m).foldl applyRecord ∅ ∨
      (m + 1 ≤ (s.records rs).length ∧
        s.follower.store = ((s.records rs).take (m + 1)).foldl applyRecord ∅))

/-! ## §2  A length that does not fit -/

/-- What the leader does alone it does in the whole system. -/
theorem leader_run {l l' : WAL.Streaming.State} {as : List WAL.Streaming.Action}
    (h : Run WAL.Streaming.step Always l as l') (f : Follower) :
    Run step Always ⟨l, f⟩ (as.map .leader) ⟨l', f⟩ := by
  induction h with
  | nil => exact Run.nil
  | snoc _ _ hs ih =>
      rw [List.map_append]
      refine ih.snoc trivial ?_
      simp [step, hs]

/-- A log with one record, after `Append` and `Sync` on an empty file. -/
def oneRecord (rec : Record) : WAL.Streaming.State :=
  { wal := { WAL.Writer.openFile (encode rec) with notify := 1, closed := [0] },
    streams := [], records := [rec], synced := [rec] }

theorem oneRecord_run (rec : Record) :
    Run WAL.Streaming.step Always (WAL.Streaming.initial []) [.append rec (.ok 0), .sync .ok]
      (oneRecord rec) := by
  apply run_of_exec
  simp [exec, restrict, Always, WAL.Streaming.step, WAL.Streaming.initial, oneRecord,
    WAL.Writer.openFile, Framing.frames, WAL.Writer.append, WAL.Writer.write, WAL.Writer.sync,
    WAL.Writer.flush]

/-- The only stream of a log moves. -/
theorem step_onlyStream {l : WAL.Streaming.State} {t t' : Stream} {a : WAL.Streaming.StreamAction}
    (h : t.step l.wal a = some t') :
    WAL.Streaming.step { l with streams := [t] } (.stream 0 a) =
      some { l with streams := [t'] } := by
  simp [WAL.Streaming.step, h]

/-- A stream from the start sends the whole record. -/
theorem oneRecord_sent (rec : Record) :
    Run WAL.Streaming.step Always
      { oneRecord rec with streams := [Stream.new (oneRecord rec).wal 0] }
      [.stream 0 .look, .stream 0 (.copy (encode rec).length)]
      { oneRecord rec with
        streams := [{ fromOffset := 0, frontier := (encode rec).length,
                      pos := (encode rec).length, written := encode rec, pc := .looping }] } := by
  have hpos : 0 < (encode rec).length := by
    rw [WAL.length_encode]
    omega
  have hne : encode rec ≠ [] := List.ne_nil_of_length_pos hpos
  have hlook : (Stream.new (oneRecord rec).wal 0).step (oneRecord rec).wal .look =
      some { Stream.new (oneRecord rec).wal 0 with pc := .copying (encode rec).length } := by
    simp [Stream.step, Stream.new, oneRecord, WAL.Writer.openFile, hpos]
  have hcopy : ({ Stream.new (oneRecord rec).wal 0 with pc := .copying (encode rec).length } :
      Stream).step (oneRecord rec).wal (.copy (encode rec).length) =
      some { fromOffset := 0, frontier := (encode rec).length, pos := (encode rec).length,
             written := encode rec, pc := .looping } := by
    simp [Stream.step, Stream.new, oneRecord, WAL.Writer.openFile, hne]
  exact (Run.nil.snoc trivial (step_onlyStream hlook)).snoc trivial (step_onlyStream hcopy)

theorem step_apply {s : State} {c : Conn} {rec : Record} {n : ℕ} {rest : Bytes}
    (hc : s.follower.conn = some c) (hpc : c.pc = .reading)
    (hread : readRecord c.unread = (.ok rec, n, rest)) :
    step s .apply = some { s with
      follower := { s.follower with
        store := applyRecord s.follower.store rec
        conn := some { c with unread := rest, pc := .applied n } } } := by
  simp [step, Follower.step, hc, hpc, hread]

/-- If the first `k` bytes of a record's frame read as another record, the follower
applies that one and persists the offset behind it. -/
theorem misread_run {rec rec' : Record} {k n : ℕ} {rest : Bytes}
    (hread : readRecord ((encode rec).take k) = (.ok rec', n, rest)) :
    ∃ as s, Run step Always (initial []) as s ∧ s.records [] = [rec] ∧
      s.follower.readOffset = n ∧ s.follower.store = applyRecord ∅ rec' := by
  have hlog := leader_run (oneRecord_run rec) (initial []).follower
  have hconn := hlog.snoc (a := .connect) trivial rfl
  have hsent := hconn.trans (leader_run (oneRecord_sent rec) _)
  have harrive := hsent.snoc (a := .arrive k) trivial rfl
  have happly := harrive.snoc (a := .apply) trivial (step_apply rfl rfl hread)
  have hwrite := happly.snoc (a := .writeOffset true) trivial rfl
  exact ⟨_, _, hwrite, rfl, Nat.zero_add n, rfl⟩

/-- `Put` of `"a"` with `tail` more bytes than the four that drive the CRC register
to zero. -/
def wrappedRecord (tail : ℕ) : Record :=
  { type := WAL.recordPut, key := [97], value := [94, 33, 252, 207] ++ List.replicate tail 0 }

/-- Zero bytes leave the register at zero. -/
theorem crc_zeros : ∀ n, (List.replicate n (0 : UInt8)).foldl WAL.crcByte 0 = 0
  | 0 => rfl
  | n + 1 => by
      have hzero : WAL.crcByte 0 0 = 0 := by decide
      rw [List.replicate_succ, List.foldl_cons, hzero, crc_zeros n]

/-- With `2 ^ 32` more bytes both lengths wrap around to those of the short record,
and the checksum is the same: the long frame begins with the short one. -/
theorem encode_wrapped : encode (wrappedRecord (2 ^ 32)) =
    encode (wrappedRecord 0) ++ List.replicate (2 ^ 32) 0 := by
  have hbody : ∀ n, toLE 4 (4 + n) = toLE 4 4 →
      encodeBody (wrappedRecord n) = encodeBody (wrappedRecord 0) ++ List.replicate n 0 := by
    intro n hn
    have hlen : (wrappedRecord n).value.length = 4 + n := by
      rw [wrappedRecord, List.length_append, List.length_replicate]
      rfl
    rw [encodeBody, encodeBody, hlen, hn]
    rfl
  have hframe : ∀ n, toLE 4 (4 + n) = toLE 4 4 → toLE 4 (14 + n) = toLE 4 14 →
      encode (wrappedRecord n) = encode (wrappedRecord 0) ++ List.replicate n 0 := by
    intro n hn hn'
    have hcrc : WAL.checksumIEEE (encodeBody (wrappedRecord n)) =
        WAL.checksumIEEE (encodeBody (wrappedRecord 0)) := by
      have hreg : (encodeBody (wrappedRecord 0)).foldl WAL.crcByte 0xFFFFFFFF = 0 := by
        decide +kernel
      rw [hbody n hn, WAL.checksumIEEE, WAL.checksumIEEE, List.foldl_append, hreg, crc_zeros]
    have hlen : (encodeBody (wrappedRecord n)).length = 14 + n := by
      rw [hbody n hn, List.length_append, List.length_replicate]
      rfl
    rw [encode, encode, WAL.encodeWith, WAL.encodeWith, WAL.frame, WAL.frame, hlen, hn', hcrc,
      hbody n hn]
    simp only [List.append_assoc]
    rfl
  exact hframe (2 ^ 32) (by decide) (by decide)

/-- The leader appends one value of `2 ^ 32 + 4` bytes. The follower, with the first
22 bytes of the frame, stores a value of four bytes and persists the offset 22,
where no record ends. -/
theorem misread_wrapped_record :
    ∃ as s, Run step Always (initial []) as s ∧ s.records [] = [wrappedRecord (2 ^ 32)] ∧
      s.follower.readOffset = 22 ∧ s.follower.store.lookup [97] = some [94, 33, 252, 207] ∧
      ∀ m, ¬ AppliedTo [] s m := by
  have hread : readRecord ((encode (wrappedRecord (2 ^ 32))).take 22) =
      (.ok (wrappedRecord 0), 22, []) := by
    rw [encode_wrapped, List.take_left' (by decide +kernel)]
    decide +kernel
  obtain ⟨as, s, hrun, hrecords, hoffset, hstore⟩ := misread_run hread
  refine ⟨as, s, hrun, hrecords, hoffset, ?_, ?_⟩
  · rw [hstore]
    decide +kernel
  · rintro m ⟨-, hboundary, -⟩
    rw [hoffset, hrecords] at hboundary
    cases m with
    | zero => cases hboundary
    | succ m =>
        have hlong : (framing.frames ([wrappedRecord (2 ^ 32)].take (m + 1))).length =
            22 + 2 ^ 32 := by
          rw [List.take_succ_cons, List.take_nil, Framing.frames_cons]
          show (encode (wrappedRecord (2 ^ 32)) ++ []).length = _
          rw [List.append_nil, encode_wrapped, List.length_append, List.length_replicate]
          rfl
        rw [hlong] at hboundary
        omega

/-! ## §3  Lengths that fit -/

/-- Bodies shorter than `2 ^ 32` bytes. -/
def Fits (_ : State) : Action → Prop
  | .leader (.append rec _) => (encodeBody rec).length < 2 ^ 32
  | _ => True

instance (s : State) (a : Action) : Decidable (Fits s a) :=
  match a with
  | .leader (.append _ _) => inferInstanceAs (Decidable (_ < _))
  | .leader (.sync _) | .leader (.start _) | .leader (.stream _ _) | .connect | .arrive _
  | .apply | .writeOffset _ | .disconnect => inferInstanceAs (Decidable True)

/-- The map after a list of records. -/
def mapOf (rs : List Record) : Dict Bytes Bytes := rs.foldl applyRecord ∅

theorem applyRecord_twice (data : Dict Bytes Bytes) (rec : Record) :
    applyRecord (applyRecord data rec) rec = applyRecord data rec := by
  unfold applyRecord
  split
  · exact Finmap.insert_insert _
  · split
    · refine Finmap.ext_lookup fun k => ?_
      by_cases hk : k = rec.key
      · rw [hk, Finmap.lookup_erase, Finmap.lookup_erase]
      · rw [Finmap.lookup_erase_ne hk]
    · rfl

theorem mapOf_succ {all : List Record} {m : ℕ} {rec : Record} (h : all[m]? = some rec) :
    mapOf (all.take (m + 1)) = applyRecord (mapOf (all.take m)) rec := by
  rw [mapOf, List.take_add_one, h, List.foldl_append]
  rfl

/-- The offset of the first byte that has not been decoded. -/
def Conn.next (c : Conn) : ℕ :=
  match c.pc with
  | .reading => c.offset
  | .applied frameSize => c.offset + frameSize

/-- How many records have been decoded, when `m` are persisted. -/
def Conn.decoded (c : Conn) (m : ℕ) : ℕ :=
  match c.pc with
  | .reading => m
  | .applied _ => m + 1

/-- A connection in step with the first `m` of the records `all`: it stands at a
boundary, and what the reader holds are the bytes that follow. -/
structure Connected (all : List Record) (l : WAL.Streaming.State) (f : Follower) (m : ℕ)
    (c : Conn) : Prop where
  offset : c.offset = f.readOffset
  decoded : c.decoded m ≤ all.length
  next : c.next = (framing.frames (all.take (c.decoded m))).length
  unread : c.unread <+: framing.frames (all.drop (c.decoded m))
  stream : ∃ t, l.streams[c.stream]? = some t ∧ t.fromOffset ≤ t.frontier ∧
    c.arrived ≤ t.written.length ∧ t.fromOffset + c.arrived = c.next + c.unread.length
  store : c.decoded m = m + 1 → f.store = mapOf (all.take (m + 1))

structure Follows (all : List Record) (l : WAL.Streaming.State) (f : Follower) (m : ℕ) :
    Prop where
  bound : m ≤ all.length
  offset : f.readOffset = (framing.frames (all.take m)).length
  durable : f.readOffset ≤ l.wal.durableOff
  store : f.store = mapOf (all.take m) ∨
    (m + 1 ≤ all.length ∧ f.store = mapOf (all.take (m + 1)))
  conn : ∀ c, f.conn = some c → Connected all l f m c

variable {all : List Record} {l l' : WAL.Streaming.State} {f : Follower} {m : ℕ}

theorem frames_drop (all : List Record) (m : ℕ) :
    (framing.frames all).drop (framing.frames (all.take m)).length =
      framing.frames (all.drop m) := by
  have hsplit : framing.frames all =
      framing.frames (all.take m) ++ framing.frames (all.drop m) := by
    rw [← Framing.frames_append, List.take_append_drop]
  rw [hsplit, List.drop_left]

/-- The leader goes on; the follower is where it was. -/
theorem Follows.leader (h : Follows all l f m) {all' : List Record} (hall : all <+: all')
    (hgrow : WAL.Streaming.Grows l l') : Follows all' l' f m := by
  obtain ⟨more, rfl⟩ := hall
  have hlen : all.length ≤ (all ++ more).length := by
    rw [List.length_append]
    exact Nat.le_add_right _ _
  have htake : ∀ {k}, k ≤ all.length → (all ++ more).take k = all.take k :=
    fun hk => List.take_append_of_le_length hk
  refine ⟨h.bound.trans hlen, ?_, h.durable.trans hgrow.durable, ?_, fun c hc => ?_⟩
  · rw [htake h.bound]
    exact h.offset
  · rcases h.store with hs | ⟨hm, hs⟩
    · exact Or.inl (by rw [htake h.bound, hs])
    · exact Or.inr ⟨hm.trans hlen, by rw [htake hm, hs]⟩
  · obtain ⟨hoff, hdec, hnext, hunread, ⟨t, ht, hstart, harr, hpos⟩, hstore⟩ := h.conn c hc
    obtain ⟨t', ht', hfrom, hfront, hwritten⟩ := hgrow.streams ht
    refine ⟨hoff, hdec.trans hlen, ?_, ?_, ⟨t', ht', ?_, harr.trans hwritten.length_le, ?_⟩,
      fun hone => ?_⟩
    · rw [htake hdec]
      exact hnext
    · rw [List.drop_append_of_le_length hdec, Framing.frames_append]
      exact hunread.trans (List.prefix_append _ _)
    · rw [hfrom, hfront]
      exact hstart
    · rw [hfrom]
      exact hpos
    · rw [htake (hone ▸ hdec)]
      exact hstore hone

theorem Follows.disconnect (h : Follows all l f m) : Follows all l { f with conn := none } m :=
  ⟨h.bound, h.offset, h.durable, h.store, fun _ hc => (by cases hc)⟩

theorem Follows.connect {s s' : State} (h : Follows all s.leader s.follower m)
    (hstep : step s .connect = some s') : Follows all s'.leader s'.follower m := by
  obtain ⟨-, -, hstep⟩ := Option.bind_eq_some_iff.mp hstep
  cases hstep
  refine ⟨h.bound, h.offset, h.durable, h.store, ?_⟩
  rintro c ⟨⟩
  refine ⟨rfl, h.bound, h.offset, List.nil_prefix,
    ⟨_, List.getElem?_concat_length, h.durable, ?_, ?_⟩,
    fun hone => absurd hone (Nat.ne_of_lt (Nat.lt_succ_self m))⟩
  · exact Nat.zero_le _
  · rfl

/-- Bytes arrive: they are the next ones of the log. -/
theorem Follows.arrive (h : Follows all l f m) {rs : List Record} {f' : Follower}
    (hl : WAL.Streaming.Consistent rs l) (hall : all = rs ++ l.records) {n : ℕ}
    (hstep : f.step l.streams (.arrive n) = some f') : Follows all l f' m := by
  obtain ⟨c, hc, hstep⟩ := Option.bind_eq_some_iff.mp hstep
  obtain ⟨t, ht, hstep⟩ := Option.bind_eq_some_iff.mp hstep
  cases hstep
  refine ⟨h.bound, h.offset, h.durable, h.store, ?_⟩
  rintro _ ⟨⟩
  obtain ⟨hoff, hdec, hnext, hunread, ⟨u, hu, hstart, harr, hpos⟩, hstore⟩ := h.conn c hc
  rw [ht] at hu
  cases hu
  obtain ⟨hstarted, -, hcopied, -⟩ := hl.faithful t (List.mem_of_getElem? ht) hstart
  refine ⟨hoff, hdec, hnext, ?_, ⟨t, ht, hstart, ?_, ?_⟩, hstore⟩
  · -- the chunk starts where the reader's bytes end
    have hchunk : (t.written.drop c.arrived).take n <+:
        (framing.frames (all.drop (c.decoded m))).drop c.unread.length := by
      have hrest : (framing.frames (all.drop (c.decoded m))).drop c.unread.length =
          (framing.frames all).drop (t.fromOffset + c.arrived) := by
        rw [← frames_drop, List.drop_drop, ← hnext, hpos]
      rw [hrest, hcopied, List.drop_drop, hall, WAL.Streaming.State.log]
      refine (List.take_prefix _ _).trans ?_
      rw [List.drop_take]
      exact List.take_prefix _ _
    obtain ⟨more, hmore⟩ := hunread
    rw [← hmore, List.drop_left] at hchunk
    show c.unread ++ _ <+: framing.frames (all.drop (c.decoded m))
    rw [← hmore]
    exact (List.prefix_append_right_inj _).mpr hchunk
  · show c.arrived + ((t.written.drop c.arrived).take n).length ≤ _
    rw [List.length_take, List.length_drop]
    omega
  · show t.fromOffset + (c.arrived + _) = c.next + (c.unread ++ _).length
    rw [List.length_append, ← Nat.add_assoc, hpos, Nat.add_assoc]

/-- A record is applied: it is the next one, and applying it twice does no harm. -/
theorem Follows.apply (h : Follows all l f m) {f' : Follower}
    (hfit : ∀ r ∈ all, (encodeBody r).length < 2 ^ 32)
    (hstep : f.step l.streams .apply = some f') : Follows all l f' m := by
  obtain ⟨c, hc, hstep⟩ := Option.bind_eq_some_iff.mp hstep
  obtain ⟨hreading, hstep⟩ := guard_bind_eq_some hstep
  split at hstep
  · rename_i rec frameSize rest hread
    cases hstep
    obtain ⟨hoff, hdec, hnext, hunread, ⟨t, ht, hstart, harr, hpos⟩, -⟩ := h.conn c hc
    have hm : c.decoded m = m := by rw [Conn.decoded, hreading]
    have hoffset : c.next = c.offset := by rw [Conn.next, hreading]
    rw [hm] at hnext hunread
    obtain ⟨us, hus, hsize, hsplit, hrest⟩ := WAL.readRecord_frames
      (fun r hr => hfit r (List.mem_of_mem_drop hr)) hunread hread
    have hlt : m < all.length := by
      have := congrArg List.length hus
      rw [List.length_drop, List.length_cons] at this
      omega
    have hget : all[m]? = some rec := by
      have := congrArg (fun l : List Record => l[0]?) hus
      simpa using this
    have hdrop : all.drop (m + 1) = us := by
      rw [← List.drop_drop, hus]
      rfl
    have hstore : applyRecord f.store rec = mapOf (all.take (m + 1)) := by
      rw [mapOf_succ hget]
      rcases h.store with hs | ⟨-, hs⟩
      · rw [hs]
      · rw [hs, mapOf_succ hget, applyRecord_twice]
    refine ⟨h.bound, h.offset, h.durable, Or.inr ⟨hlt, hstore⟩, ?_⟩
    rintro _ ⟨⟩
    refine ⟨hoff, hlt, ?_, ?_, ⟨t, ht, hstart, harr, ?_⟩, fun _ => hstore⟩
    · show c.offset + frameSize = (framing.frames (all.take (m + 1))).length
      rw [List.take_add_one, hget, Framing.frames_append, List.length_append, ← hnext, hoffset,
        hsize]
      show _ = _ + (encode rec ++ []).length
      rw [List.append_nil]
    · show rest <+: framing.frames (all.drop (m + 1))
      rw [hdrop]
      exact hrest
    · show t.fromOffset + c.arrived = c.offset + frameSize + rest.length
      rw [hpos, hoffset, hsplit, List.length_append, hsize, Nat.add_assoc]
  · cases hstep

/-- The offset behind the applied record is persisted, or the connection ends. -/
theorem Follows.writeOffset (h : Follows all l f m) {rs : List Record} {f' : Follower}
    (hl : WAL.Streaming.Consistent rs l) {ok : Bool}
    (hstep : f.step l.streams (.writeOffset ok) = some f') :
    ∃ m', m ≤ m' ∧ Follows all l f' m' := by
  obtain ⟨c, hc, hstep⟩ := Option.bind_eq_some_iff.mp hstep
  split at hstep
  · rename_i frameSize hpc
    cases ok with
    | false =>
        cases hstep
        exact ⟨m, le_refl _, h.disconnect⟩
    | true =>
        cases hstep
        obtain ⟨hoff, hdec, hnext, hunread, ⟨t, ht, hstart, harr, hpos⟩, hstore⟩ := h.conn c hc
        have hm : c.decoded m = m + 1 := by rw [Conn.decoded, hpc]
        have hoffset : c.next = c.offset + frameSize := by rw [Conn.next, hpc]
        rw [hm] at hdec hnext hunread
        rw [hoffset] at hnext hpos
        obtain ⟨hstarted, hreached, hcopied, -⟩ := hl.faithful t (List.mem_of_getElem? ht) hstart
        have hdurable : c.offset + frameSize ≤ l.wal.durableOff := by
          -- nothing arrives that was not durable
          have hwritten : t.written.length ≤ t.pos - t.fromOffset := by
            rw [hcopied, List.length_drop, List.length_take]
            omega
          omega
        refine ⟨m + 1, Nat.le_succ m, hdec, hnext, hdurable, Or.inl (hstore hm), ?_⟩
        rintro _ ⟨⟩
        exact ⟨rfl, hdec, hnext, hunread, ⟨t, ht, hstart, harr, hpos⟩,
          fun hone => absurd hone (Nat.ne_of_lt (Nat.lt_succ_self _))⟩
  · cases hstep

/-! ## §4  Whole runs -/

/-- The leader's log is in order, all its records fit, and the follower has got to
some record from `m` on. -/
structure InStep (rs : List Record) (m : ℕ) (s : State) : Prop where
  leader : WAL.Streaming.Consistent rs s.leader
  fits : ∀ r ∈ s.records rs, (encodeBody r).length < 2 ^ 32
  follows : ∃ m', m ≤ m' ∧ Follows (s.records rs) s.leader s.follower m'

variable {rs : List Record}

theorem inStep_initial (h : ∀ r ∈ rs, (encodeBody r).length < 2 ^ 32) :
    InStep rs 0 (initial rs) := by
  refine ⟨WAL.Streaming.consistent_initial rs, ?_, 0, le_refl _, Nat.zero_le _, rfl,
    Nat.zero_le _, Or.inl rfl, fun _ hc => (by cases hc)⟩
  intro r hr
  rw [State.records] at hr
  exact h r (by simpa [initial, WAL.Streaming.initial] using hr)

theorem inStep_leader {s : State} (h : InStep rs m s) {a : WAL.Streaming.Action}
    {l' : WAL.Streaming.State} (hC : Fits s (.leader a))
    (hstep : WAL.Streaming.step s.leader a = some l') :
    InStep rs m { s with leader := l' } := by
  have hgrow := WAL.Streaming.step_grows h.leader hstep
  obtain ⟨m', hm, hfollows⟩ := h.follows
  refine ⟨WAL.Streaming.consistent_step h.leader hstep, fun r hr => ?_, m', hm,
    hfollows.leader ?_ hgrow⟩
  · rcases List.mem_append.mp hr with hr | hr
    · exact h.fits r (List.mem_append_left _ hr)
    · rcases WAL.Streaming.mem_records hstep hr with hr | ⟨out, rfl⟩
      · exact h.fits r (List.mem_append_right _ hr)
      · exact hC
  · exact (List.prefix_append_right_inj rs).mpr hgrow.records

theorem inStep_step {s s' : State} {a : Action} (h : InStep rs m s) (hC : Fits s a)
    (hstep : step s a = some s') : InStep rs m s' := by
  obtain ⟨hleader, hfits, m', hm, hfollows⟩ := h
  cases a with
  | leader a =>
      obtain ⟨l', hl', hstep⟩ := Option.bind_eq_some_iff.mp hstep
      cases hstep
      exact inStep_leader ⟨hleader, hfits, m', hm, hfollows⟩ hC hl'
  | connect =>
      obtain ⟨-, hstart⟩ := guard_bind_eq_some hstep
      obtain ⟨l', hl', hs'⟩ := Option.bind_eq_some_iff.mp hstart
      have hfollows' := hfollows.connect hstep
      cases hl'
      cases hs'
      exact ⟨WAL.Streaming.consistent_start hleader rfl, hfits, m', hm, hfollows'⟩
  | arrive n =>
      obtain ⟨f', hf', hstep⟩ := Option.bind_eq_some_iff.mp hstep
      cases hstep
      exact ⟨hleader, hfits, m', hm, hfollows.arrive hleader rfl hf'⟩
  | apply =>
      obtain ⟨f', hf', hstep⟩ := Option.bind_eq_some_iff.mp hstep
      cases hstep
      exact ⟨hleader, hfits, m', hm, hfollows.apply hfits hf'⟩
  | writeOffset ok =>
      obtain ⟨f', hf', hstep⟩ := Option.bind_eq_some_iff.mp hstep
      cases hstep
      obtain ⟨m'', hm', hfollows'⟩ := hfollows.writeOffset hleader hf'
      exact ⟨hleader, hfits, m'', hm.trans hm', hfollows'⟩
  | disconnect =>
      rw [← Option.some.inj hstep]
      exact ⟨hleader, hfits, m', hm, hfollows.disconnect⟩

theorem Follows.appliedTo {s : State} (h : Follows (s.records rs) s.leader s.follower m) :
    AppliedTo rs s m :=
  ⟨h.bound, h.offset, h.store⟩

/-- **Prefix consistency.** With bodies shorter than `2 ^ 32` bytes, at every moment
the persisted offset is that of the first `m` records and the store shows these
or one more, and whatever happens next `m` does not decrease. -/
theorem follower_prefix (hrs : ∀ r ∈ rs, (encodeBody r).length < 2 ^ 32) {as : List Action}
    {s : State} (h : Run step Fits (initial rs) as s) :
    ∃ m, AppliedTo rs s m ∧
      ∀ as' s', Run step Fits s as' s' → ∃ m', m ≤ m' ∧ AppliedTo rs s' m' := by
  have hinv : InStep rs 0 s := h.invariant (inStep_initial hrs) inStep_step
  obtain ⟨m, -, hfollows⟩ := hinv.follows
  refine ⟨m, hfollows.appliedTo, fun as' s' h' => ?_⟩
  have hlater : InStep rs m s' :=
    h'.invariant ⟨hinv.leader, hinv.fits, m, le_refl _, hfollows⟩ inStep_step
  obtain ⟨m', hm, hfollows'⟩ := hlater.follows
  exact ⟨m', hm, hfollows'.appliedTo⟩

/-- A connection that is cut inside the second record, a stop after that record is
applied and before its offset is persisted, and a third connection that applies
it again. -/
theorem follower_prefix_resumed :
    let r : Record := { type := WAL.recordPut, key := [97], value := [1] }
    let u : Record := { type := WAL.recordDelete, key := [97], value := [] }
    let stream (j : ℕ) : List Action :=
      [.connect, .leader (.stream j .look), .leader (.stream j (.copy 100))]
    let as : List Action :=
      [.leader (.append u (.ok 0)), .leader (.sync .ok)] ++
        stream 0 ++ [.arrive 25, .apply, .writeOffset true, .disconnect] ++
        stream 1 ++ [.arrive 100, .apply, .disconnect] ++
        stream 2 ++ [.arrive 100, .apply, .writeOffset true]
    let s := endState step Fits (initial [r]) as
    s.follower.readOffset = 37 ∧ s.follower.store.lookup [97] = none ∧
      ∃ m, AppliedTo [r] s m := by
  intro r u stream as s
  have hrun : Run step Fits (initial [r]) as s := run_endState (by decide +kernel)
  obtain ⟨m, hm, -⟩ := follower_prefix (by decide +kernel) hrun
  exact ⟨by decide +kernel, by decide +kernel, m, hm⟩

end KVEngine.Replication
