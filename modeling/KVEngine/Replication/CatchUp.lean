import KVEngine.Replication.Follower

/-!
# A follower can catch up

Whatever has happened to a follower, connections cut at any byte, stops between a
record and its offset, offsets that could not be written: it can still get to
everything the leader has synced, by its own steps and those of one stream, unless
a synced record has a body beyond 32 MiB. `Append` takes such a record, `ReadRecord`
refuses it, and no follower ever gets past it (`catches_up`).
-/

namespace KVEngine.Replication

open Foundation
open WAL (Record encode encodeBody maxBodySize framing readRecord)
open WAL.Streaming (Stream)
open Store (applyRecord)

/-! ## §1  What has been applied -/

/-- Of the records `all`, `a` have come to the store: those whose offset is
persisted, or one more. All of them were durable and could be read. -/
structure Applied (all : List Record) (l : WAL.Streaming.State) (f : Follower) (m a : ℕ) :
    Prop where
  follows : Follows all l f m
  persisted : m ≤ a
  ahead : a ≤ m + 1
  bound : a ≤ all.length
  store : f.store = mapOf (all.take a)
  durable : (framing.frames (all.take a)).length ≤ l.wal.durableOff
  readable : ∀ r ∈ all.take a, (encodeBody r).length ≤ maxBodySize
  decoded : ∀ c, f.conn = some c → c.decoded m ≤ a

variable {all : List Record} {l l' : WAL.Streaming.State} {f f' : Follower} {m a : ℕ}

theorem length_frames_lt {j k : ℕ} (hjk : j < k) (hk : k ≤ all.length) :
    (framing.frames (all.take j)).length < (framing.frames (all.take k)).length := by
  obtain ⟨r, hr⟩ : ∃ r, all[j]? = some r := ⟨_, List.getElem?_eq_getElem (hjk.trans_le hk)⟩
  have hsucc : (framing.frames (all.take (j + 1))).length =
      (framing.frames (all.take j)).length + (encode r).length := by
    rw [List.take_add_one, hr, Framing.frames_append, List.length_append]
    simp [Framing.frames, framing, WAL.framingWith, encode]
  have hmono : (framing.frames (all.take (j + 1))).length ≤
      (framing.frames (all.take k)).length := by
    obtain ⟨t, ht⟩ := List.take_prefix_take_left (l := all) (Nat.succ_le_of_lt hjk)
    rw [← ht, Framing.frames_append, List.length_append]
    exact Nat.le_add_right _ _
  have hpos : 0 < (encode r).length := by
    rw [WAL.length_encode]
    omega
  omega

/-- An offset is the boundary of one number of records. -/
theorem eq_of_length_frames {j k : ℕ} (hj : j ≤ all.length) (hk : k ≤ all.length)
    (h : (framing.frames (all.take j)).length = (framing.frames (all.take k)).length) : j = k := by
  rcases Nat.lt_trichotomy j k with hlt | heq | hlt
  · exact absurd h (Nat.ne_of_lt (length_frames_lt hlt hk))
  · exact heq
  · exact absurd h (Nat.ne_of_gt (length_frames_lt hlt hj))

theorem applied_initial (all : List Record) (l : WAL.Streaming.State) :
    Applied all l { store := ∅, offsetFile := none, conn := none } 0 0 := by
  refine ⟨⟨Nat.zero_le _, rfl, Nat.zero_le _, Or.inl rfl, fun _ hc => (by cases hc)⟩, le_refl _,
    Nat.zero_le _, Nat.zero_le _, rfl, Nat.zero_le _, ?_, fun _ hc => (by cases hc)⟩
  intro r hr
  cases hr

namespace Applied

theorem leader (h : Applied all l f m a) {all' : List Record} (hall : all <+: all')
    (hgrow : WAL.Streaming.Grows l l') : Applied all' l' f m a := by
  have htake : all'.take a = all.take a := by
    obtain ⟨more, rfl⟩ := hall
    exact List.take_append_of_le_length h.bound
  refine ⟨h.follows.leader hall hgrow, h.persisted, h.ahead, h.bound.trans hall.length_le, ?_, ?_,
    ?_, h.decoded⟩
  · rw [htake]
    exact h.store
  · rw [htake]
    exact h.durable.trans hgrow.durable
  · rw [htake]
    exact h.readable

theorem disconnect (h : Applied all l f m a) : Applied all l { f with conn := none } m a :=
  ⟨h.follows.disconnect, h.persisted, h.ahead, h.bound, h.store, h.durable, h.readable,
    fun _ hc => (by cases hc)⟩

theorem connect {s s' : State} (h : Applied all s.leader s.follower m a)
    (hstep : step s .connect = some s') : Applied all s'.leader s'.follower m a := by
  have hfollows := h.follows.connect hstep
  obtain ⟨-, -, hstep⟩ := Option.bind_eq_some_iff.mp hstep
  cases hstep
  refine ⟨hfollows, h.persisted, h.ahead, h.bound, h.store, h.durable, h.readable, ?_⟩
  rintro c ⟨⟩
  exact h.persisted

theorem arrive (h : Applied all l f m a) {rs : List Record}
    (hl : WAL.Streaming.Consistent rs l) (hall : all = rs ++ l.records) {n : ℕ}
    (hstep : f.step l.streams (.arrive n) = some f') : Applied all l f' m a := by
  have hfollows := h.follows.arrive hl hall hstep
  obtain ⟨c, hc, hstep⟩ := Option.bind_eq_some_iff.mp hstep
  obtain ⟨t, ht, hstep⟩ := Option.bind_eq_some_iff.mp hstep
  cases hstep
  refine ⟨hfollows, h.persisted, h.ahead, h.bound, h.store, h.durable, h.readable, ?_⟩
  rintro _ ⟨⟩
  exact h.decoded c hc

/-- What a connection has decoded was durable. -/
theorem next_le {rs : List Record} (h : Follows all l f m) (hl : WAL.Streaming.Consistent rs l)
    {c : Conn} (hc : f.conn = some c) : c.next ≤ l.wal.durableOff := by
  obtain ⟨-, -, -, -, ⟨t, ht, hstart, harr, hpos⟩, -⟩ := h.conn c hc
  obtain ⟨hstarted, hreached, hcopied, -⟩ := hl.faithful t (List.mem_of_getElem? ht) hstart
  have hwritten : t.written.length ≤ t.pos - t.fromOffset := by
    rw [hcopied, List.length_drop, List.length_take]
    omega
  omega

theorem apply (h : Applied all l f m a) {rs : List Record}
    (hl : WAL.Streaming.Consistent rs l) (hfit : ∀ r ∈ all, (encodeBody r).length < 2 ^ 32)
    (hstep : f.step l.streams .apply = some f') : Applied all l f' m (m + 1) := by
  have hfollows := h.follows.apply hfit hstep
  obtain ⟨c, hc, hstep⟩ := Option.bind_eq_some_iff.mp hstep
  obtain ⟨hreading, hstep⟩ := guard_bind_eq_some hstep
  split at hstep
  · rename_i rec frameSize rest hread
    cases hstep
    obtain ⟨-, hdec, hnext, -, -, hstore⟩ := hfollows.conn _ rfl
    have hdurable := next_le hfollows hl rfl
    rw [hnext] at hdurable
    refine ⟨hfollows, Nat.le_succ m, le_refl _, hdec, hstore rfl, hdurable, ?_, ?_⟩
    · -- the new record is the one that was read
      obtain ⟨-, -, hnext, hunread, -, -⟩ := h.follows.conn c hc
      have hm : c.decoded m = m := by rw [Conn.decoded, hreading]
      rw [hm] at hunread
      obtain ⟨us, hus, -⟩ := WAL.readRecord_frames
        (fun r hr => hfit r (List.mem_of_mem_drop hr)) hunread hread
      have hget : all[m]? = some rec := by
        have := congrArg (fun l : List Record => l[0]?) hus
        simpa using this
      obtain ⟨body, hmax, hdecode, -⟩ := WAL.readRecordWith_eq_ok_iff.mp hread
      obtain ⟨-, -, junk, rfl⟩ := WAL.decodeBody_eq_ok_iff.mp hdecode
      intro r hr
      rw [List.take_add_one, hget, List.mem_append] at hr
      rcases hr with hr | hr
      · have htake : all.take m <+: all.take a := List.take_prefix_take_left h.persisted
        exact h.readable r (htake.subset hr)
      · obtain rfl : r = rec := by simpa using hr
        rw [List.length_append] at hmax
        omega
    · rintro _ ⟨⟩
      exact le_refl _
  · cases hstep

theorem writeOffset (h : Applied all l f m a) {rs : List Record}
    (hl : WAL.Streaming.Consistent rs l) {ok : Bool}
    (hstep : f.step l.streams (.writeOffset ok) = some f') :
    ∃ m' a', Applied all l f' m' a' := by
  obtain ⟨m', -, hfollows⟩ := h.follows.writeOffset hl hstep
  obtain ⟨c, hc, hstep⟩ := Option.bind_eq_some_iff.mp hstep
  split at hstep
  · rename_i frameSize hpc
    cases ok with
    | false =>
        cases hstep
        exact ⟨m, a, h.disconnect⟩
    | true =>
        cases hstep
        obtain ⟨-, hdec, hnext, -⟩ := h.follows.conn c hc
        have hone : c.decoded m = m + 1 := by rw [Conn.decoded, hpc]
        have ha : a = m + 1 := le_antisymm h.ahead (hone ▸ h.decoded c hc)
        rw [hone] at hdec hnext
        -- the offset is that of one record more
        have hm' : m' = m + 1 := by
          refine eq_of_length_frames hfollows.bound hdec ?_
          rw [← hfollows.offset, ← hnext, Conn.next, hpc]
          rfl
        subst hm' ha
        refine ⟨m + 1, m + 1, hfollows, le_refl _, Nat.le_succ _, h.bound, h.store, h.durable,
          h.readable, ?_⟩
        rintro _ ⟨⟩
        exact le_refl _
  · cases hstep

end Applied

/-! ## §2  Whole runs -/

/-- What every step keeps, when the leader's records once began with `known`. -/
structure Reached (rs known : List Record) (s : State) : Prop where
  inStep : InStep rs 0 s
  known : known <+: s.records rs
  applied : ∃ m a, Applied (s.records rs) s.leader s.follower m a

variable {rs known : List Record} {s s' : State}

theorem reached_step {a : Action} (h : Reached rs known s) (hC : Fits s a)
    (hstep : step s a = some s') : Reached rs known s' := by
  have hinStep := inStep_step h.inStep hC hstep
  obtain ⟨⟨hleader, hfits, -⟩, hknown, m, k, happlied⟩ := h
  cases a with
  | leader a =>
      obtain ⟨l', hl', hstep⟩ := Option.bind_eq_some_iff.mp hstep
      cases hstep
      have hgrow := WAL.Streaming.step_grows hleader hl'
      have hrecords : s.records rs <+: rs ++ l'.records :=
        (List.prefix_append_right_inj rs).mpr hgrow.records
      exact ⟨hinStep, hknown.trans hrecords, m, k, happlied.leader hrecords hgrow⟩
  | connect =>
      have happlied' := happlied.connect hstep
      obtain ⟨-, hstart⟩ := guard_bind_eq_some hstep
      obtain ⟨l', hl', hs'⟩ := Option.bind_eq_some_iff.mp hstart
      cases hl'
      cases hs'
      exact ⟨hinStep, hknown, m, k, happlied'⟩
  | arrive n =>
      obtain ⟨f', hf', hstep⟩ := Option.bind_eq_some_iff.mp hstep
      cases hstep
      exact ⟨hinStep, hknown, m, k, happlied.arrive hleader rfl hf'⟩
  | apply =>
      obtain ⟨f', hf', hstep⟩ := Option.bind_eq_some_iff.mp hstep
      cases hstep
      exact ⟨hinStep, hknown, m, m + 1, happlied.apply hleader hfits hf'⟩
  | writeOffset ok =>
      obtain ⟨f', hf', hstep⟩ := Option.bind_eq_some_iff.mp hstep
      cases hstep
      exact ⟨hinStep, hknown, happlied.writeOffset hleader hf'⟩
  | disconnect =>
      rw [← Option.some.inj hstep] at hinStep ⊢
      exact ⟨hinStep, hknown, m, k, happlied.disconnect⟩

theorem reached_run (hrs : ∀ r ∈ rs, (encodeBody r).length < 2 ^ 32) {as : List Action}
    (h : Run step Fits (initial rs) as s) : Reached rs rs s :=
  h.invariant ⟨inStep_initial hrs, List.prefix_append _ _, 0, 0, applied_initial _ _⟩ reached_step

/-- The synced records are the first ones of the log. -/
theorem synced_first (h : WAL.Streaming.Consistent rs s.leader) :
    rs ++ s.leader.synced <+: s.records rs :=
  (List.prefix_append_right_inj rs).mpr h.covered

/-- No follower gets past a record that `ReadRecord` refuses. -/
theorem Reached.stuck {pre : List Record} {r : Record} (h : Reached rs (pre ++ [r]) s)
    (hbig : maxBodySize < (encodeBody r).length) :
    s.follower.readOffset ≤ (framing.frames pre).length ∧
      ∃ k ≤ pre.length, s.follower.store = mapOf (pre.take k) := by
  obtain ⟨-, ⟨post, hpost⟩, m, a, happlied⟩ := h
  have ha : a ≤ pre.length := by
    by_contra hlt
    refine absurd (happlied.readable r ?_) (not_le.mpr hbig)
    rw [← hpost]
    refine (List.take_prefix_take_left (show pre.length + 1 ≤ a by omega)).subset ?_
    rw [List.take_append_of_le_length (by simp), List.take_of_length_le (by simp)]
    exact List.mem_append_right _ (List.mem_singleton_self r)
  have htake : ∀ {k}, k ≤ pre.length → (s.records rs).take k = pre.take k := by
    intro k hk
    rw [← hpost, List.append_assoc, List.take_append_of_le_length hk]
  refine ⟨?_, a, ha, by rw [happlied.store, htake ha]⟩
  rw [happlied.follows.offset, htake (happlied.persisted.trans ha)]
  obtain ⟨rest, hrest⟩ := List.take_prefix m pre
  conv_rhs => rw [← hrest, Framing.frames_append, List.length_append]
  exact Nat.le_add_right _ _

/-! ## §3  Fetching and applying what is synced -/

/-- The follower decodes a record, applies it and persists the offset behind it. -/
theorem record_run {c : Conn} {r : Record} {n : ℕ} {rest : Bytes}
    (hc : s.follower.conn = some c) (hpc : c.pc = .reading)
    (hread : readRecord c.unread = (.ok r, n, rest)) :
    Run step Fits s [.apply, .writeOffset true] { s with
      follower := {
        store := applyRecord s.follower.store r
        offsetFile := some (c.offset + n)
        conn := some { c with unread := rest, offset := c.offset + n, pc := .reading } } } := by
  have happly : Run step Fits s ([] ++ [.apply]) _ :=
    Run.nil.snoc trivial (step_apply hc hpc hread)
  exact happly.snoc (show Fits _ (.writeOffset true) from trivial) rfl

/-- A reader that holds whole records applies them one after the other. -/
theorem drain : ∀ (todo : List Record) {s : State} {c : Conn}, s.follower.conn = some c →
    c.pc = .reading → c.unread = framing.frames todo → c.offset = s.follower.readOffset →
    (∀ r ∈ todo, (encodeBody r).length ≤ maxBodySize) →
    ∃ as s', Run step Fits s as s' ∧ s'.leader = s.leader ∧
      s'.follower.readOffset = s.follower.readOffset + (framing.frames todo).length ∧
      s'.follower.store = todo.foldl applyRecord s.follower.store
  | [], s, _, _, _, _, _, _ => ⟨[], s, Run.nil, rfl, rfl, rfl⟩
  | r :: todo, s, c, hc, hpc, hunread, hoffset, hmax => by
      rw [Framing.frames_cons] at hunread
      have hread : readRecord c.unread = (.ok r, (encode r).length, framing.frames todo) := by
        rw [hunread]
        exact WAL.readRecordWith_encode _ (hmax r List.mem_cons_self)
      have hone := record_run hc hpc hread
      have hrest := drain todo (s := { s with
        follower := {
          store := applyRecord s.follower.store r
          offsetFile := some (c.offset + (encode r).length)
          conn := some { c with
            unread := framing.frames todo, offset := c.offset + (encode r).length
            pc := .reading } } }) rfl rfl rfl rfl
        (fun u hu => hmax u (List.mem_cons_of_mem r hu))
      obtain ⟨as, s', hrun, hleader, hoff, hstore⟩ := hrest
      refine ⟨_, s', hone.trans hrun, hleader, ?_, hstore⟩
      rw [hoff, Framing.frames_cons, List.length_append, ← Nat.add_assoc, ← hoffset]
      rfl

/-- A stream that is started below the durable offset copies all that is durable. -/
theorem copies_durable {log : Bytes} {w : WAL.Writer} (hw : w.Holds log) {o : ℕ}
    (hlt : o < w.durableOff) : ∃ t t' : Stream,
      (Stream.new w o).step w .look = some t ∧
      t.step w (.copy (w.durableOff - o)) = some t' ∧
      t'.written = (log.drop o).take (w.durableOff - o) := by
  obtain ⟨hchunk, hlen⟩ := WAL.Streaming.chunk_eq hw
    (show o + (w.durableOff - o) ≤ w.durableOff by omega)
  refine ⟨{ Stream.new w o with pc := .copying w.durableOff }, _, ?_, rfl, ?_⟩
  · simp [Stream.step, Stream.new, hlt]
  · show [] ++ (w.file.drop o).take (min (w.durableOff - o) (w.durableOff - o)) = _
    rw [List.nil_append, min_self, hchunk]

/-- A connection from the persisted offset, before anything has arrived. -/
def newConn (s : State) : Conn :=
  { stream := s.leader.streams.length, arrived := 0, unread := [],
    offset := s.follower.readOffset, pc := .reading }

theorem connect_run (s : State) : Run step Fits s [.disconnect, .connect]
    { leader := { s.leader with
        streams := s.leader.streams ++ [Stream.new s.leader.wal s.follower.readOffset] }
      follower := { s.follower with conn := some (newConn s) } } := by
  have hcut : Run step Fits s ([] ++ [.disconnect]) _ := Run.nil.snoc trivial rfl
  exact hcut.snoc (show Fits _ .connect from trivial) rfl

/-- The newest stream of the leader moves. -/
theorem newestStream_run {l : WAL.Streaming.State} (f : Follower) (ts : List Stream)
    {t t' : Stream} {a : WAL.Streaming.StreamAction} (h : t.step l.wal a = some t') :
    Run step Fits ⟨{ l with streams := ts ++ [t] }, f⟩ [.leader (.stream ts.length a)]
      ⟨{ l with streams := ts ++ [t'] }, f⟩ := by
  have hstep : step ⟨{ l with streams := ts ++ [t] }, f⟩ (.leader (.stream ts.length a)) =
      some ⟨{ l with streams := ts ++ [t'] }, f⟩ := by
    simp [step, WAL.Streaming.step, h]
  exact Run.nil.snoc trivial hstep

/-- Everything the newest stream has written arrives. -/
theorem arrive_run {l : WAL.Streaming.State} {f : Follower} {ts : List Stream} {t : Stream}
    {c : Conn} (hc : f.conn = some c) (hstream : c.stream = ts.length) (hnone : c.arrived = 0)
    (hempty : c.unread = []) :
    Run step Fits ⟨{ l with streams := ts ++ [t] }, f⟩ [.arrive t.written.length]
      ⟨{ l with streams := ts ++ [t] },
        { f with conn := some { c with arrived := t.written.length, unread := t.written } }⟩ := by
  have hstep : step ⟨{ l with streams := ts ++ [t] }, f⟩ (.arrive t.written.length) = some
      ⟨{ l with streams := ts ++ [t] },
        { f with conn := some { c with arrived := t.written.length, unread := t.written } }⟩ := by
    simp [step, Follower.step, hc, hstream, hnone, hempty]
  exact Run.nil.snoc trivial hstep

/-- One connection brings everything from the persisted offset to the durable one. -/
theorem fetch (hl : WAL.Streaming.Consistent rs s.leader)
    (hlt : s.follower.readOffset < s.leader.wal.durableOff) :
    ∃ as ts c, c.pc = .reading ∧ c.offset = s.follower.readOffset ∧
      c.unread = ((s.leader.log rs).drop c.offset).take (s.leader.wal.durableOff - c.offset) ∧
      Run step Fits s as { leader := { s.leader with streams := ts },
                           follower := { s.follower with conn := some c } } := by
  obtain ⟨t, t', hlook, hcopy, hwritten⟩ := copies_durable hl.holds hlt
  have hlooked := (connect_run s).trans (newestStream_run _ _ hlook)
  have hcopied := hlooked.trans (newestStream_run _ _ hcopy)
  have harrived := hcopied.trans (arrive_run rfl rfl rfl rfl)
  exact ⟨_, _, _, rfl, rfl, hwritten, harrived⟩

/-- Applying the rest of the records to a store that shows the first `m`, or one
more, gives all of them. -/
theorem foldl_rest (all : List Record) {m a : ℕ} (hma : m ≤ a) (ham : a ≤ m + 1)
    (hlen : m < all.length) :
    (all.drop m).foldl applyRecord (mapOf (all.take a)) = mapOf all := by
  have hfrom : (all.drop m).foldl applyRecord (mapOf (all.take m)) = mapOf all := by
    rw [mapOf, ← List.foldl_append, List.take_append_drop]
    rfl
  rcases Nat.eq_or_lt_of_le hma with rfl | hlt
  · exact hfrom
  · -- the first of them is applied twice
    obtain rfl : a = m + 1 := by omega
    have hget : all[m]? = some all[m] := List.getElem?_eq_getElem hlen
    rw [mapOf_succ hget]
    rw [List.drop_eq_getElem_cons hlen, List.foldl_cons] at hfrom ⊢
    rw [applyRecord_twice, hfrom]

/-- The frames of the records from the `m`-th on, cut out of a longer log. -/
theorem frames_between (durable rest : List Record) (m : ℕ) (hm : m ≤ durable.length) :
    ((framing.frames (durable ++ rest)).drop (framing.frames (durable.take m)).length).take
      ((framing.frames durable).length - (framing.frames (durable.take m)).length) =
      framing.frames (durable.drop m) := by
  have htake : (durable ++ rest).take m = durable.take m := List.take_append_of_le_length hm
  have hlen : (framing.frames durable).length - (framing.frames (durable.take m)).length =
      (framing.frames (durable.drop m)).length := by
    rw [← frames_drop durable m, List.length_drop]
  rw [hlen, ← htake, frames_drop, List.drop_append_of_le_length hm, Framing.frames_append,
    List.take_left]

/-- Nothing beyond the synced records has been applied. -/
theorem Applied.le_synced (h : Applied (s.records rs) s.leader s.follower m a)
    (hl : WAL.Streaming.Consistent rs s.leader) : a ≤ (rs ++ s.leader.synced).length := by
  by_contra hlt
  have hbeyond := length_frames_lt (not_le.mp hlt) h.bound
  rw [← (List.prefix_iff_eq_take.mp (synced_first hl)), ← hl.durable] at hbeyond
  exact absurd h.durable (not_le.mpr hbeyond)

/-- From wherever it is, the follower gets to the end of the synced records, if all
of them can be read. -/
theorem Reached.advance (h : Reached rs known s)
    (hmax : ∀ r ∈ rs ++ s.leader.synced, (encodeBody r).length ≤ maxBodySize) :
    ∃ as s', Run step Fits s as s' ∧ s'.records rs = s.records rs ∧
      s'.follower.readOffset = s.leader.wal.durableOff ∧
      s'.follower.store = mapOf (rs ++ s.leader.synced) := by
  obtain ⟨⟨hl, -, -⟩, -, m, a, happlied⟩ := h
  have ha := happlied.le_synced hl
  obtain ⟨rest, hrest⟩ := synced_first hl
  have hm := happlied.persisted.trans ha
  have htake : ∀ {k}, k ≤ (rs ++ s.leader.synced).length →
      (s.records rs).take k = (rs ++ s.leader.synced).take k := by
    intro k hk
    rw [← hrest, List.take_append_of_le_length hk]
  have hoffset := happlied.follows.offset
  have hstore := happlied.store
  rw [htake hm] at hoffset
  rw [htake ha] at hstore
  rcases Nat.eq_or_lt_of_le hm with hend | hlt
  · -- the follower is there
    obtain rfl : m = a := le_antisymm happlied.persisted (hend ▸ ha)
    rw [hend, List.take_length] at hoffset hstore
    exact ⟨[], s, Run.nil, rfl, hoffset.trans hl.durable.symm, hstore⟩
  · have hbehind : s.follower.readOffset < s.leader.wal.durableOff := by
      have := length_frames_lt hlt (le_refl _)
      rwa [List.take_length, ← hl.durable, ← hoffset] at this
    obtain ⟨as, ts, c, hpc, hoff, hunread, hfetch⟩ := fetch hl hbehind
    have hlog : s.leader.log rs = framing.frames (rs ++ s.leader.synced ++ rest) :=
      congrArg framing.frames hrest.symm
    rw [hoff, hl.durable, hoffset, hlog, frames_between _ _ _ hm] at hunread
    obtain ⟨bs, s', hdrain, hleader, hread, happly⟩ := drain _
      (s := ⟨{ s.leader with streams := ts }, { s.follower with conn := some c }⟩) rfl hpc hunread
      hoff (fun r hr => hmax r (List.mem_of_mem_drop hr))
    refine ⟨as ++ bs, s', hfetch.trans hdrain, ?_, ?_, ?_⟩
    · rw [State.records, hleader]
      rfl
    · rw [hread, hl.durable, ← frames_drop, List.length_drop, ← hoffset]
      show s.follower.readOffset + _ = _
      have := hl.durable
      omega
    · rw [happly]
      show List.foldl applyRecord s.follower.store _ = _
      rw [hstore]
      exact foldl_rest _ happlied.persisted happlied.ahead hlt

/-- **Catching up.** From every state that can be reached, with bodies shorter than
`2 ^ 32` bytes, the follower can get to all that is synced, provided every synced
record has a body of at most 32 MiB; the log need not move for it. At a synced
record with a longer body every follower stops for good: its persisted offset
never passes the beginning of that record, and its store never shows it. -/
theorem catches_up (hrs : ∀ r ∈ rs, (encodeBody r).length < 2 ^ 32) {as : List Action}
    (h : Run step Fits (initial rs) as s) :
    ((∀ r ∈ rs ++ s.leader.synced, (encodeBody r).length ≤ maxBodySize) →
      ∃ as' s', Run step Fits s as' s' ∧ s'.records rs = s.records rs ∧
        s'.follower.readOffset = s.leader.wal.durableOff ∧
        s'.follower.store = mapOf (rs ++ s.leader.synced)) ∧
    ∀ pre r post, rs ++ s.leader.synced = pre ++ r :: post →
      maxBodySize < (encodeBody r).length → ∀ as' s', Run step Fits s as' s' →
        s'.follower.readOffset ≤ (framing.frames pre).length ∧
        ∃ k ≤ pre.length, s'.follower.store = mapOf (pre.take k) := by
  have hreached := reached_run hrs h
  refine ⟨hreached.advance, ?_⟩
  intro pre r post hsplit hbig as' s' h'
  have hknown : pre ++ [r] <+: s.records rs := by
    refine List.IsPrefix.trans ⟨post, ?_⟩ (synced_first hreached.inStep.leader)
    rw [hsplit, List.append_assoc, List.singleton_append]
  have hstart : Reached rs (pre ++ [r]) s := ⟨hreached.inStep, hknown, hreached.applied⟩
  exact (h'.invariant hstart reached_step).stuck hbig

/-- A follower that was stopped between the first record and its offset, with two
more records synced, one of them a deletion, and the stream gone. -/
theorem catches_up_stopped :
    let r : Record := { type := WAL.recordPut, key := [97], value := [1] }
    let u : Record := { type := WAL.recordPut, key := [98], value := [2] }
    let d : Record := { type := WAL.recordDelete, key := [97], value := [] }
    let as : List Action :=
      [.connect, .leader (.stream 0 .look), .leader (.stream 0 (.copy 100)), .arrive 100, .apply,
        .disconnect, .leader (.append u (.ok 0)), .leader (.append d (.ok 0)), .leader (.sync .ok),
        .leader (.stream 0 .fail)]
    let s := endState step Fits (initial [r]) as
    s.follower.readOffset = 0 ∧ s.follower.store.lookup [97] = some [1] ∧
      ∃ as' s', Run step Fits s as' s' ∧ s'.records [r] = [r, u, d] ∧
        s'.follower.store = mapOf [r, u, d] := by
  intro r u d as s
  have hrun : Run step Fits (initial [r]) as s := run_endState (by decide +kernel)
  have hrecords : s.records [r] = [r, u, d] := by decide +kernel
  have hsynced : [r] ++ s.leader.synced = [r, u, d] := by decide +kernel
  obtain ⟨as', s', hrun', hsame, -, hstore⟩ :=
    (catches_up (by decide +kernel) hrun).1 (by decide +kernel)
  exact ⟨by decide +kernel, by decide +kernel, as', s', hrun', hsame.trans hrecords,
    hstore.trans (congrArg mapOf hsynced)⟩

end KVEngine.Replication
