import KVEngine.Foundation.Simulation
import KVEngine.Server.Handler
import KVEngine.Store.Clients

/-!
# The server and its store

`Serve` runs one goroutine for each connection, and all of them call one store.
Bytes arrive in pieces, a request may wait in the middle of its line or of its
value, calls to the store overlap step by step, the log may fail, a long response
goes out in pieces, and a connection may end anywhere.

What the clients see is what they would see of a server that carries out each
request at one moment, on a plain map, between the arrival of its last byte and
its response (`serves_atomically`). `Atomic` is that server: it has no log, no
buffers and no calls in progress, and its requests are the passes of
`handleConn`.
-/

namespace KVEngine.Server

open Foundation
open Foundation.Text (Tables text)
open KVStore (Op)
open Store (Call)
open Store.Clients (System Pc Effect Does step_does)
open WAL (AppendOutcome SyncOutcome)

/-! ## §1  Connections -/

/-- What has arrived at the socket, the unread bytes of the `bufio.Reader`, and the
goroutine. -/
structure Link where
  rx : Bytes
  buf : Bytes
  phase : Phase
deriving DecidableEq

/-- `arm` is `SetReadDeadline` at the top of the loop, `fill` a `Read` of the socket
that returns `k` bytes, `take` a read from the buffer, and `fail` a `Read` of the
socket that returns an error. -/
inductive Move : Type where
  | arm (ok : Bool)
  | fill (k : ℕ)
  | take
  | fail
deriving DecidableEq

variable (tables : Tables)

/-- A read that asks for as much as the buffer holds goes past it. -/
def Link.move (l : Link) : Move → Option Link
  | .arm ok => do
      guard (l.phase = .loop)
      some { l with phase := if ok then .line [] else .closed }
  | .fill k => do
      guard (l.buf = [] ∧ 0 < l.phase.want ∧ 0 < k ∧ k ≤ l.rx.length)
      if bufferSize ≤ l.phase.want then do
        guard (k ≤ l.phase.want)
        some { l with rx := l.rx.drop k, phase := feed tables l.phase (l.rx.take k) }
      else do
        guard (k ≤ bufferSize)
        some { l with rx := l.rx.drop k, buf := l.rx.take k }
  | .take => do
      guard (l.buf ≠ [] ∧ 0 < l.phase.want)
      some
        { l with
          buf := l.buf.drop l.phase.want
          phase := feed tables l.phase (l.buf.take l.phase.want) }
  | .fail => do
      guard (l.buf = [] ∧ 0 < l.phase.want)
      some { l with phase := readFailed l.phase }

/-! ## §2  Connections that share a store -/

/-- What can be seen from outside. -/
inductive Event (I : Type) : Type where
  | received (i : I) (bs : Bytes)
  | answered (i : I) (bs : Bytes)
deriving DecidableEq

/-- The store reads no clock. -/
structure Serving (I : Type) where
  store : System I Unit
  links : I → Link
  events : List (Event I)

/-- `err` is the text of the error if the log fails. `spill` is a `Write` of the socket
ahead of the `Flush`, of `k` bytes; `cut` tells how many bytes went out before a `Flush`
or such a `Write` that failed. -/
inductive Action (I : Type) : Type where
  | arrive (i : I) (bs : Bytes)
  | io (i : I) (m : Move)
  | invoke (i : I)
  | append (i : I) (out : AppendOutcome) (err : Bytes)
  | sync (i : I) (out : SyncOutcome) (err : Bytes)
  | update (i : I)
  | read (i : I)
  | ret (i : I)
  | spill (i : I) (k : ℕ)
  | flush (i : I) (cut : Option ℕ)
deriving DecidableEq

/-- The call to the store. -/
def invocation {I : Type} (i : I) : Op → Store.Clients.Action I Unit
  | .put key value => .write i (.put key value)
  | .delete key => .write i (.delete key)
  | .get key => .get i key

/-- What a call returns that returns no error. -/
def result : Effect → Option Bytes
  | .wrote _ _ => none
  | .got _ result _ => result

/-- A response goes out in pieces as long as the `bufio.Writer` cannot hold the rest. -/
def Spills (resp : Bytes) (k : ℕ) : Prop := bufferSize < resp.length ∧ 0 < k ∧ k ≤ resp.length

instance (resp : Bytes) (k : ℕ) : Decidable (Spills resp k) := inferInstanceAs (Decidable (_ ∧ _))

/-- What goes out of a response with the last piece. -/
def sent (resp : Bytes) : Option ℕ → Bytes
  | none => resp
  | some k => resp.take k

namespace Serving

variable {I : Type} [DecidableEq I]

/-- `Open` on an empty file, and no connection has sent anything. -/
def initial : Serving I :=
  { store := Store.Clients.initial (), links := fun _ => ⟨[], [], .loop⟩, events := [] }

def setPhase (s : Serving I) (i : I) (p : Phase) : I → Link :=
  Function.update s.links i { s.links i with phase := p }

/-- The store after a step of the call `op` of connection `i`. A call that is over
then has failed: its result has not been returned. -/
def proceed (s : Serving I) (i : I) (op : Op) (err : Bytes) (store : System I Unit) : Serving I :=
  { s with
    store
    links := if store.pc i = .idle then s.setPhase i (.flush (op.answer (some err)) false)
      else s.links }

def work (s : Serving I) (i : I) (a : Store.Clients.Action I Unit) (err : Bytes) :
    Option (Serving I) :=
  match (s.links i).phase with
  | .call op => (Store.Clients.step s.store a).map (s.proceed i op err)
  | _ => none

def step (s : Serving I) : Action I → Option (Serving I)
  | .arrive i bs => some
      { s with
        links := Function.update s.links i { s.links i with rx := (s.links i).rx ++ bs }
        events := s.events ++ [.received i bs] }
  | .io i m => do
      let l ← (s.links i).move tables m
      some { s with links := Function.update s.links i l }
  | .invoke i =>
      match (s.links i).phase with
      | .call op => s.work i (invocation i op) []
      | _ => none
  | .append i out err => s.work i (.append i out) err
  | .sync i out err => s.work i (.sync i out) err
  | .update i => s.work i (.update i) []
  | .read i => s.work i (.read i) []
  | .ret i =>
      match (s.links i).phase, s.store.pc i with
      | .call op, .done _ e => do
          let store ← Store.Clients.step s.store (.ret i)
          some { s with store, links := s.setPhase i (.flush (op.answer (result e)) false) }
      | _, _ => none
  | .spill i k =>
      match (s.links i).phase with
      | .flush resp fatal => do
          guard (Spills resp k)
          some
            { s with
              links := s.setPhase i (.flush (resp.drop k) fatal)
              events := s.events ++ [.answered i (resp.take k)] }
      | _ => none
  | .flush i cut =>
      match (s.links i).phase with
      | .flush resp fatal => some
          { s with
            links := s.setPhase i (if fatal || cut.isSome then .closed else .loop)
            events := s.events ++ [.answered i (sent resp cut)] }
      | _ => none

end Serving

/-! ## §3  A server that takes one moment for a request -/

/-- A plain map; `err` is the error that a write returns, if it does. -/
def plainMap (err : Option Bytes) : KVStore (Dict Bytes Bytes) where
  put key value m := match err with
    | none => (none, m.insert key value)
    | some text => (some text, m)
  delete key m := match err with
    | none => (none, m.erase key)
    | some text => (some text, m)
  get key m := (m.lookup key, m)

def overMap (err : Option Bytes) : Server (Dict Bytes Bytes) where
  store := plainMap err
  tables := tables
  flush := fun _ => true

/-- A connection: bytes to read, and a response that has not been sent, with whether
it is the last. -/
structure Session where
  rx : Bytes
  owed : Option (Bytes × Bool)
  closed : Bool
deriving DecidableEq

structure Atomic (I : Type) where
  data : Dict Bytes Bytes
  sessions : I → Session
  events : List (Event I)

/-- `pass` looks at the first `n` bytes that have arrived. If its request is not
complete there, the stream ends there. A long response goes out in pieces, here too. -/
inductive AtomicAction (I : Type) : Type where
  | receive (i : I) (bs : Bytes)
  | pass (i : I) (n : ℕ) (err : Option Bytes)
  | spill (i : I) (k : ℕ)
  | answer (i : I) (cut : Option ℕ)

namespace Atomic

variable {I : Type} [DecidableEq I]

def initial : Atomic I := { data := ∅, sessions := fun _ => ⟨[], none, false⟩, events := [] }

def step (a : Atomic I) : AtomicAction I → Option (Atomic I)
  | .receive i bs => some
      { a with
        sessions := Function.update a.sessions i { a.sessions i with rx := (a.sessions i).rx ++ bs }
        events := a.events ++ [.received i bs] }
  | .pass i n err =>
      match a.sessions i with
      | ⟨rx, none, false⟩ =>
          let (stop, rest, c) := (overMap tables err).turn (rx.take n) (accept a.data)
          some
            { a with
              data := c.store
              sessions := Function.update a.sessions i
                (if c.out = [] then ⟨rest ++ rx.drop n, none, stop⟩
                else ⟨rest ++ rx.drop n, some (c.out, stop), false⟩) }
      | _ => none
  | .spill i k =>
      match a.sessions i with
      | ⟨rx, some (resp, stop), false⟩ => do
          guard (Spills resp k)
          some
            { a with
              sessions := Function.update a.sessions i ⟨rx, some (resp.drop k, stop), false⟩
              events := a.events ++ [.answered i (resp.take k)] }
      | _ => none
  | .answer i cut =>
      match a.sessions i with
      | ⟨rx, some (resp, stop), false⟩ => some
          { a with
            sessions := Function.update a.sessions i ⟨rx, none, stop || cut.isSome⟩
            events := a.events ++ [.answered i (sent resp cut)] }
      | _ => none

end Atomic

/-! ## §4  The passes of the plain server -/

theorem eq_of_outcome_some {σ : Type} {t : Bool × Bytes × Conn σ} {r : Bytes} {c : Conn σ}
    (h : outcome t = (some r, c)) : t = (false, r, c) := by
  obtain ⟨stop, rest, c'⟩ := t
  cases stop with
  | false =>
      cases h
      rfl
  | true => cases h

theorem eq_of_outcome_none {σ : Type} {t : Bool × Bytes × Conn σ} {c : Conn σ}
    (h : outcome t = (none, c)) : ∃ rest, t = (true, rest, c) := by
  obtain ⟨stop, rest, c'⟩ := t
  cases stop with
  | false => cases h
  | true =>
      cases h
      exact ⟨rest, rfl⟩

theorem answer_ne_nil (op : Op) (res : Option Bytes) : op.answer res ≠ [] := by
  have hok : text "+OK\r\n" ≠ [] := by decide
  cases op with
  | put key value =>
      cases res with
      | none => exact hok
      | some err => exact errLine_ne_nil _
  | delete key =>
      cases res with
      | none => exact hok
      | some err => exact errLine_ne_nil _
  | get key =>
      cases res with
      | none => exact (by decide : text "$-1\r\n" ≠ [])
      | some v => exact List.append_ne_nil_of_right_ne_nil _ (by decide)

variable {tables} {I : Type} [DecidableEq I] {a : Atomic I} {i : I}

namespace Atomic

variable {got r : Bytes}

theorem step_pass {err : Option Bytes} {stop : Bool} {rest : Bytes}
    {c : Conn (Dict Bytes Bytes)} (hs : a.sessions i = ⟨got ++ r, none, false⟩)
    (ht : (overMap tables err).turn got (accept a.data) = (stop, rest, c)) :
    a.step tables (.pass i got.length err) = some
      { a with
        data := c.store
        sessions := Function.update a.sessions i
          (if c.out = [] then ⟨rest ++ r, none, stop⟩
          else ⟨rest ++ r, some (c.out, stop), false⟩) } := by
  rw [step, hs]
  dsimp only
  rw [List.take_left, List.drop_left, ht]

theorem step_spill {resp : Bytes} {stop : Bool} {k : ℕ}
    (hs : a.sessions i = ⟨r, some (resp, stop), false⟩) (hk : Spills resp k) :
    a.step tables (.spill i k) = some
      { a with
        sessions := Function.update a.sessions i ⟨r, some (resp.drop k, stop), false⟩
        events := a.events ++ [.answered i (resp.take k)] } := by
  rw [step, hs]
  simp [hk, guard]

/-- The pass of a request that reaches the store. -/
theorem pass_call {err : Option Bytes} {op : Op} (hs : a.sessions i = ⟨got ++ r, none, false⟩)
    (hreads : (overMap tables err).Reads (.call op) got) :
    a.step tables (.pass i got.length err) = some
      { a with
        data := ((plainMap err).perform op a.data).2
        sessions := Function.update a.sessions i
          ⟨r, some (op.answer ((plainMap err).perform op a.data).1, false), false⟩ } := by
  have hturn := eq_of_outcome_some (hreads [] (accept a.data))
  rw [List.append_nil] at hturn
  rw [step_pass hs hturn]
  have hout : ((overMap tables err).serve (accept a.data) op).out =
      op.answer ((plainMap err).perform op a.data).1 := rfl
  rw [hout, if_neg (answer_ne_nil _ _)]
  rfl

end Atomic

/-! ## §5  The two servers -/

def callOp : Call → Op
  | .put key value => .put key value
  | .delete key => .delete key

/-- The call a client of the store is in and that has not taken effect. -/
def opOf : Pc Unit → Option Op
  | .called _ c => some (callOp c)
  | .appended _ c _ => some (callOp c)
  | .synced _ c _ => some (callOp c)
  | .asked _ key => some (.get key)
  | _ => none

variable (tables)

/-- One connection of the two servers. The plain one keeps the bytes of a request
until the request takes effect. -/
inductive Mirror : Pc Unit → Link → Session → Prop where
  | loop {rx buf : Bytes} : Mirror .idle ⟨rx, buf, .loop⟩ ⟨buf ++ rx, none, false⟩
  | reading {rx buf got : Bytes} {p : Phase} (hwant : 0 < p.want)
      (hreads : ∀ err, (overMap tables err).Reads p got) :
      Mirror .idle ⟨rx, buf, p⟩ ⟨got ++ (buf ++ rx), none, false⟩
  | calling {rx buf got : Bytes} {op : Op} {pc : Pc Unit} (hpc : pc = .idle ∨ opOf pc = some op)
      (hreads : ∀ err, (overMap tables err).Reads (.call op) got) :
      Mirror pc ⟨rx, buf, .call op⟩ ⟨got ++ (buf ++ rx), none, false⟩
  | called {rx buf : Bytes} {op : Op} {start : Unit} {e : Effect} :
      Mirror (.done start e) ⟨rx, buf, .call op⟩
        ⟨buf ++ rx, some (op.answer (result e), false), false⟩
  | flush {rx buf r resp : Bytes} {fatal : Bool} (hr : fatal = false → r = buf ++ rx) :
      Mirror .idle ⟨rx, buf, .flush resp fatal⟩ ⟨r, some (resp, fatal), false⟩
  | closed {rx buf r : Bytes} {owed : Option (Bytes × Bool)} :
      Mirror .idle ⟨rx, buf, .closed⟩ ⟨r, owed, true⟩

structure Mirrors (s : Serving I) (a : Atomic I) : Prop where
  data : a.data = s.store.data
  events : a.events = s.events
  conn : ∀ i, Mirror tables (s.store.pc i) (s.links i) (a.sessions i)

variable {tables} {s s' : Serving I}

theorem mirror_update {pc : I → Pc Unit} {links : I → Link} {sessions : I → Session}
    (h : ∀ j, Mirror tables (pc j) (links j) (sessions j)) {p : Pc Unit} {l : Link} {ss : Session}
    (hi : Mirror tables p l ss) (j : I) :
    Mirror tables (Function.update pc i p j) (Function.update links i l j)
      (Function.update sessions i ss j) := by
  by_cases hj : j = i
  · subst hj
    simpa only [Function.update_self] using hi
  · simpa only [Function.update_of_ne hj] using h j

section Link

variable {pc : Pc Unit} {l l' : Link} {ss : Session}

theorem Mirror.at_loop (h : Mirror tables pc l ss) (hphase : l.phase = .loop) :
    pc = .idle ∧ ss = ⟨l.buf ++ l.rx, none, false⟩ := by
  cases h with
  | loop => exact ⟨rfl, rfl⟩
  | reading hwant _ =>
      cases hphase
      exact absurd hwant (lt_irrefl 0)
  | calling _ _ => cases hphase
  | called => cases hphase
  | flush _ => cases hphase
  | closed => cases hphase

theorem Mirror.at_read (h : Mirror tables pc l ss) (hwant : 0 < l.phase.want) :
    pc = .idle ∧ ∃ got, ss = ⟨got ++ (l.buf ++ l.rx), none, false⟩ ∧
      ∀ err, (overMap tables err).Reads l.phase got := by
  cases h with
  | reading _ hreads => exact ⟨rfl, _, rfl, hreads⟩
  | loop => exact absurd hwant (lt_irrefl 0)
  | calling _ _ => exact absurd hwant (lt_irrefl 0)
  | called => exact absurd hwant (lt_irrefl 0)
  | flush _ => exact absurd hwant (lt_irrefl 0)
  | closed => exact absurd hwant (lt_irrefl 0)

variable {got rx buf : Bytes} {p : Phase}

variable (tables) in
/-- The connection follows without a step, or with one pass that leaves the map as
it is. -/
def Follows (a : Atomic I) (i : I) (l : Link) : Prop :=
  Mirror tables .idle l (a.sessions i) ∨
    ∃ n ss, a.step tables (.pass i n none) =
      some { a with sessions := Function.update a.sessions i ss } ∧ Mirror tables .idle l ss

/-- A pass that is over without a call. -/
theorem follows_over (hs : a.sessions i = ⟨got ++ (buf ++ rx), none, false⟩) (hp : p.Proper)
    (hover : p = .loop ∨ (∃ resp fatal, p = .flush resp fatal) ∨ p = .closed)
    (hturn : outcome ((overMap tables none).turn got (accept a.data)) =
      (overMap tables none).resume p [] (accept a.data)) :
    Follows tables a i ⟨rx, buf, p⟩ := by
  refine Or.inr ⟨got.length, ?_⟩
  rcases hover with rfl | ⟨resp, fatal, rfl⟩ | rfl
  · rw [Atomic.step_pass hs (eq_of_outcome_some hturn)]
    exact ⟨_, rfl, .loop⟩
  · cases fatal with
    | false =>
        rw [Atomic.step_pass hs (eq_of_outcome_some hturn)]
        refine ⟨⟨buf ++ rx, some (resp, false), false⟩, ?_, .flush fun _ => rfl⟩
        rw [if_neg (show ((accept a.data).write resp).out ≠ [] from hp)]
        rfl
    | true =>
        obtain ⟨rest, hrest⟩ := eq_of_outcome_none hturn
        rw [Atomic.step_pass hs hrest]
        refine ⟨⟨rest ++ (buf ++ rx), some (resp, true), false⟩, ?_, .flush (by simp)⟩
        rw [if_neg (show ((accept a.data).write resp).out ≠ [] from hp)]
        rfl
  · obtain ⟨rest, hrest⟩ := eq_of_outcome_none hturn
    rw [Atomic.step_pass hs hrest]
    exact ⟨_, rfl, .closed⟩

/-- The goroutine has read on. -/
theorem follows_reads (hs : a.sessions i = ⟨got ++ (buf ++ rx), none, false⟩) (hp : p.Proper)
    (hreads : ∀ err, (overMap tables err).Reads p got) :
    Follows tables a i ⟨rx, buf, p⟩ := by
  have hturn : outcome ((overMap tables none).turn got (accept a.data)) =
      (overMap tables none).resume p [] (accept a.data) := by
    simpa using hreads none [] (accept a.data)
  cases p with
  | loop => exact follows_over hs hp (Or.inl rfl) hturn
  | flush resp fatal => exact follows_over hs hp (Or.inr (Or.inl ⟨resp, fatal, rfl⟩)) hturn
  | closed => exact follows_over hs hp (Or.inr (Or.inr rfl)) hturn
  | line line =>
      rw [Follows, hs]
      exact Or.inl (.reading Nat.one_pos hreads)
  | value key n value =>
      rw [Follows, hs]
      exact Or.inl (.reading (Nat.sub_pos_of_lt hp) hreads)
  | term key value term =>
      rw [Follows, hs]
      exact Or.inl (.reading (Nat.sub_pos_of_lt hp) hreads)
  | call op =>
      rw [Follows, hs]
      exact Or.inl (.calling (Or.inl rfl) hreads)

/-- **The reads of a connection.** -/
theorem follows_move {m : Move} (h : Mirror tables pc l (a.sessions i))
    (hmove : l.move tables m = some l') : pc = .idle ∧ Follows tables a i l' := by
  have hfeed : ∀ {bs buf rx}, 0 < l.phase.want → bs ≠ [] → bs.length ≤ l.phase.want →
      l.buf ++ l.rx = bs ++ (buf ++ rx) →
      pc = .idle ∧ Follows tables a i ⟨rx, buf, feed tables l.phase bs⟩ := by
    intro bs buf rx hwant hne hle hbytes
    obtain ⟨hidle, got, hs, hreads⟩ := h.at_read hwant
    have hs' : a.sessions i = ⟨got ++ bs ++ (buf ++ rx), none, false⟩ := by
      rw [hs, hbytes, List.append_assoc]
    exact ⟨hidle, follows_reads hs' (proper_feed tables hwant bs) fun err =>
      (hreads err).feed _ (fun _ => rfl) hne hle⟩
  cases m with
  | arm ok =>
      obtain ⟨hloop, hnext⟩ := guard_bind_eq_some hmove
      cases hnext
      obtain ⟨hidle, hs⟩ := h.at_loop hloop
      refine ⟨hidle, ?_⟩
      have hs' : a.sessions i = ⟨[] ++ (l.buf ++ l.rx), none, false⟩ := hs
      cases ok with
      | true => exact follows_reads hs' trivial fun err => (overMap tables err).reads_start
      | false => exact follows_over hs' trivial (Or.inr (Or.inr rfl)) rfl
  | fill k =>
      obtain ⟨⟨hbuf, hwant, hk, hle⟩, hnext⟩ := guard_bind_eq_some hmove
      have hne : l.rx.take k ≠ [] := by
        rw [← List.length_pos_iff, List.length_take]
        omega
      split at hnext
      · -- past the buffer
        obtain ⟨hmost, hnext⟩ := guard_bind_eq_some hnext
        cases hnext
        refine hfeed hwant hne ?_ ?_
        · rw [List.length_take]
          omega
        · rw [hbuf, List.nil_append, List.nil_append, List.take_append_drop]
      · obtain ⟨-, hnext⟩ := guard_bind_eq_some hnext
        cases hnext
        obtain ⟨hidle, got, hs, hreads⟩ := h.at_read hwant
        refine ⟨hidle, Or.inl ?_⟩
        rw [hbuf, List.nil_append] at hs
        rw [hs]
        nth_rewrite 3 [← List.take_append_drop k l.rx]
        exact .reading hwant hreads
  | take =>
      obtain ⟨⟨hbuf, hwant⟩, hnext⟩ := guard_bind_eq_some hmove
      cases hnext
      refine hfeed hwant ?_ ?_ ?_
      · rw [← List.length_pos_iff, List.length_take]
        have := List.length_pos_of_ne_nil hbuf
        omega
      · rw [List.length_take]
        omega
      · rw [← List.append_assoc, List.take_append_drop]
  | fail =>
      obtain ⟨⟨hbuf, hwant⟩, hnext⟩ := guard_bind_eq_some hmove
      cases hnext
      obtain ⟨hidle, got, hs, hreads⟩ := h.at_read hwant
      refine ⟨hidle, follows_over hs (proper_readFailed _) ?_ ?_⟩
      · unfold readFailed malformed refuse
        split
        · exact Or.inr (Or.inl ⟨_, _, rfl⟩)
        · exact Or.inr (Or.inr rfl)
      · rw [(overMap tables none).resume_readFailed hwant]
        simpa using hreads none [] (accept a.data)

end Link

section Calls

variable {op : Op} {store : System I Unit} {next : Pc Unit}

theorem Mirror.at_call {pc : Pc Unit} {l : Link} {ss : Session} (h : Mirror tables pc l ss)
    (hphase : l.phase = .call op) (hold : ∀ start e, pc ≠ .done start e) :
    (pc = .idle ∨ opOf pc = some op) ∧ ∃ got, ss = ⟨got ++ (l.buf ++ l.rx), none, false⟩ ∧
      ∀ err, (overMap tables err).Reads (.call op) got := by
  cases h with
  | calling hpc hreads =>
      cases hphase
      exact ⟨hpc, _, rfl, hreads⟩
  | called => exact absurd rfl (hold _ _)
  | reading hwant _ =>
      cases hphase
      exact absurd hwant (lt_irrefl 0)
  | loop => cases hphase
  | flush _ => cases hphase
  | closed => cases hphase

theorem proceed_of_ne {err : Bytes} (h : store.pc i ≠ .idle) :
    s.proceed i op err store = { s with store } := by
  rw [Serving.proceed, if_neg h]

theorem proceed_of_idle {err : Bytes} (h : store.pc i = .idle) :
    s.proceed i op err store =
      { s with store, links := s.setPhase i (.flush (op.answer (some err)) false) } := by
  rw [Serving.proceed, if_pos h]

/-- A step inside a call that has not taken effect. -/
theorem Mirrors.waits (h : Mirrors tables s a) (hphase : (s.links i).phase = .call op)
    (hold : ∀ start e, s.store.pc i ≠ .done start e) (hdata : store.data = s.store.data)
    (hpc : store.pc = Function.update s.store.pc i next) (hnext : opOf next = some op)
    (err : Bytes) : Mirrors tables (s.proceed i op err store) a := by
  have hne : store.pc i ≠ .idle := by
    rw [hpc, Function.update_self]
    rintro rfl
    cases hnext
  obtain ⟨-, got, hs, hreads⟩ := (h.conn i).at_call hphase hold
  rw [proceed_of_ne hne]
  refine ⟨h.data.trans hdata.symm, h.events, ?_⟩
  have hi : Mirror tables next (s.links i) (a.sessions i) := by
    rw [hs, show s.links i = ⟨(s.links i).rx, (s.links i).buf, .call op⟩ by rw [← hphase]]
    exact .calling (Or.inr hnext) hreads
  simpa only [hpc, Function.update_eq_self] using mirror_update (i := i) h.conn hi

/-- The log fails: the call is over, and the plain server's write fails. -/
theorem Mirrors.fails (h : Mirrors tables s a) (hphase : (s.links i).phase = .call op)
    (hold : ∀ start e, s.store.pc i ≠ .done start e) (hdata : store.data = s.store.data)
    (hpc : store.pc = Function.update s.store.pc i .idle) {c : Call} (hop : op = callOp c)
    (err : Bytes) :
    ∃ b a', a.step tables b = some a' ∧ Mirrors tables (s.proceed i op err store) a' := by
  have hidle : store.pc i = .idle := by rw [hpc, Function.update_self]
  have hfailed : (plainMap (some err)).perform op a.data = (some err, a.data) := by
    rw [hop]
    cases c <;> rfl
  obtain ⟨-, got, hs, hreads⟩ := (h.conn i).at_call hphase hold
  refine ⟨_, _, Atomic.pass_call hs (hreads (some err)), ?_⟩
  rw [hfailed, proceed_of_idle hidle]
  refine ⟨h.data.trans hdata.symm, h.events, ?_⟩
  rw [hpc]
  exact mirror_update h.conn (.flush fun _ => rfl)

/-- The call takes effect, on both maps at this moment. -/
theorem Mirrors.effect (h : Mirrors tables s a) (hphase : (s.links i).phase = .call op)
    (hold : ∀ start e, s.store.pc i ≠ .done start e) {start : Unit} {e : Effect}
    (hpc : store.pc = Function.update s.store.pc i (.done start e))
    (hdo : (plainMap none).perform op s.store.data = (result e, store.data)) (err : Bytes) :
    ∃ b a', a.step tables b = some a' ∧ Mirrors tables (s.proceed i op err store) a' := by
  have hne : store.pc i ≠ .idle := by simp [hpc]
  obtain ⟨-, got, hs, hreads⟩ := (h.conn i).at_call hphase hold
  refine ⟨_, _, Atomic.pass_call hs (hreads none), ?_⟩
  rw [h.data, hdo, proceed_of_ne hne]
  refine ⟨rfl, h.events, ?_⟩
  have hi : Mirror tables (.done start e) (s.links i)
      ⟨(s.links i).buf ++ (s.links i).rx, some (op.answer (result e), false), false⟩ := by
    rw [show s.links i = ⟨(s.links i).rx, (s.links i).buf, .call op⟩ by rw [← hphase]]
    exact .called
  simpa only [hpc, Function.update_eq_self] using mirror_update (i := i) h.conn hi

theorem work_eq {act : Store.Clients.Action I Unit} {err : Bytes}
    (h : s.work i act err = some s') :
    ∃ op store, (s.links i).phase = .call op ∧ Store.Clients.step s.store act = some store ∧
      s' = s.proceed i op err store := by
  unfold Serving.work at h
  split at h
  · rename_i op hphase
    obtain ⟨store, hstep, rfl⟩ := Option.map_eq_some_iff.mp h
    exact ⟨op, store, hphase, hstep, rfl⟩
  · cases h

/-- The call begins. -/
theorem mirrors_invoke (h : Mirrors tables s a) (hphase : (s.links i).phase = .call op)
    (hwork : s.work i (invocation i op) [] = some s') : Mirrors tables s' a := by
  obtain ⟨op', store, hphase', hstep, rfl⟩ := work_eq hwork
  obtain rfl : op = op' := by
    rw [hphase] at hphase'
    exact Phase.call.inj hphase'
  have hold : s.store.pc i = .idle → ∀ start e, s.store.pc i ≠ .done start e := by
    intro hidle start e hdone
    rw [hidle] at hdone
    cases hdone
  cases op with
  | put key value =>
      cases step_does hstep with
      | write c hpc => exact h.waits hphase (hold hpc) (by rfl) (by rfl) (by rfl) []
  | delete key =>
      cases step_does hstep with
      | write c hpc => exact h.waits hphase (hold hpc) (by rfl) (by rfl) (by rfl) []
  | get key =>
      cases step_does hstep with
      | get key hpc => exact h.waits hphase (hold hpc) (by rfl) (by rfl) (by rfl) []

/-- **The steps of a call.** -/
theorem mirrors_work (h : Mirrors tables s a) {act : Store.Clients.Action I Unit} {err : Bytes}
    (hact : (∃ out, act = .append i out) ∨ (∃ out, act = .sync i out) ∨ act = .update i ∨
      act = .read i)
    (hwork : s.work i act err = some s') :
    Mirrors tables s' a ∨ ∃ b a', a.step tables b = some a' ∧ Mirrors tables s' a' := by
  obtain ⟨op, store, hphase, hstep, rfl⟩ := work_eq hwork
  -- it is the call that the client of the store is in
  have hop : ∀ {pc op'}, s.store.pc i = pc → opOf pc = some op' → op = op' ∧
      ∀ start e, s.store.pc i ≠ .done start e := by
    rintro pc op' rfl hopOf
    have hold : ∀ start e, s.store.pc i ≠ .done start e := by
      intro start e hdone
      rw [hdone] at hopOf
      cases hopOf
    refine ⟨?_, hold⟩
    rcases ((h.conn i).at_call hphase hold).1 with hidle | hcall
    · rw [hidle] at hopOf
      cases hopOf
    · exact Option.some.inj (hcall.symm.trans hopOf)
  rcases hact with ⟨out, rfl⟩ | ⟨out, rfl⟩ | rfl | rfl
  · cases step_does hstep with
    | @append _ start c _ log ok hpc hlog =>
        obtain ⟨rfl, hold⟩ := hop hpc rfl
        cases ok with
        | true => exact Or.inl (h.waits hphase hold (by rfl) (by rfl) (by rfl) err)
        | false => exact Or.inr (h.fails hphase hold (by rfl) (by rfl) (by rfl) err)
  · cases step_does hstep with
    | @sync _ start c pos _ log ok hpc hlog =>
        obtain ⟨rfl, hold⟩ := hop hpc rfl
        cases ok with
        | true => exact Or.inl (h.waits hphase hold (by rfl) (by rfl) (by rfl) err)
        | false => exact Or.inr (h.fails hphase hold (by rfl) (by rfl) (by rfl) err)
  · cases step_does hstep with
    | @update _ start c pos hpc =>
        obtain ⟨rfl, hold⟩ := hop hpc rfl
        exact Or.inr (h.effect hphase hold (by rfl) (by cases c <;> rfl) err)
  · cases step_does hstep with
    | @read _ start key hpc =>
        obtain ⟨rfl, hold⟩ := hop hpc rfl
        exact Or.inr (h.effect hphase hold (by rfl) (by rfl) err)

end Calls

/-! ## §6  Refinement -/

omit [DecidableEq I] in
theorem mirrors_initial : Mirrors tables (Serving.initial : Serving I) Atomic.initial :=
  ⟨rfl, rfl, fun _ => .loop⟩

theorem Mirror.arrive {pc : Pc Unit} {l : Link} {ss : Session} (h : Mirror tables pc l ss)
    (bs : Bytes) :
    Mirror tables pc { l with rx := l.rx ++ bs } { ss with rx := ss.rx ++ bs } := by
  cases h with
  | loop =>
      dsimp only
      rw [List.append_assoc]
      exact .loop
  | reading hwant hreads =>
      dsimp only
      rw [List.append_assoc, List.append_assoc]
      exact .reading hwant hreads
  | calling hpc hreads =>
      dsimp only
      rw [List.append_assoc, List.append_assoc]
      exact .calling hpc hreads
  | called =>
      dsimp only
      rw [List.append_assoc]
      exact .called
  | flush hr =>
      refine .flush fun hfatal => ?_
      rw [hr hfatal, List.append_assoc]
  | closed => exact .closed

theorem mirrors_ret (h : Mirrors tables s a) {start : Unit} {e : Effect} {op : Op}
    {store : System I Unit} (hphase : (s.links i).phase = .call op)
    (hdone : s.store.pc i = .done start e)
    (hstep : Store.Clients.step s.store (.ret i) = some store) :
    Mirrors tables
      { s with store, links := s.setPhase i (.flush (op.answer (result e)) false) } a := by
  cases step_does hstep with
  | ret hpc =>
      refine ⟨h.data, h.events, ?_⟩
      have hi := h.conn i
      have hlink : s.links i = ⟨(s.links i).rx, (s.links i).buf, .call op⟩ := by rw [← hphase]
      rw [hdone, hlink] at hi
      have hnext : Mirror tables .idle
          ⟨(s.links i).rx, (s.links i).buf, .flush (op.answer (result e)) false⟩
          (a.sessions i) := by
        generalize a.sessions i = ss at hi ⊢
        cases hi with
        | calling hpc hreads =>
            rcases hpc with hpc | hpc
            · cases hpc
            · cases hpc
        | called => exact .flush fun _ => rfl
      simpa only [Serving.setPhase, Function.update_eq_self] using
        mirror_update (i := i) h.conn hnext

theorem Mirror.at_flush {pc : Pc Unit} {l : Link} {ss : Session} {resp : Bytes} {fatal : Bool}
    (h : Mirror tables pc l ss) (hphase : l.phase = .flush resp fatal) :
    pc = .idle ∧ ∃ r, ss = ⟨r, some (resp, fatal), false⟩ ∧
      (fatal = false → r = l.buf ++ l.rx) := by
  cases h with
  | flush hr =>
      cases hphase
      exact ⟨rfl, _, rfl, hr⟩
  | reading hwant _ =>
      cases hphase
      exact absurd hwant (lt_irrefl 0)
  | loop => cases hphase
  | calling _ _ => cases hphase
  | called => cases hphase
  | closed => cases hphase

/-- A piece of the response goes out. -/
theorem mirrors_spill (h : Mirrors tables s a) {k : ℕ}
    (hstep : s.step tables (.spill i k) = some s') :
    ∃ a', a.step tables (.spill i k) = some a' ∧ Mirrors tables s' a' := by
  rw [Serving.step] at hstep
  split at hstep
  · rename_i resp fatal hphase
    obtain ⟨hspills, hstep⟩ := guard_bind_eq_some hstep
    cases hstep
    obtain ⟨hidle, r, hs, hr⟩ := (h.conn i).at_flush hphase
    refine ⟨_, Atomic.step_spill hs hspills, h.data, by rw [h.events], ?_⟩
    have hnext : Mirror tables (s.store.pc i)
        { s.links i with phase := .flush (resp.drop k) fatal }
        ⟨r, some (resp.drop k, fatal), false⟩ := by
      rw [hidle]
      exact .flush hr
    simpa only [Serving.setPhase, Function.update_eq_self] using
      mirror_update (i := i) h.conn hnext
  · cases hstep

/-- The rest of the response goes out. -/
theorem mirrors_flush (h : Mirrors tables s a) {cut : Option ℕ}
    (hstep : s.step tables (.flush i cut) = some s') :
    ∃ a', a.step tables (.answer i cut) = some a' ∧ Mirrors tables s' a' := by
  rw [Serving.step] at hstep
  split at hstep
  · rename_i resp fatal hphase
    cases hstep
    obtain ⟨hidle, r, hs, hr⟩ := (h.conn i).at_flush hphase
    rw [Atomic.step, hs]
    refine ⟨_, rfl, h.data, by rw [h.events], ?_⟩
    have hnext : Mirror tables (s.store.pc i)
        { s.links i with phase := if fatal || cut.isSome then .closed else .loop }
        ⟨r, none, fatal || cut.isSome⟩ := by
      rw [hidle]
      cases hend : fatal || cut.isSome with
      | true => exact .closed
      | false =>
          rw [hr (Bool.or_eq_false_iff.mp hend).1]
          exact .loop
    simpa only [Serving.setPhase, Function.update_eq_self] using
      mirror_update (i := i) h.conn hnext
  · cases hstep

theorem mirrors_step (h : Mirrors tables s a) {act : Action I}
    (hstep : s.step tables act = some s') :
    Mirrors tables s' a ∨ ∃ b a', a.step tables b = some a' ∧ Mirrors tables s' a' := by
  cases act with
  | arrive i bs =>
      cases hstep
      refine Or.inr ⟨.receive i bs, _, rfl, h.data, ?_, ?_⟩
      · rw [h.events]
      · simpa only [Function.update_eq_self] using
          mirror_update (i := i) h.conn ((h.conn i).arrive bs)
  | io i m =>
      obtain ⟨l, hmove, hs⟩ := Option.bind_eq_some_iff.mp hstep
      cases hs
      obtain ⟨hidle, hfollows⟩ := follows_move (h.conn i) hmove
      rw [Follows, ← hidle] at hfollows
      rcases hfollows with hi | ⟨n, ss, hpass, hi⟩
      · refine Or.inl ⟨h.data, h.events, ?_⟩
        simpa only [Function.update_eq_self] using mirror_update (i := i) h.conn hi
      · refine Or.inr ⟨_, _, hpass, h.data, h.events, ?_⟩
        simpa only [Function.update_eq_self] using mirror_update (i := i) h.conn hi
  | invoke i =>
      rw [Serving.step] at hstep
      split at hstep
      · rename_i op hphase
        exact Or.inl (mirrors_invoke h hphase hstep)
      · cases hstep
  | append i out err => exact mirrors_work h (Or.inl ⟨out, rfl⟩) hstep
  | sync i out err => exact mirrors_work h (Or.inr (Or.inl ⟨out, rfl⟩)) hstep
  | update i => exact mirrors_work h (Or.inr (Or.inr (Or.inl rfl))) hstep
  | read i => exact mirrors_work h (Or.inr (Or.inr (Or.inr rfl))) hstep
  | ret i =>
      rw [Serving.step] at hstep
      split at hstep
      · rename_i op start e hphase hdone
        obtain ⟨store, hret, hs⟩ := Option.bind_eq_some_iff.mp hstep
        cases hs
        exact Or.inl (mirrors_ret h hphase hdone hret)
      · cases hstep
  | spill i k => exact Or.inr ⟨_, mirrors_spill h hstep⟩
  | flush i cut => exact Or.inr ⟨_, mirrors_flush h hstep⟩

/-- **The server is a server over a plain map.** Whatever bytes the connections
receive, cut as they may be, however the calls to the store overlap, whatever fails
and wherever connections end: what has been received and sent, in this order, is a
behaviour of the server that carries out each request at one moment on a plain map,
and the store's map is that map. -/
theorem serves_atomically {as : List (Action I)}
    (hrun : Run (Serving.step tables) Always (Serving.initial : Serving I) as s) :
    ∃ bs a, Run (Atomic.step tables) Always (Atomic.initial : Atomic I) bs a ∧
      a.events = s.events ∧ a.data = s.store.data := by
  obtain ⟨bs, a, hbs, hmirrors⟩ :=
    hrun.stutter (R := Mirrors tables) mirrors_initial fun {u u' v act} h _ hstep => by
      rcases mirrors_step h hstep with hsame | ⟨b, v', hb, hv'⟩
      · exact Or.inl hsame
      · exact Or.inr ⟨b, v', trivial, hb, hv'⟩
  exact ⟨bs, a, hbs, hmirrors.events, hmirrors.data⟩

/-- A `GET` that reads the value of a `PUT` whose response has not been sent. -/
theorem serves_atomically_overlapping :
    let as : List (Action (Fin 2)) :=
      [.io 0 (.arm true), .arrive 0 (text "PUT k 1"), .io 0 (.fill 7)] ++
      List.replicate 7 (.io 0 .take) ++
      [.io 1 (.arm true), .arrive 1 (text "GET k\r\n"), .io 1 (.fill 7)] ++
      List.replicate 7 (.io 1 .take) ++
      [.invoke 1, .arrive 0 (text "\r\nx\r\n"), .io 0 (.fill 5)] ++
      List.replicate 4 (.io 0 .take) ++
      [.invoke 0, .append 0 (.ok 0) [], .sync 0 .ok [], .update 0, .read 1, .ret 1, .flush 1 none,
        .ret 0, .flush 0 none]
    let s := endState (Serving.step plain.tables) Always Serving.initial as
    s.events = [.received 0 (text "PUT k 1"), .received 1 (text "GET k\r\n"),
        .received 0 (text "\r\nx\r\n"), .answered 1 (text "$1\r\nx\r\n"),
        .answered 0 (text "+OK\r\n")] ∧
      ∃ bs a, Run (Atomic.step plain.tables) Always Atomic.initial bs a ∧
        a.events = s.events ∧ a.data = s.store.data := by
  intro as s
  have hrun : Run (Serving.step plain.tables) Always Serving.initial as s :=
    run_endState (by decide +kernel)
  exact ⟨by decide +kernel, serves_atomically hrun⟩

end KVEngine.Server
