import KVEngine.Server.Server
import KVEngine.Store.Store

/-!
# Requests and responses

A stream of requests in the documented format is carried out request by request,
whatever the bytes of the values (`request_stream`).

A `PUT` whose length is refused should end the connection, because its value is
still to come. Only a length above the limit does so: after a length that is no
number, or negative, the value is read as the next commands
(`payload_executed`, `payload_ignored_iff`).
-/

namespace KVEngine

open Foundation (Dict)
open Foundation.Text (Tables text decimal atoi toUpper quoted joined Word)
open KVStore (Op)

/-! ## §1  The wire format -/

namespace KVStore.Op

open Server (crlf errLine maxLineSize maxValueSize)

/-- A request, as documented. -/
def wire : Op → Bytes
  | put key value =>
      text "PUT " ++ key ++ text " " ++ decimal value.length ++ crlf ++ value ++ crlf
  | get key => text "GET " ++ key ++ crlf
  | delete key => text "DEL " ++ key ++ crlf

def words : Op → List Bytes
  | put key value => [text "PUT", key, decimal value.length]
  | get key => [text "GET", key]
  | delete key => [text "DEL", key]

/-- What follows the command line. -/
def payload : Op → Bytes
  | put _ value => value ++ crlf
  | get _ => []
  | delete _ => []

theorem wire_eq (op : Op) : op.wire = joined op.words ++ crlf ++ op.payload := by
  cases op with
  | put key value =>
      simp [wire, words, payload, joined, show text "PUT " = text "PUT" ++ [32] from rfl,
        show text " " = [32] from rfl]
  | get key => simp [wire, words, payload, joined, show text "GET " = text "GET" ++ [32] from rfl]
  | delete key =>
      simp [wire, words, payload, joined, show text "DEL " = text "DEL" ++ [32] from rfl]

def key : Op → Bytes
  | put key _ => key
  | get key => key
  | delete key => key

/-- The bytes sent along; a request without a value sends none. -/
def value : Op → Bytes
  | put _ value => value
  | get _ => []
  | delete _ => []

/-- A key that is one field, and a line (with its CR) and a value within the
limits. -/
def WellFormed (op : Op) : Prop :=
  Word op.key ∧ (joined op.words ++ [13]).length ≤ maxLineSize ∧ op.value.length ≤ maxValueSize

instance decidableWellFormed (op : Op) : Decidable op.WellFormed :=
  inferInstanceAs (Decidable (_ ∧ _))

/-- The documented response to a call that succeeded and returned `result`. -/
def response : Op → Option Bytes → Bytes
  | put _ _, _ => text "+OK\r\n"
  | delete _, _ => text "+OK\r\n"
  | get _, none => text "$-1\r\n"
  | get _, some v => text "$" ++ decimal v.length ++ crlf ++ v ++ crlf

/-- The response to any call. -/
def answer : Op → Option Bytes → Bytes
  | put _ _, some err => errLine (text "put failed: " ++ err)
  | delete _, some err => errLine (text "delete failed: " ++ err)
  | op, result => op.response result

theorem WellFormed.words {op : Op} (h : op.WellFormed) : ∀ w ∈ op.words, Word w := by
  have hnames : Word (text "PUT") ∧ Word (text "GET") ∧ Word (text "DEL") := by decide +kernel
  intro w hw
  cases op with
  | put key value =>
      rcases List.mem_cons.mp hw with rfl | hw
      · exact hnames.1
      · rcases List.mem_cons.mp hw with rfl | hw
        · exact h.1
        · rw [List.mem_singleton.mp hw]
          exact Foundation.Text.word_decimal _
  | get key =>
      rcases List.mem_cons.mp hw with rfl | hw
      · exact hnames.2.1
      · rw [List.mem_singleton.mp hw]
        exact h.1
  | delete key =>
      rcases List.mem_cons.mp hw with rfl | hw
      · exact hnames.2.2
      · rw [List.mem_singleton.mp hw]
        exact h.1

/-! ## §2  A sequential map -/

/-- What a map returns. -/
def result (m : Dict Bytes Bytes) : Op → Option Bytes
  | put _ _ => none
  | delete _ => none
  | get key => m.lookup key

def apply (m : Dict Bytes Bytes) : Op → Dict Bytes Bytes
  | put key value => m.insert key value
  | delete key => m.erase key
  | get _ => m

/-- The responses of a map, one per request. -/
def responses : Dict Bytes Bytes → List Op → Bytes
  | _, [] => []
  | m, op :: ops => op.response (op.result m) ++ responses (op.apply m) ops

end KVStore.Op

namespace KVStore

variable {σ : Type}

/-- The call returns no error. -/
def Succeeds (K : KVStore σ) (s : σ) (op : Op) : Prop :=
  (∃ key, op = .get key) ∨ (K.perform op s).1 = none

def AllSucceed (K : KVStore σ) : σ → List Op → Prop
  | _, [] => True
  | s, op :: ops => K.Succeeds s op ∧ K.AllSucceed (K.perform op s).2 ops

/-- Calls that succeed are those of a map; `R` says which map the store holds. -/
def IsMap (K : KVStore σ) (R : σ → Dict Bytes Bytes → Prop) : Prop :=
  ∀ s m op, R s m → K.Succeeds s op →
    (K.perform op s).1 = op.result m ∧ R (K.perform op s).2 (op.apply m)

/-- The store behind its log, as long as the log can be written. -/
def ofStore : KVStore Store where
  put key value s := (none, s.put key value)
  delete key s := (none, s.delete key)
  get key s := (s.get key, s)

theorem isMap_ofStore : ofStore.IsMap fun s m => s.data = m := by
  rintro s m op rfl -
  cases op with
  | put key value => exact ⟨rfl, rfl⟩
  | get key => exact ⟨rfl, rfl⟩
  | delete key => exact ⟨rfl, rfl⟩

theorem allSucceed_ofStore (ops : List Op) : ∀ s, ofStore.AllSucceed s ops := by
  induction ops with
  | nil => exact fun _ => trivial
  | cons op ops ih =>
      refine fun s => ⟨?_, ih _⟩
      cases op with
      | put key value => exact Or.inr rfl
      | get key => exact Or.inl ⟨key, rfl⟩
      | delete key => exact Or.inr rfl

end KVStore

/-! ## §3  A stream of requests -/

namespace Server

variable {σ : Type} (srv : Server σ)

theorem readFull_append (bs rest : Bytes) : readFull bs.length (bs ++ rest) = some (bs, rest) := by
  rw [readFull, List.length_append, if_pos (Nat.le_add_right _ _), List.take_left, List.drop_left]

/-- Carry out one request. -/
def serve (c : Conn σ) (op : Op) : Conn σ :=
  (c.perform srv.store op).2.write (op.answer (c.perform srv.store op).1)

theorem receiveValue_append (key value rest : Bytes) (c : Conn σ) :
    srv.receiveValue key value.length (value ++ crlf ++ rest) c =
      (false, rest, srv.serve c (.put key value)) := by
  have hterm : readFull 2 (crlf ++ rest) = some ([13, 10], rest) := readFull_append crlf rest
  rw [receiveValue, List.append_assoc, readFull_append]
  dsimp only
  rw [hterm]
  unfold serve
  rcases c.perform srv.store (.put key value) with ⟨_ | err, c'⟩ <;> rfl

/-- The `switch` on the words of a request. -/
theorem dispatch_words {op : Op} (hop : op.WellFormed) (rest : Bytes) (c : Conn σ) :
    ∃ name args, op.words = name :: args ∧
      srv.dispatch (toUpper srv.tables name) (name :: args) (op.payload ++ rest) c =
        (false, rest, srv.serve c op) := by
  cases op with
  | put key value =>
      refine ⟨text "PUT", [key, decimal value.length], rfl, ?_⟩
      have hmax : value.length ≤ maxValueSize := hop.2.2
      have hlen : (value.length : ℤ) ≤ maxValueSize := Int.ofNat_le.mpr hmax
      have hint : value.length < 2 ^ 63 := hmax.trans_lt (by decide)
      show srv.handlePut [text "PUT", key, decimal value.length] (value ++ crlf ++ rest) c = _
      rw [handlePut]
      rw [Foundation.Text.atoi_decimal hint]
      dsimp only
      rw [if_neg (not_lt.mpr (Int.natCast_nonneg _)), if_neg (not_lt.mpr hlen), Int.toNat_natCast,
        receiveValue_append]
  | get key =>
      refine ⟨text "GET", [key], rfl, ?_⟩
      show (false, rest, srv.handleGet [_, key] c) = _
      unfold handleGet serve
      dsimp only
      rcases c.perform srv.store (.get key) with ⟨_ | v, c'⟩ <;> rfl
  | delete key =>
      refine ⟨text "DEL", [key], rfl, ?_⟩
      show (false, rest, srv.handleDel [_, key] c) = _
      unfold handleDel serve
      dsimp only
      rcases c.perform srv.store (.delete key) with ⟨_ | err, c'⟩ <;> rfl

theorem turn_wire {op : Op} (hop : op.WellFormed) (hflush : ∀ out, srv.flush out = true)
    (rest : Bytes) (c : Conn σ) :
    srv.turn (op.wire ++ rest) c = (false, rest, srv.serve c op) := by
  obtain ⟨name, args, hwords, hdispatch⟩ := srv.dispatch_words hop rest c
  have hline := hop.2.1
  have hfields := hop.words
  rw [List.length_append, List.length_singleton] at hline
  rw [hwords] at hline hfields
  rw [op.wire_eq, hwords, List.append_assoc, srv.turn_line hfields hline, hdispatch]
  dsimp only
  rw [hflush]
  rfl

/-- Whatever follows the requests. -/
theorem handleConn_wires {ops : List Op} (hops : ∀ op ∈ ops, op.WellFormed)
    (hflush : ∀ out, srv.flush out = true) (rest : Bytes) (c : Conn σ) :
    srv.handleConn (ops.flatMap Op.wire ++ rest) c =
      srv.handleConn rest (ops.foldl srv.serve c) := by
  induction ops generalizing c with
  | nil => rfl
  | cons op ops ih =>
      rw [List.flatMap_cons, List.append_assoc,
        srv.handleConn_next (srv.turn_wire (hops op List.mem_cons_self) hflush _ c)]
      exact ih (fun o ho => hops o (List.mem_cons_of_mem op ho)) (srv.serve c op)

theorem foldl_serve (ops : List Op) (c : Conn σ) :
    (ops.foldl srv.serve c).ops = c.ops ++ ops ∧
      (ops.foldl srv.serve c).store =
        ops.foldl (fun s op => (srv.store.perform op s).2) c.store := by
  induction ops generalizing c with
  | nil => exact ⟨(List.append_nil _).symm, rfl⟩
  | cons op ops ih =>
      obtain ⟨hops, hstore⟩ := ih (srv.serve c op)
      refine ⟨?_, hstore⟩
      rw [List.foldl_cons, hops]
      show c.ops ++ [op] ++ ops = _
      rw [List.append_assoc]
      rfl

theorem answer_of_succeeds {K : KVStore σ} {s : σ} {op : Op} (h : K.Succeeds s op) :
    op.answer (K.perform op s).1 = op.response (K.perform op s).1 := by
  cases op with
  | get key => rfl
  | put key value =>
      rcases h with ⟨_, h⟩ | h
      · cases h
      · rw [h]
        rfl
  | delete key =>
      rcases h with ⟨_, h⟩ | h
      · cases h
      · rw [h]
        rfl

theorem foldl_serve_out {R : σ → Dict Bytes Bytes → Prop} (hmap : srv.store.IsMap R)
    {ops : List Op} {c : Conn σ} {m : Dict Bytes Bytes} (hR : R c.store m)
    (hok : srv.store.AllSucceed c.store ops) :
    (ops.foldl srv.serve c).out = c.out ++ Op.responses m ops := by
  induction ops generalizing c m with
  | nil => exact (List.append_nil _).symm
  | cons op ops ih =>
      obtain ⟨hsucceeds, hok⟩ := hok
      obtain ⟨hresult, hR'⟩ := hmap c.store m op hR hsucceeds
      have hout : (srv.serve c op).out = c.out ++ op.response (op.result m) := by
        show c.out ++ op.answer (srv.store.perform op c.store).1 = _
        rw [answer_of_succeeds hsucceeds, hresult]
      rw [List.foldl_cons, ih (c := srv.serve c op) hR' hok, hout, List.append_assoc]
      rfl

/-- **The request stream.** The requests are carried out on the store in order, and
nothing else is; if the store is a map and no call fails, the responses are those of
the map. -/
theorem request_stream {ops : List Op} (hops : ∀ op ∈ ops, op.WellFormed)
    (hflush : ∀ out, srv.flush out = true) (s : σ) :
    let c := srv.handleConn (ops.flatMap Op.wire) (accept s)
    c.ops = ops ∧ c.store = ops.foldl (fun s op => (srv.store.perform op s).2) s ∧
      ∀ (R : σ → Dict Bytes Bytes → Prop) (m : Dict Bytes Bytes), srv.store.IsMap R → R s m →
        srv.store.AllSucceed s ops → c.out = Op.responses m ops := by
  intro c
  have hc : c = ops.foldl srv.serve (accept s) := by
    have := srv.handleConn_wires hops hflush [] (accept s)
    rwa [List.append_nil] at this
  obtain ⟨hperformed, hstore⟩ := srv.foldl_serve ops (accept s)
  rw [hc]
  refine ⟨hperformed, hstore, ?_⟩
  intro R m hmap hR hok
  exact srv.foldl_serve_out hmap (c := accept s) hR hok

/-- The store behind its log; no character beyond ASCII is changed by `ToUpper` or
printed by `%q`. -/
def plain : Server Store where
  store := KVStore.ofStore
  tables := { upper := fun c => c, isPrint := fun _ => false }
  flush := fun _ => true

/-- A value that ends a line and looks like a command. -/
theorem request_stream_pipelined :
    let ops : List Op := [.put (text "k") (text "1\r\nDEL k\r\n"), .get (text "k"),
      .delete (text "k"), .get (text "k")]
    let c := plain.handleConn (ops.flatMap Op.wire) (accept (Store.openStore []))
    c.ops = ops ∧ c.out = Op.responses ∅ ops ∧
      c.out = text "+OK\r\n$10\r\n1\r\nDEL k\r\n\r\n+OK\r\n$-1\r\n" := by
  intro ops c
  have hops : ∀ op ∈ ops, op.WellFormed := by decide +kernel
  obtain ⟨hperformed, -, hout⟩ := plain.request_stream hops (fun _ => rfl) (Store.openStore [])
  have := hout _ ∅ KVStore.isMap_ofStore rfl (KVStore.allSucceed_ofStore ops _)
  exact ⟨hperformed, this, this.trans (by decide +kernel)⟩

/-! ## §4  Lengths that are refused -/

/-- `handlePut` takes no value of this length. -/
def Refused (len : Bytes) : Prop :=
  match atoi len with
  | none => True
  | some n => n < 0 ∨ maxValueSize < n

instance decidableRefused (len : Bytes) : Decidable (Refused len) :=
  match h : atoi len with
  | none => isTrue (by rw [Refused, h]; trivial)
  | some n => decidable_of_iff (n < 0 ∨ maxValueSize < n) (by rw [Refused, h])

/-- The line `PUT <key> <len>`. -/
def putLine (key len : Bytes) : Bytes := joined [text "PUT", key, len]

/-- What the client meant as a value deletes a key: after a length that is no number,
one that is no `int`, and one that is negative. -/
theorem payload_executed :
    let store := (Store.openStore []).put (text "x") (text "1")
    ∀ len ∈ [text "abc", text "99999999999999999999", text "-5"],
      let c := plain.handleConn (putLine (text "k") len ++ crlf ++ text "DEL x\r\n") (accept store)
      Refused len ∧ c.ops = [.delete (text "x")] ∧ store.get (text "x") = some (text "1") ∧
        c.store.get (text "x") = none := by
  decide +kernel

variable {key len : Bytes}

theorem handlePut_refused (name : Bytes) (h : Refused len) (r : Bytes) (c : Conn σ) :
    ∃ fatal msg, srv.handlePut [name, key, len] r c = (fatal, r, writeErr c msg) ∧
      (fatal = true ↔ ∃ n, atoi len = some n ∧ maxValueSize < n) := by
  rw [handlePut]
  rw [Refused] at h
  cases hlen : atoi len with
  | none => exact ⟨false, _, rfl, by simp⟩
  | some n =>
      rw [hlen] at h
      dsimp only
      split_ifs with hneg hbig
      · refine ⟨false, _, rfl, iff_of_false Bool.false_ne_true ?_⟩
        rintro ⟨m, hm, hmax⟩
        cases hm
        have : (0 : ℤ) ≤ maxValueSize := Int.natCast_nonneg _
        omega
      · exact ⟨true, _, rfl, iff_of_true rfl ⟨n, rfl, hbig⟩⟩
      · exact absurd h (not_or.mpr ⟨hneg, hbig⟩)

/-- A refused `PUT` performs nothing itself. It ends the connection if the length is a
number above the limit, and otherwise goes on behind its line. -/
theorem turn_refused (hkey : Word key) (hlen : Word len)
    (hline : (putLine key len ++ [13]).length ≤ maxLineSize) (hrefused : Refused len)
    (rest : Bytes) (c : Conn σ) :
    ∃ fatal msg, srv.turn (putLine key len ++ crlf ++ rest) c =
        (!srv.flush (c.out ++ errLine msg) || fatal, rest, writeErr c msg) ∧
      (fatal = true ↔ ∃ n, atoi len = some n ∧ maxValueSize < n) := by
  have hwords : ∀ w ∈ [text "PUT", key, len], Word w := by
    have hput : Word (text "PUT") := by decide +kernel
    simp [hput, hkey, hlen]
  rw [List.length_append, List.length_singleton] at hline
  obtain ⟨fatal, msg, hput, hfatal⟩ :=
    srv.handlePut_refused (text "PUT") hrefused rest c
  refine ⟨fatal, msg, ?_, hfatal⟩
  have hdispatch : srv.dispatch (toUpper srv.tables (text "PUT")) [text "PUT", key, len] rest c =
      (fatal, rest, writeErr c msg) := hput
  rw [putLine, srv.turn_line hwords hline, hdispatch]
  rfl

/-- **Bytes behind a refused length.** No operation is performed on their account,
whatever they are, exactly when the length is a number above the limit. -/
theorem payload_ignored_iff (hkey : Word key) (hlen : Word len)
    (hline : (putLine key len ++ [13]).length ≤ maxLineSize) (hrefused : Refused len)
    (c : Conn σ) :
    (∀ (flush : Bytes → Bool) (rest : Bytes),
        (handleConn { srv with flush } (putLine key len ++ crlf ++ rest) c).ops = c.ops) ↔
      ∃ n, atoi len = some n ∧ maxValueSize < n := by
  constructor
  · -- a request behind the line is carried out if the connection stays open
    intro hnone
    by_contra hsmall
    let op : Op := .delete (text "x")
    have hop : op.WellFormed := by decide +kernel
    let live : Server σ := { srv with flush := fun _ => true }
    obtain ⟨fatal, msg, hturn, hfatal⟩ :=
      live.turn_refused hkey hlen hline hrefused op.wire c
    have hgoes : fatal = false := Bool.eq_false_iff.mpr fun h => hsmall (hfatal.mp h)
    rw [hgoes] at hturn
    have hops : (live.handleConn (putLine key len ++ crlf ++ op.wire) c).ops = c.ops ++ [op] := by
      have hwire := live.handleConn_wires (List.forall_mem_singleton.mpr hop) (fun _ => rfl) []
        (writeErr c msg)
      rw [List.flatMap_singleton, List.append_nil] at hwire
      rw [live.handleConn_next hturn, hwire]
      rfl
    have hsame : c.ops ++ [op] = c.ops := hops.symm.trans (hnone _ op.wire)
    exact absurd (List.append_right_eq_self.mp hsame) (List.cons_ne_nil _ _)
  · intro hbig flush rest
    obtain ⟨fatal, msg, hturn, hfatal⟩ :=
      turn_refused { srv with flush } hkey hlen hline hrefused rest c
    rw [hfatal.mpr hbig, Bool.or_true] at hturn
    rw [handleConn_close _ hturn]
    rfl

/-- One byte above the limit. -/
theorem payload_ignored_iff_above :
    Refused (text "16777217") ∧ ∀ (flush : Bytes → Bool) (rest : Bytes),
      (handleConn { plain with flush } (putLine (text "k") (text "16777217") ++ crlf ++ rest)
        (accept (Store.openStore []))).ops = [] :=
  ⟨by decide +kernel, (plain.payload_ignored_iff (by decide +kernel) (by decide +kernel)
    (by decide +kernel) (by decide +kernel) (accept (Store.openStore []))).mpr
      ⟨16777217, by decide +kernel, by decide⟩⟩

end Server

end KVEngine
