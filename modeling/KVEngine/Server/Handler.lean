import KVEngine.Server.Requests

/-!
# The goroutine of a connection

`handleConn` as it waits. Bytes come from the socket in pieces of any size: a
`bufio.Reader` takes what is there, and `readLine` and `io.ReadFull` go on when it
has some. The goroutine stands at one of the places where it can wait, with what
it has read of its request (`Phase`), and a piece takes it from one to the next
(`feed`).

From each place the rest of the pass is a function of the bytes still to come
(`resume`), and bytes that are fed are bytes that come first
(`resume_feed`): how they are cut does not matter.
-/

namespace KVEngine.Server

open Foundation.Text (Tables text decimal atoi fields toUpper quoted)
open KVStore (Op)

/-! ## §1  Places to wait -/

/-- The buffer of `bufio.NewReader` and of `bufio.NewWriter`. -/
def bufferSize : ℕ := 4096

/-- Where the goroutine is. -/
inductive Phase : Type where
  /-- At the top of the loop. -/
  | loop
  /-- In `readLine`, with the bytes of its `line`. -/
  | line (line : Bytes)
  /-- In the `ReadFull` of a value of `n` bytes. -/
  | value (key : Bytes) (n : ℕ) (value : Bytes)
  /-- In the `ReadFull` of the terminator. -/
  | term (key value term : Bytes)
  /-- In the call to the store. -/
  | call (op : Op)
  /-- Before `Flush`, with what was written in this pass. -/
  | flush (resp : Bytes) (fatal : Bool)
  | closed
deriving DecidableEq

namespace Phase

/-- How many bytes the pending read asks for; none where nothing is read. -/
def want : Phase → ℕ
  | .line _ => 1
  | .value _ n v => n - v.length
  | .term _ _ t => 2 - t.length
  | _ => 0

end Phase

variable (tables : Tables)

/-- An error line. -/
def refuse (msg : Bytes) (fatal : Bool) : Phase := .flush (errLine msg) fatal

/-- The value has been read so far; `ReadFull` returns when it is complete. -/
def valueRead (key : Bytes) (n : ℕ) (value : Bytes) : Phase :=
  if value.length < n then .value key n value else .term key value []

def malformed : Phase := refuse (text "malformed PUT terminator") true

def termRead (key value term : Bytes) : Phase :=
  if term.length < 2 then .term key value term
  else if term = crlf then .call (.put key value)
  else malformed

/-- `handlePut` up to the first read. -/
def startPut (fields : List Bytes) : Phase :=
  match fields with
  | [_, key, len] =>
      let invalid := refuse (text "invalid value length " ++ quoted tables len) false
      match atoi len with
      | none => invalid
      | some n =>
          if n < 0 then invalid
          else if maxValueSize < n then
            refuse (text "value length " ++ decimal n.toNat ++ text " exceeds max " ++
              decimal maxValueSize) true
          else valueRead key n.toNat []
  | _ => refuse (text "PUT requires <key> <valueLen>, got " ++ decimal (fields.length - 1) ++
      text " args") false

/-- `handleGet` up to the call. -/
def startGet (fields : List Bytes) : Phase :=
  match fields with
  | [_, key] => .call (.get key)
  | _ => refuse (text "GET requires exactly 1 arg, got " ++ decimal (fields.length - 1)) false

/-- `handleDel` up to the call. -/
def startDel (fields : List Bytes) : Phase :=
  match fields with
  | [_, key] => .call (.delete key)
  | _ => refuse (text "DEL requires exactly 1 arg, got " ++ decimal (fields.length - 1)) false

/-- The `switch` of `handleConn`. -/
def switch (cmd : Bytes) (fields : List Bytes) : Phase :=
  if cmd = text "PUT" then startPut tables fields
  else if cmd = text "GET" then startGet fields
  else if cmd = text "DEL" then startDel fields
  else refuse (text "unknown command " ++ quoted tables cmd) false

/-- `handleConn` once it has a line. -/
def gotLine (line : Bytes) : Phase :=
  match fields line with
  | [] => .loop
  | name :: args => switch tables (toUpper tables name) (name :: args)

/-- One byte for `readLine`. -/
def lineRead (line : Bytes) (b : UInt8) : Phase :=
  if b = 10 then gotLine tables (stripCR line)
  else if maxLineSize < (line ++ [b]).length then .closed
  else .line (line ++ [b])

/-- What the goroutine does with the bytes it gets, at most as many as it asked
for. -/
def feed : Phase → Bytes → Phase
  | .line line, b :: _ => lineRead tables line b
  | .value key n value, bs => valueRead key n (value ++ bs)
  | .term key value term, bs => termRead key value (term ++ bs)
  | p, _ => p

/-- The read returns an error: the end of the stream, a deadline, a reset. -/
def readFailed : Phase → Phase
  | .term _ _ _ => malformed
  | _ => .closed

/-- A read that waits asks for something, and what is flushed is not empty. -/
def Phase.Proper : Phase → Prop
  | .value _ n v => v.length < n
  | .term _ _ t => t.length < 2
  | .flush resp _ => resp ≠ []
  | _ => True

theorem errLine_ne_nil (msg : Bytes) : errLine msg ≠ [] := by
  intro h
  have : (errLine msg).length = 0 := by rw [h]; rfl
  simp [errLine, crlf] at this

theorem proper_valueRead (key : Bytes) (n : ℕ) (value : Bytes) :
    (valueRead key n value).Proper := by
  unfold valueRead
  split_ifs with h
  · exact h
  · exact Nat.zero_lt_two

theorem proper_termRead (key value term : Bytes) : (termRead key value term).Proper := by
  unfold termRead
  split_ifs with h
  · exact h
  · trivial
  · exact errLine_ne_nil _

theorem proper_gotLine (line : Bytes) : (gotLine tables line).Proper := by
  unfold gotLine
  split
  · trivial
  · unfold switch
    split_ifs
    · unfold startPut
      split
      · dsimp only
        split
        · exact errLine_ne_nil _
        · split_ifs
          · exact errLine_ne_nil _
          · exact errLine_ne_nil _
          · exact proper_valueRead _ _ _
      · exact errLine_ne_nil _
    · unfold startGet
      split
      · trivial
      · exact errLine_ne_nil _
    · unfold startDel
      split
      · trivial
      · exact errLine_ne_nil _
    · exact errLine_ne_nil _

theorem proper_feed {p : Phase} (hwant : 0 < p.want) (bs : Bytes) : (feed tables p bs).Proper := by
  cases p with
  | line line =>
      cases bs with
      | nil => trivial
      | cons b bs =>
          show (lineRead tables line b).Proper
          unfold lineRead
          split_ifs
          · exact proper_gotLine tables _
          · trivial
          · trivial
  | value key n value => exact proper_valueRead key n _
  | term key value term => exact proper_termRead key value _
  | loop => exact absurd hwant (lt_irrefl 0)
  | call op => exact absurd hwant (lt_irrefl 0)
  | flush resp fatal => exact absurd hwant (lt_irrefl 0)
  | closed => exact absurd hwant (lt_irrefl 0)

theorem proper_readFailed (p : Phase) : (readFailed p).Proper := by
  unfold readFailed
  split
  · exact errLine_ne_nil _
  · trivial

/-! ## §2  The rest of the pass -/

variable {σ : Type} (srv : Server σ)

/-- What a pass comes to: the bytes left, if the connection goes on, and the
connection. -/
def outcome (t : Bool × Bytes × Conn σ) : Option Bytes × Conn σ :=
  (if t.1 then none else some t.2.1, t.2.2)

/-- The pass behind `readLine`. -/
def turnLine (line r : Bytes) (c : Conn σ) : Bool × Bytes × Conn σ :=
  match fields line with
  | [] => (false, r, c)
  | name :: args =>
      let (fatal, r, c) := srv.dispatch (toUpper srv.tables name) (name :: args) r c
      (!srv.flush c.out || fatal, r, c)

/-- The rest of a pass, on the bytes still to come. -/
def resume : Phase → Bytes → Conn σ → Option Bytes × Conn σ
  | .loop, r, c => (some r, c)
  | .line line, r, c =>
      match readLineFrom maxLineSize line r with
      | none => (none, c)
      | some (line, r) => outcome (srv.turnLine (stripCR line) r c)
  | .value key n value, r, c => outcome (srv.receiveValue key n (value ++ r) c)
  | .term key value term, r, c =>
      outcome (srv.receiveValue key value.length (value ++ (term ++ r)) c)
  | .call op, r, c => (some r, srv.serve c op)
  | .flush resp fatal, r, c => (if fatal then none else some r, c.write resp)
  | .closed, _, c => (none, c)

theorem outcome_turn (r : Bytes) (c : Conn σ) :
    outcome (srv.turn r c) = srv.resume (.line []) r c := by
  rw [turn, resume, readLine]
  cases readLineFrom maxLineSize [] r with
  | none => rfl
  | some p => rfl

/-- `p` is where the goroutine is when it has read `got` in this pass. -/
def Reads (p : Phase) (got : Bytes) : Prop :=
  ∀ r c, outcome (srv.turn (got ++ r) c) = srv.resume p r c

theorem reads_start : srv.Reads (.line []) [] := fun r c => srv.outcome_turn r c

section Resume

variable (hflush : ∀ out, srv.flush out = true)

include hflush in
theorem outcome_turnLine (line r : Bytes) (c : Conn σ) :
    outcome (srv.turnLine line r c) =
      match fields line with
      | [] => (some r, c)
      | name :: args => outcome (srv.dispatch (toUpper srv.tables name) (name :: args) r c) := by
  unfold turnLine
  split
  · rfl
  · simp only [outcome, hflush, Bool.not_true, Bool.false_or]

theorem outcome_receiveValue_short {key value : Bytes} {n : ℕ} (h : value.length < n) (c : Conn σ) :
    outcome (srv.receiveValue key n value c) = (none, c) := by
  rw [receiveValue, readFull, if_neg (by omega)]
  rfl

theorem resume_valueRead (key value : Bytes) {n : ℕ} (h : value.length ≤ n) (r : Bytes)
    (c : Conn σ) :
    srv.resume (valueRead key n value) r c = outcome (srv.receiveValue key n (value ++ r) c) := by
  unfold valueRead
  split_ifs with hlt
  · rfl
  · obtain rfl : n = value.length := by omega
    rfl

/-- A terminator that is none, whole or cut off. -/
theorem outcome_receiveValue_malformed {key value term : Bytes} (r : Bytes)
    (h : term.length < 2 ∧ r = [] ∨ term.length = 2 ∧ term ≠ crlf) (c : Conn σ) :
    outcome (srv.receiveValue key value.length (value ++ (term ++ r)) c) =
      srv.resume malformed r c := by
  have hterm : ∀ rest, readFull 2 (term ++ r) ≠ some ([13, 10], rest) := by
    intro rest hread
    unfold readFull at hread
    rcases h with ⟨hlen, rfl⟩ | ⟨hlen, hne⟩
    · rw [List.append_nil, if_neg (by omega)] at hread
      cases hread
    · rw [List.length_append, if_pos (by omega), ← hlen, List.take_left] at hread
      exact hne (Prod.mk.inj (Option.some.inj hread)).1
  rw [receiveValue, readFull_append]
  dsimp only
  split
  · rename_i rest hread
    exact absurd hread (hterm rest)
  · rfl

theorem resume_termRead (key value term : Bytes) (h : term.length ≤ 2) (r : Bytes) (c : Conn σ) :
    srv.resume (termRead key value term) r c =
      outcome (srv.receiveValue key value.length (value ++ (term ++ r)) c) := by
  unfold termRead
  split_ifs with hlt hcrlf
  · rfl
  · rw [hcrlf, ← List.append_assoc, srv.receiveValue_append]
    rfl
  · exact (srv.outcome_receiveValue_malformed r (Or.inr ⟨by omega, hcrlf⟩) c).symm

theorem resume_startPut : ∀ (fs : List Bytes) (r : Bytes) (c : Conn σ),
    srv.resume (startPut srv.tables fs) r c = outcome (srv.handlePut fs r c)
  | [_, key, len], r, c => by
      unfold startPut handlePut
      dsimp only
      cases atoi len with
      | none => rfl
      | some n =>
          dsimp only
          split_ifs with hneg hbig
          · rfl
          · rfl
          · exact srv.resume_valueRead key [] (Nat.zero_le _) r c
  | [], _, _ => rfl
  | [_], _, _ => rfl
  | [_, _], _, _ => rfl
  | _ :: _ :: _ :: _ :: _, _, _ => rfl

theorem resume_startGet : ∀ (fs : List Bytes) (r : Bytes) (c : Conn σ),
    srv.resume (startGet fs) r c = (some r, srv.handleGet fs c)
  | [_, key], r, c => by
      rw [startGet, resume, serve, handleGet]
      rcases c.perform srv.store (.get key) with ⟨_ | v, c'⟩
      · rfl
      · rfl
  | [], _, _ => rfl
  | [_], _, _ => rfl
  | _ :: _ :: _ :: _, _, _ => rfl

theorem resume_startDel : ∀ (fs : List Bytes) (r : Bytes) (c : Conn σ),
    srv.resume (startDel fs) r c = (some r, srv.handleDel fs c)
  | [_, key], r, c => by
      rw [startDel, resume, serve, handleDel]
      rcases c.perform srv.store (.delete key) with ⟨_ | err, c'⟩
      · rfl
      · rfl
  | [], _, _ => rfl
  | [_], _, _ => rfl
  | _ :: _ :: _ :: _, _, _ => rfl

theorem resume_switch (cmd : Bytes) (fs : List Bytes) (r : Bytes) (c : Conn σ) :
    srv.resume (switch srv.tables cmd fs) r c = outcome (srv.dispatch cmd fs r c) := by
  unfold switch dispatch
  split_ifs
  · exact srv.resume_startPut fs r c
  · exact srv.resume_startGet fs r c
  · exact srv.resume_startDel fs r c
  · rfl

include hflush in
theorem resume_gotLine (line r : Bytes) (c : Conn σ) :
    srv.resume (gotLine srv.tables line) r c = outcome (srv.turnLine line r c) := by
  rw [srv.outcome_turnLine hflush]
  unfold gotLine
  split
  · rfl
  · exact srv.resume_switch _ _ r c

include hflush in
theorem resume_lineRead (line : Bytes) (b : UInt8) (r : Bytes) (c : Conn σ) :
    srv.resume (lineRead srv.tables line b) r c = srv.resume (.line line) (b :: r) c := by
  unfold lineRead
  rw [resume, readLineFrom]
  split_ifs with hb hlong
  · exact srv.resume_gotLine hflush _ r c
  · rfl
  · rfl

include hflush in
/-- **Bytes that are fed are bytes that come first.** -/
theorem resume_feed {p : Phase} {bs : Bytes} (hne : bs ≠ []) (hle : bs.length ≤ p.want) (r : Bytes)
    (c : Conn σ) : srv.resume (feed srv.tables p bs) r c = srv.resume p (bs ++ r) c := by
  cases p with
  | line line =>
      match bs, hne, hle with
      | [b], _, _ => exact srv.resume_lineRead hflush line b r c
      | _ :: _ :: _, _, hle => exact absurd hle (by simp [Phase.want])
  | value key n value =>
      have hlen : (value ++ bs).length ≤ n := by
        have : 0 < bs.length := List.length_pos_of_ne_nil hne
        simp only [Phase.want] at hle
        rw [List.length_append]
        omega
      rw [feed, srv.resume_valueRead key _ hlen, resume, List.append_assoc]
  | term key value term =>
      have hlen : (term ++ bs).length ≤ 2 := by
        have : 0 < bs.length := List.length_pos_of_ne_nil hne
        simp only [Phase.want] at hle
        rw [List.length_append]
        omega
      rw [feed, srv.resume_termRead key value _ hlen, resume, List.append_assoc]
  | loop => exact absurd (List.eq_nil_of_length_eq_zero (Nat.le_zero.mp hle)) hne
  | call op => exact absurd (List.eq_nil_of_length_eq_zero (Nat.le_zero.mp hle)) hne
  | flush resp fatal => exact absurd (List.eq_nil_of_length_eq_zero (Nat.le_zero.mp hle)) hne
  | closed => exact absurd (List.eq_nil_of_length_eq_zero (Nat.le_zero.mp hle)) hne

include hflush in
theorem Reads.feed {p : Phase} {got bs : Bytes} (h : srv.Reads p got) (hne : bs ≠ [])
    (hle : bs.length ≤ p.want) : srv.Reads (feed srv.tables p bs) (got ++ bs) := by
  intro r c
  rw [List.append_assoc, h, srv.resume_feed hflush hne hle]

end Resume

/-- A read that fails ends the pass as the end of the bytes does. -/
theorem resume_readFailed {p : Phase} (hwant : 0 < p.want) (c : Conn σ) :
    srv.resume (readFailed p) [] c = srv.resume p [] c := by
  cases p with
  | line line => rfl
  | value key n value =>
      have hlt : value.length < n := by
        simp only [Phase.want] at hwant
        omega
      rw [resume, List.append_nil, srv.outcome_receiveValue_short hlt]
      rfl
  | term key value term =>
      have hlt : term.length < 2 := by
        simp only [Phase.want] at hwant
        omega
      exact (srv.outcome_receiveValue_malformed [] (Or.inl ⟨hlt, rfl⟩) c).symm
  | loop => exact absurd hwant (lt_irrefl 0)
  | call op => exact absurd hwant (lt_irrefl 0)
  | flush resp fatal => exact absurd hwant (lt_irrefl 0)
  | closed => exact absurd hwant (lt_irrefl 0)

end KVEngine.Server
