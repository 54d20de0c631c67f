import KVEngine.Foundation.Text

/-!
# The protocol server

`internal/server/server.go`: one connection, from its first byte to its end. A
command is a line of fields; the value of a `PUT` follows its line, as many bytes
as the line says.

The bytes are those that arrive before the end of the stream or before a deadline
passes: both end the connection, and what `handleConn` does is the same however
they are cut into reads.
-/

namespace KVEngine

open Foundation.Text (Tables text decimal atoi fields toUpper quoted joined Word)

/-! ## §1  The store and the connection -/

/-- `KVStore` without `Len`, which the server does not call. `σ` is the state of the
store, and of everything else that may change it between two calls. `put` and
`delete` return the text of an error, if there is one. -/
structure KVStore (σ : Type) where
  put : Bytes → Bytes → σ → Option Bytes × σ
  delete : Bytes → σ → Option Bytes × σ
  get : Bytes → σ → Option Bytes × σ

namespace KVStore

inductive Op : Type where
  | put (key value : Bytes)
  | get (key : Bytes)
  | delete (key : Bytes)
deriving DecidableEq

/-- One call: the error of `Put` and `Delete`, the value of `Get`. -/
def perform {σ : Type} (K : KVStore σ) : Op → σ → Option Bytes × σ
  | .put key value => K.put key value
  | .get key => K.get key
  | .delete key => K.delete key

end KVStore

open KVStore (Op)

structure Server (σ : Type) where
  store : KVStore σ
  tables : Tables
  /-- Whether `Flush` succeeds, by all that was written so far. -/
  flush : Bytes → Bool

namespace Server

def maxLineSize : ℕ := 64 * 1024

def maxValueSize : ℕ := 16 * 1024 * 1024

/-- A connection: the store, what was done to it for this client, and what was
written. -/
structure Conn (σ : Type) where
  store : σ
  ops : List Op
  out : Bytes

variable {σ : Type}

def accept (store : σ) : Conn σ := { store, ops := [], out := [] }

namespace Conn

def write (c : Conn σ) (bs : Bytes) : Conn σ := { c with out := c.out ++ bs }

def perform (K : KVStore σ) (op : Op) (c : Conn σ) : Option Bytes × Conn σ :=
  ((K.perform op c.store).1, { c with store := (K.perform op c.store).2, ops := c.ops ++ [op] })

end Conn

/-! ## §2  The handlers -/

def crlf : Bytes := [13, 10]

/-- `strings.ReplaceAll(s, "\r\n", " ")` -/
def replaceCRLF : Bytes → Bytes
  | [] => []
  | 13 :: 10 :: s => 32 :: replaceCRLF s
  | b :: s => b :: replaceCRLF s

/-- The line `writeErr` writes. -/
def errLine (msg : Bytes) : Bytes := text "-ERR " ++ replaceCRLF msg ++ crlf

def writeErr (c : Conn σ) (msg : Bytes) : Conn σ := c.write (errLine msg)

/-- The loop of `readLine`: bytes up to a line feed, which is consumed. -/
def readLineFrom (maxSize : ℕ) : Bytes → Bytes → Option (Bytes × Bytes)
  | _, [] => none
  | line, b :: r =>
      if b = 10 then some (line, r)
      else if maxSize < (line ++ [b]).length then none
      else readLineFrom maxSize (line ++ [b]) r

def stripCR (line : Bytes) : Bytes :=
  if line.getLast? = some 13 then line.dropLast else line

/-- `readLine`: the line and what follows it; `none` is any error. -/
def readLine (maxSize : ℕ) (r : Bytes) : Option (Bytes × Bytes) :=
  (readLineFrom maxSize [] r).map fun p => (stripCR p.1, p.2)

/-- `io.ReadFull` -/
def readFull (n : ℕ) (r : Bytes) : Option (Bytes × Bytes) :=
  if n ≤ r.length then some (r.take n, r.drop n) else none

variable (srv : Server σ)

/-- The end of `handlePut`: value, terminator and store. -/
def receiveValue (key : Bytes) (n : ℕ) (r : Bytes) (c : Conn σ) : Bool × Bytes × Conn σ :=
  match readFull n r with
  | none => (true, [], c)
  | some (value, r) =>
      match readFull 2 r with
      | some ([13, 10], r) =>
          match c.perform srv.store (.put key value) with
          | (some err, c) => (false, r, writeErr c (text "put failed: " ++ err))
          | (none, c) => (false, r, c.write (text "+OK\r\n"))
      | _ => (true, [], writeErr c (text "malformed PUT terminator"))

/-- `handlePut`: whether the error is fatal, what is left to read, and the
connection. -/
def handlePut (fields : List Bytes) (r : Bytes) (c : Conn σ) : Bool × Bytes × Conn σ :=
  match fields with
  | [_, key, len] =>
      let invalid := writeErr c (text "invalid value length " ++ quoted srv.tables len)
      match atoi len with
      | none => (false, r, invalid)
      | some n =>
          if n < 0 then (false, r, invalid)
          else if maxValueSize < n then
            (true, r, writeErr c (text "value length " ++ decimal n.toNat ++ text " exceeds max " ++
              decimal maxValueSize))
          else srv.receiveValue key n.toNat r c
  | _ => (false, r, writeErr c (text "PUT requires <key> <valueLen>, got " ++
      decimal (fields.length - 1) ++ text " args"))

def handleGet (fields : List Bytes) (c : Conn σ) : Conn σ :=
  match fields with
  | [_, key] =>
      match c.perform srv.store (.get key) with
      | (none, c) => c.write (text "$-1\r\n")
      | (some v, c) => c.write (text "$" ++ decimal v.length ++ crlf ++ v ++ crlf)
  | _ => writeErr c (text "GET requires exactly 1 arg, got " ++ decimal (fields.length - 1))

def handleDel (fields : List Bytes) (c : Conn σ) : Conn σ :=
  match fields with
  | [_, key] =>
      match c.perform srv.store (.delete key) with
      | (some err, c) => writeErr c (text "delete failed: " ++ err)
      | (none, c) => c.write (text "+OK\r\n")
  | _ => writeErr c (text "DEL requires exactly 1 arg, got " ++ decimal (fields.length - 1))

/-- The `switch` of `handleConn`. -/
def dispatch (cmd : Bytes) (fields : List Bytes) (r : Bytes) (c : Conn σ) :
    Bool × Bytes × Conn σ :=
  if cmd = text "PUT" then srv.handlePut fields r c
  else if cmd = text "GET" then (false, r, srv.handleGet fields c)
  else if cmd = text "DEL" then (false, r, srv.handleDel fields c)
  else (false, r, writeErr c (text "unknown command " ++ quoted srv.tables cmd))

/-- One pass of the loop: whether `handleConn` returns, what is left to read, and the
connection. -/
def turn (r : Bytes) (c : Conn σ) : Bool × Bytes × Conn σ :=
  match readLine maxLineSize r with
  | none => (true, [], c)
  | some (line, r) =>
      match fields line with
      | [] => (false, r, c)
      | name :: args =>
          let (fatal, r, c) := srv.dispatch (toUpper srv.tables name) (name :: args) r c
          (!srv.flush c.out || fatal, r, c)

def handleConnUpTo : ℕ → Bytes → Conn σ → Conn σ
  | 0, _, c => c
  | n + 1, r, c =>
      match srv.turn r c with
      | (true, _, c) => c
      | (false, r, c) => handleConnUpTo n r c

/-- `handleConn` on the bytes `r`: every pass but the last consumes some. -/
def handleConn (r : Bytes) (c : Conn σ) : Conn σ := srv.handleConnUpTo (r.length + 1) r c

/-! ## §3  The loop -/

theorem readLineFrom_lt {maxSize : ℕ} : ∀ {r line line' rest : Bytes},
    readLineFrom maxSize line r = some (line', rest) → rest.length < r.length
  | [], _, _, _, h => by cases h
  | b :: r, line, line', rest, h => by
      rw [readLineFrom] at h
      split_ifs at h
      · cases h
        exact Nat.lt_succ_self _
      · exact Nat.lt_succ_of_lt (readLineFrom_lt h)

theorem readLine_lt {maxSize : ℕ} {r line rest : Bytes}
    (h : readLine maxSize r = some (line, rest)) : rest.length < r.length := by
  obtain ⟨⟨line', rest'⟩, hfrom, heq⟩ := Option.map_eq_some_iff.mp h
  cases heq
  exact readLineFrom_lt hfrom

theorem readFull_le {n : ℕ} {r bs rest : Bytes} (h : readFull n r = some (bs, rest)) :
    rest.length ≤ r.length := by
  unfold readFull at h
  split_ifs at h
  cases h
  rw [List.length_drop]
  exact Nat.sub_le _ _

theorem receiveValue_le (key : Bytes) (n : ℕ) (r : Bytes) (c : Conn σ) :
    (srv.receiveValue key n r c).2.1.length ≤ r.length := by
  unfold receiveValue
  split
  · exact Nat.zero_le _
  · rename_i hvalue
    split
    · rename_i hterm
      have := (readFull_le hterm).trans (readFull_le hvalue)
      split <;> exact this
    · exact Nat.zero_le _

theorem dispatch_le (cmd : Bytes) (fields : List Bytes) (r : Bytes) (c : Conn σ) :
    (srv.dispatch cmd fields r c).2.1.length ≤ r.length := by
  unfold dispatch
  split_ifs
  · unfold handlePut
    split
    · split
      · exact le_refl _
      · split_ifs
        · exact le_refl _
        · exact le_refl _
        · exact srv.receiveValue_le _ _ _ _
    · exact le_refl _
  all_goals exact le_refl _

theorem turn_lt {r rest : Bytes} {c c' : Conn σ} (h : srv.turn r c = (false, rest, c')) :
    rest.length < r.length := by
  unfold turn at h
  split at h
  · cases h
  · rename_i line r' hline
    have hlt := readLine_lt hline
    split at h
    · cases h
      exact hlt
    · rename_i name args _
      have hle := srv.dispatch_le (toUpper srv.tables name) (name :: args) r' c
      obtain ⟨-, hrest⟩ := Prod.mk.inj h
      rw [← (Prod.mk.inj hrest).1]
      exact hle.trans_lt hlt

theorem handleConnUpTo_of_lt {n m : ℕ} {r : Bytes} (c : Conn σ) (hn : r.length < n)
    (hm : r.length < m) : srv.handleConnUpTo n r c = srv.handleConnUpTo m r c := by
  induction n generalizing m r c with
  | zero => exact absurd hn (Nat.not_lt_zero _)
  | succ n ih =>
      obtain ⟨m, rfl⟩ : ∃ k, m = k + 1 := ⟨m - 1, by omega⟩
      rw [handleConnUpTo, handleConnUpTo]
      rcases hturn : srv.turn r c with ⟨_ | _, rest, c'⟩
      · have hlt := srv.turn_lt hturn
        exact ih c' (by omega) (by omega)
      · rfl

/-- A pass that ends the connection. -/
theorem handleConn_close {r rest : Bytes} {c c' : Conn σ} (h : srv.turn r c = (true, rest, c')) :
    srv.handleConn r c = c' := by
  rw [handleConn, handleConnUpTo, h]

/-- A pass that goes on. -/
theorem handleConn_next {r rest : Bytes} {c c' : Conn σ} (h : srv.turn r c = (false, rest, c')) :
    srv.handleConn r c = srv.handleConn rest c' := by
  have hlt := srv.turn_lt h
  rw [handleConn, handleConnUpTo, h]
  exact srv.handleConnUpTo_of_lt c' hlt (Nat.lt_succ_self _)

/-! ## §4  A command line -/

theorem readLineFrom_append {maxSize : ℕ} (rest : Bytes) : ∀ {line acc : Bytes}, 10 ∉ line →
    acc.length + line.length ≤ maxSize →
    readLineFrom maxSize acc (line ++ 10 :: rest) = some (acc ++ line, rest)
  | [], acc, _, _ => by
      rw [List.nil_append, readLineFrom, if_pos rfl, List.append_nil]
  | b :: line, acc, hno, hlen => by
      have hb : b ≠ 10 := fun h => hno (h ▸ List.mem_cons_self)
      rw [List.length_cons] at hlen
      have hfit : (acc ++ [b]).length + line.length ≤ maxSize := by
        rw [List.length_append, List.length_singleton]
        omega
      rw [List.cons_append, readLineFrom, if_neg hb, if_neg (by omega),
        readLineFrom_append rest (fun h => hno (List.mem_cons_of_mem b h)) hfit, List.append_assoc]
      rfl

/-- A line that fits, CR included, arrives without its end. -/
theorem readLine_append {maxSize : ℕ} {line : Bytes} (hno : 10 ∉ line)
    (hlen : line.length + 1 ≤ maxSize) (rest : Bytes) :
    readLine maxSize (line ++ crlf ++ rest) = some (line, rest) := by
  have hbytes : line ++ crlf ++ rest = (line ++ [13]) ++ 10 :: rest := by
    rw [crlf, List.append_assoc, List.append_assoc]
    rfl
  have hno' : 10 ∉ line ++ [13] := by
    rw [List.mem_append]
    rintro (h | h)
    · exact hno h
    · exact absurd h (by decide)
  rw [readLine, hbytes, readLineFrom_append rest hno' (by simpa using hlen), Option.map_some,
    List.nil_append, stripCR, if_pos List.getLast?_concat, List.dropLast_concat]

theorem linefeed_not_mem_joined : ∀ {ws : List Bytes}, (∀ w ∈ ws, Word w) → 10 ∉ joined ws
  | [], _ => List.not_mem_nil
  | [w], h => (h w List.mem_cons_self).not_mem (by decide) (by decide)
  | w :: v :: vs, h => by
      rw [Foundation.Text.joined_cons (List.cons_ne_nil v vs), List.mem_append, List.mem_cons]
      rintro (hw | hblank | hrest)
      · exact (h w List.mem_cons_self).not_mem (by decide) (by decide) hw
      · exact absurd hblank (by decide)
      · exact linefeed_not_mem_joined (fun u hu => h u (List.mem_cons_of_mem w hu)) hrest

/-- **One command line.** The words of the line reach the `switch`, which reads on
from behind the line. -/
theorem turn_line {name : Bytes} {args : List Bytes} (hwords : ∀ w ∈ name :: args, Word w)
    (hlen : (joined (name :: args)).length + 1 ≤ maxLineSize) (rest : Bytes) (c : Conn σ) :
    srv.turn (joined (name :: args) ++ crlf ++ rest) c =
      let (fatal, r, c) := srv.dispatch (toUpper srv.tables name) (name :: args) rest c
      (!srv.flush c.out || fatal, r, c) := by
  rw [turn, readLine_append (linefeed_not_mem_joined hwords) hlen]
  dsimp only
  rw [Foundation.Text.fields_joined hwords]

end Server

end KVEngine
