import KVEngine.Foundation.Framing
import KVEngine.Server.Passes

/-!
# The response stream

The documented responses are lines that end in CRLF, and a value behind the line with its
length. `Frame` says what each may look like; the bytes of a connection are frames in one
way only, and there is one for every command that was answered (`responses_in_frame`).

Two things keep the stream in frame. A value is delimited by its length, and of an error
message every CRLF is replaced by a blank (`replaceCRLF`), so that the line ends where
`writeErr` ends it. A line feed or a carriage return alone may stand in a message: it ends
no line.
-/

namespace KVEngine.Server

open Foundation (Spells parseAll)
open Foundation.Text (text parseNat fields toUpper)
open KVStore (Op)

/-! ## §1  The grammar -/

inductive Response : Type where
  | ok
  | err (message : Bytes)
  | missing
  | value (v : Bytes)
deriving DecidableEq

/-- The documented responses. A message is anything without a CRLF, a length any numeral. -/
inductive Frame : Response → Bytes → Prop where
  | ok : Frame .ok (text "+OK\r\n")
  | err {message : Bytes} (h : ¬ crlf <:+: message) :
      Frame (.err message) (text "-ERR " ++ message ++ crlf)
  | missing : Frame .missing (text "$-1\r\n")
  | value {len v : Bytes} (h : parseNat len = some v.length) :
      Frame (.value v) (text "$" ++ len ++ crlf ++ v ++ crlf)

/-! ## §2  A client that reads them -/

/-- The bytes up to the first CRLF, which is consumed. -/
def cutLine : Bytes → Option (Bytes × Bytes)
  | [] => none
  | 13 :: 10 :: r => some ([], r)
  | b :: r => (cutLine r).map fun p => (b :: p.1, p.2)

def readValue (n : ℕ) (r : Bytes) : Option (Response × Bytes) :=
  match readFull n r with
  | none => none
  | some (v, r) =>
      match readFull 2 r with
      | some ([13, 10], r) => some (.value v, r)
      | _ => none

def readResponse (r : Bytes) : Option (Response × Bytes) :=
  match cutLine r with
  | none => none
  | some (line, r) =>
      if line = text "+OK" then some (.ok, r)
      else if line = text "$-1" then some (.missing, r)
      else
        match line with
        | 36 :: len => (parseNat len).bind fun n => readValue n r
        | 45 :: 69 :: 82 :: 82 :: 32 :: message => some (.err message, r)
        | _ => none

theorem not_crlf_cons {b : UInt8} {l : Bytes} (hb : b ≠ 13) (h : ¬ crlf <:+: l) :
    ¬ crlf <:+: b :: l := by
  rw [List.infix_cons_iff]
  rintro (hpre | hinf)
  · exact hb (List.cons_prefix_cons.mp hpre).1.symm
  · exact h hinf

theorem not_crlf_append {l : Bytes} (h : ¬ crlf <:+: l) : ∀ {a : Bytes}, 13 ∉ a →
    ¬ crlf <:+: a ++ l
  | [], _ => h
  | b :: a, hno => by
      rw [List.mem_cons, not_or] at hno
      exact not_crlf_cons (fun hb => hno.1 hb.symm) (not_crlf_append h hno.2)

theorem not_crlf_of_not_mem {l : Bytes} (h : 13 ∉ l) : ¬ crlf <:+: l :=
  fun hinf => h (hinf.subset List.mem_cons_self)

theorem cutLine_append (t : Bytes) : ∀ {line : Bytes}, ¬ crlf <:+: line →
    cutLine (line ++ crlf ++ t) = some (line, t)
  | [], _ => rfl
  | b :: l, h => by
      have htail : ¬ crlf <:+: l := fun hinf => h (hinf.trans (List.suffix_cons b l).isInfix)
      rw [List.cons_append, List.cons_append, cutLine, cutLine_append t htail]
      · rfl
      · -- the line does not start with CRLF, also not with its own end
        rintro r rfl heq
        cases l with
        | nil => cases heq
        | cons x l =>
            cases heq
            exact h (List.prefix_append [13, 10] l).isInfix

theorem cutLine_lt : ∀ {r line rest : Bytes}, cutLine r = some (line, rest) →
    rest.length < r.length := by
  intro r
  fun_induction cutLine r with
  | case1 =>
      intro line rest h
      cases h
  | case2 r =>
      intro line rest h
      cases h
      exact Nat.lt_succ_of_lt (Nat.lt_succ_self _)
  | case3 b r _ ih =>
      intro line rest h
      obtain ⟨p, hp, heq⟩ := Option.map_eq_some_iff.mp h
      cases heq
      exact Nat.lt_succ_of_lt (ih hp)

theorem readValue_append (v t : Bytes) :
    readValue v.length (v ++ crlf ++ t) = some (.value v, t) := by
  have hterm : readFull 2 (crlf ++ t) = some ([13, 10], t) := readFull_append crlf t
  rw [readValue, List.append_assoc, readFull_append]
  dsimp only
  rw [hterm]
  rfl

theorem readValue_le {n : ℕ} {r rest : Bytes} {resp : Response}
    (h : readValue n r = some (resp, rest)) : rest.length ≤ r.length := by
  unfold readValue at h
  split at h
  · cases h
  · rename_i v r' hvalue
    split at h
    · rename_i r'' hterm
      cases h
      exact (readFull_le hterm).trans (readFull_le hvalue)
    · cases h

theorem readResponse_lt (r : Bytes) (resp : Response) (rest : Bytes)
    (h : readResponse r = some (resp, rest)) : rest.length < r.length := by
  unfold readResponse at h
  split at h
  · cases h
  · rename_i line r' hline
    refine lt_of_le_of_lt ?_ (cutLine_lt hline)
    split_ifs at h
    · cases h
      exact le_rfl
    · cases h
      exact le_rfl
    · split at h
      · obtain ⟨n, -, hn⟩ := Option.bind_eq_some_iff.mp h
        exact readValue_le hn
      · cases h
        exact le_rfl
      · cases h

/-- The client takes a frame as a whole and nothing of what follows it. -/
theorem readResponse_append {resp : Response} {x : Bytes} (t : Bytes) (h : Frame resp x) :
    readResponse (x ++ t) = some (resp, t) := by
  cases h with
  | ok =>
      have hno : ¬ crlf <:+: text "+OK" := by decide +kernel
      have hline : cutLine (text "+OK\r\n" ++ t) = some (text "+OK", t) := cutLine_append t hno
      rw [readResponse, hline]
      rfl
  | missing =>
      have hno : ¬ crlf <:+: text "$-1" := by decide +kernel
      have hline : cutLine (text "$-1\r\n" ++ t) = some (text "$-1", t) := cutLine_append t hno
      rw [readResponse, hline]
      rfl
  | @err message hno =>
      have hline : ¬ crlf <:+: text "-ERR " ++ message :=
        not_crlf_append hno (by decide +kernel)
      rw [readResponse, cutLine_append t hline]
      rfl
  | @value len v hlen =>
      have hno : 13 ∉ text "$" ++ len := by
        rw [List.mem_append]
        rintro (h | h)
        · exact absurd h (by decide +kernel)
        · exact absurd (Foundation.Text.parseNat_range hlen 13 h).1 (by decide)
      -- a numeral is not the `-1` of a missing value
      have hmissing : text "$" ++ len ≠ text "$-1" := by
        intro heq
        have hminus : len = text "-1" := (List.cons.inj heq).2
        have hnone : parseNat (text "-1") = none := by decide +kernel
        rw [hminus, hnone] at hlen
        cases hlen
      have hbytes : text "$" ++ len ++ crlf ++ v ++ crlf ++ t =
          text "$" ++ len ++ crlf ++ (v ++ crlf ++ t) := by
        simp only [List.append_assoc]
      rw [readResponse, hbytes, cutLine_append _ (not_crlf_of_not_mem hno)]
      dsimp only
      rw [if_neg hmissing]
      show (parseNat len).bind _ = _
      rw [hlen]
      exact readValue_append v t

/-! ## §3  What is written -/

theorem head_replaceCRLF {s r : Bytes} (h : replaceCRLF s = 10 :: r) : ∃ s', s = 10 :: s' := by
  unfold replaceCRLF at h
  split at h
  · cases h
  · cases h
  · cases h
    exact ⟨_, rfl⟩

/-- A message that is written has no CRLF left: what would make a new one has been
replaced too. -/
theorem not_crlf_replaceCRLF (s : Bytes) : ¬ crlf <:+: replaceCRLF s := by
  fun_induction replaceCRLF s with
  | case1 => decide
  | case2 s ih => exact not_crlf_cons (by decide) ih
  | case3 b s hnot ih =>
      rw [List.infix_cons_iff]
      rintro (hpre | hinf)
      · obtain ⟨rfl, t, ht⟩ := List.cons_prefix_cons.mp hpre
        obtain ⟨s', rfl⟩ := head_replaceCRLF ht.symm
        exact hnot s' rfl rfl
      · exact ih hinf

theorem frame_errLine (msg : Bytes) : Frame (.err (replaceCRLF msg)) (errLine msg) :=
  .err (not_crlf_replaceCRLF msg)

/-- The answer to a call is one response. -/
theorem frame_answer (op : Op) (result : Option Bytes) :
    ∃ resp, Frame resp (op.answer result) := by
  cases op with
  | get key =>
      cases result with
      | none => exact ⟨_, .missing⟩
      | some v => exact ⟨_, .value (Foundation.Text.parseNat_decimal v.length)⟩
  | put key value =>
      cases result with
      | none => exact ⟨_, .ok⟩
      | some err => exact ⟨_, frame_errLine _⟩
  | delete key =>
      cases result with
      | none => exact ⟨_, .ok⟩
      | some err => exact ⟨_, frame_errLine _⟩

section Exchanges

variable {σ : Type} (srv : Server σ)

/-- The fields of the line at the front; none if it is blank or there is no line. -/
def command (r : Bytes) : List Bytes :=
  match readLine maxLineSize r with
  | none => []
  | some (line, _) => fields line

/-- A command that was answered, and what was written for it. -/
structure Exchange where
  command : List Bytes
  written : Bytes

/-- What a pass that turned `c` into `c'` adds. -/
def exchange (r : Bytes) (c c' : Conn σ) : List Exchange :=
  if command r = [] ∨ c'.out.drop c.out.length = [] then []
  else [⟨command r, c'.out.drop c.out.length⟩]

/-- The commands of a connection that were answered, in order. -/
def exchanges (r : Bytes) (c : Conn σ) : List Exchange :=
  match _ : srv.turn r c with
  | (true, _, c') => exchange r c c'
  | (false, rest, c') => exchange r c c' ++ exchanges rest c'
termination_by r.length
decreasing_by exact srv.turn_lt ‹_›

variable {r rest : Bytes} {c c' : Conn σ} {stop : Bool}

theorem exchanges_close (h : srv.turn r c = (true, rest, c')) :
    srv.exchanges r c = exchange r c c' := by
  rw [exchanges]
  split
  · rename_i heq
    cases heq.symm.trans h
    rfl
  · rename_i heq
    cases heq.symm.trans h

theorem exchanges_next (h : srv.turn r c = (false, rest, c')) :
    srv.exchanges r c = exchange r c c' ++ srv.exchanges rest c' := by
  rw [exchanges]
  split
  · rename_i heq
    cases heq.symm.trans h
  · rename_i heq
    cases heq.symm.trans h
    rfl

/-- Nothing is written for a blank line. -/
theorem turn_blank (h : srv.turn r c = (stop, rest, c')) (hblank : command r = []) : c' = c := by
  unfold turn at h
  unfold command at hblank
  split at h
  · cases h
    rfl
  · rename_i line r' hline
    rw [hline] at hblank
    dsimp only at hblank
    rw [hblank] at h
    cases h
    rfl

/-- A pass writes nothing, or one response. -/
theorem turn_out (h : srv.turn r c = (stop, rest, c')) :
    c'.out = c.out ∨ ∃ resp x, Frame resp x ∧ c'.out = c.out ++ x := by
  have hmute : ∀ {d : Conn σ}, Mute c d →
      d.out = c.out ∨ ∃ resp x, Frame resp x ∧ d.out = c.out ++ x := by
    rintro d (rfl | ⟨msg, rfl⟩)
    · exact Or.inl rfl
    · exact Or.inr ⟨_, _, frame_errLine msg, rfl⟩
  rcases srv.turn_cases h with ⟨-, hnone⟩ | ⟨used, -, -, hnone | ⟨op, rfl, -⟩⟩
  · exact hmute hnone
  · exact hmute hnone
  · obtain ⟨resp, hframe⟩ := frame_answer op (c.perform srv.store op).1
    exact Or.inr ⟨resp, _, hframe, rfl⟩

theorem Frame.ne_nil {resp : Response} {x : Bytes} (h : Frame resp x) : x ≠ [] := by
  rintro rfl
  cases (show none = some (resp, []) from readResponse_append [] h)

/-- A command after which the connection goes on is answered. -/
theorem turn_answers (h : srv.turn r c = (false, rest, c')) (hcommand : command r ≠ []) :
    c'.out ≠ c.out := by
  unfold turn at h
  unfold command at hcommand
  split at h
  · cases h
  · rename_i line r' hline
    rw [hline] at hcommand
    split at h
    · rename_i hblank
      exact absurd hblank hcommand
    · rename_i name args _
      rcases hswitch : srv.dispatch (toUpper srv.tables name) (name :: args) r' c with
        ⟨fatal, rest', d⟩
      rw [hswitch] at h
      obtain ⟨hgoes, hrest⟩ := Prod.mk.inj h
      obtain ⟨rfl, rfl⟩ := Prod.mk.inj hrest
      rcases srv.dispatch_cases hswitch with ⟨rfl, -⟩ | ⟨body, -, -, ⟨msg, rfl⟩ | ⟨op, rfl, -⟩⟩
      · rw [Bool.or_true] at hgoes
        cases hgoes
      · exact fun hsame => (frame_errLine msg).ne_nil (List.append_right_eq_self.mp hsame)
      · obtain ⟨resp, hframe⟩ := frame_answer op (c.perform srv.store op).1
        exact fun hsame => hframe.ne_nil (List.append_right_eq_self.mp hsame)

/-- What a pass adds is what it writes, and one response if it is anything. -/
theorem exchange_spec (h : srv.turn r c = (stop, rest, c')) :
    c'.out = c.out ++ (exchange r c c').flatMap Exchange.written ∧
      ∃ rs, List.Forall₂ Frame rs ((exchange r c c').map Exchange.written) := by
  rcases srv.turn_out h with hsame | ⟨resp, x, hframe, hout⟩
  · have hnone : exchange r c c' = [] := by
      rw [exchange, if_pos (Or.inr (by rw [hsame, List.drop_length]))]
    rw [hnone, hsame]
    exact ⟨(List.append_nil _).symm, [], .nil⟩
  · have hx : c'.out.drop c.out.length = x := by rw [hout, List.drop_left]
    have hcommand : command r ≠ [] := by
      intro hblank
      rw [srv.turn_blank h hblank, List.self_eq_append_right] at hout
      exact hframe.ne_nil hout
    have hone : exchange r c c' = [⟨command r, x⟩] := by
      rw [exchange, hx, if_neg (not_or.mpr ⟨hcommand, hframe.ne_nil⟩)]
    rw [hone, hout]
    exact ⟨by simp, [resp], .cons hframe .nil⟩

theorem exchanges_spec (r : Bytes) (c : Conn σ) :
    (srv.handleConn r c).out = c.out ++ (srv.exchanges r c).flatMap Exchange.written ∧
      ∃ rs, List.Forall₂ Frame rs ((srv.exchanges r c).map Exchange.written) := by
  induction r, c using srv.handleConn_induction with
  | close r c rest c' hturn =>
      rw [srv.handleConn_close hturn, srv.exchanges_close hturn]
      exact srv.exchange_spec hturn
  | next r c rest c' hturn ih =>
      obtain ⟨hout, rs, hrs⟩ := ih
      obtain ⟨hpass, ps, hps⟩ := srv.exchange_spec hturn
      rw [srv.handleConn_next hturn, srv.exchanges_next hturn]
      constructor
      · rw [hout, hpass, List.flatMap_append, List.append_assoc]
      · rw [List.map_append]
        exact ⟨ps ++ rs, List.rel_append hps hrs⟩

theorem command_of_mem_exchanges (r : Bytes) (c : Conn σ) :
    ∀ x ∈ srv.exchanges r c, x.command ≠ [] := by
  have hpass : ∀ {r : Bytes} {c c' : Conn σ}, ∀ x ∈ exchange r c c', x.command ≠ [] := by
    intro r c c' x hx
    unfold exchange at hx
    split_ifs at hx with hnone
    · cases hx
    · rw [List.mem_singleton.mp hx]
      exact (not_or.mp hnone).1
  induction r, c using srv.handleConn_induction with
  | close r c rest c' hturn =>
      rw [srv.exchanges_close hturn]
      exact hpass
  | next r c rest c' hturn ih =>
      intro x hx
      rw [srv.exchanges_next hturn] at hx
      exact (List.mem_append.mp hx).elim (hpass x) (ih x)

/-- **The responses stay in frame.** Whatever the client sends and whatever the store
returns, the bytes written are one response for each command that was answered, in order,
and nothing else; and they can be read as responses in no other way. -/
theorem responses_in_frame (r : Bytes) (s : σ) :
    let out := (srv.handleConn r (accept s)).out
    let answered := srv.exchanges r (accept s)
    (∀ x ∈ answered, x.command ≠ []) ∧ out = answered.flatMap Exchange.written ∧
      ∃ rs, List.Forall₂ (fun x resp => Frame resp x.written) answered rs ∧
        Spells Frame rs out ∧ ∀ rs', Spells Frame rs' out → rs' = rs := by
  intro out answered
  obtain ⟨hout, rs, hrs⟩ := srv.exchanges_spec r (accept s)
  have hspells : Spells Frame rs out := by
    rw [show out = answered.flatMap Exchange.written from hout, List.flatMap_def]
    exact Foundation.spells_of_forall₂ hrs
  have hread : ∀ {us}, Spells Frame us out → parseAll readResponse out = us := fun h =>
    h.parseAll readResponse_lt readResponse_append
  refine ⟨srv.command_of_mem_exchanges r (accept s), hout, rs, ?_, hspells, fun us hus => ?_⟩
  · exact (List.forall₂_map_right_iff.mp hrs).flip
  · rw [← hread hus, hread hspells]

end Exchanges

/-- A blank line is not answered, and a value that is a CRLF is no end of a line. -/
example : parseAll readResponse (plain.handleConn
    (text "GET k\r\n\r\nPUT k 2\r\n\r\n\r\nGET k\r\nFOO\r\n") (accept (Store.openStore []))).out =
      [.missing, .ok, .value crlf, .err (text "unknown command \"FOO\"")] := by
  decide +kernel

end KVEngine.Server
