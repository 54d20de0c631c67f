import KVEngine.Server.Requests

/-!
# What one pass of a connection takes and does

A pass of the loop of `handleConn` either ends the connection without a call to the
store, or is decided by the bytes it takes: with anything else behind them it goes the
same way (`turn_cases`). Where a stream is cut therefore makes no difference to the passes
before the cut, and the pass it falls into does nothing to the store (`cut_connection`).
The bytes may be anything; they need not be requests.
-/

namespace KVEngine.Server

open Foundation.Text (text decimal atoi fields toUpper quoted)
open KVStore (Op)

variable {σ : Type} (srv : Server σ)

/-! ## §1  The readers -/

theorem readLineFrom_some {maxSize : ℕ} : ∀ {r acc line' rest : Bytes},
    readLineFrom maxSize acc r = some (line', rest) → acc.length ≤ maxSize →
    ∃ line, r = line ++ 10 :: rest ∧ 10 ∉ line ∧ line' = acc ++ line ∧
      acc.length + line.length ≤ maxSize
  | [], _, _, _, h, _ => by cases h
  | b :: r, acc, line', rest, h, hacc => by
      rw [readLineFrom] at h
      split_ifs at h with hb hlong
      · cases h
        refine ⟨[], ?_, List.not_mem_nil, (List.append_nil _).symm, hacc⟩
        rw [hb]
        rfl
      · obtain ⟨line, rfl, hno, hline, hlen⟩ := readLineFrom_some h (not_lt.mp hlong)
        rw [List.length_append, List.length_singleton] at hlen
        refine ⟨b :: line, rfl, ?_, ?_, ?_⟩
        · exact fun hmem => (List.mem_cons.mp hmem).elim (fun h => hb h.symm) hno
        · rw [hline, List.append_assoc]
          rfl
        · rw [List.length_cons]
          omega

/-- A line that was read ends at the first line feed, whatever comes behind it. -/
theorem readLine_some {maxSize : ℕ} {r l rest : Bytes} (h : readLine maxSize r = some (l, rest)) :
    ∃ line, r = line ++ 10 :: rest ∧ 10 ∉ line ∧ l = stripCR line ∧
      ∀ t, readLine maxSize (line ++ 10 :: t) = some (l, t) := by
  obtain ⟨⟨line', rest'⟩, hfrom, heq⟩ := Option.map_eq_some_iff.mp h
  cases heq
  obtain ⟨line, hr, hno, hline, hlen⟩ := readLineFrom_some hfrom (Nat.zero_le _)
  rw [List.nil_append] at hline
  subst hline
  refine ⟨line', hr, hno, rfl, fun t => ?_⟩
  rw [readLine, readLineFrom_append t hno hlen]
  rfl

theorem readFull_some {n : ℕ} {r bs rest : Bytes} (h : readFull n r = some (bs, rest)) :
    r = bs ++ rest ∧ bs.length = n := by
  unfold readFull at h
  split_ifs at h with hle
  cases h
  exact ⟨(List.take_append_drop n r).symm, List.length_take_of_le hle⟩

/-! ## §2  The handlers -/

/-- At most an error was written; the store was not called. -/
def Mute (c c' : Conn σ) : Prop := c' = c ∨ ∃ msg, c' = writeErr c msg

theorem Mute.ops {c c' : Conn σ} (h : Mute c c') : c'.ops = c.ops := by
  rcases h with rfl | ⟨msg, rfl⟩
  · rfl
  · rfl

section Handlers

variable {cmd key r rest : Bytes} {fs : List Bytes} {c c' : Conn σ} {n : ℕ} {fatal : Bool}

theorem receiveValue_cases (h : srv.receiveValue key n r c = (fatal, rest, c')) :
    (fatal = true ∧ Mute c c') ∨
      ∃ value, value.length = n ∧ r = value ++ crlf ++ rest ∧ fatal = false ∧
        c' = srv.serve c (.put key value) := by
  have hpass := h
  unfold receiveValue at h
  split at h
  · cases h
    exact Or.inl ⟨rfl, Or.inl rfl⟩
  · rename_i value r' hvalue
    obtain ⟨rfl, rfl⟩ := readFull_some hvalue
    split at h
    · -- with the value and its end there, this is the pass of a complete request
      rename_i r'' hterm
      obtain ⟨rfl, -⟩ := readFull_some hterm
      rw [← List.append_assoc] at hpass ⊢
      cases (srv.receiveValue_append key value r'' c).symm.trans hpass
      exact Or.inr ⟨value, rfl, rfl, rfl, rfl⟩
    · cases h
      exact Or.inl ⟨rfl, Or.inr ⟨_, rfl⟩⟩

/-- `handlePut` finds no complete value, or refuses the line, or carries out the request
and takes exactly its value and terminator. -/
theorem handlePut_cases (h : srv.handlePut fs r c = (fatal, rest, c')) :
    (fatal = true ∧ Mute c c') ∨
      (rest = r ∧ ∃ msg, c' = writeErr c msg ∧
        ∀ t, srv.handlePut fs t c = (fatal, t, writeErr c msg)) ∨
      ∃ name key len value, fs = [name, key, len] ∧ atoi len = some (value.length : ℤ) ∧
        r = value ++ crlf ++ rest ∧ c' = srv.serve c (.put key value) ∧
        ∀ t, srv.handlePut fs (value ++ crlf ++ t) c = (fatal, t, c') := by
  unfold handlePut at h ⊢
  split at h
  · rename_i name key len
    cases hlen : atoi len with
    | none =>
        rw [hlen] at h
        cases h
        exact Or.inr (Or.inl ⟨rfl, _, rfl, fun t => rfl⟩)
    | some n =>
        rw [hlen] at h
        dsimp only at h ⊢
        split_ifs at h ⊢ with hneg hbig
        · cases h
          exact Or.inr (Or.inl ⟨rfl, _, rfl, fun t => rfl⟩)
        · cases h
          exact Or.inr (Or.inl ⟨rfl, _, rfl, fun t => rfl⟩)
        · rcases srv.receiveValue_cases h with hmute | ⟨value, hvalue, rfl, rfl, rfl⟩
          · exact Or.inl hmute
          · refine Or.inr (Or.inr ⟨name, key, len, value, rfl, ?_, rfl, rfl, fun t => ?_⟩)
            · rw [hlen, hvalue, Int.toNat_of_nonneg (not_lt.mp hneg)]
            · rw [← hvalue, receiveValue_append]
  · cases h
    exact Or.inr (Or.inl ⟨rfl, _, rfl, fun t => rfl⟩)

theorem handleGet_cases (fs : List Bytes) (c : Conn σ) :
    (∃ msg, srv.handleGet fs c = writeErr c msg) ∨
      ∃ key, srv.handleGet fs c = srv.serve c (.get key) := by
  unfold handleGet
  split
  · rename_i key
    refine Or.inr ⟨key, ?_⟩
    unfold serve
    rcases c.perform srv.store (.get key) with ⟨_ | v, c'⟩
    · rfl
    · rfl
  · exact Or.inl ⟨_, rfl⟩

theorem handleDel_cases (fs : List Bytes) (c : Conn σ) :
    (∃ msg, srv.handleDel fs c = writeErr c msg) ∨
      ∃ key, srv.handleDel fs c = srv.serve c (.delete key) := by
  unfold handleDel
  split
  · rename_i key
    refine Or.inr ⟨key, ?_⟩
    unfold serve
    rcases c.perform srv.store (.delete key) with ⟨_ | err, c'⟩
    · rfl
    · rfl
  · exact Or.inl ⟨_, rfl⟩

/-- The `switch` finds no complete value, or it is decided by the bytes `body` it takes
behind the line. -/
theorem dispatch_cases (h : srv.dispatch cmd fs r c = (fatal, rest, c')) :
    (fatal = true ∧ Mute c c') ∨
      ∃ body, r = body ++ rest ∧ (∀ t, srv.dispatch cmd fs (body ++ t) c = (fatal, t, c')) ∧
        ((∃ msg, c' = writeErr c msg) ∨ ∃ op, c' = srv.serve c op ∧
          ∀ key value, op = .put key value → cmd = text "PUT" ∧ body = value ++ crlf ∧
            ∃ name len, fs = [name, key, len] ∧ atoi len = some (value.length : ℤ)) := by
  unfold dispatch at h ⊢
  split_ifs at h ⊢ with hput hget hdel
  · rcases srv.handlePut_cases h with hmute | ⟨rfl, msg, rfl, hany⟩ |
      ⟨name, key, len, value, rfl, hlen, rfl, rfl, hany⟩
    · exact Or.inl hmute
    · exact Or.inr ⟨[], rfl, hany, Or.inl ⟨msg, rfl⟩⟩
    · refine Or.inr ⟨value ++ crlf, rfl, hany, Or.inr ⟨_, rfl, fun key' value' heq => ?_⟩⟩
      cases heq
      exact ⟨hput, rfl, name, len, rfl, hlen⟩
  · cases h
    refine Or.inr ⟨[], rfl, fun t => rfl, ?_⟩
    rcases srv.handleGet_cases fs c with hmsg | ⟨key, hserve⟩
    · exact Or.inl hmsg
    · exact Or.inr ⟨_, hserve, fun _ _ heq => Op.noConfusion heq⟩
  · cases h
    refine Or.inr ⟨[], rfl, fun t => rfl, ?_⟩
    rcases srv.handleDel_cases fs c with hmsg | ⟨key, hserve⟩
    · exact Or.inl hmsg
    · exact Or.inr ⟨_, hserve, fun _ _ heq => Op.noConfusion heq⟩
  · cases h
    exact Or.inr ⟨[], rfl, fun t => rfl, Or.inl ⟨_, rfl⟩⟩

end Handlers

/-! ## §3  The pass -/

/-- A `PUT` in full: its line, the value and the terminator. -/
def PutFrame (key value frame : Bytes) : Prop :=
  ∃ line name len, frame = line ++ 10 :: (value ++ crlf) ∧ 10 ∉ line ∧
    fields (stripCR line) = [name, key, len] ∧ toUpper srv.tables name = text "PUT" ∧
    atoi len = some (value.length : ℤ)

section Passes

variable {r rest : Bytes} {c c' : Conn σ} {stop : Bool}

/-- **One pass.** It ends the connection and does nothing to the store; or it is decided
by the bytes `used` and carries out one request at most, a `PUT` only if these are all of
it. -/
theorem turn_cases (h : srv.turn r c = (stop, rest, c')) :
    (stop = true ∧ Mute c c') ∨
      ∃ used, r = used ++ rest ∧ (∀ t, srv.turn (used ++ t) c = (stop, t, c')) ∧
        (Mute c c' ∨ ∃ op, c' = srv.serve c op ∧
          ∀ key value, op = .put key value → srv.PutFrame key value used) := by
  unfold turn at h
  split at h
  · cases h
    exact Or.inl ⟨rfl, Or.inl rfl⟩
  · rename_i l r' hread
    obtain ⟨line, rfl, hno, rfl, hany⟩ := readLine_some hread
    split at h
    · -- a blank line
      rename_i hblank
      cases h
      refine Or.inr ⟨line ++ [10], by simp, fun t => ?_, Or.inl (Or.inl rfl)⟩
      rw [turn, List.append_assoc, List.singleton_append, hany]
      dsimp only
      rw [hblank]
    · rename_i name args hfields
      rcases hswitch : srv.dispatch (toUpper srv.tables name) (name :: args) r' c with
        ⟨fatal, rest', c''⟩
      rw [hswitch] at h
      cases h
      rcases srv.dispatch_cases hswitch with ⟨rfl, hmute⟩ | ⟨body, rfl, hsame, hdone⟩
      · exact Or.inl ⟨Bool.or_true _, hmute⟩
      · refine Or.inr ⟨line ++ 10 :: body, by simp, fun t => ?_, ?_⟩
        · rw [turn, List.append_assoc, List.cons_append, hany]
          dsimp only
          rw [hfields]
          dsimp only
          rw [hsame]
        · rcases hdone with hmsg | ⟨op, hserve, hput⟩
          · exact Or.inl (Or.inr hmsg)
          · refine Or.inr ⟨op, hserve, fun key value heq => ?_⟩
            obtain ⟨hcmd, rfl, name', len, hargs, hlen⟩ := hput key value heq
            obtain ⟨rfl, rfl⟩ := List.cons.inj hargs
            exact ⟨line, name, len, rfl, hno, hfields, hcmd, hlen⟩

theorem turn_ops (h : srv.turn r c = (stop, rest, c')) : c.ops <+: c'.ops := by
  rcases srv.turn_cases h with ⟨-, hmute⟩ | ⟨used, -, -, hmute | ⟨op, rfl, -⟩⟩
  · rw [hmute.ops]
  · rw [hmute.ops]
  · exact List.prefix_append _ _

/-- The `PUT` that a pass performs: it takes the whole request and nothing else. -/
theorem turn_put (h : srv.turn r c = (stop, rest, c')) {ops : List Op} (hops : c'.ops <+: ops)
    {i : ℕ} (hi : c.ops.length ≤ i) (hlt : i < c'.ops.length) {key value : Bytes}
    (hop : ops[i]? = some (.put key value)) :
    ∃ frame, r = frame ++ rest ∧ srv.PutFrame key value frame ∧ ops.take i = c.ops := by
  have hnone : ∀ {d : Conn σ}, Mute c d → ¬ i < d.ops.length := fun hmute hlt =>
    absurd hlt (not_lt.mpr (hmute.ops ▸ hi))
  rcases srv.turn_cases h with ⟨-, hmute⟩ | ⟨used, rfl, -, hmute | ⟨op, rfl, hput⟩⟩
  · exact absurd hlt (hnone hmute)
  · exact absurd hlt (hnone hmute)
  · obtain ⟨t, rfl⟩ := hops
    have hserve : (srv.serve c op).ops = c.ops ++ [op] := rfl
    rw [hserve, List.length_append, List.length_singleton] at hlt
    obtain rfl : i = c.ops.length := by omega
    rw [hserve, List.append_assoc] at hop ⊢
    rw [List.getElem?_append_right le_rfl, Nat.sub_self] at hop
    exact ⟨used, rfl, hput key value (Option.some.inj hop), List.take_left⟩

end Passes

/-! ## §4  The connection -/

/-- Along the passes of a connection, from the last one back. -/
theorem handleConn_induction {motive : Bytes → Conn σ → Prop}
    (close : ∀ r c rest c', srv.turn r c = (true, rest, c') → motive r c)
    (next : ∀ r c rest c', srv.turn r c = (false, rest, c') → motive rest c' → motive r c)
    (r : Bytes) (c : Conn σ) : motive r c := by
  induction hlen : r.length using Nat.strongRecOn generalizing r c with
  | ind n ih =>
      rcases hturn : srv.turn r c with ⟨_ | _, rest, c'⟩
      · exact next r c rest c' hturn (ih _ (hlen ▸ srv.turn_lt hturn) rest c' rfl)
      · exact close r c rest c' hturn

theorem handleConn_nil (c : Conn σ) : srv.handleConn [] c = c :=
  srv.handleConn_close (show srv.turn [] c = (true, [], c) from rfl)

theorem handleConn_ops (r : Bytes) (c : Conn σ) : c.ops <+: (srv.handleConn r c).ops := by
  induction r, c using srv.handleConn_induction with
  | close r c rest c' hturn =>
      rw [srv.handleConn_close hturn]
      exact srv.turn_ops hturn
  | next r c rest c' hturn ih =>
      rw [srv.handleConn_next hturn]
      exact (srv.turn_ops hturn).trans ih

/-- More bytes, more operations: those on the bytes before stay. -/
theorem handleConn_append_ops (p : Bytes) (c : Conn σ) (q : Bytes) :
    (srv.handleConn p c).ops <+: (srv.handleConn (p ++ q) c).ops := by
  induction p, c using srv.handleConn_induction with
  | close p c rest c' hturn =>
      rw [srv.handleConn_close hturn]
      rcases srv.turn_cases hturn with ⟨-, hmute⟩ | ⟨used, rfl, hany, -⟩
      · rw [hmute.ops]
        exact srv.handleConn_ops _ c
      · rw [List.append_assoc, srv.handleConn_close (hany (rest ++ q))]
  | next p c rest c' hturn ih =>
      rcases srv.turn_cases hturn with ⟨hstop, -⟩ | ⟨used, rfl, hany, -⟩
      · cases hstop
      · rw [srv.handleConn_next hturn, List.append_assoc, srv.handleConn_next (hany (rest ++ q))]
        exact ih

/-- Every `PUT` that is performed lies in the bytes in full, behind those of the operations
before it. -/
theorem put_received (p : Bytes) (c : Conn σ) {i : ℕ} {key value : Bytes}
    (hi : c.ops.length ≤ i) (hop : (srv.handleConn p c).ops[i]? = some (.put key value)) :
    ∃ before frame after, p = before ++ frame ++ after ∧ srv.PutFrame key value frame ∧
      (srv.handleConn before c).ops = (srv.handleConn p c).ops.take i := by
  induction p, c using srv.handleConn_induction with
  | close p c rest c' hturn =>
      rw [srv.handleConn_close hturn] at hop ⊢
      obtain ⟨hlt, -⟩ := List.getElem?_eq_some_iff.mp hop
      obtain ⟨frame, hp, hframe, htake⟩ := srv.turn_put hturn List.prefix_rfl hi hlt hop
      refine ⟨[], frame, rest, hp, hframe, ?_⟩
      rw [srv.handleConn_nil, htake]
  | next p c rest c' hturn ih =>
      rw [srv.handleConn_next hturn] at hop ⊢
      by_cases hlt : i < c'.ops.length
      · obtain ⟨frame, hp, hframe, htake⟩ :=
          srv.turn_put hturn (srv.handleConn_ops rest c') hi hlt hop
        refine ⟨[], frame, rest, hp, hframe, ?_⟩
        rw [srv.handleConn_nil, htake]
      · -- a later pass; the bytes of this one come first
        obtain ⟨before, frame, after, rfl, hframe, hbefore⟩ := ih (not_lt.mp hlt) hop
        rcases srv.turn_cases hturn with ⟨hstop, -⟩ | ⟨used, rfl, hany, -⟩
        · cases hstop
        · refine ⟨used ++ before, frame, after, by simp, hframe, ?_⟩
          rw [srv.handleConn_next (hany before)]
          exact hbefore

/-- **A cut connection.** What is done for the client on the first bytes of a stream is
the beginning of what would be done on all of it; and a `PUT` is performed only when its
line, its whole value and the CRLF behind it have been received. -/
theorem cut_connection (s : σ) {p b : Bytes} (hp : p <+: b) :
    (srv.handleConn p (accept s)).ops <+: (srv.handleConn b (accept s)).ops ∧
      ∀ (i : ℕ) (key value : Bytes),
        (srv.handleConn p (accept s)).ops[i]? = some (.put key value) →
        ∃ before frame after, p = before ++ frame ++ after ∧ srv.PutFrame key value frame ∧
          (srv.handleConn before (accept s)).ops =
            (srv.handleConn p (accept s)).ops.take i := by
  obtain ⟨q, rfl⟩ := hp
  exact ⟨srv.handleConn_append_ops p (accept s) q,
    fun i key value hop => srv.put_received p (accept s) (Nat.zero_le i) hop⟩

/-- The cut falls into the second value. -/
theorem cut_connection_value :
    let p := text "PUT k 1\r\nx\r\nput j 5\r\nab"
    let b := p ++ text "cde\r\nGET k\r\n"
    let performed := fun r => (plain.handleConn r (accept (Store.openStore []))).ops
    performed p = [.put (text "k") (text "x")] ∧
      performed b = [.put (text "k") (text "x"), .put (text "j") (text "abcde"),
        .get (text "k")] ∧
      performed p <+: performed b ∧
      ∃ before frame after, b = before ++ frame ++ after ∧
        plain.PutFrame (text "j") (text "abcde") frame := by
  intro p b performed
  have hb : performed b = [.put (text "k") (text "x"), .put (text "j") (text "abcde"),
      .get (text "k")] := by
    decide +kernel
  have hcut := plain.cut_connection (Store.openStore []) (p := p) (b := b)
    (List.prefix_append p _)
  have hall := plain.cut_connection (Store.openStore []) (List.prefix_rfl (l := b))
  obtain ⟨before, frame, after, hbytes, hframe, -⟩ :=
    hall.2 1 (text "j") (text "abcde") (by rw [show (plain.handleConn b _).ops = _ from hb]; rfl)
  exact ⟨by decide +kernel, hb, hcut.1, before, frame, after, hbytes, hframe⟩

end KVEngine.Server
