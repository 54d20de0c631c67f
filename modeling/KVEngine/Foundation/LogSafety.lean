import KVEngine.Foundation.ReplicatedLog

/-!
# Leader-based replicated logs — §3–§5, the invariant

The invariant of `ReplicatedLog` and what it gives in every reachable state:
log matching, leader completeness, and agreement of delivered entries. That
steps keep it is `LogPreservation`.

The one idea is `Kept`. A prefix of a leader's log that a node has accepted
stays in the node's log *unless* a leader of a later term was elected without
it; this needs no quorum and is preserved by every step. A vote carries it from
the voter to the candidate (`kept_of_upToDate`), and a quorum of votes meets
every quorum of acceptances, so for a committed prefix the exceptional clause
is impossible: strong induction over terms (`committed_in_elected`).
-/

namespace KVEngine.Foundation.ReplicatedLog

variable {N E : Type}

/-! ## §3  Kept prefixes and the vote argument -/

/-- The term-`T` leader's log up to `k` is in `L`, or a leader elected strictly
between `T` and `U` lacked it. -/
def Kept (s : State N E) (T k : ℕ) (L : List E) (U : ℕ) : Prop :=
  (s.leaderLog T).take (k + 1) <+: L ∨
    ∃ V L', T < V ∧ V < U ∧ s.elected V = some L' ∧
      ¬ (s.leaderLog T).take (k + 1) <+: L'

/-- What a vote of `q` for a log `L` in term `U` vouches for: every prefix that
`q` accepted in an earlier term and that ends in that term is kept by `L`. -/
def Backs (Γ : Params N E) (s : State N E) (q : N) (U : ℕ) (L : List E) : Prop :=
  ∀ T m k, T < U → (q, T, m) ∈ s.accepted → k ≤ m →
    (s.leaderLog T)[k]?.map Γ.term = some T → Kept s T k L U

theorem Kept.mono {s : State N E} {T k U U' : ℕ} {L : List E} (hU : U ≤ U')
    (h : Kept s T k L U) : Kept s T k L U' := by
  rcases h with h | ⟨V, L', h1, h2, h3, h4⟩
  · exact Or.inl h
  · exact Or.inr ⟨V, L', h1, by omega, h3, h4⟩

/-- The shape of an elected leader's log: what it was elected with, of earlier
terms, then entries of its own term. -/
structure Leads (Γ : Params N E) (s : State N E) (T : ℕ) (L : List E) : Prop where
  good : Good Γ s (s.leaderLog T)
  ne_nil : L ≠ []
  earlier : ∀ e ∈ L, Γ.term e < T
  own : ∃ ext, s.leaderLog T = L ++ ext ∧ ∀ e ∈ ext, Γ.term e = T

/-- Elected terms have a leader log of the right shape, the others have none. -/
structure Ledger (Γ : Params N E) (s : State N E) : Prop where
  vacant : ∀ T, s.elected T = none → s.leaderLog T = []
  won : ∀ T L, s.elected T = some L → Leads Γ s T L

theorem Leads.isPrefix {Γ : Params N E} {s : State N E} {T : ℕ} {L : List E}
    (h : Leads Γ s T L) : L <+: s.leaderLog T := by
  obtain ⟨ext, hext, -⟩ := h.own
  exact ⟨ext, hext.symm⟩

theorem Leads.term_le {Γ : Params N E} {s : State N E} {T : ℕ} {L : List E}
    (h : Leads Γ s T L) {e : E} (he : e ∈ s.leaderLog T) : Γ.term e ≤ T := by
  obtain ⟨ext, hext, hown⟩ := h.own
  rw [hext, List.mem_append] at he
  rcases he with he | he
  · exact Nat.le_of_lt (h.earlier e he)
  · exact Nat.le_of_eq (hown e he)

theorem Leads.term_pos {Γ : Params N E} {s : State N E} {T : ℕ} {L : List E}
    (h : Leads Γ s T L) : 0 < T := by
  obtain ⟨e, he⟩ := List.exists_mem_of_ne_nil L h.ne_nil
  exact Nat.lt_of_le_of_lt (Nat.zero_le _) (h.earlier e he)

/-- A term with a nonempty leader log has been won. -/
theorem Ledger.elected_of_mem {Γ : Params N E} {s : State N E} (hl : Ledger Γ s)
    {T k : ℕ} {e : E} (h : (s.leaderLog T)[k]? = some e) :
    ∃ L, s.elected T = some L := by
  cases hT : s.elected T with
  | none => rw [hl.vacant T hT] at h; simp at h
  | some L => exact ⟨L, rfl⟩

/-- Terms do not decrease along a good log. -/
theorem Good.term_mono {Γ : Params N E} {s : State N E} {L : List E}
    (hl : Ledger Γ s) (hL : Good Γ s L) {j k : ℕ} {x e : E} (hjk : j ≤ k)
    (hx : L[j]? = some x) (he : L[k]? = some e) : Γ.term x ≤ Γ.term e := by
  rcases Nat.eq_zero_or_pos k with rfl | hk
  · have hj : j = 0 := by omega
    subst hj
    rw [hx] at he
    rw [Option.some.inj he]
  · have hp := hL.2 k e hk he
    have hx' : (L.take (k + 1))[j]? = some x := by
      rw [List.getElem?_take_of_lt (by omega)]
      exact hx
    have hx'' := prefix_getElem? hp hx'
    obtain ⟨L', hL'⟩ := hl.elected_of_mem hx''
    exact (hl.won _ L' hL').term_le (List.mem_of_getElem? hx'')

/-- Above the root every entry has a leader's term. -/
theorem Good.term_pos {Γ : Params N E} {s : State N E} {L : List E} (hl : Ledger Γ s)
    (hL : Good Γ s L) {k : ℕ} {e : E} (hk : 0 < k) (he : L[k]? = some e) : 0 < Γ.term e := by
  have hin : (L.take (k + 1))[k]? = some e := by
    rw [List.getElem?_take_of_lt (Nat.lt_succ_self k)]
    exact he
  obtain ⟨L', hL'⟩ := hl.elected_of_mem (prefix_getElem? (hL.2 k e hk he) hin)
  exact (hl.won _ L' hL').term_pos

/-- Where one good log has a term and another has not, the other has that term only
further down. -/
theorem Good.before {Γ : Params N E} {s : State N E} {L M : List E} (hL : Good Γ s L)
    (hM : Good Γ s M) {j k : ℕ} {x y : E} (hk : 0 < k) (hx : L[j]? = some x)
    (hy : M[k]? = some y) (hxy : Γ.term x = Γ.term y)
    (hne : L[k]?.map Γ.term ≠ some (Γ.term y)) : j < k := by
  by_contra hge
  rw [not_lt] at hge
  have hlt : k < L.length := lt_of_le_of_lt hge (List.getElem?_eq_some_iff.mp hx).1
  have hz : L[k]? = some L[k] := List.getElem?_eq_getElem hlt
  -- both are prefixes of the log of that term's leader
  have hL' : (s.leaderLog (Γ.term y))[k]? = some L[k] := by
    rw [← hxy]
    apply prefix_getElem? (hL.2 j x (hk.trans_le hge) hx)
    rw [List.getElem?_take_of_lt (Nat.lt_succ_of_le hge)]
    exact hz
  have hM' : (s.leaderLog (Γ.term y))[k]? = some y := by
    apply prefix_getElem? (hM.2 k y hk hy)
    rw [List.getElem?_take_of_lt (Nat.lt_succ_self k)]
    exact hy
  rw [hL'] at hM'
  apply hne
  rw [hz, hM']
  rfl

theorem lastTerm_of_getElem? {Γ : Params N E} {L : List E} {e : E}
    (h : L[L.length - 1]? = some e) : lastTerm Γ L = Γ.term e := by
  unfold lastTerm
  rw [List.getLast?_eq_getElem?, h]
  rfl

/-- **The vote argument.** A log at least as up to date as one that holds a
prefix ending in term `T` keeps that prefix, below any term `U` that bounds its
own entries. -/
theorem kept_of_upToDate {Γ : Params N E} {s : State N E} (hl : Ledger Γ s)
    {T k U : ℕ} {Lq Lc : List E} (hq : Good Γ s Lq) (hc : Good Γ s Lc)
    (hk : (s.leaderLog T)[k]?.map Γ.term = some T)
    (hP : (s.leaderLog T).take (k + 1) <+: Lq)
    (hlt : ∀ e ∈ Lc, Γ.term e < U) (hup : UpToDate Γ Lc Lq) :
    Kept s T k Lc U := by
  obtain ⟨x, hx, hxT⟩ := Option.map_eq_some_iff.mp hk
  obtain ⟨L, hL⟩ := hl.elected_of_mem hx
  have hTpos : 0 < T := (hl.won T L hL).term_pos
  have hPlen := length_take_succ_of_getElem? hx
  -- the voter's last term is at least `T`
  obtain ⟨eq, heq⟩ := exists_last hq.length_pos
  have hxq : Lq[k]? = some x := by
    apply prefix_getElem? hP
    rw [List.getElem?_take_of_lt (by omega)]
    exact hx
  have hkq : k < Lq.length := (List.getElem?_eq_some_iff.mp hxq).1
  have hTq : T ≤ lastTerm Γ Lq := by
    rw [lastTerm_of_getElem? heq, ← hxT]
    exact hq.term_mono hl (by omega) hxq heq
  -- so is the candidate's, whose log is a prefix of that term's leader log
  obtain ⟨ec, hec⟩ := exists_last hc.length_pos
  have hTc : T ≤ lastTerm Γ Lc := by
    rcases hup with h | ⟨h, -⟩ <;> omega
  rw [lastTerm_of_getElem? hec] at hTc
  have hc0 : 0 < Lc.length - 1 := by
    rcases Nat.eq_zero_or_pos (Lc.length - 1) with h0 | h0
    · rw [h0, hc.1] at hec
      rw [← Option.some.inj hec, Γ.root_term] at hTc
      omega
    · exact h0
  have hLc : Lc <+: s.leaderLog (Γ.term ec) := by
    have h := hc.2 _ ec hc0 hec
    rwa [List.take_of_length_le (by omega)] at h
  rcases Nat.eq_or_lt_of_le hTc with hT | hT
  · -- same term: both logs are prefixes of one leader log, the longer wins
    left
    rw [← hT] at hLc
    have hlen : Lq.length ≤ Lc.length := by
      rcases hup with h | ⟨-, h⟩
      · rw [lastTerm_of_getElem? hec, ← hT] at h
        omega
      · exact h
    exact List.prefix_of_prefix_length_le (List.take_prefix _ _) hLc (by omega)
  · -- later term: the candidate's log contains what that term's leader won with
    have hec' : (s.leaderLog (Γ.term ec))[Lc.length - 1]? = some ec :=
      prefix_getElem? hLc hec
    obtain ⟨L', hL'⟩ := hl.elected_of_mem hec'
    have hlead := hl.won _ L' hL'
    by_cases hPL : (s.leaderLog T).take (k + 1) <+: L'
    · left
      refine hPL.trans (List.prefix_of_prefix_length_le hlead.isPrefix hLc ?_)
      by_contra hgt
      have hin : L'[Lc.length - 1]? = some ec := by
        have h1 : Lc.length - 1 < L'.length := by omega
        have h2 := prefix_getElem? hlead.isPrefix (List.getElem?_eq_getElem h1)
        rw [hec'] at h2
        rw [List.getElem?_eq_getElem h1, ← Option.some.inj h2]
      exact Nat.lt_irrefl _ (hlead.earlier ec (List.mem_of_getElem? hin))
    · right
      exact ⟨Γ.term ec, L', hT, hlt ec (List.mem_of_getElem? hec), hL', hPL⟩

/-! ## §4  The invariant -/

/-- Index `k` of the term-`T` leader's log ends in term `T` and a quorum has
accepted it. -/
def CommittedAt (Γ : Params N E) (s : State N E) (T k : ℕ) : Prop :=
  (s.leaderLog T)[k]?.map Γ.term = some T ∧
    ∃ Q, Γ.Quorum Q ∧ ∀ q ∈ Q, ∃ m, k ≤ m ∧ (q, T, m) ∈ s.accepted

/-- A list that lies inside a prefix committed in a term up to `U`. -/
def Safe (Γ : Params N E) (s : State N E) (P : List E) (U : ℕ) : Prop :=
  ∃ T k, T ≤ U ∧ CommittedAt Γ s T k ∧ P <+: (s.leaderLog T).take (k + 1)

/-- A segment in flight is cut from its leader's log, and what it says is
committed is safe. -/
structure SegmentOk (Γ : Params N E) (s : State N E) (m : Segment E) : Prop where
  elected : ∃ L, s.elected m.term = some L
  prev : (s.leaderLog m.term)[m.prev]?.map Γ.term = some m.prevTerm
  entries : m.entries <+: (s.leaderLog m.term).drop (m.prev + 1)
  bound : m.commit ≤ m.prev + m.entries.length
  safe : m.commit = 0 ∨ Safe Γ s ((s.leaderLog m.term).take (m.commit + 1)) m.term

structure Inv (Γ : Params N E) (s : State N E) : Prop where
  ledger : Ledger Γ s
  good : ∀ i, Good Γ s (s.log i)
  term_le : ∀ i, ∀ e ∈ s.log i, Γ.term e ≤ s.term i
  candidate : ∀ i, s.role i = .candidate → ∀ e ∈ s.log i, Γ.term e < s.term i
  leader : ∀ i, s.role i = .leader →
    (∃ L, s.elected (s.term i) = some L) ∧ s.log i = s.leaderLog (s.term i)
  one_leader : ∀ i j, s.role i = .leader → s.role j = .leader →
    s.term i = s.term j → i = j
  accepted : ∀ q T m, (q, T, m) ∈ s.accepted →
    T ≤ s.term q ∧ m < (s.leaderLog T).length ∧
      ∀ k ≤ m, Kept s T k (s.log q) (s.term q + 1)
  votes : ∀ q U c, (q, U, c) ∈ s.votes →
    U ≤ s.term q ∧ U ≤ s.term c ∧
      (s.role c = .candidate → s.term c = U → s.elected U = none →
        Backs Γ s q U (s.log c))
  elections : ∀ U L, s.elected U = some L →
    ∃ Q, Γ.Quorum Q ∧ ∀ q ∈ Q, U ≤ s.term q ∧ Backs Γ s q U L
  sent : ∀ m ∈ s.sent, SegmentOk Γ s m
  commit : ∀ i, s.commit i = 0 ∨
    s.commit i < (s.log i).length ∧
      Safe Γ s ((s.log i).take (s.commit i + 1)) (s.term i)
  advanced : ∀ T n, (T, n) ∈ s.advanced → CommittedAt Γ s T n
  delivered : ∀ k e, (k, e) ∈ s.delivered →
    ∃ P U, Safe Γ s P U ∧ P[k]? = some e

theorem inv_initial (Γ : Params N E) : Inv Γ (initial Γ) where
  ledger := ⟨fun _ _ => rfl, fun _ _ h => by simp [initial] at h⟩
  good := by
    intro i
    refine ⟨rfl, ?_⟩
    intro k e hk he
    have hlt := (List.getElem?_eq_some_iff.mp he).1
    simp [initial] at hlt
    omega
  term_le := by
    intro i e he
    simp only [initial, List.mem_singleton] at he
    rw [he, Γ.root_term]
    exact Nat.zero_le _
  candidate := by intro i h; simp [initial] at h
  leader := by intro i h; simp [initial] at h
  one_leader := by intro i j h; simp [initial] at h
  accepted := by intro q T m h; simp [initial] at h
  votes := by intro q U c h; simp [initial] at h
  elections := by intro U L h; simp [initial] at h
  sent := by intro m h; simp [initial] at h
  commit := by intro i; exact Or.inl rfl
  advanced := by intro T n h; simp [initial] at h
  delivered := by intro k e h; simp [initial] at h

/-! ## §5  Leader completeness -/

/-- **Leader completeness.** What is committed in term `T` was already in the
log of every leader elected in a later term. -/
theorem committed_in_elected {Γ : Params N E} {s : State N E} (hi : Inv Γ s)
    {T k : ℕ} (hcom : CommittedAt Γ s T k) :
    ∀ (U : ℕ) (L : List E), T < U → s.elected U = some L →
      (s.leaderLog T).take (k + 1) <+: L := by
  intro U
  induction U using Nat.strong_induction_on with
  | _ U ih =>
      intro L hTU hL
      obtain ⟨hk, Q, hQ, hacc⟩ := hcom
      obtain ⟨R, hR, hback⟩ := hi.elections U L hL
      -- the two quorums meet: someone accepted the prefix and voted for `L`
      obtain ⟨q, hqQ, hqR⟩ := Γ.quorum_inter hQ hR
      obtain ⟨m, hkm, hqm⟩ := hacc q hqQ
      rcases (hback q hqR).2 T m k hTU hqm hkm hk with h | ⟨V, L', hTV, hVU, hV, hn⟩
      · exact h
      · exact absurd (ih V hVU L' hTV hV) hn

/-- Committed prefixes are prefixes of the log of every leader from their term
on. -/
theorem committed_in_leaderLog {Γ : Params N E} {s : State N E} (hi : Inv Γ s)
    {T k U : ℕ} {L : List E} (hcom : CommittedAt Γ s T k) (hTU : T ≤ U)
    (hL : s.elected U = some L) :
    (s.leaderLog T).take (k + 1) <+: s.leaderLog U := by
  rcases Nat.eq_or_lt_of_le hTU with rfl | hlt
  · exact List.take_prefix _ _
  · exact (committed_in_elected hi hcom U L hlt hL).trans
      (hi.ledger.won U L hL).isPrefix

theorem CommittedAt.elected {Γ : Params N E} {s : State N E} (hl : Ledger Γ s)
    {T k : ℕ} (h : CommittedAt Γ s T k) : ∃ L, s.elected T = some L := by
  obtain ⟨x, hx, -⟩ := Option.map_eq_some_iff.mp h.1
  exact hl.elected_of_mem hx

/-- Safe lists lie in the log of every later leader. -/
theorem Safe.isPrefix {Γ : Params N E} {s : State N E} (hi : Inv Γ s)
    {P : List E} {U V : ℕ} {L : List E} (h : Safe Γ s P U) (hUV : U ≤ V)
    (hL : s.elected V = some L) : P <+: s.leaderLog V := by
  obtain ⟨T, k, hT, hcom, hP⟩ := h
  exact hP.trans (committed_in_leaderLog hi hcom (by omega) hL)

/-- **Agreement.** Two safe lists hold the same entry wherever both have
one. -/
theorem Safe.agree {Γ : Params N E} {s : State N E} (hi : Inv Γ s)
    {P Q : List E} {U V k : ℕ} {x y : E} (hP : Safe Γ s P U) (hQ : Safe Γ s Q V)
    (hx : P[k]? = some x) (hy : Q[k]? = some y) : x = y := by
  obtain ⟨T, i, -, hcom, hPT⟩ := hP
  obtain ⟨T', j, -, hcom', hQT⟩ := hQ
  rcases Nat.le_total T T' with h | h
  · obtain ⟨L, hL⟩ := hcom'.elected hi.ledger
    have h1 := prefix_getElem?
      (hPT.trans (committed_in_leaderLog hi hcom h hL)) hx
    have h2 := prefix_getElem? (hQT.trans (List.take_prefix _ _)) hy
    rw [h1] at h2
    exact Option.some.inj h2
  · obtain ⟨L, hL⟩ := hcom.elected hi.ledger
    have h1 := prefix_getElem? (hPT.trans (List.take_prefix _ _)) hx
    have h2 := prefix_getElem?
      (hQT.trans (committed_in_leaderLog hi hcom' h hL)) hy
    rw [h1] at h2
    exact Option.some.inj h2

end KVEngine.Foundation.ReplicatedLog
