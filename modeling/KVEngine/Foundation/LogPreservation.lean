import KVEngine.Foundation.LogSafety

/-!
# Leader-based replicated logs — §6–§8, preservation

Every step of the protocol keeps the invariant of `LogSafety`, and nothing the
ledger records is ever lost. The run lemmas at the end are what a model that
refines the protocol uses.
-/

namespace KVEngine.Foundation.ReplicatedLog

variable {N E : Type}

/-! ## §6  Growth of the ledger

Leader logs are only extended and elections never undone, so everything said
about an index inside a leader log stays true. -/

structure Grows (s s' : State N E) : Prop where
  log : ∀ T, s.leaderLog T <+: s'.leaderLog T
  elected : ∀ T L, s.elected T = some L → s'.elected T = some L
  accepted : s.accepted ⊆ s'.accepted

theorem Grows.take {s s' : State N E} (h : Grows s s') {T k : ℕ}
    (hk : k < (s.leaderLog T).length) :
    (s'.leaderLog T).take (k + 1) = (s.leaderLog T).take (k + 1) :=
  prefix_take_eq (M := s'.leaderLog T) (List.prefix_refl _) (h.log T)
    (by have := (h.log T).length_le; omega) (by omega)

theorem Grows.getElem? {s s' : State N E} (h : Grows s s') {T k : ℕ}
    (hk : k < (s.leaderLog T).length) :
    (s'.leaderLog T)[k]? = (s.leaderLog T)[k]? := by
  have h1 := List.getElem?_eq_getElem hk
  rw [h1, prefix_getElem? (h.log T) h1]

theorem Kept.grow {s s' : State N E} (h : Grows s s') {T k U : ℕ} {L : List E}
    (hk : k < (s.leaderLog T).length) (hkept : Kept s T k L U) :
    Kept s' T k L U := by
  unfold Kept
  rw [h.take hk]
  rcases hkept with hp | ⟨V, L', h1, h2, h3, h4⟩
  · exact Or.inl hp
  · exact Or.inr ⟨V, L', h1, h2, h.elected V L' h3, h4⟩

theorem CommittedAt.grow {Γ : Params N E} {s s' : State N E} (h : Grows s s')
    {T k : ℕ} (hcom : CommittedAt Γ s T k) : CommittedAt Γ s' T k := by
  obtain ⟨hk, Q, hQ, hacc⟩ := hcom
  obtain ⟨x, hx, hxT⟩ := Option.map_eq_some_iff.mp hk
  refine ⟨?_, Q, hQ, ?_⟩
  · rw [prefix_getElem? (h.log T) hx, Option.map_some, hxT]
  · intro q hq
    obtain ⟨m, hkm, hm⟩ := hacc q hq
    exact ⟨m, hkm, h.accepted hm⟩

theorem Safe.grow {Γ : Params N E} {s s' : State N E} (h : Grows s s')
    {P : List E} {U U' : ℕ} (hU : U ≤ U') (hs : Safe Γ s P U) : Safe Γ s' P U' := by
  obtain ⟨T, k, hT, hcom, hP⟩ := hs
  obtain ⟨x, hx, -⟩ := Option.map_eq_some_iff.mp hcom.1
  refine ⟨T, k, by omega, hcom.grow h, ?_⟩
  rw [h.take (List.getElem?_eq_some_iff.mp hx).1]
  exact hP

theorem SegmentOk.length {Γ : Params N E} {s : State N E} {m : Segment E}
    (h : SegmentOk Γ s m) :
    m.prev + m.entries.length < (s.leaderLog m.term).length := by
  obtain ⟨x, hx, -⟩ := Option.map_eq_some_iff.mp h.prev
  have h1 := (List.getElem?_eq_some_iff.mp hx).1
  have h2 := h.entries.length_le
  rw [List.length_drop] at h2
  omega

theorem SegmentOk.grow {Γ : Params N E} {s s' : State N E} (h : Grows s s')
    {m : Segment E} (hm : SegmentOk Γ s m) : SegmentOk Γ s' m := by
  have hlen := hm.length
  have hbound := hm.bound
  obtain ⟨L, hL⟩ := hm.elected
  obtain ⟨x, hx, hxt⟩ := Option.map_eq_some_iff.mp hm.prev
  refine ⟨⟨L, h.elected _ L hL⟩, ?_, hm.entries.trans ((h.log _).drop _), hm.bound, ?_⟩
  · rw [prefix_getElem? (h.log _) hx, Option.map_some, hxt]
  · rcases hm.safe with h0 | hs
    · exact Or.inl h0
    · right
      rw [h.take (by omega)]
      exact hs.grow h (le_refl _)

/-- A vote keeps vouching as long as the voter accepts nothing new in an
earlier term. -/
theorem Backs.grow {Γ : Params N E} {s s' : State N E} (h : Grows s s')
    {q : N} {U : ℕ} {L : List E}
    (hold : ∀ T m, T < U → (q, T, m) ∈ s'.accepted →
      (q, T, m) ∈ s.accepted ∧ m < (s.leaderLog T).length)
    (hb : Backs Γ s q U L) : Backs Γ s' q U L := by
  intro T m k hTU hm hkm hk
  obtain ⟨hm', hlen⟩ := hold T m hTU hm
  rw [h.getElem? (by omega)] at hk
  exact (hb T m k hTU hm' hkm hk).grow h (by omega)

/-- Growth by acceptances in the acceptor's current term: what electing,
proposing and accepting do. -/
structure Extends (s s' : State N E) : Prop extends Grows s s' where
  fresh : ∀ q T m, (q, T, m) ∈ s'.accepted → (q, T, m) ∈ s.accepted ∨ s.term q ≤ T

theorem Grows.extends_insert {s s' : State N E} (h : Grows s s') {q : N} {T m : ℕ}
    (hacc : s'.accepted = insert (q, T, m) s.accepted) (hT : s.term q ≤ T) :
    Extends s s' := by
  refine ⟨h, fun q' T' m' hm => ?_⟩
  rw [hacc] at hm
  rcases Set.mem_insert_iff.mp hm with heq | hold
  · simp only [Prod.mk.injEq] at heq
    obtain ⟨rfl, rfl, -⟩ := heq
    exact Or.inr hT
  · exact Or.inl hold

section Carried

variable {Γ : Params N E} {s s' : State N E}

theorem Extends.backs (h : Extends s s') (hi : Inv Γ s) {q : N} {U : ℕ} {L : List E}
    (hU : U ≤ s.term q) (hb : Backs Γ s q U L) : Backs Γ s' q U L := by
  refine hb.grow h.toGrows fun T m hTU hm => ?_
  rcases h.fresh q T m hm with hold | hT
  · exact ⟨hold, (hi.accepted q T m hold).2.1⟩
  · omega

theorem Extends.elections (h : Extends s s') (hi : Inv Γ s) {U : ℕ} {L : List E}
    (hL : s.elected U = some L) :
    ∃ Q, Γ.Quorum Q ∧ ∀ q ∈ Q, U ≤ s.term q ∧ Backs Γ s' q U L := by
  obtain ⟨Q, hQ, hb⟩ := hi.elections U L hL
  exact ⟨Q, hQ, fun q hq => ⟨(hb q hq).1, h.backs hi (hb q hq).1 (hb q hq).2⟩⟩

theorem Grows.accepted_old (h : Grows s s') (hi : Inv Γ s) {q : N} {T m : ℕ}
    (hm : (q, T, m) ∈ s.accepted) :
    T ≤ s.term q ∧ m < (s'.leaderLog T).length ∧
      ∀ k ≤ m, Kept s' T k (s.log q) (s.term q + 1) := by
  obtain ⟨h1, h2, h3⟩ := hi.accepted q T m hm
  exact ⟨h1, Nat.lt_of_lt_of_le h2 (h.log T).length_le,
    fun k hk => (h3 k hk).grow h (by omega)⟩

theorem Grows.commit_old (h : Grows s s') (hi : Inv Γ s) (j : N) :
    s.commit j = 0 ∨ s.commit j < (s.log j).length ∧
      Safe Γ s' ((s.log j).take (s.commit j + 1)) (s.term j) := by
  rcases hi.commit j with h0 | ⟨h1, h2⟩
  · exact Or.inl h0
  · exact Or.inr ⟨h1, h2.grow h (le_refl _)⟩

theorem Grows.delivered_old (h : Grows s s') (hi : Inv Γ s) {k : ℕ} {e : E}
    (he : (k, e) ∈ s.delivered) : ∃ P U, Safe Γ s' P U ∧ P[k]? = some e := by
  obtain ⟨P, U, hs, hk⟩ := hi.delivered k e he
  exact ⟨P, U, hs.grow h (le_refl _), hk⟩

end Carried

/-! ## §7  Preservation -/

/-- Steps that touch neither logs nor the ledger of leaders: a node may raise
its term, drop to follower or start a candidacy in a higher term, forget its
commit index, and cast votes that vouch for the candidate's log. -/
theorem Inv.relabel {Γ : Params N E} {s : State N E} (hi : Inv Γ s)
    {t : N → ℕ} {r : N → Role} {c : N → ℕ} {v : Set (N × ℕ × N)}
    (ht : ∀ j, s.term j ≤ t j)
    (hr : ∀ j, r j = .follower ∨ (r j = s.role j ∧ t j = s.term j) ∨
      (r j = .candidate ∧ s.term j < t j))
    (hc : ∀ j, c j = s.commit j ∨ c j = 0)
    (hv : ∀ q U d, (q, U, d) ∈ v → (q, U, d) ∈ s.votes ∨
      (U ≤ t q ∧ U ≤ t d ∧ (r d = .candidate → t d = U → s.elected U = none →
        Backs Γ s q U (s.log d)))) :
    Inv Γ { s with term := t, role := r, commit := c, votes := v } where
  ledger := ⟨hi.ledger.vacant, fun T L hL =>
    let h := hi.ledger.won T L hL
    ⟨h.good, h.ne_nil, h.earlier, h.own⟩⟩
  good := hi.good
  term_le := fun j e he => Nat.le_trans (hi.term_le j e he) (ht j)
  candidate := by
    intro j hj e he
    rcases hr j with h | ⟨h1, h2⟩ | ⟨-, h2⟩
    · exact Role.noConfusion (h.symm.trans hj)
    · show Γ.term e < t j
      rw [h2]
      exact hi.candidate j (h1 ▸ hj) e he
    · exact Nat.lt_of_le_of_lt (hi.term_le j e he) h2
  leader := by
    intro j hj
    rcases hr j with h | ⟨h1, h2⟩ | ⟨h1, -⟩
    · exact Role.noConfusion (h.symm.trans hj)
    · show (∃ L, s.elected (t j) = some L) ∧ s.log j = s.leaderLog (t j)
      rw [h2]
      exact hi.leader j (h1 ▸ hj)
    · exact Role.noConfusion (h1.symm.trans hj)
  one_leader := by
    intro i j hri hrj hij
    have keep : ∀ k, r k = .leader → s.role k = .leader ∧ t k = s.term k := by
      intro k hk
      rcases hr k with h | ⟨h1, h2⟩ | ⟨h1, -⟩
      · exact Role.noConfusion (h.symm.trans hk)
      · exact ⟨h1 ▸ hk, h2⟩
      · exact Role.noConfusion (h1.symm.trans hk)
    obtain ⟨hi1, hi2⟩ := keep i hri
    obtain ⟨hj1, hj2⟩ := keep j hrj
    have hij' : t i = t j := hij
    exact hi.one_leader i j hi1 hj1 (by omega)
  accepted := by
    intro q T m hm
    obtain ⟨h1, h2, h3⟩ := hi.accepted q T m hm
    exact ⟨Nat.le_trans h1 (ht q), h2, fun k hk =>
      Kept.mono (Nat.succ_le_succ (ht q)) (h3 k hk)⟩
  votes := by
    intro q U d hd
    rcases hv q U d hd with h | h
    · obtain ⟨h1, h2, h3⟩ := hi.votes q U d h
      refine ⟨Nat.le_trans h1 (ht q), Nat.le_trans h2 (ht d), ?_⟩
      intro hrd htd hU
      rcases hr d with h' | ⟨h4, h5⟩ | ⟨-, h5⟩
      · exact Role.noConfusion (h'.symm.trans hrd)
      · exact h3 (h4 ▸ hrd) (h5 ▸ htd) hU
      · -- a vote cast before the candidacy is for an earlier term
        have htd' : t d = U := htd
        omega
    · exact h
  elections := by
    intro U L hL
    obtain ⟨Q, hQ, hb⟩ := hi.elections U L hL
    exact ⟨Q, hQ, fun q hq => ⟨Nat.le_trans (hb q hq).1 (ht q), (hb q hq).2⟩⟩
  sent := fun m hm =>
    let h := hi.sent m hm
    ⟨h.elected, h.prev, h.entries, h.bound, h.safe⟩
  commit := by
    intro j
    rcases hc j with h | h
    · rcases hi.commit j with h0 | ⟨h1, h2⟩
      · left
        show c j = 0
        rw [h, h0]
      · right
        show c j < (s.log j).length ∧ Safe Γ s ((s.log j).take (c j + 1)) (t j)
        rw [h]
        obtain ⟨T, k, hT, hcom, hP⟩ := h2
        exact ⟨h1, T, k, Nat.le_trans hT (ht j), hcom, hP⟩
    · exact Or.inl h
  advanced := hi.advanced
  delivered := hi.delivered

theorem inv_grant {Γ : Params N E} {s : State N E} (hi : Inv Γ s) {q c : N}
    (hc : s.term q ≤ s.term c)
    (hlog : s.role c = .candidate → s.term c = s.term q →
      UpToDate Γ (s.log c) (s.log q)) :
    Inv Γ { s with votes := insert (q, s.term q, c) s.votes } := by
  apply hi.relabel
  · intro j
    exact le_refl _
  · intro j
    exact Or.inr (Or.inl ⟨rfl, rfl⟩)
  · intro j
    exact Or.inl rfl
  · intro q' U d hd
    rcases Set.mem_insert_iff.mp hd with h | h
    · right
      simp only [Prod.mk.injEq] at h
      obtain ⟨rfl, rfl, rfl⟩ := h
      refine ⟨le_refl _, hc, ?_⟩
      intro hrd htd hU T m k hT hm hkm hk
      have hlt : ∀ e ∈ s.log d, Γ.term e < s.term q' := by
        intro e he
        rw [← htd]
        exact hi.candidate d hrd e he
      -- the voter kept the prefix, or a leader before this term dropped it
      rcases (hi.accepted q' T m hm).2.2 k hkm with h | ⟨V, L', h1, h2, h3, h4⟩
      · exact kept_of_upToDate hi.ledger (hi.good q') (hi.good d) hk h hlt
          (hlog hrd htd)
      · rcases Nat.lt_or_ge V (s.term q') with hV | hV
        · exact Or.inr ⟨V, L', h1, hV, h3, h4⟩
        · have hVU : V = s.term q' := by omega
          rw [hVU, hU] at h3
          exact absurd h3 (by simp)
    · exact Or.inl h

theorem inv_send {Γ : Params N E} {s : State N E} {m : Segment E} (hi : Inv Γ s) {c : N}
    (hc : s.role c = .leader) (hT : m.term = s.term c)
    (hprev : (s.log c)[m.prev]?.map Γ.term = some m.prevTerm)
    (hes : m.entries = (s.log c).drop (m.prev + 1))
    (hcm : m.commit = s.commit c) :
    Inv Γ { s with sent := insert m s.sent } := by
  obtain ⟨hel, hlead⟩ := hi.leader c hc
  obtain ⟨x, hx, -⟩ := Option.map_eq_some_iff.mp hprev
  have hlt := (List.getElem?_eq_some_iff.mp hx).1
  have hseg : SegmentOk Γ s m := by
    refine ⟨by rw [hT]; exact hel, ?_, ?_, ?_, ?_⟩
    · rw [hT, ← hlead]
      exact hprev
    · rw [hT, ← hlead, hes]
    · rw [hes, hcm, List.length_drop]
      rcases hi.commit c with h | ⟨h, -⟩ <;> omega
    · rw [hT, ← hlead, hcm]
      rcases hi.commit c with h | ⟨-, h⟩
      · exact Or.inl h
      · exact Or.inr h
  refine ⟨⟨hi.ledger.vacant, fun T L hL => ?_⟩, hi.good, hi.term_le, hi.candidate,
    hi.leader, hi.one_leader, hi.accepted, hi.votes, hi.elections, ?_, hi.commit,
    hi.advanced, hi.delivered⟩
  · have h := hi.ledger.won T L hL
    exact ⟨h.good, h.ne_nil, h.earlier, h.own⟩
  · intro m' hm'
    rcases Set.mem_insert_iff.mp hm' with rfl | h
    · exact ⟨hseg.elected, hseg.prev, hseg.entries, hseg.bound, hseg.safe⟩
    · have h' := hi.sent m' h
      exact ⟨h'.elected, h'.prev, h'.entries, h'.bound, h'.safe⟩

/-- What splicing a segment in flight does to an acceptor's log. -/
theorem Inv.spliced {Γ : Params N E} {s : State N E} (hi : Inv Γ s) {i : N}
    {m : Segment E} (hm : m ∈ s.sent)
    (hT : s.term i = m.term)
    (hprev : (s.log i)[m.prev]?.map Γ.term = some m.prevTerm)
    {L : List E} (hL : L = splice Γ.term (s.log i) (m.prev + 1) m.entries) :
    Good Γ s L ∧ (∀ e ∈ L, Γ.term e ≤ m.term) ∧
      m.prev + m.entries.length < L.length ∧
      L.take (m.prev + 1 + m.entries.length) =
        (s.leaderLog m.term).take (m.prev + 1 + m.entries.length) ∧
      ∀ P, P <+: s.log i → P <+: s.leaderLog m.term → P <+: L := by
  have hseg := hi.sent m hm
  have hlen := hseg.length
  obtain ⟨LV, hLV⟩ := hseg.elected
  have hlead := hi.ledger.won _ LV hLV
  have hag := (hi.good i).agree hlead.good
  obtain ⟨x, hx, hxt⟩ := Option.map_eq_some_iff.mp hprev
  obtain ⟨y, hy, hyt⟩ := Option.map_eq_some_iff.mp hseg.prev
  have hlt := (List.getElem?_eq_some_iff.mp hx).1
  have hltM := (List.getElem?_eq_some_iff.mp hy).1
  have hj := hag m.prev x y hx hy (hxt.trans hyt.symm)
  have hkeep : ∀ P, P <+: s.log i → P <+: s.leaderLog m.term → P <+: L := by
    intro P h1 h2
    rw [hL]
    exact splice_keeps_common hag hlt hltM hj hseg.entries h1 h2
  rcases splice_segment hag m.entries (m.prev + 1) hlt hltM hj hseg.entries with
    ⟨h1, h2, h3⟩ | ⟨h1, -⟩
  · have hLi : L = s.log i := hL.trans h1
    refine ⟨hLi ▸ hi.good i, ?_, ?_, hLi ▸ h2, hkeep⟩
    · intro e he
      rw [← hT]
      exact hi.term_le i e (hLi ▸ he)
    · rw [hLi]
      omega
  · have hLM := hL.trans h1
    refine ⟨?_, ?_, ?_, ?_, hkeep⟩
    · rw [hLM]
      apply hlead.good.anti (List.take_prefix _ _)
      apply List.length_pos_iff.mp
      rw [List.length_take]
      omega
    · intro e he
      rw [hLM] at he
      exact hlead.term_le (List.mem_of_mem_take he)
    · rw [hLM, List.length_take]
      omega
    · rw [hLM, List.take_take, Nat.min_self]

section Preservation

variable [DecidableEq N] {Γ : Params N E} {s : State N E}

theorem inv_adopt (hi : Inv Γ s) {i : N} {T : ℕ} (hT : s.term i ≤ T) :
    Inv Γ { s with
      term := Function.update s.term i T
      role := Function.update s.role i .follower } := by
  apply hi.relabel
  · intro j
    rcases eq_or_ne j i with rfl | hj
    · simpa using hT
    · simp [hj]
  · intro j
    rcases eq_or_ne j i with rfl | hj
    · simp
    · simp [hj]
  · intro j
    exact Or.inl rfl
  · intro q U d hd
    exact Or.inl hd

theorem inv_restart (hi : Inv Γ s) {i : N} :
    Inv Γ { s with
      role := Function.update s.role i .follower
      commit := Function.update s.commit i 0 } := by
  apply hi.relabel
  · intro j
    exact le_refl _
  · intro j
    rcases eq_or_ne j i with rfl | hj
    · simp
    · simp [hj]
  · intro j
    rcases eq_or_ne j i with rfl | hj
    · simp
    · simp [hj]
  · intro q U d hd
    exact Or.inl hd

theorem inv_campaign (hi : Inv Γ s) {i : N} :
    Inv Γ { s with
      term := Function.update s.term i (s.term i + 1)
      role := Function.update s.role i .candidate
      votes := insert (i, s.term i + 1, i) s.votes } := by
  apply hi.relabel
  · intro j
    rcases eq_or_ne j i with rfl | hj
    · simp
    · simp [hj]
  · intro j
    rcases eq_or_ne j i with rfl | hj
    · simp
    · simp [hj]
  · intro j
    exact Or.inl rfl
  · intro q U d hd
    rcases Set.mem_insert_iff.mp hd with h | h
    · right
      simp only [Prod.mk.injEq] at h
      obtain ⟨rfl, rfl, rfl⟩ := h
      refine ⟨by simp, by simp, ?_⟩
      intro _ _ _ T m k hT hm hkm _
      exact (hi.accepted _ T m hm).2.2 k hkm
    · exact Or.inl h

/-! ### Election -/

theorem grows_elect (hi : Inv Γ s) {c : N} (hU : s.elected (s.term c) = none) :
    Grows s (s.elect c) where
  log := by
    intro T
    rcases eq_or_ne T (s.term c) with rfl | hT
    · rw [hi.ledger.vacant _ hU]
      exact List.nil_prefix
    · simp [State.elect, hT]
  elected := by
    intro T L hL
    have hT : T ≠ s.term c := by
      rintro rfl
      rw [hU] at hL
      exact absurd hL (by simp)
    simpa [State.elect, hT] using hL
  accepted := Set.subset_insert _ _

theorem leaderLog_elect_self (s : State N E) (c : N) :
    (s.elect c).leaderLog (s.term c) = s.log c := by
  simp [State.elect]

theorem leaderLog_elect_of_ne (s : State N E) {c : N} {T : ℕ} (hT : T ≠ s.term c) :
    (s.elect c).leaderLog T = s.leaderLog T := by
  simp [State.elect, hT]

theorem ledger_elect (hi : Inv Γ s) {c : N} (hc : s.role c = .candidate)
    (hU : s.elected (s.term c) = none) : Ledger Γ (s.elect c) := by
  have hgood : ∀ L, Good Γ s L → Good Γ (s.elect c) L :=
    fun L h => h.mono (grows_elect hi hU).log
  constructor
  · intro T hT
    have hne : T ≠ s.term c := by
      rintro rfl
      simp [State.elect] at hT
    rw [leaderLog_elect_of_ne s hne]
    exact hi.ledger.vacant T (by simpa [State.elect, hne] using hT)
  · intro T L hL
    rcases eq_or_ne T (s.term c) with rfl | hne
    · have hLc : s.log c = L := by simpa [State.elect] using hL
      subst hLc
      refine ⟨?_, ?_, hi.candidate c hc, [], ?_, by simp⟩
      · rw [leaderLog_elect_self]
        exact hgood _ (hi.good c)
      · exact List.length_pos_iff.mp (hi.good c).length_pos
      · rw [leaderLog_elect_self, List.append_nil]
    · have h := hi.ledger.won T L (by simpa [State.elect, hne] using hL)
      refine ⟨?_, h.ne_nil, h.earlier, ?_⟩
      · rw [leaderLog_elect_of_ne s hne]
        exact hgood _ h.good
      · rw [leaderLog_elect_of_ne s hne]
        exact h.own

omit [DecidableEq N] in
/-- Another leader of the winner's term would have been elected before. -/
theorem sole_elect (hi : Inv Γ s) {c j : N} (hU : s.elected (s.term c) = none)
    (hj : s.role j = .leader) : s.term j ≠ s.term c := by
  intro hT
  obtain ⟨⟨L, hL⟩, -⟩ := hi.leader j hj
  rw [hT, hU] at hL
  exact absurd hL (by simp)

theorem role_elect {c j : N} {r : Role} (hj : (s.elect c).role j = r) (hne : j ≠ c) :
    s.role j = r := by
  simpa [State.elect, hne] using hj

theorem inv_elect (hi : Inv Γ s) {c : N} {Q : Set N}
    (hc : s.role c = .candidate) (hQ : Γ.Quorum Q)
    (hv : ∀ q ∈ Q, (q, s.term c, c) ∈ s.votes)
    (hU : s.elected (s.term c) = none) : Inv Γ (s.elect c) := by
  have hg := grows_elect hi hU
  have hx : Extends s (s.elect c) := hg.extends_insert rfl (le_refl _)
  have hcand : ∀ j, (s.elect c).role j = .candidate → j ≠ c := by
    rintro j hj rfl
    simp [State.elect] at hj
  exact
  { ledger := ledger_elect hi hc hU
    good := fun j => (hi.good j).mono hg.log
    term_le := hi.term_le
    candidate := fun j hj => hi.candidate j (role_elect hj (hcand j hj))
    leader := by
      intro j hj
      rcases eq_or_ne j c with rfl | hne
      · exact ⟨⟨s.log j, by simp [State.elect]⟩, (leaderLog_elect_self s j).symm⟩
      · have hold := role_elect hj hne
        obtain ⟨⟨L, hL⟩, hlog⟩ := hi.leader j hold
        exact ⟨⟨L, hg.elected _ L hL⟩,
          hlog.trans (leaderLog_elect_of_ne s (sole_elect hi hU hold)).symm⟩
    one_leader := by
      intro i j hri hrj hij
      rcases eq_or_ne i c with rfl | hne
      · by_contra hji
        exact sole_elect hi hU (role_elect hrj (Ne.symm hji)) hij.symm
      · rcases eq_or_ne j c with rfl | hne'
        · exact absurd hij (sole_elect hi hU (role_elect hri hne))
        · exact hi.one_leader i j (role_elect hri hne) (role_elect hrj hne') hij
    accepted := by
      intro q T m hm
      rcases Set.mem_insert_iff.mp hm with h | h
      · -- the winner holds the log it leads with
        simp only [Prod.mk.injEq] at h
        obtain ⟨rfl, rfl, rfl⟩ := h
        have hpos := (hi.good q).length_pos
        rw [leaderLog_elect_self]
        refine ⟨le_refl _, by omega, fun k _ => Or.inl ?_⟩
        rw [leaderLog_elect_self]
        exact List.take_prefix _ _
      · exact hg.accepted_old hi h
    votes := by
      intro q U d hd
      obtain ⟨h1, h2, h3⟩ := hi.votes q U d hd
      refine ⟨h1, h2, fun hrd htd hUn => ?_⟩
      have hUne : U ≠ s.term c := by
        rintro rfl
        simp [State.elect] at hUn
      exact hx.backs hi h1 (h3 (role_elect hrd (hcand d hrd)) htd
        (by simpa [State.elect, hUne] using hUn))
    elections := by
      intro U L hL
      rcases eq_or_ne U (s.term c) with rfl | hne
      · have hLc : s.log c = L := by simpa [State.elect] using hL
        subst hLc
        refine ⟨Q, hQ, fun q hq => ?_⟩
        obtain ⟨h1, -, h3⟩ := hi.votes q _ c (hv q hq)
        exact ⟨h1, hx.backs hi h1 (h3 hc rfl hU)⟩
      · exact hx.elections hi (by simpa [State.elect, hne] using hL)
    sent := fun m hm => (hi.sent m hm).grow hg
    commit := hg.commit_old hi
    advanced := fun T n h => (hi.advanced T n h).grow hg
    delivered := fun k e h => hg.delivered_old hi h }

/-! ### Proposal -/

theorem grows_propose (hi : Inv Γ s) {c : N} {e : E} (hc : s.role c = .leader) :
    Grows s (s.propose c e) where
  log := by
    intro T
    rcases eq_or_ne T (s.term c) with rfl | hT
    · rw [← (hi.leader c hc).2]
      simp [State.propose]
    · simp [State.propose, hT]
  elected := fun _ _ h => h
  accepted := Set.subset_insert _ _

theorem leaderLog_propose_self (s : State N E) (c : N) (e : E) :
    (s.propose c e).leaderLog (s.term c) = s.log c ++ [e] := by
  simp [State.propose]

theorem leaderLog_propose_of_ne (s : State N E) {c : N} (e : E) {T : ℕ}
    (hT : T ≠ s.term c) : (s.propose c e).leaderLog T = s.leaderLog T := by
  simp [State.propose, hT]

theorem log_propose_self (s : State N E) (c : N) (e : E) :
    (s.propose c e).log c = s.log c ++ [e] := by
  simp [State.propose]

theorem log_propose_of_ne (s : State N E) {c j : N} (e : E) (hj : j ≠ c) :
    (s.propose c e).log j = s.log j := by
  simp [State.propose, hj]

/-- A leader's log stays good when an entry of its own term is appended. -/
theorem good_propose (hi : Inv Γ s) {c : N} {e : E} (hc : s.role c = .leader)
    (he : Γ.term e = s.term c) : Good Γ (s.propose c e) (s.log c ++ [e]) := by
  have hpos := (hi.good c).length_pos
  constructor
  · rw [List.getElem?_append_left hpos]
    exact (hi.good c).1
  · intro k x hk hx
    rcases Nat.lt_or_ge k (s.log c).length with hlt | hge
    · rw [List.getElem?_append_left hlt] at hx
      rw [List.take_append_of_le_length (by omega)]
      exact ((hi.good c).2 k x hk hx).trans ((grows_propose hi hc).log _)
    · have hk' : k = (s.log c).length := by
        have h := (List.getElem?_eq_some_iff.mp hx).1
        rw [List.length_append, List.length_singleton] at h
        omega
      subst hk'
      have hxe : x = e := by simpa using hx.symm
      rw [hxe, he, List.take_of_length_le (by simp), leaderLog_propose_self]

theorem ledger_propose (hi : Inv Γ s) {c : N} {e : E} (hc : s.role c = .leader)
    (he : Γ.term e = s.term c) : Ledger Γ (s.propose c e) := by
  obtain ⟨⟨L, hL⟩, hlead⟩ := hi.leader c hc
  constructor
  · intro T hT
    have hne : T ≠ s.term c := by
      rintro rfl
      have hT' : s.elected (s.term c) = none := hT
      rw [hL] at hT'
      exact absurd hT' (by simp)
    rw [leaderLog_propose_of_ne s e hne]
    exact hi.ledger.vacant T hT
  · intro T L' hL'
    have h := hi.ledger.won T L' hL'
    rcases eq_or_ne T (s.term c) with rfl | hne
    · refine ⟨?_, h.ne_nil, h.earlier, ?_⟩
      · rw [leaderLog_propose_self]
        exact good_propose hi hc he
      · obtain ⟨ext, hext, hown⟩ := h.own
        refine ⟨ext ++ [e], ?_, fun x hx => ?_⟩
        · rw [leaderLog_propose_self, hlead, hext, List.append_assoc]
        · rcases List.mem_append.mp hx with hx | hx
          · exact hown x hx
          · rw [List.mem_singleton.mp hx]
            exact he
    · refine ⟨?_, h.ne_nil, h.earlier, ?_⟩
      · rw [leaderLog_propose_of_ne s e hne]
        exact h.good.mono (grows_propose hi hc).log
      · rw [leaderLog_propose_of_ne s e hne]
        exact h.own

/-- Logs only get longer. -/
theorem log_propose (s : State N E) (c : N) (e : E) (j : N) :
    s.log j <+: (s.propose c e).log j := by
  rcases eq_or_ne j c with rfl | hj
  · rw [log_propose_self]
    exact List.prefix_append _ _
  · rw [log_propose_of_ne s e hj]

theorem inv_propose (hi : Inv Γ s) {c : N} {e : E} (hc : s.role c = .leader)
    (he : Γ.term e = s.term c) : Inv Γ (s.propose c e) := by
  have hg : Grows s (s.propose c e) := grows_propose hi hc
  have hx : Extends s (s.propose c e) := hg.extends_insert rfl (le_refl _)
  have hcand : ∀ j, s.role j = .candidate → (s.propose c e).log j = s.log j := by
    intro j hj
    apply log_propose_of_ne
    rintro rfl
    exact Role.noConfusion (hc.symm.trans hj)
  exact
  { ledger := ledger_propose hi hc he
    good := by
      intro j
      rcases eq_or_ne j c with rfl | hj
      · rw [log_propose_self]
        exact good_propose hi hc he
      · rw [log_propose_of_ne s e hj]
        exact (hi.good j).mono hg.log
    term_le := by
      intro j x hx
      rcases eq_or_ne j c with rfl | hj
      · rw [log_propose_self] at hx
        rcases List.mem_append.mp hx with hx | hx
        · exact hi.term_le j x hx
        · rw [List.mem_singleton.mp hx, he]
          exact le_refl _
      · rw [log_propose_of_ne s e hj] at hx
        exact hi.term_le j x hx
    candidate := by
      intro j hj x hx
      rw [hcand j hj] at hx
      exact hi.candidate j hj x hx
    leader := by
      intro j hj
      obtain ⟨hL, hlog⟩ := hi.leader j hj
      refine ⟨hL, ?_⟩
      rcases eq_or_ne j c with rfl | hne
      · rw [log_propose_self]
        exact (leaderLog_propose_self s j e).symm
      · have hT : s.term j ≠ s.term c := fun h => hne (hi.one_leader j c hj hc h)
        rw [log_propose_of_ne s e hne, hlog]
        exact (leaderLog_propose_of_ne s e hT).symm
    one_leader := hi.one_leader
    accepted := by
      intro q T m hm
      rcases Set.mem_insert_iff.mp hm with h | h
      · simp only [Prod.mk.injEq] at h
        obtain ⟨rfl, rfl, rfl⟩ := h
        rw [leaderLog_propose_self]
        refine ⟨le_refl _, by simp, fun k _ => Or.inl ?_⟩
        rw [leaderLog_propose_self, log_propose_self]
        exact List.take_prefix _ _
      · obtain ⟨h1, h2, h3⟩ := hg.accepted_old hi h
        refine ⟨h1, h2, fun k hk => ?_⟩
        rcases h3 k hk with hp | hd
        · exact Or.inl (hp.trans (log_propose s c e q))
        · exact Or.inr hd
    votes := by
      intro q U d hd
      obtain ⟨h1, h2, h3⟩ := hi.votes q U d hd
      refine ⟨h1, h2, fun hrd htd hUn => ?_⟩
      rw [hcand d hrd]
      exact hx.backs hi h1 (h3 hrd htd hUn)
    elections := fun U L hL => hx.elections hi hL
    sent := fun m hm => (hi.sent m hm).grow hg
    commit := by
      intro j
      rcases hg.commit_old hi j with h0 | ⟨h1, h2⟩
      · exact Or.inl h0
      · right
        have hpre := log_propose s c e j
        refine ⟨Nat.lt_of_lt_of_le h1 hpre.length_le, ?_⟩
        obtain ⟨ext, hext⟩ := hpre
        show Safe Γ _ (((s.propose c e).log j).take (s.commit j + 1)) (s.term j)
        rw [← hext, List.take_append_of_le_length (by omega)]
        exact h2
    advanced := fun T n h => (hi.advanced T n h).grow hg
    delivered := fun k x h => hg.delivered_old hi h }

/-! ### Acceptance -/

section Accept

variable {i : N} {m : Segment E}

theorem grows_accept (Γ : Params N E) (s : State N E) (i : N) (m : Segment E) :
    Grows s (s.accept Γ i m) :=
  ⟨fun _ => List.prefix_refl _, fun _ _ h => h, Set.subset_insert _ _⟩

theorem log_accept_self (Γ : Params N E) (s : State N E) (i : N) (m : Segment E) :
    (s.accept Γ i m).log i = splice Γ.term (s.log i) (m.prev + 1) m.entries := by
  simp [State.accept]

theorem log_accept_of_ne (Γ : Params N E) (s : State N E) (m : Segment E) {j : N}
    (hj : j ≠ i) : (s.accept Γ i m).log j = s.log j := by
  simp [State.accept, hj]

/-- The new log has the leader's up to the segment's end. -/
theorem accept_take (hi : Inv Γ s) (hm : m ∈ s.sent) (hT : s.term i = m.term)
    (hprev : (s.log i)[m.prev]?.map Γ.term = some m.prevTerm) {k : ℕ}
    (hk : k ≤ m.prev + m.entries.length) :
    ((s.accept Γ i m).log i).take (k + 1) = (s.leaderLog m.term).take (k + 1) := by
  obtain ⟨-, -, -, htake, -⟩ := hi.spliced hm hT hprev (log_accept_self Γ s i m)
  have h := congrArg (List.take (k + 1)) htake
  rwa [List.take_take, List.take_take, Nat.min_eq_left (by omega)] at h

/-- What the acceptor had kept of earlier terms it keeps, or the segment's leader
is the one to blame. -/
theorem accept_kept (hi : Inv Γ s) (hm : m ∈ s.sent) (hT : s.term i = m.term)
    (hprev : (s.log i)[m.prev]?.map Γ.term = some m.prevTerm) {T k : ℕ}
    (hTi : T ≤ s.term i) (h : Kept s T k (s.log i) (s.term i + 1)) :
    Kept s T k ((s.accept Γ i m).log i) (s.term i + 1) := by
  obtain ⟨LV, hLV⟩ := (hi.sent m hm).elected
  have hlead := hi.ledger.won _ LV hLV
  obtain ⟨-, -, -, -, hkeep⟩ := hi.spliced hm hT hprev (log_accept_self Γ s i m)
  rcases h with hp | hd
  · rcases Nat.eq_or_lt_of_le hTi with hTq | hTq
    · left
      apply hkeep _ hp
      rw [← hT, ← hTq]
      exact List.take_prefix _ _
    · by_cases hPL : (s.leaderLog T).take (k + 1) <+: LV
      · exact Or.inl (hkeep _ hp (hPL.trans hlead.isPrefix))
      · right
        refine ⟨m.term, LV, by omega, ?_, hLV, hPL⟩
        exact Nat.lt_succ_of_le (Nat.le_of_eq hT.symm)
  · exact Or.inr hd

/-- The acceptor's commit index follows the leader inside the segment; otherwise
what it had committed lies in this leader's log and survives. -/
theorem accept_commit (hi : Inv Γ s) (hm : m ∈ s.sent) (hT : s.term i = m.term)
    (hprev : (s.log i)[m.prev]?.map Γ.term = some m.prevTerm) :
    commitAfter (s.commit i) m = 0 ∨
      commitAfter (s.commit i) m < ((s.accept Γ i m).log i).length ∧
        Safe Γ s (((s.accept Γ i m).log i).take (commitAfter (s.commit i) m + 1))
          (s.term i) := by
  have hseg := hi.sent m hm
  obtain ⟨LV, hLV⟩ := hseg.elected
  obtain ⟨-, -, hlen, -, hkeep⟩ := hi.spliced hm hT hprev (log_accept_self Γ s i m)
  unfold commitAfter
  split
  · rename_i hlt
    right
    have hbound := hseg.bound
    rw [Nat.min_eq_left hbound, accept_take hi hm hT hprev hbound, hT]
    exact ⟨by omega, hseg.safe.resolve_left (by omega)⟩
  · rcases hi.commit i with h0 | ⟨h1, h2⟩
    · exact Or.inl h0
    · right
      have hP : (s.log i).take (s.commit i + 1) <+: (s.accept Γ i m).log i :=
        hkeep _ (List.take_prefix _ _) (h2.isPrefix hi (Nat.le_of_eq hT) hLV)
      have hPlen : ((s.log i).take (s.commit i + 1)).length = s.commit i + 1 := by
        rw [List.length_take]
        omega
      have hle := hP.length_le
      have hcut := List.prefix_iff_eq_take.mp hP
      rw [hPlen] at hle hcut
      exact ⟨hle, hcut ▸ h2⟩

theorem inv_accept (hi : Inv Γ s) (hm : m ∈ s.sent)
    (hri : s.role i = .follower) (hT : s.term i = m.term)
    (hprev : (s.log i)[m.prev]?.map Γ.term = some m.prevTerm) :
    Inv Γ (s.accept Γ i m) := by
  have hg := grows_accept Γ s i m
  have hx : Extends s (s.accept Γ i m) := hg.extends_insert rfl (Nat.le_of_eq hT)
  obtain ⟨hgood, hterm, -⟩ := hi.spliced hm hT hprev (log_accept_self Γ s i m)
  -- nobody but a follower changes its log
  have hother : ∀ j r, r ≠ .follower → s.role j = r →
      (s.accept Γ i m).log j = s.log j := by
    intro j r hr hj
    apply log_accept_of_ne
    rintro rfl
    exact hr (hj.symm.trans hri)
  exact
  { ledger := ⟨hi.ledger.vacant, fun T L hL =>
      let h := hi.ledger.won T L hL
      ⟨h.good, h.ne_nil, h.earlier, h.own⟩⟩
    good := by
      intro j
      rcases eq_or_ne j i with rfl | hj
      · exact hgood
      · rw [log_accept_of_ne Γ s m hj]
        exact hi.good j
    term_le := by
      intro j e he
      rcases eq_or_ne j i with rfl | hj
      · exact Nat.le_trans (hterm e he) (Nat.le_of_eq hT.symm)
      · rw [log_accept_of_ne Γ s m hj] at he
        exact hi.term_le j e he
    candidate := by
      intro j hj e he
      rw [hother j .candidate (by simp) hj] at he
      exact hi.candidate j hj e he
    leader := by
      intro j hj
      rw [hother j .leader (by simp) hj]
      exact hi.leader j hj
    one_leader := hi.one_leader
    accepted := by
      intro q T k hk
      rcases Set.mem_insert_iff.mp hk with h | h
      · simp only [Prod.mk.injEq] at h
        obtain ⟨rfl, rfl, rfl⟩ := h
        refine ⟨Nat.le_of_eq hT.symm, (hi.sent m hm).length, fun k' hk' => Or.inl ?_⟩
        have htake := accept_take hi hm hT hprev hk'
        exact htake ▸ List.take_prefix _ _
      · obtain ⟨h1, h2, h3⟩ := hi.accepted q T k h
        refine ⟨h1, h2, fun k' hk' => ?_⟩
        rcases eq_or_ne q i with rfl | hq
        · exact accept_kept hi hm hT hprev h1 (h3 k' hk')
        · rw [log_accept_of_ne Γ s m hq]
          exact h3 k' hk'
    votes := by
      intro q U d hd
      obtain ⟨h1, h2, h3⟩ := hi.votes q U d hd
      refine ⟨h1, h2, fun hrd htd hUn => ?_⟩
      rw [hother d .candidate (by simp) hrd]
      exact hx.backs hi h1 (h3 hrd htd hUn)
    elections := fun U L hL => hx.elections hi hL
    sent := fun m' hm' => (hi.sent m' hm').grow hg
    commit := by
      intro j
      rcases eq_or_ne j i with rfl | hj
      · have hc : (s.accept Γ j m).commit j = commitAfter (s.commit j) m := by
          simp [State.accept]
        rw [hc]
        rcases accept_commit hi hm hT hprev with h0 | ⟨h1, h2⟩
        · exact Or.inl h0
        · exact Or.inr ⟨h1, h2.grow hg (le_refl _)⟩
      · have hc : (s.accept Γ i m).commit j = s.commit j := by
          simp [State.accept, hj]
        rw [hc, log_accept_of_ne Γ s m hj]
        exact hg.commit_old hi j
    advanced := fun T n h => (hi.advanced T n h).grow hg
    delivered := fun k e h => hg.delivered_old hi h }

end Accept

/-! ### Commit advance and delivery -/

theorem inv_advance (hi : Inv Γ s) {c : N} {n : ℕ} {Q : Set N}
    (hc : s.role c = .leader)
    (hn : (s.log c)[n]?.map Γ.term = some (s.term c)) (hQ : Γ.Quorum Q)
    (hacc : ∀ q ∈ Q, ∃ m, n ≤ m ∧ (q, s.term c, m) ∈ s.accepted) :
    Inv Γ { s with
      commit := Function.update s.commit c n
      advanced := insert (s.term c, n) s.advanced } := by
  have hlead := (hi.leader c hc).2
  have hcom : CommittedAt Γ s (s.term c) n := by
    refine ⟨?_, Q, hQ, hacc⟩
    rw [← hlead]
    exact hn
  refine ⟨⟨hi.ledger.vacant, fun T L hL => ?_⟩, hi.good, hi.term_le, hi.candidate,
    hi.leader, hi.one_leader, hi.accepted, hi.votes, hi.elections, fun m hm => ?_, ?_, ?_,
    hi.delivered⟩
  · have h := hi.ledger.won T L hL
    exact ⟨h.good, h.ne_nil, h.earlier, h.own⟩
  · have h := hi.sent m hm
    exact ⟨h.elected, h.prev, h.entries, h.bound, h.safe⟩
  · intro j
    rcases eq_or_ne j c with rfl | hj
    · right
      obtain ⟨x, hx, -⟩ := Option.map_eq_some_iff.mp hn
      have hlt := (List.getElem?_eq_some_iff.mp hx).1
      simp only [Function.update_self]
      refine ⟨hlt, s.term j, n, le_refl _, hcom, ?_⟩
      show (s.log j).take (n + 1) <+: (s.leaderLog (s.term j)).take (n + 1)
      rw [← hlead]
    · simp only [Function.update_of_ne hj]
      exact hi.commit j
  · intro T k h
    rcases Set.mem_insert_iff.mp h with h | h
    · simp only [Prod.mk.injEq] at h
      obtain ⟨rfl, rfl⟩ := h
      exact hcom
    · exact hi.advanced T k h

end Preservation

theorem inv_deliver {Γ : Params N E} {s : State N E} (hi : Inv Γ s) {i : N} {k : ℕ}
    {e : E} (h0 : 0 < k) (hk : k ≤ s.commit i) (he : (s.log i)[k]? = some e) :
    Inv Γ { s with delivered := insert (k, e) s.delivered } := by
  refine ⟨⟨hi.ledger.vacant, fun T L hL => ?_⟩, hi.good, hi.term_le, hi.candidate,
    hi.leader, hi.one_leader, hi.accepted, hi.votes, hi.elections, fun m hm => ?_,
    hi.commit, hi.advanced, ?_⟩
  · have h := hi.ledger.won T L hL
    exact ⟨h.good, h.ne_nil, h.earlier, h.own⟩
  · have h := hi.sent m hm
    exact ⟨h.elected, h.prev, h.entries, h.bound, h.safe⟩
  · intro k' e' h
    rcases Set.mem_insert_iff.mp h with h | h
    · simp only [Prod.mk.injEq] at h
      obtain ⟨rfl, rfl⟩ := h
      rcases hi.commit i with hc | ⟨-, hs⟩
      · omega
      · refine ⟨_, _, hs, ?_⟩
        rw [List.getElem?_take_of_lt (by omega)]
        exact he
    · exact hi.delivered k' e' h

/-! ## §8  Runs -/

/-- **Every step keeps the invariant.** -/
theorem inv_step [DecidableEq N] {Γ : Params N E} {s s' : State N E}
    (hi : Inv Γ s) (h : Step Γ s s') : Inv Γ s' := by
  cases h with
  | adopt i T hT => exact inv_adopt hi hT
  | restart i => exact inv_restart hi
  | campaign i => exact inv_campaign hi
  | grant q c hc hlog => exact inv_grant hi hc hlog
  | elect c Q hc hQ hv hU => exact inv_elect hi hc hQ hv hU
  | propose c e hc he => exact inv_propose hi hc he
  | send c m hc hT hprev hes hcm => exact inv_send hi hc hT hprev hes hcm
  | accept i m hm hri hT hprev => exact inv_accept hi hm hri hT hprev
  | advance c n Q hc hn hQ hacc => exact inv_advance hi hc hn hQ hacc
  | deliver i k e h0 hk he => exact inv_deliver hi h0 hk he

/-- **The invariant holds along every run.** -/
theorem inv_steps [DecidableEq N] {Γ : Params N E} {s s' : State N E}
    (hi : Inv Γ s) (h : Relation.ReflTransGen (Step Γ) s s') : Inv Γ s' := by
  induction h with
  | refl => exact hi
  | tail _ hstep ih => exact inv_step ih hstep

/-- Whatever `s` records, `s'` records. -/
structure Retains (s s' : State N E) : Prop extends Grows s s' where
  votes : s.votes ⊆ s'.votes
  sent : s.sent ⊆ s'.sent
  advanced : s.advanced ⊆ s'.advanced
  delivered : s.delivered ⊆ s'.delivered

theorem Retains.refl (s : State N E) : Retains s s :=
  ⟨⟨fun _ => List.prefix_refl _, fun _ _ h => h, fun _ h => h⟩, fun _ h => h,
    fun _ h => h, fun _ h => h, fun _ h => h⟩

theorem Retains.trans {s t u : State N E} (h : Retains s t) (h' : Retains t u) :
    Retains s u :=
  ⟨⟨fun T => (h.log T).trans (h'.log T), fun T L hL => h'.elected T L (h.elected T L hL),
    fun _ hx => h'.accepted (h.accepted hx)⟩, fun _ hx => h'.votes (h.votes hx),
    fun _ hx => h'.sent (h.sent hx), fun _ hx => h'.advanced (h.advanced hx),
    fun _ hx => h'.delivered (h.delivered hx)⟩

theorem step_retains [DecidableEq N] {Γ : Params N E} {s s' : State N E}
    (hi : Inv Γ s) (h : Step Γ s s') : Retains s s' := by
  obtain ⟨⟨hlog, hel, hacc⟩, hv, hs, ha, hd⟩ := Retains.refl s
  cases h with
  | adopt i T hT => exact ⟨⟨hlog, hel, hacc⟩, hv, hs, ha, hd⟩
  | restart i => exact ⟨⟨hlog, hel, hacc⟩, hv, hs, ha, hd⟩
  | campaign i => exact ⟨⟨hlog, hel, hacc⟩, Set.subset_insert _ _, hs, ha, hd⟩
  | grant q c hc hup => exact ⟨⟨hlog, hel, hacc⟩, Set.subset_insert _ _, hs, ha, hd⟩
  | elect c Q hc hQ hvotes hU => exact ⟨grows_elect hi hU, hv, hs, ha, hd⟩
  | propose c e hc he => exact ⟨grows_propose hi hc, hv, hs, ha, hd⟩
  | send c m hc hT hprev hes hcm =>
      exact ⟨⟨hlog, hel, hacc⟩, hv, Set.subset_insert _ _, ha, hd⟩
  | accept i m hm hri hT hprev =>
      exact ⟨⟨hlog, hel, Set.subset_insert _ _⟩, hv, hs, ha, hd⟩
  | advance c n Q hc hn hQ hq =>
      exact ⟨⟨hlog, hel, hacc⟩, hv, hs, Set.subset_insert _ _, hd⟩
  | deliver i k e h0 hk he =>
      exact ⟨⟨hlog, hel, hacc⟩, hv, hs, ha, Set.subset_insert _ _⟩

/-- **Nothing recorded is lost along a run.** -/
theorem steps_retain [DecidableEq N] {Γ : Params N E} {s s' : State N E}
    (hi : Inv Γ s) (h : Relation.ReflTransGen (Step Γ) s s') : Retains s s' := by
  induction h with
  | refl => exact Retains.refl _
  | tail hrun hstep ih => exact ih.trans (step_retains (inv_steps hi hrun) hstep)

/-! ### What the invariant says -/

/-- **State machine safety.** Entries delivered at one index are equal. -/
theorem Inv.delivered_agree {Γ : Params N E} {s : State N E} (hi : Inv Γ s) {k : ℕ}
    {x y : E} (hx : (k, x) ∈ s.delivered) (hy : (k, y) ∈ s.delivered) : x = y := by
  obtain ⟨P, U, hP, hPx⟩ := hi.delivered k x hx
  obtain ⟨Q, V, hQ, hQy⟩ := hi.delivered k y hy
  exact hP.agree hi hQ hPx hQy

/-- **Leader completeness**, for a leader that advanced its commit index. -/
theorem Inv.advanced_in_elected {Γ : Params N E} {s : State N E} (hi : Inv Γ s)
    {T n U : ℕ} {L : List E} (hadv : (T, n) ∈ s.advanced) (hTU : T < U)
    (hL : s.elected U = some L) : (s.leaderLog T).take (n + 1) <+: L :=
  committed_in_elected hi (hi.advanced T n hadv) U L hTU hL

/-- **Log matching** for a segment in flight: where an entry of the segment
meets one of the same term in a node's log, the log holds the segment up to
there, and its predecessor. -/
theorem Inv.segment_agree {Γ : Params N E} {s : State N E} (hi : Inv Γ s) {i : N}
    {m : Segment E} (hm : m ∈ s.sent) {j : ℕ} {x y : E} (hx : m.entries[j]? = some x)
    (hy : (s.log i)[m.prev + 1 + j]? = some y) (hxy : Γ.term x = Γ.term y) :
    (s.log i)[m.prev]?.map Γ.term = some m.prevTerm ∧
      ∀ j' ≤ j, (s.log i)[m.prev + 1 + j']? = m.entries[j']? := by
  have hseg := hi.sent m hm
  obtain ⟨L, hL⟩ := hseg.elected
  have hM : ∀ {j' : ℕ} {e : E}, m.entries[j']? = some e →
      (s.leaderLog m.term)[m.prev + 1 + j']? = some e := by
    intro j' e he
    have h := prefix_getElem? hseg.entries he
    rwa [List.getElem?_drop] at h
  have htake := (hi.good i).agree (hi.ledger.won _ L hL).good _ y x hy (hM hx) hxy.symm
  have hsame : ∀ {k : ℕ}, k ≤ m.prev + 1 + j →
      (s.log i)[k]? = (s.leaderLog m.term)[k]? := by
    intro k hk
    have h := congrArg (fun l : List E => l[k]?) htake
    simpa [List.getElem?_take_of_lt (Nat.lt_succ_of_le hk)] using h
  constructor
  · rw [hsame (by omega)]
    exact hseg.prev
  · intro j' hj'
    have hlt : j' < m.entries.length := by
      have := (List.getElem?_eq_some_iff.mp hx).1
      omega
    rw [hsame (by omega), List.getElem?_eq_getElem hlt]
    exact hM (List.getElem?_eq_getElem hlt)

end KVEngine.Foundation.ReplicatedLog
