import KVEngine.Foundation.Splice
import Mathlib.Data.Set.Insert
import Mathlib.Logic.Function.Basic
import Mathlib.Logic.Relation

/-!
# Leader-based replicated logs — §1, the abstract protocol

A protocol in which terms have at most one leader, a leader is elected by a
quorum of voters whose logs are no more up to date than its own, and followers
splice segments of the leader's log into theirs. Nodes, entries and quorums are
arbitrary: an entry type comes with a `term`, a root entry of term `0` that
starts every log, and a family of pairwise intersecting quorums.

The state keeps, besides what nodes hold (`term`, `log`, `role`, `commit`),
a ledger of what has happened: votes, elected logs, the latest log of each
term's leader, accepted prefixes, segments sent, commit advances, deliveries.
The ledger only grows, and everything proved here is read off it.

§1 the protocol · §2 well-formed logs and log matching. The invariant, leader
completeness and the safety of delivered entries are in `LogSafety`.
-/

namespace KVEngine.Foundation.ReplicatedLog

/-! ## §1  The protocol -/

inductive Role : Type where
  | follower
  | candidate
  | leader
deriving DecidableEq

/-- The vocabulary: entries with terms, a root entry, intersecting quorums. -/
structure Params (N E : Type) where
  term : E → ℕ
  root : E
  root_term : term root = 0
  Quorum : Set N → Prop
  quorum_inter : ∀ {Q R : Set N}, Quorum Q → Quorum R → ∃ q, q ∈ Q ∧ q ∈ R

/-- A segment of a leader's log as it travels: the entries that follow index
`prev`, the term found at `prev`, and the sender's commit index. -/
structure Segment (E : Type) where
  term : ℕ
  prev : ℕ
  prevTerm : ℕ
  entries : List E
  commit : ℕ

structure State (N E : Type) where
  term : N → ℕ
  log : N → List E
  role : N → Role
  commit : N → ℕ
  /-- `(q, U, c)`: node `q` voted for `c` in term `U`. -/
  votes : Set (N × ℕ × N)
  /-- The log the leader of a term held when it was elected. -/
  elected : ℕ → Option (List E)
  /-- The latest log of the leader of a term; empty before the election. -/
  leaderLog : ℕ → List E
  /-- `(q, T, m)`: node `q` held the term-`T` leader's log up to index `m`. -/
  accepted : Set (N × ℕ × ℕ)
  sent : Set (Segment E)
  /-- `(T, n)`: the leader of term `T` advanced its commit index to `n`. -/
  advanced : Set (ℕ × ℕ)
  delivered : Set (ℕ × E)

variable {N E : Type}

/-- Term of the last entry, `0` for an empty log. -/
def lastTerm (Γ : Params N E) (L : List E) : ℕ :=
  (L.getLast?.map Γ.term).getD 0

/-- `L` is at least as up to date as `M`: a later last term, or the same last
term and no shorter. -/
def UpToDate (Γ : Params N E) (L M : List E) : Prop :=
  lastTerm Γ M < lastTerm Γ L ∨
    lastTerm Γ M = lastTerm Γ L ∧ M.length ≤ L.length

/-- The commit index after a segment: raised to the sender's, but not past the
segment's last entry. -/
def commitAfter (commit : ℕ) (m : Segment E) : ℕ :=
  if commit < m.commit then min m.commit (m.prev + m.entries.length) else commit

section Updates

variable [DecidableEq N]

/-- The state after `c` wins its term: it leads with the log it holds. -/
def State.elect (s : State N E) (c : N) : State N E :=
  { s with
    role := Function.update s.role c .leader
    elected := Function.update s.elected (s.term c) (some (s.log c))
    leaderLog := Function.update s.leaderLog (s.term c) (s.log c)
    accepted := insert (c, s.term c, (s.log c).length - 1) s.accepted }

/-- The state after leader `c` appends `e` to its log. -/
def State.propose (s : State N E) (c : N) (e : E) : State N E :=
  { s with
    log := Function.update s.log c (s.log c ++ [e])
    leaderLog := Function.update s.leaderLog (s.term c) (s.log c ++ [e])
    accepted := insert (c, s.term c, (s.log c).length) s.accepted }

/-- The state after `i` splices the segment `m` into its log. -/
def State.accept (Γ : Params N E) (s : State N E) (i : N) (m : Segment E) :
    State N E :=
  { s with
    log := Function.update s.log i
      (splice Γ.term (s.log i) (m.prev + 1) m.entries)
    commit := Function.update s.commit i (commitAfter (s.commit i) m)
    accepted := insert (i, m.term, m.prev + m.entries.length) s.accepted }

end Updates

inductive Step [DecidableEq N] (Γ : Params N E) (s : State N E) :
    State N E → Prop where
  | adopt (i : N) (T : ℕ) (hT : s.term i ≤ T) :
      Step Γ s { s with
        term := Function.update s.term i T
        role := Function.update s.role i .follower }
  | restart (i : N) :
      Step Γ s { s with
        role := Function.update s.role i .follower
        commit := Function.update s.commit i 0 }
  | campaign (i : N) :
      Step Γ s { s with
        term := Function.update s.term i (s.term i + 1)
        role := Function.update s.role i .candidate
        votes := insert (i, s.term i + 1, i) s.votes }
  | grant (q c : N) (hc : s.term q ≤ s.term c)
      (hlog : s.role c = .candidate → s.term c = s.term q →
        UpToDate Γ (s.log c) (s.log q)) :
      Step Γ s { s with votes := insert (q, s.term q, c) s.votes }
  | elect (c : N) (Q : Set N) (hc : s.role c = .candidate) (hQ : Γ.Quorum Q)
      (hv : ∀ q ∈ Q, (q, s.term c, c) ∈ s.votes)
      (hU : s.elected (s.term c) = none) :
      Step Γ s (s.elect c)
  | propose (c : N) (e : E) (hc : s.role c = .leader)
      (he : Γ.term e = s.term c) :
      Step Γ s (s.propose c e)
  | send (c : N) (m : Segment E) (hc : s.role c = .leader)
      (hT : m.term = s.term c)
      (hprev : (s.log c)[m.prev]?.map Γ.term = some m.prevTerm)
      (hes : m.entries = (s.log c).drop (m.prev + 1))
      (hcm : m.commit = s.commit c) :
      Step Γ s { s with sent := insert m s.sent }
  | accept (i : N) (m : Segment E) (hm : m ∈ s.sent)
      (hi : s.role i = .follower) (hT : s.term i = m.term)
      (hprev : (s.log i)[m.prev]?.map Γ.term = some m.prevTerm) :
      Step Γ s (s.accept Γ i m)
  | advance (c : N) (n : ℕ) (Q : Set N) (hc : s.role c = .leader)
      (hn : (s.log c)[n]?.map Γ.term = some (s.term c)) (hQ : Γ.Quorum Q)
      (hacc : ∀ q ∈ Q, ∃ m, n ≤ m ∧ (q, s.term c, m) ∈ s.accepted) :
      Step Γ s { s with
        commit := Function.update s.commit c n
        advanced := insert (s.term c, n) s.advanced }
  | deliver (i : N) (k : ℕ) (e : E) (h0 : 0 < k) (hk : k ≤ s.commit i)
      (he : (s.log i)[k]? = some e) :
      Step Γ s { s with delivered := insert (k, e) s.delivered }

/-- Every node in term `0` with the root entry alone. -/
def initial (Γ : Params N E) : State N E where
  term := fun _ => 0
  log := fun _ => [Γ.root]
  role := fun _ => .follower
  commit := fun _ => 0
  votes := ∅
  elected := fun _ => none
  leaderLog := fun _ => []
  accepted := ∅
  sent := ∅
  advanced := ∅
  delivered := ∅

/-! ## §2  Well-formed logs

A log is good when each of its prefixes is a prefix of the log of the leader
whose term it ends in. Two good logs agree wherever their terms do, which is
log matching. -/

def Good (Γ : Params N E) (s : State N E) (L : List E) : Prop :=
  L[0]? = some Γ.root ∧
    ∀ k e, 0 < k → L[k]? = some e → L.take (k + 1) <+: s.leaderLog (Γ.term e)

theorem Good.length_pos {Γ : Params N E} {s : State N E} {L : List E}
    (h : Good Γ s L) : 0 < L.length :=
  (List.getElem?_eq_some_iff.mp h.1).1

theorem length_take_succ_of_getElem? {L : List E} {k : ℕ} {e : E}
    (h : L[k]? = some e) : (L.take (k + 1)).length = k + 1 := by
  have hlt := (List.getElem?_eq_some_iff.mp h).1
  rw [List.length_take]
  omega

/-- **Log matching** for good logs: the same term at the same index means the
same entries up to it. -/
theorem Good.agree {Γ : Params N E} {s : State N E} {L M : List E}
    (hL : Good Γ s L) (hM : Good Γ s M) : AgreeByKey Γ.term L M := by
  intro k x y hx hy hxy
  rcases Nat.eq_zero_or_pos k with rfl | hk
  · rw [take_succ_of_getElem? hx, take_succ_of_getElem? hy]
    have hxr : some x = some Γ.root := by rw [← hx, hL.1]
    have hyr : some y = some Γ.root := by rw [← hy, hM.1]
    rw [Option.some.inj hxr, Option.some.inj hyr]
    rfl
  · have h1 := hL.2 k x hk hx
    have h2 := hM.2 k y hk hy
    rw [← hxy] at h2
    have hl1 := length_take_succ_of_getElem? hx
    have hl2 := length_take_succ_of_getElem? hy
    have h3 := List.prefix_of_prefix_length_le h1 h2 (by omega)
    exact h3.eq_of_length (by omega)

theorem Good.anti {Γ : Params N E} {s : State N E} {L P : List E}
    (hL : Good Γ s L) (hP : P <+: L) (hne : P ≠ []) : Good Γ s P := by
  have hpos : 0 < P.length := List.length_pos_iff.mpr hne
  constructor
  · have h0 : P[0]? = some P[0] := List.getElem?_eq_getElem hpos
    have h1 := prefix_getElem? hP h0
    rw [hL.1] at h1
    rw [h0, ← Option.some.inj h1]
  · intro k e hk he
    have hlt := (List.getElem?_eq_some_iff.mp he).1
    have h1 := hL.2 k e hk (prefix_getElem? hP he)
    have h2 : P.take (k + 1) = L.take (k + 1) :=
      prefix_take_eq (M := L) hP (List.prefix_refl L) (by omega)
        (by have := hP.length_le; omega)
    rw [h2]
    exact h1

theorem Good.mono {Γ : Params N E} {s s' : State N E} {L : List E}
    (hlog : ∀ T, s.leaderLog T <+: s'.leaderLog T) (h : Good Γ s L) :
    Good Γ s' L :=
  ⟨h.1, fun k e hk he => (h.2 k e hk he).trans (hlog _)⟩

end KVEngine.Foundation.ReplicatedLog
