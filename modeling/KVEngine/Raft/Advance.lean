import KVEngine.Raft.NodeSpec
import Mathlib.Data.Multiset.UnionInter
import Mathlib.Order.Bounds.Defs

/-!
# Advancing the commit index

`maybeAdvanceCommitIndex` of `internal/raft/raft.go` goes down from the end of the log and
stops at the first index it may commit. It finds the greatest one (`maybeAdvance_greatest`),
whatever the peers and the `matchIndex` map are.

Its majority (`count*2 > len(peers)+1`) and that of an election (`(len(peers)+1)/2 + 1`
votes) are written differently. For every size of the cluster, and even if a peer is listed
twice, the nodes counted by one meet the nodes counted by the other.
-/

namespace KVEngine.Raft.Node

/-! ## §1  The loop as it is written -/

/-- `x - 1` on a `uint64`; `none` if it wraps around. -/
def decrement (x : ℕ) : Option ℕ := if x = 0 then none else some (x - 1)

/-- The loop from `idx` for some rounds, with the decrement and the index expression as
partial operations. -/
def advanceChecked (n : Node) : ℕ → ℕ → Option Node
  | 0, _ => none
  | rounds + 1, idx =>
      if idx > n.commitIndex then do
        let entry ← n.log[idx]?
        if entry.term ≠ n.currentTerm then
          let idx ← decrement idx
          advanceChecked n rounds idx
        else if n.matchCount idx * 2 > n.peers.length + 1 then
          return { n with commitIndex := idx, commitNotify := true }
        else
          let idx ← decrement idx
          advanceChecked n rounds idx
      else return n

/-- `maybeAdvanceCommitIndex`, where no round may wrap the index. -/
def maybeAdvanceChecked (n : Node) : Option Node := do
  let idx ← decrement n.log.length
  n.advanceChecked n.log.length idx

/-- Inside the log the loop does not go below zero. -/
theorem advanceChecked_eq (n : Node) : ∀ {idx rounds : ℕ}, idx < n.log.length → idx < rounds →
    n.advanceChecked rounds idx = some (n.advanceCommitFrom idx)
  | 0, rounds + 1, _, _ => by
      rw [advanceChecked, if_neg (Nat.not_lt_zero _), advanceCommitFrom]
      rfl
  | idx + 1, rounds + 1, hlen, hrounds => by
      have ih : n.advanceChecked rounds idx = some (n.advanceCommitFrom idx) :=
        advanceChecked_eq n (Nat.lt_of_succ_lt hlen) (Nat.lt_of_succ_lt_succ hrounds)
      have hentry : n.log[idx + 1]? = some n.log[idx + 1] := List.getElem?_eq_getElem hlen
      rw [advanceChecked, advanceCommitFrom, hentry, Option.map_some]
      by_cases hgt : idx + 1 > n.commitIndex
      · rw [if_pos hgt, if_pos hgt]
        show (if n.log[idx + 1].term ≠ n.currentTerm then n.advanceChecked rounds idx
          else if _ then _ else n.advanceChecked rounds idx) = _
        rw [ih]
        by_cases hterm : n.log[idx + 1].term = n.currentTerm
        · have hsome : some n.log[idx + 1].term = some n.currentTerm := congrArg some hterm
          rw [if_neg (not_not.mpr hterm), if_neg (not_not.mpr hsome)]
          split_ifs <;> rfl
        · have hsome : some n.log[idx + 1].term ≠ some n.currentTerm :=
            fun heq => hterm (Option.some.inj heq)
          rw [if_pos hterm, if_pos hsome]
      · rw [if_neg hgt, if_neg hgt]
        rfl

theorem maybeAdvanceChecked_eq {n : Node} (h : n.commitIndex < n.log.length) :
    n.maybeAdvanceChecked = some n.maybeAdvanceCommitIndex := by
  have hlen : n.log.length ≠ 0 := Nat.ne_zero_of_lt h
  rw [maybeAdvanceChecked, decrement, if_neg hlen]
  exact n.advanceChecked_eq (Nat.sub_one_lt hlen) (Nat.sub_one_lt hlen)

/-! ## §2  Majorities -/

/-- The nodes counted for an index. -/
def counted (n : Node) (idx : ℕ) : List NodeId :=
  n.id :: n.peers.filter fun peer => n.matchIndex peer ≥ idx

theorem length_counted (n : Node) (idx : ℕ) : (n.counted idx).length = n.matchCount idx := by
  rw [counted, matchCount, List.length_cons, Nat.add_comm]

/-- The leader may commit `idx` by counting. -/
def Committable (n : Node) (idx : ℕ) : Prop :=
  n.commitIndex < idx ∧ n.log[idx]?.map LogEntry.term = some n.currentTerm ∧
    n.peers.length + 1 < 2 * (n.counted idx).length

instance (n : Node) (idx : ℕ) : Decidable (n.Committable idx) :=
  inferInstanceAs (Decidable (_ ∧ _))

/-- Two parts of a list that are longer than the list together have an element in
common. -/
theorem exists_common {α : Type} {whole a b : List α} (ha : a.Subperm whole) (hb : b.Subperm whole)
    (hlen : whole.length < a.length + b.length) : ∃ x, x ∈ a ∧ x ∈ b := by
  classical
  by_contra hnone
  have hdisjoint : Disjoint (a : Multiset α) b := by
    rw [Multiset.disjoint_left]
    exact fun hxa hxb => hnone ⟨_, hxa, hxb⟩
  have hle : (a : Multiset α) + b ≤ whole := by
    rw [Multiset.add_eq_union_iff_disjoint.mpr hdisjoint]
    exact Multiset.union_le ha hb
  have hcard := Multiset.card_le_card hle
  rw [Multiset.card_add, Multiset.coe_card, Multiset.coe_card, Multiset.coe_card] at hcard
  omega

/-- A candidate `c` of the same cluster that has the votes it needs has one from a node
that was counted. -/
theorem votes_meet_counted {n c : Node} {idx : ℕ} {votes : List NodeId}
    (hcluster : (c.id :: c.peers).Perm (n.id :: n.peers))
    (hcount : n.peers.length + 1 < 2 * (n.counted idx).length)
    (hvotes : votes.Subperm (c.id :: c.peers)) (hneeded : c.needed ≤ votes.length) :
    ∃ q, q ∈ votes ∧ q ∈ n.counted idx := by
  have hsize := hcluster.length_eq
  rw [List.length_cons, List.length_cons] at hsize
  have hcounted : (n.counted idx).Subperm (n.id :: n.peers) :=
    (List.filter_sublist.cons_cons n.id).subperm
  refine exists_common (hvotes.trans hcluster.subperm) hcounted ?_
  rw [needed] at hneeded
  rw [List.length_cons]
  omega

/-! ## §3  The index found -/

/-- **Commit advance.** The loop neither wraps nor leaves the log. The commit index moves to
the greatest index that may be committed, and nothing changes if there is none. What is
counted for such an index meets every set of votes that wins an election. -/
theorem maybeAdvance_greatest {n : Node} (h : n.commitIndex < n.log.length) :
    n.maybeAdvanceChecked = some n.maybeAdvanceCommitIndex ∧
      ((∃ idx, n.Committable idx) →
        IsGreatest {idx | n.Committable idx} n.maybeAdvanceCommitIndex.commitIndex) ∧
      ((∀ idx, ¬ n.Committable idx) → n.maybeAdvanceCommitIndex = n) ∧
      ∀ idx, n.Committable idx → ∀ (c : Node) (votes : List NodeId),
        (c.id :: c.peers).Perm (n.id :: n.peers) → votes.Subperm (c.id :: c.peers) →
        c.needed ≤ votes.length → ∃ q, q ∈ votes ∧ q ∈ n.counted idx := by
  have hcases := n.advanceCommitFrom_cases (n.log.length - 1)
  have hreach : ∀ idx, n.Committable idx → idx ≤ n.maybeAdvanceCommitIndex.commitIndex := by
    intro idx hidx
    obtain ⟨e, he, -⟩ := Option.map_eq_some_iff.mp hidx.2.1
    have hlt := (List.getElem?_eq_some_iff.mp he).1
    refine advanceCommitFrom_ge hidx.2.1 ?_ (by omega)
    rw [← length_counted, Nat.mul_comm]
    exact hidx.2.2
  have hfound : n.maybeAdvanceCommitIndex = n ∨
      n.Committable n.maybeAdvanceCommitIndex.commitIndex := by
    rcases hcases with hsame | ⟨k, hk, -, hterm, hmaj, heq⟩
    · exact Or.inl hsame
    · refine Or.inr ?_
      rw [maybeAdvanceCommitIndex, heq]
      refine ⟨hk, hterm, ?_⟩
      rwa [length_counted, Nat.mul_comm]
  refine ⟨maybeAdvanceChecked_eq h, ?_, ?_, ?_⟩
  · rintro ⟨idx, hidx⟩
    refine ⟨hfound.resolve_left fun hsame => ?_, hreach⟩
    have hle := hreach idx hidx
    rw [hsame] at hle
    exact absurd hidx.1 (not_lt.mpr hle)
  · exact fun hnone => hfound.resolve_right (hnone _)
  · exact fun idx hidx c votes hcluster => votes_meet_counted hcluster hidx.2.2

/-- In a cluster of four, two peers have the first entry of the current term and none has
the second. -/
theorem maybeAdvance_greatest_four :
    let n : Node :=
      { blank [1] [[2], [3], [4]] none none with
        role := .leader
        currentTerm := 2
        log := [sentinel, ⟨1, none⟩, ⟨2, none⟩, ⟨2, none⟩]
        matchIndex := fun p => if p = [4] then 0 else 2 }
    n.maybeAdvanceCommitIndex.commitIndex = 2 ∧
      IsGreatest {idx | n.Committable idx} n.maybeAdvanceCommitIndex.commitIndex := by
  intro n
  exact ⟨by decide +kernel,
    (maybeAdvance_greatest (n := n) (by decide)).2.1 ⟨2, by decide +kernel⟩⟩

end KVEngine.Raft.Node
