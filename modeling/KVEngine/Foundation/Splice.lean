import Mathlib.Data.List.Infix
import Mathlib.Data.List.TakeDrop
import Mathlib.Tactic

/-!
# Splicing a segment into a keyed log

A follower's log is repaired entry by entry: at each index the incoming entry
is compared with the stored one by *key* only (in a replicated log the key is
the term). Equal keys keep the stored entry, a different key cuts the log there,
and past the end the entry is appended. This file is the list algebra of that
loop and names no protocol: the logs are lists over any type, the key any
function.

The main fact is `splice_segment`. When the two logs are known to agree
wherever their keys do, splicing a segment of `M` into `L` either leaves `L`
alone or turns it into a prefix of `M`, and in the second case `L` really did
diverge inside the segment, so nothing common to `L` and `M` is lost
(`splice_keeps_common`).
-/

namespace KVEngine.Foundation

variable {E κ : Type} [DecidableEq κ]

/-- Splice `es` into `log` at index `idx`, comparing by `key`. -/
def splice (key : E → κ) : List E → ℕ → List E → List E
  | log, _, [] => log
  | log, idx, e :: es =>
      match log[idx]? with
      | some x =>
          if key x = key e then splice key log (idx + 1) es
          else splice key (log.take idx ++ [e]) (idx + 1) es
      | none => splice key (log ++ [e]) (idx + 1) es

section Equations

variable {key : E → κ} {log es : List E} {idx : ℕ} {e x : E}

@[simp] theorem splice_nil : splice key log idx [] = log := by
  rw [splice]

theorem splice_cons_keep (hx : log[idx]? = some x) (hk : key x = key e) :
    splice key log idx (e :: es) = splice key log (idx + 1) es := by
  rw [splice, hx]
  exact if_pos hk

theorem splice_cons_cut (hx : log[idx]? = some x) (hk : key x ≠ key e) :
    splice key log idx (e :: es) =
      splice key (log.take idx ++ [e]) (idx + 1) es := by
  rw [splice, hx]
  exact if_neg hk

theorem splice_cons_grow (hx : log[idx]? = none) :
    splice key log idx (e :: es) = splice key (log ++ [e]) (idx + 1) es := by
  rw [splice, hx]

end Equations

/-! ## Prefixes by index -/

theorem take_succ_of_getElem? {L : List E} {k : ℕ} {e : E} (h : L[k]? = some e) :
    L.take (k + 1) = L.take k ++ [e] := by
  rw [List.take_add_one, h]
  rfl

theorem prefix_getElem? {P L : List E} {k : ℕ} {e : E}
    (h : P <+: L) (hk : P[k]? = some e) : L[k]? = some e := by
  obtain ⟨hlt, rfl⟩ := List.getElem?_eq_some_iff.mp hk
  exact List.prefix_iff_getElem?.mp h k hlt

/-- Lists that agree where both are defined are beginnings of one list. -/
theorem prefix_or_prefix_of_agree {L M : List E}
    (h : ∀ (k : ℕ) (x y : E), L[k]? = some x → M[k]? = some y → x = y) :
    L <+: M ∨ M <+: L := by
  rcases Nat.le_total L.length M.length with hle | hle
  · refine Or.inl (List.prefix_iff_getElem?.mpr fun k hk => ?_)
    have hM : M[k]? = some M[k] := List.getElem?_eq_getElem (by omega)
    rw [hM, h k _ _ (List.getElem?_eq_getElem hk) hM]
  · refine Or.inr (List.prefix_iff_getElem?.mpr fun k hk => ?_)
    have hL : L[k]? = some L[k] := List.getElem?_eq_getElem (by omega)
    rw [hL, h k _ _ hL (List.getElem?_eq_getElem hk)]

/-- A nonempty log has a last entry. -/
theorem exists_last {L : List E} (h : 0 < L.length) :
    ∃ e, L[L.length - 1]? = some e :=
  ⟨L[L.length - 1], List.getElem?_eq_getElem (by omega)⟩

/-- Prefixes of one list, cut at the same length, are equal. -/
theorem prefix_take_eq {P Q M : List E} {k : ℕ}
    (hP : P <+: M) (hQ : Q <+: M) (hlP : k ≤ P.length) (hlQ : k ≤ Q.length) :
    P.take k = Q.take k := by
  obtain ⟨p, rfl⟩ := hP
  obtain ⟨q, hq⟩ := hQ
  have h1 : (P ++ p).take k = P.take k := List.take_append_of_le_length hlP
  have h2 : (Q ++ q).take k = Q.take k := List.take_append_of_le_length hlQ
  rw [← h1, ← hq, h2]

/-- Below the splice index nothing changes. -/
theorem splice_getElem?_lt {key : E → κ} : ∀ {es log : List E} {idx j : ℕ},
    idx ≤ log.length → j < idx → (splice key log idx es)[j]? = log[j]?
  | [], log, idx, j, _, _ => by rw [splice_nil]
  | e :: es, log, idx, j, hidx, hj => by
      cases hx : log[idx]? with
      | none =>
          rw [splice_cons_grow hx, splice_getElem?_lt (by simpa using hidx) (by omega),
            List.getElem?_append_left (by omega)]
      | some x =>
          have hlt : idx < log.length := (List.getElem?_eq_some_iff.mp hx).1
          by_cases hk : key x = key e
          · rw [splice_cons_keep hx hk, splice_getElem?_lt hlt (by omega)]
          · have hlen : (log.take idx).length = idx := by
              rw [List.length_take]
              omega
            rw [splice_cons_cut hx hk,
              splice_getElem?_lt (by simp [hlen]) (by omega),
              List.getElem?_append_left (by omega), List.getElem?_take_of_lt hj]

/-! ## Splicing past the end -/

/-- Growing a cut of `M` by the entries that follow the cut gives a longer cut
of `M`. -/
theorem splice_take_grow (key : E → κ) {M : List E} :
    ∀ (es : List E) (j : ℕ), j ≤ M.length → es <+: M.drop j →
      splice key (M.take j) j es = M.take (j + es.length)
  | [], j, _, _ => by simp
  | e :: es, j, hj, hes => by
      obtain ⟨rest, hrest⟩ := hes
      have hjM : M[j]? = some e := by
        have h0 : (M.drop j)[0]? = some e := by rw [← hrest]; rfl
        simpa using h0
      have hlt : j < M.length := (List.getElem?_eq_some_iff.mp hjM).1
      have hnone : (M.take j)[j]? = none := by
        rw [List.getElem?_eq_none_iff, List.length_take]
        omega
      have htail : es <+: M.drop (j + 1) := by
        refine ⟨rest, ?_⟩
        have hd : M.drop (j + 1) = (M.drop j).drop 1 := by
          rw [List.drop_drop]
        rw [hd, ← hrest]
        rfl
      rw [splice_cons_grow hnone, ← take_succ_of_getElem? hjM,
        splice_take_grow key es (j + 1) hlt htail, List.length_cons]
      congr 1
      omega

/-! ## The result of a splice

`Stores key log idx es k`: the log has, at the place of `es[k]`, an entry of its
key. Up to the first `k` for which this fails the log stays, and from there on
the segment takes its place. -/

/-- The log has an entry with the key of `es[k]` where that one would go. -/
def Stores (key : E → κ) (log : List E) (idx : ℕ) (es : List E) (k : ℕ) : Prop :=
  log[idx + k]?.map key = es[k]?.map key

instance (key : E → κ) (log : List E) (idx : ℕ) (es : List E) (k : ℕ) :
    Decidable (Stores key log idx es k) :=
  inferInstanceAs (Decidable (_ = _))

section Result

variable {key : E → κ}

omit [DecidableEq κ] in
theorem stores_zero {log es : List E} {idx : ℕ} {e : E} :
    Stores key log idx (e :: es) 0 ↔ ∃ x, log[idx]? = some x ∧ key x = key e := by
  simp [Stores]

omit [DecidableEq κ] in
theorem stores_succ {log es : List E} {idx k : ℕ} {e : E} :
    Stores key log idx (e :: es) (k + 1) ↔ Stores key log (idx + 1) es k := by
  unfold Stores
  rw [List.getElem?_cons_succ, Nat.add_comm k 1, Nat.add_assoc]

/-- Past the end of the log everything is appended. -/
theorem splice_end (log es : List E) : splice key log log.length es = log ++ es := by
  have h : splice key ((log ++ es).take log.length) log.length es =
      (log ++ es).take (log.length + es.length) :=
    splice_take_grow key es log.length (by simp) (by simp)
  rwa [List.take_left, List.take_of_length_le (by simp)] at h

/-- A segment that is stored already changes nothing. -/
theorem splice_of_stores : ∀ {es log : List E} {idx : ℕ},
    (∀ k < es.length, Stores key log idx es k) → splice key log idx es = log
  | [], _, _, _ => splice_nil
  | e :: es, log, idx, h => by
      obtain ⟨x, hx, hk⟩ := stores_zero.mp (h 0 (by simp))
      rw [splice_cons_keep hx hk]
      exact splice_of_stores fun k hlt => stores_succ.mp (h (k + 1) (by simpa using hlt))

/-- At the first entry that is not stored the log is cut, and the rest of the
segment follows. -/
theorem splice_of_miss : ∀ {es log : List E} {idx k : ℕ}, idx ≤ log.length →
    k < es.length → (∀ j < k, Stores key log idx es j) → ¬ Stores key log idx es k →
    splice key log idx es = log.take (idx + k) ++ es.drop k
  | [], _, _, _, _, hk, _, _ => absurd hk (by simp)
  | e :: es, log, idx, 0, hidx, _, _, hmiss => by
      have hcut : splice key log idx (e :: es) =
          splice key (log.take idx ++ [e]) (idx + 1) es := by
        cases hx : log[idx]? with
        | none =>
            rw [splice_cons_grow hx, List.take_of_length_le (List.getElem?_eq_none_iff.mp hx)]
        | some x =>
            exact splice_cons_cut hx fun hk => hmiss (stores_zero.mpr ⟨x, hx, hk⟩)
      have hlen : (log.take idx ++ [e]).length = idx + 1 := by simp [hidx]
      rw [hcut, ← hlen, splice_end]
      simp
  | e :: es, log, idx, k + 1, hidx, hk, hbefore, hmiss => by
      obtain ⟨x, hx, hkey⟩ := stores_zero.mp (hbefore 0 (by omega))
      have hlt : idx < log.length := (List.getElem?_eq_some_iff.mp hx).1
      rw [splice_cons_keep hx hkey, splice_of_miss hlt (by simpa using hk)
        (fun j hj => stores_succ.mp (hbefore (j + 1) (by omega)))
        (fun hs => hmiss (stores_succ.mpr hs))]
      rw [Nat.succ_add_eq_add_succ, List.drop_succ_cons]

/-- The two outcomes of a splice. -/
theorem splice_cases (key : E → κ) (es : List E) {log : List E} {idx : ℕ}
    (hidx : idx ≤ log.length) :
    ((∀ k < es.length, Stores key log idx es k) ∧ splice key log idx es = log) ∨
      ∃ k < es.length, (∀ j < k, Stores key log idx es j) ∧ ¬ Stores key log idx es k ∧
        splice key log idx es = log.take (idx + k) ++ es.drop k := by
  by_cases hall : ∀ k < es.length, Stores key log idx es k
  · exact Or.inl ⟨hall, splice_of_stores hall⟩
  · right
    have hex : ∃ k, k < es.length ∧ ¬ Stores key log idx es k := by
      simpa using hall
    obtain ⟨hlt, hmiss⟩ := Nat.find_spec hex
    have hbefore : ∀ j < Nat.find hex, Stores key log idx es j := by
      intro j hj
      by_contra hno
      exact Nat.find_min hex hj ⟨by omega, hno⟩
    exact ⟨Nat.find hex, hlt, hbefore, hmiss, splice_of_miss hidx hlt hbefore hmiss⟩

omit [DecidableEq κ] in
/-- A log that stores the beginning of a segment reaches that far. -/
theorem length_of_stores {es log : List E} {idx : ℕ} (hidx : idx ≤ log.length) :
    ∀ {k : ℕ}, k ≤ es.length → (∀ j < k, Stores key log idx es j) → idx + k ≤ log.length
  | 0, _, _ => hidx
  | k + 1, hk, h => by
      have hstored := h k (Nat.lt_succ_self k)
      rw [Stores, List.getElem?_eq_getElem hk] at hstored
      obtain ⟨x, hx, -⟩ := Option.map_eq_some_iff.mp hstored
      exact (List.getElem?_eq_some_iff.mp hx).1

/-- The whole segment is there afterwards exactly when, up to the first entry that is not
stored, the log has the very entries of the segment and not others of their keys. -/
theorem splice_holds_iff {es log : List E} {idx : ℕ} (hidx : idx ≤ log.length) :
    (∀ (k : ℕ) (e : E), es[k]? = some e → (splice key log idx es)[idx + k]? = some e) ↔
      ∀ (k : ℕ) (e : E), es[k]? = some e → (∀ j ≤ k, Stores key log idx es j) →
        log[idx + k]? = some e := by
  refine forall_congr' fun k => forall_congr' fun e => imp_congr_right fun he => ?_
  have hk : k < es.length := (List.getElem?_eq_some_iff.mp he).1
  rcases splice_cases key es hidx with ⟨hall, h⟩ | ⟨m, hm, hbefore, hmiss, h⟩
  · rw [h]
    exact ⟨fun hin _ => hin, fun hin => hin fun j hj => hall j (hj.trans_lt hk)⟩
  · have hlen : idx + m ≤ log.length := length_of_stores hidx hm.le hbefore
    rw [h]
    by_cases hkm : k < m
    · rw [List.getElem?_append_left (by rw [List.length_take]; omega),
        List.getElem?_take_of_lt (by omega)]
      exact ⟨fun hin _ => hin, fun hin => hin fun j hj => hbefore j (hj.trans_lt hkm)⟩
    · -- from the miss on the segment itself stands in the log
      have htail : (log.take (idx + m) ++ es.drop m)[idx + k]? = some e := by
        rw [List.getElem?_append_right (by rw [List.length_take]; omega), List.length_take,
          Nat.min_eq_left hlen, List.getElem?_drop, ← he]
        congr 1
        omega
      exact ⟨fun _ hstored => absurd (hstored m (not_lt.mp hkm)) hmiss, fun _ => htail⟩

/-- Afterwards the whole segment is stored. -/
theorem stores_splice {es log : List E} {idx : ℕ} (hidx : idx ≤ log.length) :
    ∀ k < es.length, Stores key (splice key log idx es) idx es k := by
  intro k hk
  rcases splice_cases key es hidx with ⟨hall, h⟩ | ⟨m, hm, hbefore, hmiss, h⟩
  · rw [h]
    exact hall k hk
  · have hlen : idx + m ≤ log.length := length_of_stores hidx hm.le hbefore
    rw [h]
    unfold Stores
    by_cases hkm : k < m
    · rw [List.getElem?_append_left (by rw [List.length_take]; omega),
        List.getElem?_take_of_lt (by omega)]
      exact hbefore k hkm
    · rw [List.getElem?_append_right (by rw [List.length_take]; omega), List.length_take,
        Nat.min_eq_left hlen, List.getElem?_drop]
      congr 2
      omega

/-- A splice leaves the log as long as it was, or ends with the segment. -/
theorem length_splice (key : E → κ) (es : List E) {log : List E} {idx : ℕ}
    (hidx : idx ≤ log.length) :
    ((∀ k < es.length, Stores key log idx es k) ∧ idx + es.length ≤ log.length ∧
        (splice key log idx es).length = log.length) ∨
      (¬ ∀ k < es.length, Stores key log idx es k) ∧
        (splice key log idx es).length = idx + es.length := by
  rcases splice_cases key es hidx with ⟨hall, h⟩ | ⟨m, hm, hbefore, hmiss, h⟩
  · exact Or.inl ⟨hall, length_of_stores hidx le_rfl hall, by rw [h]⟩
  · have hlen : idx + m ≤ log.length := length_of_stores hidx hm.le hbefore
    refine Or.inr ⟨fun hall => hmiss (hall m hm), ?_⟩
    rw [h, List.length_append, List.length_take, List.length_drop, Nat.min_eq_left hlen]
    omega

/-- **The keys of a splice.** A segment that follows an entry of key `x`, which the log has
at `p`: the log stays, or the keys change over from those of the log to those of the
segment at a key that both have. -/
theorem map_splice_cases {es log : List E} {p : ℕ} {x : κ} (hp : log[p]?.map key = some x) :
    splice key log (p + 1) es = log ∨
      ∃ k z, (log.map key)[p + k]? = some z ∧ (x :: es.map key)[k]? = some z ∧
        (splice key log (p + 1) es).map key =
          (log.map key).take (p + k + 1) ++ (x :: es.map key).drop (k + 1) := by
  obtain ⟨e, he, -⟩ := Option.map_eq_some_iff.mp hp
  have hlen : p + 1 ≤ log.length := (List.getElem?_eq_some_iff.mp he).1
  rcases splice_cases key es hlen with ⟨-, h⟩ | ⟨k, hk, hbefore, -, h⟩
  · exact Or.inl h
  · -- the last key before the change is that of the entry at `p`, or one that is stored
    have hboth : (log.map key)[p + k]? = (x :: es.map key)[k]? := by
      cases k with
      | zero => rw [Nat.add_zero, List.getElem?_map, hp, List.getElem?_cons_zero]
      | succ j =>
          have hstored := hbefore j (Nat.lt_succ_self j)
          rw [List.getElem?_map, List.getElem?_cons_succ, List.getElem?_map,
            ← Nat.succ_add_eq_add_succ]
          exact hstored
    have hlt : k < (x :: es.map key).length := by simpa using hk.le
    refine Or.inr ⟨k, _, hboth.trans (List.getElem?_eq_getElem hlt),
      List.getElem?_eq_getElem hlt, ?_⟩
    rw [h, List.map_append, List.map_take, List.map_drop, List.drop_succ_cons,
      Nat.add_right_comm]

end Result

/-- Two ordered lists that have an element in common, the one up to there and the other
from there on. -/
theorem pairwise_glue {α : Type} [Preorder α] {xs ys : List α} {p k : ℕ} {z : α}
    (hx : xs.Pairwise (· ≤ ·)) (hy : ys.Pairwise (· ≤ ·)) (hxz : xs[p]? = some z)
    (hyz : ys[k]? = some z) : (xs.take (p + 1) ++ ys.drop (k + 1)).Pairwise (· ≤ ·) := by
  have hxs : xs.take (p + 1) = xs.take p ++ [z] := take_succ_of_getElem? hxz
  obtain ⟨hk, hz⟩ := List.getElem?_eq_some_iff.mp hyz
  have hys : ys.drop k = z :: ys.drop (k + 1) := by
    rw [← hz, List.cons_getElem_drop_succ]
  have hleft : (xs.take p ++ [z]).Pairwise (· ≤ ·) := hxs ▸ hx.take
  have hright : (z :: ys.drop (k + 1)).Pairwise (· ≤ ·) := hys ▸ hy.drop
  rw [hxs, List.append_assoc]
  refine List.pairwise_append.mpr ⟨(List.pairwise_append.mp hleft).1, hright, ?_⟩
  intro a ha b hb
  have haz : a ≤ z := (List.pairwise_append.mp hleft).2.2 a ha z List.mem_cons_self
  rcases List.mem_cons.mp hb with rfl | hb
  · exact haz
  · exact haz.trans ((List.pairwise_cons.mp hright).1 b hb)

/-! ## Splicing a segment of another log -/

/-- `L` and `M` agree as far as any index where their keys coincide. -/
def AgreeByKey (key : E → κ) (L M : List E) : Prop :=
  ∀ k x y, L[k]? = some x → M[k]? = some y → key x = key y →
    L.take (k + 1) = M.take (k + 1)

/-- Where `L` leaves `M`: `L` has no entry at `k`, or one with another key. -/
def DivergesAt (key : E → κ) (L M : List E) (k : ℕ) : Prop :=
  ∀ x y, L[k]? = some x → M[k]? = some y → key x ≠ key y

/-- **Splicing a segment.** `L` agrees with `M` on the first `j` entries and
`es` are the entries of `M` that follow. The splice keeps `L`, which then holds
the whole segment, or it yields the cut of `M` that ends with the segment, and
`L` diverged from `M` inside it. -/
theorem splice_segment {key : E → κ} {L M : List E} (hag : AgreeByKey key L M) :
    ∀ (es : List E) (j : ℕ), j ≤ L.length → j ≤ M.length →
      L.take j = M.take j → es <+: M.drop j →
      (splice key L j es = L ∧
          L.take (j + es.length) = M.take (j + es.length) ∧
          j + es.length ≤ L.length) ∨
        (splice key L j es = M.take (j + es.length) ∧
          ∃ k, j ≤ k ∧ k < j + es.length ∧ DivergesAt key L M k)
  | [], j, hL, _, hj, _ => by
      left
      exact ⟨splice_nil, by simpa using hj, by simpa using hL⟩
  | e :: es, j, hL, hM, hj, hes => by
      obtain ⟨rest, hrest⟩ := hes
      have hjM : M[j]? = some e := by
        have h0 : (M.drop j)[0]? = some e := by rw [← hrest]; rfl
        simpa using h0
      have hlt : j < M.length := (List.getElem?_eq_some_iff.mp hjM).1
      have htail : es <+: M.drop (j + 1) := by
        refine ⟨rest, ?_⟩
        have hd : M.drop (j + 1) = (M.drop j).drop 1 := by
          rw [List.drop_drop]
        rw [hd, ← hrest]
        rfl
      have hlen : j + (e :: es).length = j + 1 + es.length := by
        rw [List.length_cons]
        omega
      rw [hlen]
      cases hx : L[j]? with
      | some x =>
          have hltL : j < L.length := (List.getElem?_eq_some_iff.mp hx).1
          by_cases hk : key x = key e
          · -- the stored entry stays; by agreement the logs match one further
            have hj' : L.take (j + 1) = M.take (j + 1) := hag j x e hx hjM hk
            rw [splice_cons_keep hx hk]
            rcases splice_segment hag es (j + 1) hltL hlt hj' htail with
              h | ⟨h, k, hk1, hk2, hd⟩
            · exact Or.inl h
            · exact Or.inr ⟨h, k, by omega, hk2, hd⟩
          · right
            rw [splice_cons_cut hx hk, hj, ← take_succ_of_getElem? hjM,
              splice_take_grow key es (j + 1) hlt htail]
            refine ⟨rfl, j, le_refl j, by omega, ?_⟩
            intro x' y' hx' hy'
            rw [hx] at hx'
            rw [hjM] at hy'
            cases hx'
            cases hy'
            exact hk
      | none =>
          have hLj : L = M.take j := by
            have hle : L.length ≤ j := List.getElem?_eq_none_iff.mp hx
            rw [← hj, List.take_of_length_le hle]
          right
          rw [splice_cons_grow hx]
          nth_rewrite 1 [hLj]
          rw [← take_succ_of_getElem? hjM,
            splice_take_grow key es (j + 1) hlt htail]
          refine ⟨rfl, j, le_refl j, by omega, ?_⟩
          intro x' y' hx' _
          rw [hx] at hx'
          exact absurd hx' (by simp)

/-- **A splice keeps what the logs share.** A prefix common to the spliced log
and the log the segment was cut from survives the splice. -/
theorem splice_keeps_common {key : E → κ} {L M P es : List E} {j : ℕ}
    (hag : AgreeByKey key L M) (hL : j ≤ L.length) (hM : j ≤ M.length)
    (hj : L.take j = M.take j) (hes : es <+: M.drop j)
    (hPL : P <+: L) (hPM : P <+: M) : P <+: splice key L j es := by
  rcases splice_segment hag es j hL hM hj hes with ⟨h, -, -⟩ | ⟨h, k, -, hk, hd⟩
  · rw [h]
    exact hPL
  · rw [h]
    have hlen : P.length ≤ k := by
      by_contra hlt
      have hlt' : k < P.length := by omega
      have hP : P[k]? = some P[k] := List.getElem?_eq_getElem hlt'
      exact hd _ _ (prefix_getElem? hPL hP) (prefix_getElem? hPM hP) rfl
    exact List.prefix_take_iff.mpr ⟨hPM, by omega⟩

end KVEngine.Foundation
