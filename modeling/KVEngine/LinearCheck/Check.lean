import KVEngine.Foundation.Bytes
import KVEngine.Foundation.KeyValue
import KVEngine.Foundation.Linearize

/-!
# The linearizability checker

`Check` of `internal/linearcheck/linearcheck.go`: backtracking over the
operations that began no later than the earliest end. It accepts exactly the
linearizable histories of a map (`check_iff`).

Times are values of a linear order.
-/

namespace KVEngine.LinearCheck

open Foundation

/-! ## §1  Operations and the reference map -/

/-- The constants of `OpType`, and any other value of its type. -/
inductive OpType : Type where
  | put
  | get
  | delete
  | other (tag : UInt8)
deriving DecidableEq

/-- `Op` without its debugging `ID`; `T` is the type of times. -/
structure Op (T : Type) where
  type : OpType
  key : Bytes
  value : Bytes
  found : Bool
  startTime : T
  endTime : T
deriving DecidableEq

abbrev KVState : Type := Dict Bytes Bytes

variable {T : Type}

/-- The next state, if the observed result is the one the state gives. -/
def apply (s : KVState) (op : Op T) : Option KVState :=
  match op.type with
  | .put => some (s.insert op.key op.value)
  | .delete => some (s.erase op.key)
  | .get =>
      match s.lookup op.key with
      | none => if op.found then none else some s
      | some v => if ¬ op.found then none else if v ≠ op.value then none else some s
  | .other _ => none

/-- A legal sequential history of a map: each `Get` reports the current
binding. -/
def Sequential : KVState → List (Op T) → Prop
  | _, [] => True
  | m, op :: ops =>
      match op.type with
      | .put => Sequential (m.insert op.key op.value) ops
      | .delete => Sequential (m.erase op.key) ops
      | .get =>
          (op.found = true ↔ op.key ∈ m) ∧
            (op.found = true → m.lookup op.key = some op.value) ∧ Sequential m ops
      | .other _ => False

theorem legal_apply_iff : ∀ (m : KVState) (ops : List (Op T)),
    Legal apply m ops ↔ Sequential m ops
  | _, [] => Iff.rfl
  | m, op :: ops => by
      rw [Legal, Sequential, apply]
      cases op.type with
      | put => simp [legal_apply_iff]
      | delete => simp [legal_apply_iff]
      | get =>
          dsimp only
          rw [← Finmap.lookup_isSome]
          cases hl : m.lookup op.key with
          | none => cases op.found <;> simp [legal_apply_iff]
          | some v => by_cases hv : v = op.value <;> cases op.found <;> simp [hv, legal_apply_iff]
      | other tag => simp

/-! ## §2  The search -/

variable [LinearOrder T]

/-- The first loop of `check`. -/
def earliestEnd (first : Op T) (others : List (Op T)) : T :=
  others.foldl (fun t op => if op.endTime < t then op.endTime else t) first.endTime

def noLinearization (remaining : List (Op T)) : String :=
  "no valid linearization found for " ++ toString remaining.length ++ " remaining ops"

/-- `check`, with fuel for the depth of the recursion. -/
def checkFrom : ℕ → KVState → List (Op T) → Except String Unit
  | _, _, [] => .ok ()
  | 0, _, first :: others => .error (noLinearization (first :: others))
  | fuel + 1, state, first :: others =>
      let remaining := first :: others
      let earliest := earliestEnd first others
      if remaining.zipIdx.any fun (op, i) =>
          -- `continue` if it began after the earliest end, or does not fit
          if earliest < op.startTime then false
          else
            match apply state op with
            | none => false
            | some next => (checkFrom fuel next (remaining.eraseIdx i)).isOk
      then .ok ()
      else .error (noLinearization remaining)

def check (ops : List (Op T)) : Except String Unit :=
  match checkFrom ops.length ∅ ops with
  | .ok () => .ok ()
  | .error err => .error ("not linearizable: " ++ err)

theorem le_earliestEnd_iff {t : T} {first : Op T} {others : List (Op T)} :
    t ≤ earliestEnd first others ↔ ∀ op ∈ first :: others, t ≤ op.endTime := by
  induction others using List.reverseRecOn with
  | nil => simp [earliestEnd]
  | append_singleton others op ih =>
      have hstep : earliestEnd first (others ++ [op]) =
          min (earliestEnd first others) op.endTime := by
        rw [earliestEnd, List.foldl_append]
        show (if op.endTime < earliestEnd first others then op.endTime else _) = _
        split
        · rename_i h
          exact (min_eq_right (le_of_lt h)).symm
        · rename_i h
          exact (min_eq_left (not_lt.mp h)).symm
      rw [hstep, le_min_iff, ih, ← List.cons_append, List.forall_mem_append,
        List.forall_mem_singleton]

/-- The search finds an order if there is one. -/
theorem checkFrom_isOk : ∀ {fuel : ℕ} {ops : List (Op T)} (s : KVState),
    ops.length ≤ fuel → (∀ op ∈ ops, op.startTime ≤ op.endTime) →
    ((checkFrom fuel s ops).isOk = true ↔
      Linearizable Op.startTime Op.endTime apply s ops)
  | _, [], s, _, _ => by
      rw [checkFrom]
      exact ⟨fun _ => linearizable_nil, fun _ => rfl⟩
  | 0, _ :: _, _, h, _ => absurd h (Nat.not_succ_le_zero _)
  | fuel + 1, first :: others, s, hfuel, htime => by
      have ih : ∀ (i : ℕ) (s' : KVState), i < (first :: others).length →
          ((checkFrom fuel s' ((first :: others).eraseIdx i)).isOk = true ↔
            Linearizable Op.startTime Op.endTime apply s' ((first :: others).eraseIdx i)) := by
        intro i s' hi
        refine checkFrom_isOk s' ?_ fun op hop => htime op (List.mem_of_mem_eraseIdx hop)
        rw [List.length_eraseIdx_of_lt hi]
        exact Nat.sub_le_of_le_add hfuel
      have hok : ∀ (b : Bool) (err : String),
          (if b = true then Except.ok () else .error err : Except String Unit).isOk = b := by
        intro b err
        cases b <;> rfl
      rw [linearizable_iff (List.cons_ne_nil _ _) htime, checkFrom]
      dsimp only
      rw [hok, List.any_eq_true]
      constructor
      · rintro ⟨⟨op, i⟩, hmem, htry⟩
        have hget := List.mem_zipIdx_iff_getElem?.mp hmem
        dsimp only at htry
        split at htry
        · cases htry
        · rename_i hstart
          split at htry
          · cases htry
          · rename_i next happly
            exact ⟨i, op, hget, le_earliestEnd_iff.mp (not_lt.mp hstart), next, happly,
              (ih i next (List.getElem?_eq_some_iff.mp hget).1).mp htry⟩
      · rintro ⟨i, op, hget, hmin, next, happly, hlin⟩
        refine ⟨(op, i), List.mem_zipIdx_iff_getElem?.mpr hget, ?_⟩
        dsimp only
        rw [if_neg (not_lt.mpr (le_earliestEnd_iff.mpr hmin)), happly]
        exact (ih i next (List.getElem?_eq_some_iff.mp hget).1).mpr hlin

/-- An operation that ended before another began stands before it. -/
def KeepsRealTime (l : List (Op T)) : Prop :=
  ∀ (i j : ℕ) (a b : Op T), l[i]? = some a → l[j]? = some b → a.endTime < b.startTime → i < j

theorem check_ok_iff {ops : List (Op T)} (htime : ∀ op ∈ ops, op.startTime ≤ op.endTime) :
    check ops = .ok () ↔ Linearizable Op.startTime Op.endTime apply ∅ ops := by
  rw [← checkFrom_isOk ∅ (le_refl _) htime, check]
  cases checkFrom ops.length ∅ ops with
  | ok _ => exact ⟨fun _ => rfl, fun _ => rfl⟩
  | error err => exact ⟨fun h => (by cases h), fun h => (by cases h)⟩

/-- Linearizability in terms of maps and positions. -/
theorem linearizable_iff_sequential {ops : List (Op T)}
    (htime : ∀ op ∈ ops, op.startTime ≤ op.endTime) :
    Linearizable Op.startTime Op.endTime apply ∅ ops ↔
      ∃ l : List (Op T), l.Perm ops ∧ Sequential ∅ l ∧ KeepsRealTime l := by
  refine exists_congr fun l => and_congr_right fun hperm => and_congr (legal_apply_iff ∅ l) ?_
  rw [RealTime, List.pairwise_iff_getElem]
  constructor
  · intro hreal i j a b ha hb hlt
    obtain ⟨hi, rfl⟩ := List.getElem?_eq_some_iff.mp ha
    obtain ⟨hj, rfl⟩ := List.getElem?_eq_some_iff.mp hb
    rcases lt_trichotomy i j with hij | rfl | hij
    · exact hij
    · exact absurd hlt (not_lt.mpr (htime _ (hperm.subset (List.getElem_mem hi))))
    · exact absurd hlt (hreal j i hj hi hij)
  · intro hreal i j hi hj hij hlt
    have := hreal j i _ _ (List.getElem?_eq_getElem hj) (List.getElem?_eq_getElem hi) hlt
    omega

/-- **The checker is sound and complete.** It accepts exactly the histories that
have an order which is sequential for a map starting empty and keeps real
time. -/
theorem check_iff {ops : List (Op T)} (htime : ∀ op ∈ ops, op.startTime ≤ op.endTime) :
    check ops = .ok () ↔
      ∃ l : List (Op T), l.Perm ops ∧ Sequential ∅ l ∧ KeepsRealTime l :=
  (check_ok_iff htime).trans (linearizable_iff_sequential htime)

/-- A `Get` that overlaps a `Put` and does not see it. -/
theorem check_iff_overlapping :
    let ops : List (Op ℕ) :=
      [⟨.put, [97], [1], false, 0, 5⟩, ⟨.get, [97], [], false, 3, 4⟩]
    check ops = .ok () ∧
      ∃ l : List (Op ℕ), l.Perm ops ∧ Sequential ∅ l ∧ KeepsRealTime l := by
  intro ops
  have hok : check ops = .ok () := by decide +kernel
  exact ⟨hok, (check_iff (by decide)).mp hok⟩

end KVEngine.LinearCheck
