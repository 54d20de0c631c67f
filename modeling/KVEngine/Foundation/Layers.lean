import KVEngine.Foundation.KeyValue
import Mathlib.Data.List.Sort

/-!
# Layered maps

A map kept in layers: a memory table in front of immutable sorted runs, newest
first. The newest layer that mentions a key decides it. Values may be dead
(deletion marks); a key whose newest mention is dead is absent.

Merging the runs keeps what every key reads as (`newest_compactRuns`). A reader
that skips dead mentions instead of stopping at them is right except at the keys
whose newest mention hides a live one (`firstLive_eq_iff`).
-/

namespace KVEngine.Foundation

/-! ## §1  Sorted tables -/

section Assoc

variable {K V : Type} [DecidableEq K]

/-- The value of the first entry with the key. -/
def assoc (es : List (K × V)) (k : K) : Option V := es.lookup k

@[simp] theorem assoc_nil (k : K) : assoc ([] : List (K × V)) k = none := rfl

@[simp] theorem assoc_cons_self (k : K) (v : V) (es : List (K × V)) :
    assoc ((k, v) :: es) k = some v := by
  rw [assoc, List.lookup_cons_self]

theorem assoc_cons_of_ne {k a : K} (h : k ≠ a) (b : V) (es : List (K × V)) :
    assoc ((a, b) :: es) k = assoc es k := by
  rw [assoc, List.lookup_cons, beq_false_of_ne h]
  rfl

end Assoc

/-- Entries in strictly increasing order of their keys. -/
structure SortedTable (K V : Type) [LinearOrder K] where
  entries : List (K × V)
  sorted : entries.Pairwise fun a b => a.1 < b.1

-- equality of keys is decided apart from the order, so that a type's own
-- instance is the one its maps are looked up with
variable {K V : Type} [LinearOrder K] [DecidableEq K]

theorem assoc_eq_some_iff {k : K} {v : V} : ∀ {es : List (K × V)},
    es.Pairwise (fun a b => a.1 < b.1) → (assoc es k = some v ↔ (k, v) ∈ es)
  | [], _ => by simp
  | (a, b) :: es, h => by
      obtain ⟨hhead, htail⟩ := List.pairwise_cons.mp h
      by_cases hk : k = a
      · subst hk
        have hnot : ∀ w, (k, w) ∉ es := fun w hw => lt_irrefl k (hhead _ hw)
        simp [hnot, eq_comm]
      · rw [assoc_cons_of_ne hk, List.mem_cons, Prod.mk.injEq, assoc_eq_some_iff htail]
        simp [hk]

namespace SortedTable

def get (t : SortedTable K V) (k : K) : Option V := assoc t.entries k

theorem get_eq_some_iff {t : SortedTable K V} {k : K} {v : V} :
    t.get k = some v ↔ (k, v) ∈ t.entries :=
  assoc_eq_some_iff t.sorted

theorem get_eq_none {t : SortedTable K V} {k : K} (h : ∀ e ∈ t.entries, e.1 ≠ k) :
    t.get k = none := by
  cases hg : t.get k with
  | none => rfl
  | some v => exact absurd rfl (h _ (get_eq_some_iff.mp hg))

/-- The entries with a value that satisfies `live`. -/
def filter (live : V → Bool) (t : SortedTable K V) : SortedTable K V :=
  ⟨t.entries.filter fun e => live e.2, t.sorted.filter _⟩

theorem get_filter (live : V → Bool) (t : SortedTable K V) (k : K) :
    (t.filter live).get k = (t.get k).filter live := by
  ext v
  rw [get_eq_some_iff, Option.filter_eq_some_iff, get_eq_some_iff]
  exact List.mem_filter

/-- The entries of a map, by key: the order they are found in does not matter. -/
def ofDict (m : Dict K V) : SortedTable K V :=
  m.liftOn
    (fun a =>
      { entries := (a.entries.insertionSort fun x y => x.1 ≤ y.1).map fun x => (x.1, x.2)
        sorted := by
          have hle := List.pairwise_insertionSort (fun x y : (_ : K) × V => x.1 ≤ y.1) a.entries
          have hne : (a.entries.insertionSort fun x y => x.1 ≤ y.1).NodupKeys :=
            (List.perm_nodupKeys (List.perm_insertionSort _ _)).mpr a.nodupKeys
          rw [List.pairwise_map]
          exact (hle.and (List.nodupKeys_iff_pairwise.mp hne)).imp fun h =>
            lt_of_le_of_ne h.1 h.2 })
    (by
      intro a b hab
      have hsame : (a.entries.insertionSort fun x y => x.1 ≤ y.1) =
          b.entries.insertionSort fun x y => x.1 ≤ y.1 := by
        refine List.Perm.eq_of_pairwise ?_
          (List.pairwise_insertionSort (fun x y : (_ : K) × V => x.1 ≤ y.1) _)
          (List.pairwise_insertionSort _ _)
          ((List.perm_insertionSort _ _).trans (hab.trans (List.perm_insertionSort _ _).symm))
        intro x y hx hy hxy hyx
        have hxa := hab.subset ((List.perm_insertionSort _ _).subset hx)
        exact b.nodupKeys.eq_of_fst_eq hxa ((List.perm_insertionSort _ _).subset hy)
          (le_antisymm hxy hyx)
      simp only [hsame])

theorem get_ofDict (m : Dict K V) (k : K) : (ofDict m).get k = m.lookup k := by
  induction m using Finmap.induction_on with
  | H a =>
      ext v
      rw [get_eq_some_iff, Finmap.lookup_toFinmap]
      show (k, v) ∈ List.map _ _ ↔ _
      rw [List.mem_map, ← Option.mem_def, AList.mem_lookup_iff]
      constructor
      · rintro ⟨x, hx, hxy⟩
        cases hxy
        exact (List.perm_insertionSort _ _).subset hx
      · intro h
        exact ⟨⟨k, v⟩, (List.perm_insertionSort _ _).symm.subset h, rfl⟩

theorem mem_ofDict {m : Dict K V} {k : K} {v : V} :
    (k, v) ∈ (ofDict m).entries ↔ m.lookup k = some v := by
  rw [← get_eq_some_iff, get_ofDict]

end SortedTable

/-! ## §2  Stacks of tables -/

/-- The newest mention of a key in runs listed newest first. -/
def newest (runs : List (SortedTable K V)) (k : K) : Option V :=
  runs.findSome? fun t => t.get k

theorem newest_cons (t : SortedTable K V) (runs : List (SortedTable K V)) (k : K) :
    newest (t :: runs) k = (t.get k).or (newest runs k) := by
  rw [newest, List.findSome?_cons]
  cases t.get k <;> rfl

theorem newest_eq_none_iff {runs : List (SortedTable K V)} {k : K} :
    newest runs k = none ↔ ∀ t ∈ runs, t.get k = none :=
  List.findSome?_eq_none_iff

/-- Writing a list of entries into a map, in order. -/
def insertAll (m : Dict K V) (es : List (K × V)) : Dict K V :=
  es.foldl (fun m e => m.insert e.1 e.2) m

theorem lookup_insertAll (k : K) : ∀ {es : List (K × V)} (m : Dict K V),
    es.Pairwise (fun a b => a.1 < b.1) →
    (insertAll m es).lookup k = (assoc es k).or (m.lookup k)
  | [], _, _ => rfl
  | (a, b) :: es, m, h => by
      obtain ⟨hhead, htail⟩ := List.pairwise_cons.mp h
      show (insertAll (m.insert a b) es).lookup k = _
      rw [lookup_insertAll k (m.insert a b) htail]
      by_cases hk : k = a
      · subst hk
        -- the entries behind it have greater keys
        have hnone : assoc es k = none := by
          cases hl : assoc es k with
          | none => rfl
          | some v => exact absurd (hhead _ ((assoc_eq_some_iff htail).mp hl)) (lt_irrefl k)
        simp [hnone]
      · rw [Finmap.lookup_insert_of_ne m hk, assoc_cons_of_ne hk]

omit [LinearOrder K] in
/-- In any order, a key none of them has keeps its value. -/
theorem lookup_insertAll_of_ne {k : K} : ∀ {es : List (K × V)} (m : Dict K V),
    (∀ e ∈ es, e.1 ≠ k) → (insertAll m es).lookup k = m.lookup k
  | [], _, _ => rfl
  | (a, b) :: es, m, h => by
      obtain ⟨ha, hes⟩ := List.forall_mem_cons.mp h
      show (insertAll (m.insert a b) es).lookup k = _
      rw [lookup_insertAll_of_ne _ hes, Finmap.lookup_insert_of_ne m (Ne.symm ha)]

omit [LinearOrder K] in
/-- The last entry for a key is the one that counts. -/
theorem lookup_insertAll_last {k : K} {v : V} (m : Dict K V) (es : List (K × V))
    {es' : List (K × V)} (h : ∀ e ∈ es', e.1 ≠ k) :
    (insertAll m (es ++ (k, v) :: es')).lookup k = some v := by
  rw [insertAll, List.foldl_append]
  show (insertAll ((insertAll m es).insert k v) es').lookup k = some v
  rw [lookup_insertAll_of_ne _ h, Finmap.lookup_insert]

/-- All entries of runs listed oldest first, the newer ones over the older. -/
def merge (m : Dict K V) (runs : List (SortedTable K V)) : Dict K V :=
  runs.foldl (fun m t => insertAll m t.entries) m

theorem lookup_merge (k : K) (m : Dict K V) (runs : List (SortedTable K V)) :
    (merge m runs).lookup k = (newest runs.reverse k).or (m.lookup k) := by
  induction runs using List.reverseRecOn with
  | nil => rfl
  | append_singleton runs t ih =>
      rw [merge, List.foldl_append]
      show (insertAll (merge m runs) t.entries).lookup k = _
      rw [lookup_insertAll k _ t.sorted, ih, List.reverse_append, List.reverse_singleton,
        List.singleton_append, newest_cons, Option.or_assoc]
      rfl

/-- One run of the live newest mentions; none if there are none. -/
def compactRuns (live : V → Bool) (runs : List (SortedTable K V)) : List (SortedTable K V) :=
  let t := (SortedTable.ofDict (merge ∅ runs.reverse)).filter live
  if t.entries = [] then [] else [t]

theorem newest_compactRuns (live : V → Bool) (runs : List (SortedTable K V)) (k : K) :
    newest (compactRuns live runs) k = (newest runs k).filter live := by
  have hget : ((SortedTable.ofDict (merge ∅ runs.reverse)).filter live).get k =
      (newest runs k).filter live := by
    rw [SortedTable.get_filter, SortedTable.get_ofDict, lookup_merge, List.reverse_reverse,
      Finmap.lookup_empty, Option.or_none]
  rw [← hget, compactRuns]
  split
  · rename_i hnil
    rw [SortedTable.get, hnil]
    rfl
  · rw [newest, List.findSome?_singleton]

/-! ## §3  Skipping dead mentions -/

/-- The newest mention is dead and an older one is live. -/
def Hides (live : V → Bool) (runs : List (SortedTable K V)) (k : K) : Prop :=
  (∃ v, newest runs k = some v ∧ live v = false) ∧
    ∃ t ∈ runs, ∃ v, t.get k = some v ∧ live v = true

/-- The first live mention. -/
def firstLive (live : V → Bool) (runs : List (SortedTable K V)) (k : K) : Option V :=
  runs.findSome? fun t => (t.get k).filter live

theorem firstLive_eq_none_iff {live : V → Bool} {runs : List (SortedTable K V)} {k : K} :
    firstLive live runs k = none ↔ ∀ t ∈ runs, ∀ v, t.get k = some v → live v = false := by
  rw [firstLive, List.findSome?_eq_none_iff]
  refine forall₂_congr fun t _ => ?_
  rw [Option.filter_eq_none_iff]
  exact forall_congr' fun v => by simp

/-- If the newest mention is live, skipping changes nothing. -/
theorem firstLive_of_live {live : V → Bool} {k : K} {v : V} (hv : live v = true) :
    ∀ {runs : List (SortedTable K V)}, newest runs k = some v → firstLive live runs k = some v
  | [], h => by cases h
  | t :: runs, h => by
      rw [newest, List.findSome?_cons] at h
      rw [firstLive, List.findSome?_cons]
      cases hg : t.get k with
      | none =>
          rw [hg] at h
          exact firstLive_of_live hv h
      | some w =>
          rw [hg] at h
          obtain rfl : w = v := Option.some.inj h
          simp [Option.filter, hv]

/-- **Skipping** dead mentions is right exactly where none hides a live one. -/
theorem firstLive_eq_iff {live : V → Bool} {runs : List (SortedTable K V)} {k : K} :
    firstLive live runs k = (newest runs k).filter live ↔ ¬ Hides live runs k := by
  cases hn : newest runs k with
  | none =>
      have hnone : firstLive live runs k = none := by
        rw [firstLive_eq_none_iff]
        intro t ht v hv
        rw [newest_eq_none_iff.mp hn t ht] at hv
        cases hv
      simp [hnone, Hides, hn]
  | some v =>
      cases hv : live v with
      | true => simp [firstLive_of_live hv hn, Option.filter, hv, Hides, hn]
      | false =>
          have hfilter : (some v).filter live = none := by simp [Option.filter, hv]
          rw [hfilter, firstLive_eq_none_iff]
          constructor
          · rintro hdead ⟨-, t, ht, w, hw, hlive⟩
            rw [hdead t ht w hw] at hlive
            cases hlive
          · intro hhides t ht w hw
            by_contra hlive
            exact hhides ⟨⟨v, hn, hv⟩, t, ht, w, hw, by simpa using hlive⟩

end KVEngine.Foundation
