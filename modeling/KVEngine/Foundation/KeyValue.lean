import Mathlib.Data.Finmap

/-!
# Maps under puts and deletes

A write sets or removes one key of a finite map. What a sequence of writes
leaves at a key is decided by the last write to that key (`lookup_applyAll`).

The writes of a log may also reach the map in another order than the log's. As
long as no write comes to the map after a later one to the same key, the map
follows the log (`Reflects`), and it is the log's map once every write has come.

After a restart the writes come again from the first, to a map that has seen later
ones. Every key then shows what it had at some point of the log, and the map is
the log's once the writes have come as far as before (`Replayed`).
-/

namespace KVEngine.Foundation

abbrev Dict (K V : Type) : Type := Finmap fun _ : K => V

/-- Set `key` to the value, or remove it (`none`). -/
structure Write (K V : Type) where
  key : K
  value : Option V
deriving DecidableEq

variable {K V : Type} [DecidableEq K]

/-! ## §1  Sequences of writes -/

def Write.apply (m : Dict K V) (w : Write K V) : Dict K V :=
  match w.value with
  | some v => m.insert w.key v
  | none => m.erase w.key

def applyAll (m : Dict K V) (ws : List (Write K V)) : Dict K V :=
  ws.foldl Write.apply m

theorem Write.lookup_apply (m : Dict K V) (w : Write K V) (k : K) :
    (w.apply m).lookup k = if k = w.key then w.value else m.lookup k := by
  unfold Write.apply
  cases hv : w.value with
  | some v =>
      dsimp only
      split
      · rename_i h
        subst h
        exact Finmap.lookup_insert m
      · rename_i h
        exact Finmap.lookup_insert_of_ne m h
  | none =>
      dsimp only
      split
      · rename_i h
        subst h
        exact Finmap.lookup_erase _ m
      · rename_i h
        exact Finmap.lookup_erase_ne h

/-- A write that finds its value in place. -/
theorem Write.apply_eq_self {m : Dict K V} {w : Write K V} (h : m.lookup w.key = w.value) :
    w.apply m = m := by
  apply Finmap.ext_lookup
  intro k
  rw [w.lookup_apply]
  split
  · rename_i hk
    rw [hk, h]
  · rfl

theorem applyAll_append (m : Dict K V) (ws us : List (Write K V)) :
    applyAll m (ws ++ us) = applyAll (applyAll m ws) us :=
  List.foldl_append

/-- The value of the last write to `k`, if there is one. -/
def lastWrite (ws : List (Write K V)) (k : K) : Option (Option V) :=
  (ws.reverse.find? fun w => w.key = k).map Write.value

theorem lastWrite_snoc (ws : List (Write K V)) (w : Write K V) (k : K) :
    lastWrite (ws ++ [w]) k = if k = w.key then some w.value else lastWrite ws k := by
  unfold lastWrite
  rw [List.reverse_append, List.reverse_singleton, List.singleton_append,
    List.find?_cons]
  by_cases h : k = w.key
  · simp [h]
  · have h' : w.key ≠ k := fun heq => h heq.symm
    simp [h, h']

/-- Writing other values to the same keys. -/
theorem lastWrite_map (f : Option V → Option V) (ws : List (Write K V)) (k : K) :
    lastWrite (ws.map fun w => { w with value := f w.value }) k = (lastWrite ws k).map f := by
  unfold lastWrite
  rw [← List.map_reverse, List.find?_map, Option.map_map, Option.map_map]
  rfl

/-- **The last write decides.** -/
theorem lookup_applyAll (m : Dict K V) (ws : List (Write K V)) (k : K) :
    (applyAll m ws).lookup k = (lastWrite ws k).getD (m.lookup k) := by
  induction ws using List.reverseRecOn with
  | nil => rfl
  | append_singleton ws w ih =>
      rw [applyAll_append, lastWrite_snoc]
      show (w.apply (applyAll m ws)).lookup k = _
      rw [w.lookup_apply, ih]
      split <;> rfl

theorem lastWrite_eq_none {ws : List (Write K V)} {k : K} (h : ∀ w ∈ ws, w.key ≠ k) :
    lastWrite ws k = none := by
  unfold lastWrite
  rw [Option.map_eq_none_iff, List.find?_eq_none]
  intro w hw
  simpa using h w (List.mem_reverse.mp hw)

theorem lastWrite_ne_none {ws : List (Write K V)} {w : Write K V} (h : w ∈ ws) :
    lastWrite ws w.key ≠ none := by
  unfold lastWrite
  rw [Ne, Option.map_eq_none_iff, List.find?_eq_none]
  intro hnone
  exact hnone w (List.mem_reverse.mpr h) (by simp)

theorem lastWrite_eq_some {ws us : List (Write K V)} {w : Write K V}
    (h : ∀ u ∈ us, u.key ≠ w.key) : lastWrite (ws ++ w :: us) w.key = some w.value := by
  unfold lastWrite
  have hus : us.reverse.find? (fun u => u.key = w.key) = none := by
    rw [List.find?_eq_none]
    intro u hu
    simpa using h u (List.mem_reverse.mp hu)
  rw [List.reverse_append, List.reverse_cons, List.append_assoc, List.find?_append, hus]
  simp

/-! ## §2  Writes that reach the map out of order -/

/-- The map `m` shows of the log `ws` the writes at the positions `A`: at each
key the latest of them, or `base` if there is none. -/
def Reflects (base : Dict K V) (ws : List (Write K V)) (A : List ℕ) (m : Dict K V) : Prop :=
  ∀ k, (∃ p ∈ A, ∃ w, ws[p]? = some w ∧ w.key = k ∧ m.lookup k = w.value ∧
      ∀ q ∈ A, ∀ u, ws[q]? = some u → u.key = k → q ≤ p) ∨
    (m.lookup k = base.lookup k ∧ ∀ q ∈ A, ∀ u, ws[q]? = some u → u.key ≠ k)

theorem reflects_base (base : Dict K V) (ws : List (Write K V)) :
    Reflects base ws [] base :=
  fun _ => Or.inr ⟨rfl, fun _ hq => absurd hq List.not_mem_nil⟩

/-- Logging a write does not change what has come to the map. -/
theorem Reflects.log {base m : Dict K V} {ws : List (Write K V)} {A : List ℕ}
    (h : Reflects base ws A m) (hA : ∀ p ∈ A, p < ws.length) (w : Write K V) :
    Reflects base (ws ++ [w]) A m := by
  have hold : ∀ p ∈ A, (ws ++ [w])[p]? = ws[p]? :=
    fun p hp => List.getElem?_append_left (hA p hp)
  intro k
  rcases h k with ⟨p, hp, v, hv, hkey, hlook, hmax⟩ | ⟨hlook, hnone⟩
  · refine Or.inl ⟨p, hp, v, (hold p hp).trans hv, hkey, hlook, fun q hq u hu => ?_⟩
    exact hmax q hq u ((hold q hq).symm.trans hu)
  · refine Or.inr ⟨hlook, fun q hq u hu => ?_⟩
    exact hnone q hq u ((hold q hq).symm.trans hu)

/-- A write may come to the map if none after it to the same key has. -/
theorem Reflects.come {base m : Dict K V} {ws : List (Write K V)} {A : List ℕ}
    (h : Reflects base ws A m) {p : ℕ} {w : Write K V} (hp : ws[p]? = some w)
    (hlate : ∀ q ∈ A, p < q → ∀ u, ws[q]? = some u → u.key ≠ w.key) :
    Reflects base ws (A ++ [p]) (w.apply m) := by
  intro k
  by_cases hk : k = w.key
  · refine Or.inl ⟨p, by simp, w, hp, hk.symm, ?_, fun q hq u hu hukey => ?_⟩
    · rw [w.lookup_apply, if_pos hk]
    · rcases List.mem_append.mp hq with hq | hq
      · by_contra hlt
        exact hlate q hq (not_le.mp hlt) u hu (hukey.trans hk)
      · exact le_of_eq (List.mem_singleton.mp hq)
  · have hlook : (w.apply m).lookup k = m.lookup k := by rw [w.lookup_apply, if_neg hk]
    -- the new position is not one of `k`'s
    have hself : ∀ u, ws[p]? = some u → u.key ≠ k := by
      intro u hu hukey
      rw [hp] at hu
      exact hk (by rw [← hukey, Option.some.inj hu])
    rcases h k with ⟨r, hr, v, hv, hkey, hval, hmax⟩ | ⟨hval, hnone⟩
    · refine Or.inl ⟨r, List.mem_append_left _ hr, v, hv, hkey, hlook.trans hval,
        fun q hq u hu hukey => ?_⟩
      rcases List.mem_append.mp hq with hq | hq
      · exact hmax q hq u hu hukey
      · rw [List.mem_singleton.mp hq] at hu
        exact absurd hukey (hself u hu)
    · refine Or.inr ⟨hlook.trans hval, fun q hq u hu => ?_⟩
      rcases List.mem_append.mp hq with hq | hq
      · exact hnone q hq u hu
      · rw [List.mem_singleton.mp hq] at hu
        exact hself u hu

/-- **All writes have come**: the map is the log's. -/
theorem Reflects.complete {base m : Dict K V} {ws : List (Write K V)} {A : List ℕ}
    (h : Reflects base ws A m) (hA : ∀ p < ws.length, p ∈ A) : m = applyAll base ws := by
  refine Finmap.ext_lookup fun k => ?_
  rw [lookup_applyAll]
  rcases h k with ⟨p, -, w, hw, rfl, hlook, hmax⟩ | ⟨hlook, hnone⟩
  · obtain ⟨hlt, hget⟩ := List.getElem?_eq_some_iff.mp hw
    have hsplit : ws = ws.take p ++ w :: ws.drop (p + 1) := by
      rw [← hget, ← List.drop_eq_getElem_cons hlt, List.take_append_drop]
    have hafter : ∀ u ∈ ws.drop (p + 1), u.key ≠ w.key := by
      intro u hu hukey
      obtain ⟨j, hj⟩ := List.mem_iff_getElem?.mp hu
      rw [List.getElem?_drop] at hj
      have hjlt := (List.getElem?_eq_some_iff.mp hj).1
      have := hmax _ (hA _ hjlt) u hj hukey
      omega
    rw [hlook, hsplit, lastWrite_eq_some hafter]
    rfl
  · have hkeys : ∀ w ∈ ws, w.key ≠ k := by
      intro w hw
      obtain ⟨j, hj⟩ := List.mem_iff_getElem?.mp hw
      exact hnone j (hA j (List.getElem?_eq_some_iff.mp hj).1) w hj
    rw [hlook, lastWrite_eq_none hkeys]
    rfl

/-! ## §3  Writes that come again -/

/-- The writes `us` have come to a map that had seen beginnings of `ws` before: a key
they write has their value, any other the value of some beginning. -/
structure Replayed (ws us : List (Write K V)) (m : Dict K V) : Prop where
  again : ∀ k v, lastWrite us k = some v → m.lookup k = v
  before : ∀ k, lastWrite us k = none →
    ∃ vs, vs <+: ws ∧ m.lookup k = (applyAll ∅ vs).lookup k

theorem lookup_applyAll_empty (ws : List (Write K V)) (k : K) :
    (applyAll ∅ ws).lookup k = (lastWrite ws k).getD none := by
  rw [lookup_applyAll, Finmap.lookup_empty]

theorem lastWrite_none_of_prefix {ws vs : List (Write K V)} (hpre : vs <+: ws) {k : K}
    (h : lastWrite ws k = none) : lastWrite vs k = none := by
  apply lastWrite_eq_none
  rintro w hw rfl
  exact lastWrite_ne_none (hpre.subset hw) h

namespace Replayed

variable {ws us : List (Write K V)} {m : Dict K V}

theorem start : Replayed ([] : List (Write K V)) [] ∅ := by
  constructor
  · intro k v h
    cases h
  · intro k _
    exact ⟨[], List.nil_prefix, rfl⟩

/-- More of the sequence becomes known. -/
theorem mono (h : Replayed ws us m) {ws' : List (Write K V)} (hws : ws <+: ws') :
    Replayed ws' us m := by
  refine ⟨h.again, fun k hk => ?_⟩
  obtain ⟨vs, hvs, hlook⟩ := h.before k hk
  exact ⟨vs, hvs.trans hws, hlook⟩

/-- The next write comes. -/
theorem snoc (h : Replayed ws us m) (w : Write K V) : Replayed ws (us ++ [w]) (w.apply m) := by
  constructor
  · intro k v hv
    rw [lastWrite_snoc] at hv
    rw [w.lookup_apply]
    split at hv
    · rename_i hk
      rw [if_pos hk]
      exact Option.some.inj hv
    · rename_i hk
      rw [if_neg hk]
      exact h.again k v hv
  · intro k hk
    rw [lastWrite_snoc] at hk
    rw [w.lookup_apply]
    split at hk
    · cases hk
    · rename_i hne
      rw [if_neg hne]
      exact h.before k hk

/-- **Every value is one the sequence gives**, after some beginning of it. -/
theorem lookup (h : Replayed ws us m) (hus : us <+: ws) (k : K) :
    ∃ vs, vs <+: ws ∧ m.lookup k = (applyAll ∅ vs).lookup k := by
  cases hk : lastWrite us k with
  | none => exact h.before k hk
  | some v =>
      refine ⟨us, hus, ?_⟩
      rw [lookup_applyAll_empty, hk, h.again k v hk]
      rfl

/-- The sequence is about to come once more. -/
theorem restart (h : Replayed ws us m) (hus : us <+: ws) : Replayed ws [] m := by
  constructor
  · intro k v hv
    cases hv
  · exact fun k _ => h.lookup hus k

/-- **The whole sequence has come again**: the map is the sequence's. -/
theorem complete (h : Replayed ws ws m) : m = applyAll ∅ ws := by
  refine Finmap.ext_lookup fun k => ?_
  rw [lookup_applyAll_empty]
  cases hk : lastWrite ws k with
  | some v => exact h.again k v hk
  | none =>
      obtain ⟨vs, hvs, hlook⟩ := h.before k hk
      rw [hlook, lookup_applyAll_empty, lastWrite_none_of_prefix hvs hk]

end Replayed

end KVEngine.Foundation
