import KVEngine.Foundation.Json
import KVEngine.Foundation.Layers
import KVEngine.Store.Store
import Mathlib.Data.Finset.Max

/-!
# Snapshots of the store

`Snapshot` and `RestoreSnapshot` of `internal/store/store.go`. A snapshot is the map as
a JSON object, its keys in order and its values in base64. `RestoreSnapshot` decodes it
into the map that is there, which keeps the keys the snapshot does not mention, and a
key that is not UTF-8 comes back as another one. The second store has the map of the
first afterwards exactly when it had no other key before, had those keys already, and
gets under the other ones what was there (`restore_iff`).
-/

namespace KVEngine.Store

open Foundation

/-! ## §1  Writing and reading a map -/

/-- What is read back, entry by entry in the order of the keys. -/
def snapshotEntries (data : Dict Bytes Bytes) : List (Bytes × Bytes) :=
  (SortedTable.ofDict data).entries.map fun e => (Utf8.coerce e.1, e.2)

/-- `encoding/json` for a `map[string][]byte`: `Marshal`, and `Unmarshal` into a map
that exists. -/
structure MapCodec where
  marshal : Dict Bytes Bytes → Bytes
  unmarshal : Bytes → Dict Bytes Bytes → Option (Dict Bytes Bytes)
  unmarshal_marshal : ∀ data into,
    unmarshal (marshal data) into = some (insertAll into (snapshotEntries data))

/-- `Put` and `Open` store an empty value as a nil slice. -/
def stored (value : Bytes) : Option Bytes := if value = [] then none else some value

theorem getD_stored (value : Bytes) : (stored value).getD [] = value := by
  unfold stored
  split
  · rename_i h
    exact h.symm
  · rfl

/-- The writer and reader of `Foundation.Json`. -/
def goMaps : MapCodec where
  marshal data := Json.object
    (Json.fieldsOf (fun value => Json.byteSlice (stored value)) (SortedTable.ofDict data).entries)
  unmarshal text into := do
    let (ms, rest) ← Json.parseObjectOf Json.readByteSlice text
    guard (rest = [])
    return insertAll into (ms.map fun m => (m.1, m.2.getD []))
  unmarshal_marshal data into := by
    have hparse := Json.parseObjectOf_object
      (fun value t => Json.readByteSlice_byteSlice (stored value) t)
      (SortedTable.ofDict data).entries []
    rw [List.append_nil] at hparse
    rw [hparse]
    show some (insertAll into ((Json.readFields stored _).map _)) = _
    rw [Json.readFields, List.map_map]
    congr 2
    exact List.map_congr_left fun e _ => Prod.ext rfl (getD_stored e.2)

def snapshot (J : MapCodec) (s : Store) : Bytes := J.marshal s.data

def restoreSnapshot (J : MapCodec) (s : Store) (text : Bytes) : Option Store :=
  (J.unmarshal text s.data).map fun data => { s with data }

/-! ## §2  What is restored -/

variable {data into : Dict Bytes Bytes}

/-- The snapshot says nothing about a key that no key is written as. -/
theorem lookup_restored_of_ne (into : Dict Bytes Bytes) {k : Bytes}
    (h : ∀ j ∈ data, Utf8.coerce j ≠ k) :
    (insertAll into (snapshotEntries data)).lookup k = into.lookup k := by
  refine lookup_insertAll_of_ne into fun e he => ?_
  obtain ⟨e', he', rfl⟩ := List.mem_map.mp he
  exact h e'.1 (Finmap.mem_of_lookup_eq_some (SortedTable.mem_ofDict.mp he'))

/-- Of the keys that are written alike the last one gives the value. -/
theorem lookup_restored_last (into : Dict Bytes Bytes) {k : Bytes} (hk : k ∈ data)
    (hlast : ∀ j ∈ data, Utf8.coerce j = Utf8.coerce k → j ≤ k) :
    (insertAll into (snapshotEntries data)).lookup (Utf8.coerce k) = data.lookup k := by
  obtain ⟨v, hv⟩ := Finmap.mem_iff.mp hk
  obtain ⟨es, es', hes⟩ := List.append_of_mem (SortedTable.mem_ofDict.mpr hv)
  have hsorted := (SortedTable.ofDict data).sorted
  rw [hes, List.pairwise_append, List.pairwise_cons] at hsorted
  obtain ⟨-, ⟨habove, -⟩, -⟩ := hsorted
  rw [snapshotEntries, hes, List.map_append, List.map_cons, hv]
  refine lookup_insertAll_last into _ fun e he halike => ?_
  obtain ⟨e', he', rfl⟩ := List.mem_map.mp he
  have hin : e' ∈ (SortedTable.ofDict data).entries := by
    rw [hes]
    exact List.mem_append_right _ (List.mem_cons_of_mem _ he')
  have hkey := Finmap.mem_of_lookup_eq_some (SortedTable.mem_ofDict.mp hin)
  exact absurd (habove e' he') (not_lt.mpr (hlast _ hkey halike))

/-- Every key is written as the last of some keys is. -/
theorem exists_last {k : Bytes} (hk : k ∈ data) : ∃ l ∈ data, Utf8.coerce l = Utf8.coerce k ∧
    ∀ j ∈ data, Utf8.coerce j = Utf8.coerce l → j ≤ l := by
  have hne : (data.keys.filter fun j => Utf8.coerce j = Utf8.coerce k).Nonempty :=
    ⟨k, Finset.mem_filter.mpr ⟨Finmap.mem_keys.mpr hk, rfl⟩⟩
  obtain ⟨hl, halike⟩ := Finset.mem_filter.mp (Finset.max'_mem _ hne)
  refine ⟨_, Finmap.mem_keys.mp hl, halike, fun j hj hj' => Finset.le_max' _ j ?_⟩
  exact Finset.mem_filter.mpr ⟨Finmap.mem_keys.mpr hj, by rw [hj', halike]⟩

/-- What the map `into` has to be for a snapshot of `data` to turn it into `data`. It has
no other keys. It has every key that is not UTF-8 already; and if such a key is the last
of those that are written alike, `data` has its value also under the key it is written
as. -/
def Restores (data into : Dict Bytes Bytes) : Prop :=
  (∀ k ∈ into, k ∈ data) ∧ ∀ k ∈ data, ¬ Utf8.Valid k → into.lookup k = data.lookup k ∧
    ((∀ j ∈ data, Utf8.coerce j = Utf8.coerce k → j ≤ k) →
      data.lookup (Utf8.coerce k) = data.lookup k)

theorem restored_eq_iff :
    insertAll into (snapshotEntries data) = data ↔ Restores data into := by
  have hkept : ∀ {k}, ¬ Utf8.Valid k →
      (insertAll into (snapshotEntries data)).lookup k = into.lookup k := fun hk =>
    lookup_restored_of_ne into fun j _ hjk => hk (hjk ▸ Utf8.valid_coerce j)
  constructor
  · intro heq
    refine ⟨fun k hk => ?_, fun k hk hvalid => ⟨?_, fun hlast => ?_⟩⟩
    · by_contra hout
      have hno : ∀ j ∈ data, Utf8.coerce j ≠ k := by
        rintro j hj rfl
        obtain ⟨l, hl, halike, hlast⟩ := exists_last hj
        have hlook := lookup_restored_last into hl hlast
        rw [heq, halike, Finmap.lookup_eq_none.mpr hout] at hlook
        exact Finmap.lookup_eq_none.mp hlook.symm hl
      have hlook := lookup_restored_of_ne into hno
      rw [heq, Finmap.lookup_eq_none.mpr hout] at hlook
      exact Finmap.lookup_eq_none.mp hlook.symm hk
    · rw [← hkept hvalid, heq]
    · rw [← lookup_restored_last into hk hlast, heq]
  · rintro ⟨hsub, hodd⟩
    refine Finmap.ext_lookup fun k => ?_
    by_cases hno : ∀ j ∈ data, Utf8.coerce j ≠ k
    · rw [lookup_restored_of_ne into hno]
      by_cases hk : k ∈ data
      · -- the key is written as another one
        exact (hodd k hk fun hvalid => hno k hk ((Utf8.coerce_eq_iff k).mpr hvalid)).1
      · rw [Finmap.lookup_eq_none.mpr hk, Finmap.lookup_eq_none.mpr (mt (hsub k) hk)]
    · obtain ⟨j, hj, rfl⟩ : ∃ j ∈ data, Utf8.coerce j = k := by simpa using hno
      obtain ⟨l, hl, halike, hlast⟩ := exists_last hj
      rw [← halike, lookup_restored_last into hl hlast]
      by_cases hvalid : Utf8.Valid l
      · rw [(Utf8.coerce_eq_iff l).mpr hvalid]
      · exact ((hodd l hl hvalid).2 hlast).symm

/-- **Restoring a snapshot.** It always succeeds, and `s₂` gets the map of `s₁` exactly
when it has no other keys, has those that are not UTF-8 already, and these do not spoil
the others. -/
theorem restore_iff (J : MapCodec) (s₁ s₂ : Store) :
    ∃ s, s₂.restoreSnapshot J (s₁.snapshot J) = some s ∧
      (s.data = s₁.data ↔ Restores s₁.data s₂.data) := by
  refine ⟨{ s₂ with data := insertAll s₂.data (snapshotEntries s₁.data) }, ?_, restored_eq_iff⟩
  rw [restoreSnapshot, snapshot, J.unmarshal_marshal]
  rfl

/-- An empty store gets the map. -/
theorem restore_iff_empty :
    let s₁ : Store := { data := Finmap.insert [97] [1] ∅, log := WAL.openLog [] }
    ∃ s, (openStore []).restoreSnapshot goMaps (s₁.snapshot goMaps) = some s ∧
      s.data = s₁.data := by
  intro s₁
  obtain ⟨s, hs, hiff⟩ := restore_iff goMaps s₁ (openStore [])
  have hkeys : ∀ k ∈ s₁.data, Utf8.Valid k := by
    intro k hk
    obtain rfl | hk := Finmap.mem_insert.mp hk
    · decide
    · exact absurd hk Finmap.notMem_empty
  exact ⟨s, hs, hiff.mpr ⟨fun k hk => absurd hk Finmap.notMem_empty,
    fun k hk hvalid => absurd (hkeys k hk) hvalid⟩⟩

/-- An old key stays, and a key that is not UTF-8 comes back as U+FFFD. -/
theorem restore_keeps_keys :
    let s₁ : Store := { data := Finmap.insert [97] [1] ∅, log := WAL.openLog [] }
    let s₂ : Store := { data := Finmap.insert [98] [2] ∅, log := WAL.openLog [] }
    let s₃ : Store := { data := Finmap.insert [0xFF] [3] ∅, log := WAL.openLog [] }
    (∃ s, s₂.restoreSnapshot goMaps (s₁.snapshot goMaps) = some s ∧
        s.get [97] = some [1] ∧ s.get [98] = some [2]) ∧
      ∃ s, (openStore []).restoreSnapshot goMaps (s₃.snapshot goMaps) = some s ∧
        s.get [0xFF] = none ∧ s.get [0xEF, 0xBF, 0xBD] = some [3] := by
  intro s₁ s₂ s₃
  refine ⟨⟨_, rfl, ?_, ?_⟩, _, rfl, ?_, ?_⟩
  · decide +kernel
  · decide +kernel
  · decide +kernel
  · decide +kernel

end KVEngine.Store
