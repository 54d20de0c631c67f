import KVEngine.Foundation.Bytes
import KVEngine.Foundation.Layers

/-!
# SSTable files

`flushToSSTable`, `writeEntry`, `get` and `readAll` of `internal/lsm/lsm.go`,
down to the bytes of the file. A table written from entries in key order is read
back as those entries, and `get` finds in it what it holds, except that it
reports a deletion mark like a missing key (`Stored.get`).
-/

namespace KVEngine.LSM

open Foundation

/-- Key and value; the tombstone as value means deleted. -/
abbrev Entry : Type := Bytes × Bytes

/-- `"\x00tombstone"`. -/
def tombstone : Bytes := [0, 116, 111, 109, 98, 115, 116, 111, 110, 101]

/-- The values that are not a deletion mark. -/
def live (v : Bytes) : Bool := v ≠ tombstone

/-! ## §1  Files -/

inductive Level : Type where
  | l0
  | l1
deriving DecidableEq

/-- `l0-%06d.sst` or `l1-%06d.sst`. -/
structure Path where
  level : Level
  id : ℕ
deriving DecidableEq

/-- The next id is not in use. -/
theorem Path.ne_next {p : Path} {nextID : ℕ} (h : p.id ≤ nextID) (level : Level) :
    p ≠ ⟨level, nextID + 1⟩ := by
  rintro rfl
  exact absurd h (Nat.not_succ_le_self _)

abbrev Disk : Type := Path → Option Bytes

inductive IoError : Type where
  | notExist
  | eof
  | unexpectedEOF
deriving DecidableEq

/-- `io.ReadFull`: exactly `n` bytes and what is left. -/
def readFull (n : ℕ) (r : Bytes) : Except IoError (Bytes × Bytes) :=
  if n ≤ r.length then .ok (r.take n, r.drop n)
  else if r = [] then .error .eof
  else .error .unexpectedEOF

theorem readFull_append (a r : Bytes) : readFull a.length (a ++ r) = .ok (a, r) := by
  rw [readFull, if_pos (by rw [List.length_append]; omega), List.take_left, List.drop_left]

/-- The buffer after an `io.ReadFull` whose error is ignored. -/
def readPadded (n : ℕ) (r : Bytes) : Bytes := r.take n ++ List.replicate (n - r.length) 0

theorem readPadded_append (a r : Bytes) : readPadded a.length (a ++ r) = a := by
  rw [readPadded, List.take_left, List.length_append, Nat.sub_eq_zero_of_le (by omega),
    List.replicate_zero, List.append_nil]

/-! ## §2  Entries -/

/-- Both lengths are written as `uint32`. -/
def writeEntry (e : Entry) : Bytes :=
  toLE 4 e.1.length ++ toLE 4 e.2.length ++ e.1 ++ e.2

/-- The lengths fit their headers. -/
def Fits (e : Entry) : Prop := e.1.length < 2 ^ 32 ∧ e.2.length < 2 ^ 32

instance (e : Entry) : Decidable (Fits e) := inferInstanceAs (Decidable (_ ∧ _))

theorem readFull_header (e : Entry) (rest : Bytes) :
    readFull 8 (writeEntry e ++ rest) =
      .ok (toLE 4 e.1.length ++ toLE 4 e.2.length, e.1 ++ (e.2 ++ rest)) := by
  have := readFull_append (toLE 4 e.1.length ++ toLE 4 e.2.length) (e.1 ++ (e.2 ++ rest))
  simpa [writeEntry, length_toLE] using this

theorem keyLen_header {e : Entry} (h : Fits e) :
    ofLE ((toLE 4 e.1.length ++ toLE 4 e.2.length).take 4) = e.1.length := by
  rw [List.take_left' (length_toLE 4 _)]
  exact ofLE_toLE_of_lt (lt_of_lt_of_eq h.1 (by norm_num))

theorem valLen_header {e : Entry} (h : Fits e) :
    ofLE ((toLE 4 e.1.length ++ toLE 4 e.2.length).drop 4) = e.2.length := by
  rw [List.drop_left' (length_toLE 4 _)]
  exact ofLE_toLE_of_lt (lt_of_lt_of_eq h.2 (by norm_num))

theorem length_writeEntry (e : Entry) :
    (writeEntry e).length = 8 + e.1.length + e.2.length := by
  simp only [writeEntry, List.length_append, length_toLE]

/-! ## §3  Tables -/

structure SSTable where
  path : Path
  minKey : Bytes
  maxKey : Bytes
deriving DecidableEq

def flushToSSTable (disk : Disk) (path : Path) (entries : List Entry) : Disk × SSTable :=
  (Function.update disk path (some (entries.flatMap writeEntry)),
    { path
      minKey := (entries.head?.map Prod.fst).getD []
      maxKey := (entries.getLast?.map Prod.fst).getD [] })

/-- The loop of `get`, with fuel for the rounds: the value of the first entry
with the key; `none` if there is none or it is deleted. -/
def scan (key : Bytes) : ℕ → Bytes → Except IoError (Option Bytes)
  | 0, _ => .ok none
  | fuel + 1, r =>
      match readFull 8 r with
      | .error .eof => .ok none
      | .error e => .error e
      | .ok (hdr, r) => do
          let keyLen := ofLE (hdr.take 4)
          let valLen := ofLE (hdr.drop 4)
          let (k, r) ← readFull keyLen r
          let (v, r) ← readFull valLen r
          if k = key then
            if v = tombstone then .ok none else .ok (some v)
          else scan key fuel r

/-- The loop of `readAll`. Only the header's errors are looked at. -/
def readEntries : ℕ → Bytes → Except IoError (List Entry)
  | 0, _ => .ok []
  | fuel + 1, r =>
      match readFull 8 r with
      | .error .eof => .ok []
      | .error e => .error e
      | .ok (hdr, r) =>
          let kl := ofLE (hdr.take 4)
          let vl := ofLE (hdr.drop 4)
          let k := readPadded kl r
          let r := r.drop kl
          let v := readPadded vl r
          (readEntries fuel (r.drop vl)).map fun es => (k, v) :: es

namespace SSTable

def get (sst : SSTable) (disk : Disk) (key : Bytes) : Except IoError (Option Bytes) :=
  if sst.minKey ≠ [] ∧ (key < sst.minKey ∨ key > sst.maxKey) then .ok none
  else
    match disk sst.path with
    | none => .error .notExist
    | some file => scan key file.length file

def readAll (sst : SSTable) (disk : Disk) : Except IoError (List Entry) :=
  match disk sst.path with
  | none => .error .notExist
  | some file => readEntries file.length file

end SSTable

/-! ## §4  Reading back -/

theorem length_le_flatMap_writeEntry : ∀ es : List Entry,
    8 * es.length ≤ (es.flatMap writeEntry).length
  | [] => Nat.zero_le _
  | e :: es => by
      have := length_le_flatMap_writeEntry es
      rw [List.flatMap_cons, List.length_append, length_writeEntry, List.length_cons]
      omega

/-- There are more bytes than entries, so the fuel outlasts them. -/
theorem exists_fuel (es : List Entry) (rest : Bytes) : ∃ fuel,
    (es.flatMap writeEntry ++ rest).length = es.length + fuel ∧ rest.length ≤ fuel := by
  have hlen := length_le_flatMap_writeEntry es
  refine ⟨(es.flatMap writeEntry ++ rest).length - es.length, ?_, ?_⟩ <;>
    rw [List.length_append] <;> omega

/-- The scan stops at the first whole entry with the key. -/
theorem scan_append (key rest : Bytes) : ∀ {es : List Entry} (fuel : ℕ), (∀ e ∈ es, Fits e) →
    scan key (es.length + fuel) (es.flatMap writeEntry ++ rest) =
      match assoc es key with
      | some v => .ok ((some v).filter live)
      | none => scan key fuel rest
  | [], fuel, _ => by
      rw [List.length_nil, Nat.zero_add, List.flatMap_nil, List.nil_append, assoc_nil]
  | e :: es, fuel, hfits => by
      obtain ⟨he, hes⟩ := List.forall_mem_cons.mp hfits
      have ih := scan_append key rest fuel hes
      rw [List.flatMap_cons, List.length_cons, Nat.add_right_comm, List.append_assoc, scan,
        readFull_header]
      dsimp only
      rw [keyLen_header he, valLen_header he, readFull_append]
      show (do let (v, r) ← readFull e.2.length (e.2 ++ (es.flatMap writeEntry ++ rest)); _) = _
      rw [readFull_append]
      show (if e.1 = key then if e.2 = tombstone then Except.ok none else .ok (some e.2)
        else scan key (es.length + fuel) (es.flatMap writeEntry ++ rest)) = _
      rw [ih]
      obtain ⟨k, v⟩ := e
      by_cases hk : k = key
      · subst hk
        rw [if_pos rfl, assoc_cons_self]
        by_cases hv : v = tombstone <;> simp [hv, live, Option.filter]
      · rw [if_neg hk, assoc_cons_of_ne fun h => hk h.symm]

theorem scan_entries (key : Bytes) {es : List Entry} (hfits : ∀ e ∈ es, Fits e) :
    scan key (es.flatMap writeEntry).length (es.flatMap writeEntry) =
      .ok ((assoc es key).filter live) := by
  obtain ⟨fuel, hfuel, -⟩ := exists_fuel es []
  have hscan := scan_append key [] fuel hfits
  rw [List.append_nil] at hscan hfuel
  rw [hfuel, hscan]
  cases assoc es key with
  | some v => rfl
  | none => cases fuel <;> rfl

/-- What `readAll` makes of an entry whose key and value are to be found in `body`: what
is missing reads as zeros. -/
def padded (e : Entry) (body : Bytes) : Entry :=
  (readPadded e.1.length body, readPadded e.2.length (body.drop e.1.length))

theorem padded_append (e : Entry) (rest : Bytes) : padded e (e.1 ++ (e.2 ++ rest)) = e := by
  rw [padded, List.drop_left, readPadded_append, readPadded_append]

/-- One round of the loop, whatever follows the header. -/
theorem readEntries_round {e : Entry} (he : Fits e) (fuel : ℕ) (body : Bytes) :
    readEntries (fuel + 1) (toLE 4 e.1.length ++ toLE 4 e.2.length ++ body) =
      (readEntries fuel (body.drop (e.1.length + e.2.length))).map
        fun es => padded e body :: es := by
  have hlen : (toLE 4 e.1.length ++ toLE 4 e.2.length).length = 8 := by
    simp only [List.length_append, length_toLE]
  have hheader := readFull_append (toLE 4 e.1.length ++ toLE 4 e.2.length) body
  rw [hlen] at hheader
  rw [readEntries, hheader]
  dsimp only
  rw [keyLen_header he, valLen_header he, List.drop_drop]
  rfl

/-- Whole entries are read one by one, whatever follows them. -/
theorem readEntries_append (rest : Bytes) : ∀ {es : List Entry} (fuel : ℕ), (∀ e ∈ es, Fits e) →
    readEntries (es.length + fuel) (es.flatMap writeEntry ++ rest) =
      (readEntries fuel rest).map fun out => es ++ out
  | [], fuel, _ => by
      rw [List.length_nil, Nat.zero_add, List.flatMap_nil, List.nil_append]
      cases readEntries fuel rest <;> rfl
  | e :: es, fuel, hfits => by
      obtain ⟨he, hes⟩ := List.forall_mem_cons.mp hfits
      have hbytes : (e :: es).flatMap writeEntry ++ rest =
          toLE 4 e.1.length ++ toLE 4 e.2.length ++
            (e.1 ++ (e.2 ++ (es.flatMap writeEntry ++ rest))) := by
        simp only [List.flatMap_cons, writeEntry, List.append_assoc]
      have hdrop : (e.1 ++ (e.2 ++ (es.flatMap writeEntry ++ rest))).drop
          (e.1.length + e.2.length) = es.flatMap writeEntry ++ rest := by
        rw [← List.drop_drop, List.drop_left, List.drop_left]
      rw [List.length_cons, Nat.add_right_comm, hbytes, readEntries_round he, padded_append, hdrop,
        readEntries_append rest fuel hes]
      cases readEntries fuel rest <;> rfl

theorem readEntries_entries {es : List Entry} (hfits : ∀ e ∈ es, Fits e) :
    readEntries (es.flatMap writeEntry).length (es.flatMap writeEntry) = .ok es := by
  obtain ⟨fuel, hfuel, -⟩ := exists_fuel es []
  have hread := readEntries_append [] fuel hfits
  rw [List.append_nil] at hread hfuel
  rw [hfuel, hread]
  cases fuel <;> simp [readEntries, readFull, Except.map]

/-- The file and the key range of `sst` are those of the table `t`. -/
structure Stored (disk : Disk) (sst : SSTable) (t : SortedTable Bytes Bytes) : Prop where
  file : disk sst.path = some (t.entries.flatMap writeEntry)
  minKey : sst.minKey = (t.entries.head?.map Prod.fst).getD []
  maxKey : sst.maxKey = (t.entries.getLast?.map Prod.fst).getD []
  fits : ∀ e ∈ t.entries, Fits e

theorem stored_flush {t : SortedTable Bytes Bytes} (hfits : ∀ e ∈ t.entries, Fits e)
    (disk : Disk) (path : Path) :
    Stored (flushToSSTable disk path t.entries).1 (flushToSSTable disk path t.entries).2 t :=
  ⟨Function.update_self path _ disk, rfl, rfl, hfits⟩

/-- Keys outside the range of a table that is not empty are not in it. -/
theorem keys_in_range {t : SortedTable Bytes Bytes} {e : Entry} (he : e ∈ t.entries) :
    (t.entries.head?.map Prod.fst).getD [] ≤ e.1 ∧
      e.1 ≤ (t.entries.getLast?.map Prod.fst).getD [] := by
  have hsorted := t.sorted
  constructor
  · cases hes : t.entries with
    | nil =>
        rw [hes] at he
        cases he
    | cons a es =>
        rw [hes] at he hsorted
        show a.1 ≤ e.1
        rcases List.mem_cons.mp he with rfl | he
        · exact le_refl _
        · exact le_of_lt ((List.pairwise_cons.mp hsorted).1 e he)
  · rcases List.eq_nil_or_concat t.entries with hes | ⟨es, b, hes⟩
    · rw [hes] at he
      cases he
    · rw [List.concat_eq_append] at hes
      rw [hes] at he hsorted
      rw [hes, List.getLast?_concat]
      show e.1 ≤ b.1
      rcases List.mem_append.mp he with he | he
      · exact le_of_lt ((List.pairwise_append.mp hsorted).2.2 e he b (List.mem_singleton_self b))
      · rw [List.mem_singleton.mp he]

namespace Stored

variable {disk : Disk} {sst : SSTable} {t : SortedTable Bytes Bytes}

/-- `get` answers with the table's live value; a deleted key is not told from a
missing one. -/
theorem get (h : Stored disk sst t) (key : Bytes) :
    sst.get disk key = .ok ((t.get key).filter live) := by
  rw [SSTable.get, h.file]
  split
  · rename_i hout
    have hnone : t.get key = none := by
      refine SortedTable.get_eq_none fun e he hkey => ?_
      obtain ⟨hmin, hmax⟩ := keys_in_range he
      rw [← h.minKey, hkey] at hmin
      rw [← h.maxKey, hkey] at hmax
      exact hout.2.elim (not_lt.mpr hmin) (not_lt.mpr hmax)
    rw [hnone]
    rfl
  · exact scan_entries key h.fits

theorem readAll (h : Stored disk sst t) : sst.readAll disk = .ok t.entries := by
  rw [SSTable.readAll, h.file]
  exact readEntries_entries h.fits

/-- Other files do not matter. -/
theorem frame (h : Stored disk sst t) {disk' : Disk} (hsame : disk' sst.path = disk sst.path) :
    Stored disk' sst t :=
  ⟨hsame.trans h.file, h.minKey, h.maxKey, h.fits⟩

end Stored

/-- **A table reads as it was flushed.** `readAll` returns the entries, and `get`, with
its range check, the value of a key unless that is the tombstone. -/
theorem flushed_read {es : List Entry} (hsorted : es.Pairwise fun a b => a.1 < b.1)
    (hfits : ∀ e ∈ es, Fits e) (disk : Disk) (path : Path) (key : Bytes) :
    let flushed := flushToSSTable disk path es
    flushed.2.readAll flushed.1 = .ok es ∧
      (∀ v, (key, v) ∈ es → v ≠ tombstone → flushed.2.get flushed.1 key = .ok (some v)) ∧
      ((∀ v, (key, v) ∈ es → v = tombstone) → flushed.2.get flushed.1 key = .ok none) := by
  intro flushed
  let t : SortedTable Bytes Bytes := ⟨es, hsorted⟩
  have hstored : Stored flushed.1 flushed.2 t := stored_flush (t := t) hfits disk path
  refine ⟨hstored.readAll, fun v hv hlive => ?_, fun hdead => ?_⟩
  · have hget : t.get key = some v := SortedTable.get_eq_some_iff.mpr hv
    rw [hstored.get, hget]
    simp [Option.filter, live, hlive]
  · have hnone : (t.get key).filter live = none := by
      rw [Option.filter_eq_none_iff]
      intro v hv
      rw [hdead v (SortedTable.get_eq_some_iff.mp hv)]
      decide
    rw [hstored.get, hnone]

/-- The empty key is the least; a deleted key and keys beyond both ends. -/
theorem flushed_read_ends :
    let es : List Entry := [([], [1]), ([97], tombstone), ([98], [])]
    let flushed := flushToSSTable (fun _ => none) ⟨.l0, 1⟩ es
    flushed.2.readAll flushed.1 = .ok es ∧ flushed.2.get flushed.1 [] = .ok (some [1]) ∧
      flushed.2.get flushed.1 [97] = .ok none ∧ flushed.2.get flushed.1 [99] = .ok none := by
  intro es flushed
  have hsorted : es.Pairwise fun a b => a.1 < b.1 := by decide
  have hread := flushed_read hsorted (by decide) (fun _ => none) ⟨.l0, 1⟩
  exact ⟨(hread []).1, (hread []).2.1 [1] (by decide) (by decide),
    (hread [97]).2.2 (by simp [es]), (hread [99]).2.2 (by simp [es])⟩

end KVEngine.LSM
