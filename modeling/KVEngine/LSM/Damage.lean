import KVEngine.Foundation.Framing
import KVEngine.LSM.Engine

/-!
# Tables that were cut short

The two readers of `internal/lsm/lsm.go` on a table file that has lost its end. `get`
returns the error of a short read; `readAll` looks at the errors of the header only, and
takes zeros for the bytes of a key or a value that are not there.

So `readAll` fails or returns a part of the entries exactly when nothing but zeros was
lost of the entry that the cut goes through (`readAll_cut_iff`), and `get` never makes
anything up (`get_cut`).
-/

namespace KVEngine.LSM

open Foundation

/-! ## §1  The cut -/

/-- The file at `path` loses all but its first `n` bytes. -/
def Disk.cut (disk : Disk) (path : Path) (n : ℕ) : Disk :=
  Function.update disk path ((disk path).map (List.take n))

/-- The cut goes through the key or the value of an entry, and not only zeros are lost
of it. -/
def Fabricates (es : List Entry) (n : ℕ) : Prop :=
  ∃ before e after, es = before ++ e :: after ∧
    (before.flatMap writeEntry).length + 8 ≤ n ∧
    ∃ b ∈ (writeEntry e).drop (n - (before.flatMap writeEntry).length), b ≠ 0

theorem file_cut (disk : Disk) (path : Path) (es : List Entry) (n : ℕ) :
    (flushToSSTable disk path es).1.cut path n path =
      some ((es.flatMap writeEntry).take n) := by
  have hfile : (flushToSSTable disk path es).1 path = some (es.flatMap writeEntry) :=
    Function.update_self path _ disk
  rw [Disk.cut, Function.update_self, hfile, Option.map_some]

/-- Behind the header. -/
theorem take_writeEntry {e : Entry} {m : ℕ} (hm : 8 ≤ m) :
    (writeEntry e).take m =
      toLE 4 e.1.length ++ toLE 4 e.2.length ++ (e.1 ++ e.2).take (m - 8) := by
  have hlen : (toLE 4 e.1.length ++ toLE 4 e.2.length).length = 8 := by
    simp only [List.length_append, length_toLE]
  rw [writeEntry, List.append_assoc, List.take_append, hlen, List.take_of_length_le (by omega)]

theorem drop_writeEntry {e : Entry} {m : ℕ} (hm : 8 ≤ m) :
    (writeEntry e).drop m = (e.1 ++ e.2).drop (m - 8) := by
  have hlen : (toLE 4 e.1.length ++ toLE 4 e.2.length).length = 8 := by
    simp only [List.length_append, length_toLE]
  rw [writeEntry, List.append_assoc, List.drop_append, hlen, List.drop_eq_nil_of_le (by omega),
    List.nil_append]

/-! ## §2  `readAll` -/

theorem length_readPadded (n : ℕ) (r : Bytes) : (readPadded n r).length = n := by
  rw [readPadded, List.length_append, List.length_take, List.length_replicate]
  omega

/-- Key and value are padded like one string. -/
theorem readPadded_add (a b : ℕ) (r : Bytes) :
    readPadded a r ++ readPadded b (r.drop a) = readPadded (a + b) r := by
  simp only [readPadded]
  by_cases h : a ≤ r.length
  · rw [Nat.sub_eq_zero_of_le h, List.replicate_zero, List.append_nil, ← List.append_assoc,
      ← List.take_add, List.length_drop]
    congr 2
    omega
  · rw [List.drop_eq_nil_of_le (by omega), List.take_nil, List.nil_append, List.length_nil,
      List.take_of_length_le (by omega), List.take_of_length_le (by omega), List.append_assoc,
      List.replicate_append_replicate]
    congr 2
    omega

theorem readPadded_take (w : Bytes) (j : ℕ) :
    readPadded w.length (w.take j) = w ↔ ∀ b ∈ w.drop j, b = 0 := by
  have hpad : readPadded w.length (w.take j) = w.take j ++ List.replicate (w.drop j).length 0 := by
    rw [readPadded, List.take_of_length_le (by rw [List.length_take]; omega), List.length_take,
      List.length_drop]
    congr 2
    omega
  conv_lhs => rhs; rw [← List.take_append_drop j w]
  rw [hpad, List.append_cancel_left_eq, eq_comm, List.eq_replicate_iff]
  exact and_iff_right rfl

/-- A padded entry is the one that was written exactly if only zeros were lost. -/
theorem padded_take_eq_iff (e : Entry) (j : ℕ) :
    padded e ((e.1 ++ e.2).take j) = e ↔ ∀ b ∈ (e.1 ++ e.2).drop j, b = 0 := by
  rw [← readPadded_take, List.length_append, ← readPadded_add, padded]
  constructor
  · intro h
    have hkey : readPadded e.1.length ((e.1 ++ e.2).take j) = e.1 := congrArg Prod.fst h
    have hvalue := congrArg Prod.snd h
    dsimp only at hvalue
    rw [hkey, hvalue]
  · intro h
    obtain ⟨hkey, hvalue⟩ := List.append_inj h (length_readPadded _ _)
    rw [hkey, hvalue]

theorem readFull_short {n : ℕ} {r : Bytes} (h : r.length < n) (hne : r ≠ []) :
    readFull n r = .error .unexpectedEOF := by
  rw [readFull, if_neg (by omega), if_neg hne]

/-- A file that ends inside the entry `e`, after `m` bytes of it. -/
theorem readEntries_cut {us : List Entry} {e : Entry} {m : ℕ} (hus : ∀ x ∈ us, Fits x)
    (he : Fits e) (hm : m < (writeEntry e).length) :
    let file := us.flatMap writeEntry ++ (writeEntry e).take m
    readEntries file.length file =
      if m = 0 then .ok us
      else if m < 8 then .error .unexpectedEOF
      else .ok (us ++ [padded e ((e.1 ++ e.2).take (m - 8))]) := by
  intro file
  obtain ⟨fuel, hfuel, hrest⟩ := exists_fuel us ((writeEntry e).take m)
  rw [List.length_take, min_eq_left (le_of_lt hm)] at hrest
  rw [hfuel, readEntries_append _ _ hus]
  split_ifs with h0 h8
  · rw [h0, List.take_zero]
    cases fuel <;> simp [readEntries, readFull, Except.map]
  · obtain ⟨fuel, rfl⟩ : ∃ k, fuel = k + 1 := ⟨fuel - 1, by omega⟩
    have hlen : ((writeEntry e).take m).length = m := by
      rw [List.length_take]
      omega
    have hne : (writeEntry e).take m ≠ [] := by
      intro hnil
      rw [hnil] at hlen
      exact h0 hlen.symm
    rw [readEntries, readFull_short (by omega) hne]
    rfl
  · obtain ⟨fuel, rfl⟩ : ∃ k, fuel = k + 1 := ⟨fuel - 1, by omega⟩
    have hnone : ((e.1 ++ e.2).take (m - 8)).drop (e.1.length + e.2.length) = [] := by
      apply List.drop_eq_nil_of_le
      rw [← List.length_append, List.length_take]
      exact min_le_right _ _
    rw [take_writeEntry (by omega), readEntries_round he, hnone]
    cases fuel <;> simp [readEntries, readFull, Except.map]

theorem readAll_cut {disk : Disk} {path : Path} {es : List Entry} {n : ℕ} :
    let flushed := flushToSSTable disk path es
    flushed.2.readAll (flushed.1.cut path n) =
      readEntries ((es.flatMap writeEntry).take n).length ((es.flatMap writeEntry).take n) := by
  intro flushed
  have hfile : (flushed.1.cut path n) flushed.2.path = _ := file_cut disk path es n
  rw [SSTable.readAll, hfile]

/-- **A table cut short.** `readAll` returns an error or a part of the entries exactly
when the cut takes nothing but zeros from the entry it goes through. -/
theorem readAll_cut_iff {es : List Entry} (hfits : ∀ e ∈ es, Fits e) (disk : Disk) (path : Path)
    (n : ℕ) :
    let flushed := flushToSSTable disk path es
    (∀ out, flushed.2.readAll (flushed.1.cut path n) = .ok out → out <+: es) ↔
      ¬ Fabricates es n := by
  intro flushed
  rw [readAll_cut]
  constructor
  · rintro hread ⟨before, e, after, rfl, hn, b, hb, hb0⟩
    obtain ⟨m, rfl⟩ : ∃ m, n = (before.flatMap writeEntry).length + m :=
      ⟨n - (before.flatMap writeEntry).length, by omega⟩
    rw [Nat.add_sub_cancel_left] at hb
    have hm : m < (writeEntry e).length := by
      have := List.length_pos_of_mem hb
      rw [List.length_drop] at this
      omega
    have htake : ((before ++ e :: after).flatMap writeEntry).take
        ((before.flatMap writeEntry).length + m) =
        before.flatMap writeEntry ++ (writeEntry e).take m := by
      rw [List.flatMap_append, List.take_length_add_append, List.flatMap_cons,
        List.take_append_of_le_length (le_of_lt hm)]
    have hcut := readEntries_cut (fun x hx => hfits x (List.mem_append_left _ hx))
      (hfits e (List.mem_append_right _ List.mem_cons_self)) hm
    rw [htake] at hread
    rw [if_neg (by omega), if_neg (by omega)] at hcut
    have hpre := (List.prefix_append_right_inj _).mp (hread _ hcut)
    have hsame := (padded_take_eq_iff e (m - 8)).mp (List.cons_prefix_cons.mp hpre).1
    rw [drop_writeEntry (by omega)] at hb
    exact hb0 (hsame b hb)
  · intro hsafe out hout
    by_cases hn : n < (es.flatMap writeEntry).length
    · obtain ⟨us, e, vs, m, rfl, rfl, hm, htake⟩ := exists_cut writeEntry hn
      have hcut := readEntries_cut (fun x hx => hfits x (List.mem_append_left _ hx))
        (hfits e (List.mem_append_right _ List.mem_cons_self)) hm
      rw [htake, hcut] at hout
      split_ifs at hout with h0 h8
      · cases hout
        exact List.prefix_append _ _
      · -- no byte that is lost of `e` differs from zero
        have hzeros : ∀ b ∈ (e.1 ++ e.2).drop (m - 8), b = 0 := by
          intro b hb
          by_contra hb0
          refine hsafe ⟨us, e, vs, rfl, by omega, b, ?_, hb0⟩
          rwa [Nat.add_sub_cancel_left, drop_writeEntry (by omega)]
        cases hout
        rw [(padded_take_eq_iff e (m - 8)).mpr hzeros]
        exact (List.prefix_append_right_inj _).mpr
          (List.cons_prefix_cons.mpr ⟨rfl, List.nil_prefix⟩)
    · rw [List.take_of_length_le (not_lt.mp hn), readEntries_entries hfits] at hout
      cases hout
      exact List.prefix_refl _

/-- Of the value only zeros are lost. -/
theorem readAll_cut_iff_zeros :
    let es : List Entry := [([97], [1, 0, 0])]
    let flushed := flushToSSTable (fun _ => none) ⟨.l0, 1⟩ es
    ∀ out, flushed.2.readAll (flushed.1.cut ⟨.l0, 1⟩ 10) = .ok out → out <+: es := by
  intro es
  refine (readAll_cut_iff (by decide +kernel) _ _ 10).mpr ?_
  rintro ⟨before, e, after, hes, -, b, hb, hb0⟩
  obtain ⟨rfl, he⟩ : before = [] ∧ e :: after = es := by
    cases before with
    | nil => exact ⟨rfl, hes.symm⟩
    | cons x before => simp [es] at hes
  obtain ⟨rfl, -⟩ := List.cons.inj he
  have hzero : ∀ b ∈ (writeEntry ([97], [1, 0, 0])).drop 10, b = 0 := by decide +kernel
  exact hb0 (hzero b hb)

/-- A table loses the byte of its only value. `get` fails; `readAll` returns a value that
was never written, `compact` writes it to a new table and removes the old one, and from
then on it is what `Get` answers. -/
theorem lost_value_replaced :
    let e := runCalls [.put [97] [1], .flush]
    let damaged := { e with disk := e.disk.cut ⟨.l0, 1⟩ 9 }
    e.get [97] = some [1] ∧
      (∃ sst ∈ e.l0, sst.readAll e.disk = .ok [([97], [1])] ∧
        sst.readAll damaged.disk = .ok [([97], [0])] ∧
        sst.get damaged.disk [97] = .error .eof ∧
        damaged.compact.1.disk sst.path = none) ∧
      damaged.compact.2 = none ∧ damaged.compact.1.get [97] = some [0] := by
  decide +kernel

/-! ## §3  `get` -/

theorem readFull_of_lt {n : ℕ} {r : Bytes} (h : r.length < n) :
    ∃ err, readFull n r = .error err := by
  rw [readFull, if_neg (not_le.mpr h)]
  split_ifs
  · exact ⟨_, rfl⟩
  · exact ⟨_, rfl⟩

/-- In a part of an entry the scan finds nothing. -/
theorem scan_cut {e : Entry} {m : ℕ} (he : Fits e) (hm : m < (writeEntry e).length)
    (key v : Bytes) :
    ∀ fuel, scan key fuel ((writeEntry e).take m) ≠ .ok (some v)
  | 0 => fun h => by cases h
  | fuel + 1 => by
      intro h
      rw [scan] at h
      by_cases h8 : m < 8
      · have hlen : ((writeEntry e).take m).length < 8 := by
          rw [List.length_take]
          omega
        by_cases hne : (writeEntry e).take m = []
        · rw [hne] at h
          cases h
        · rw [readFull_short hlen hne] at h
          cases h
      · have hheader := readFull_append (toLE 4 e.1.length ++ toLE 4 e.2.length)
          ((e.1 ++ e.2).take (m - 8))
        rw [List.length_append, length_toLE, length_toLE] at hheader
        rw [take_writeEntry (by omega), hheader] at h
        dsimp only at h
        rw [keyLen_header he, valLen_header he] at h
        have hbody : ((e.1 ++ e.2).take (m - 8)).length < e.1.length + e.2.length := by
          rw [length_writeEntry] at hm
          rw [List.length_take]
          omega
        by_cases hkey : e.1.length ≤ ((e.1 ++ e.2).take (m - 8)).length
        · have hvalue : (((e.1 ++ e.2).take (m - 8)).drop e.1.length).length < e.2.length := by
            rw [List.length_drop]
            omega
          obtain ⟨err, herr⟩ := readFull_of_lt hvalue
          rw [readFull, if_pos hkey] at h
          dsimp only [bind, Except.bind] at h
          rw [herr] at h
          cases h
        · obtain ⟨err, herr⟩ := readFull_of_lt (not_le.mp hkey)
          rw [herr] at h
          cases h

/-- **`get` makes nothing up.** What it answers from a table cut short was written. -/
theorem get_cut {es : List Entry} (hsorted : es.Pairwise fun a b => a.1 < b.1)
    (hfits : ∀ e ∈ es, Fits e) (disk : Disk) (path : Path) (n : ℕ) {key v : Bytes} :
    let flushed := flushToSSTable disk path es
    flushed.2.get (flushed.1.cut path n) key = .ok (some v) → (key, v) ∈ es := by
  intro flushed hget
  have hfile : (flushed.1.cut path n) flushed.2.path = _ := file_cut disk path es n
  rw [SSTable.get, hfile] at hget
  split at hget
  · cases hget
  · by_cases hn : n < (es.flatMap writeEntry).length
    · obtain ⟨us, e, vs, m, rfl, rfl, hm, htake⟩ := exists_cut writeEntry hn
      obtain ⟨hus, he, -⟩ : (∀ x ∈ us, Fits x) ∧ Fits e ∧ ∀ x ∈ vs, Fits x := by
        simpa [or_imp, forall_and] using hfits
      obtain ⟨fuel, hfuel, -⟩ := exists_fuel us ((writeEntry e).take m)
      dsimp only at hget
      rw [htake, hfuel, scan_append key _ _ hus] at hget
      split at hget
      · rename_i w hw
        have hmem := (assoc_eq_some_iff (List.pairwise_append.mp hsorted).1).mp hw
        obtain ⟨hwv, -⟩ := Option.filter_eq_some_iff.mp (Except.ok.inj hget)
        cases hwv
        exact List.mem_append_left _ hmem
      · exact absurd hget (scan_cut he hm key v fuel)
    · dsimp only at hget
      rw [List.take_of_length_le (not_lt.mp hn), scan_entries key hfits] at hget
      obtain ⟨hassoc, -⟩ := Option.filter_eq_some_iff.mp (Except.ok.inj hget)
      exact (assoc_eq_some_iff hsorted).mp hassoc

end KVEngine.LSM
