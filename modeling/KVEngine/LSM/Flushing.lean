import KVEngine.LSM.Contents

/-!
# Flushing

What the flushes of `internal/lsm/lsm.go` leave behind: tables on disk and nothing in
memory.

A table is added on two paths, and only `maybeFlush` looks at how many there are. `Flush`
does not, so level 0 stays within its limit exactly if no `Flush` finds it full
(`tables_bounded_iff`).

Whether the memory table is empty is decided from a counter of bytes, which a `Put` of the
empty value at the empty key does not move. A memory table that got nothing but such puts
is not flushed (`flush_empties_iff`).
-/

namespace KVEngine.LSM

open Foundation

/-! ## §1  How many tables -/

section Count

variable {e : Engine} {m : Dict Bytes Bytes} {c : Call}

theorem Refines.l1 (h : Refines e m) : e.l1.length ≤ 1 := by
  obtain ⟨runs, hrep, -⟩ := h
  exact hrep.l1

theorem Refines.compact_l0 (h : Refines e m) : e.compact.1.l0 = [] := by
  obtain ⟨runs, hrep, -⟩ := h
  exact hrep.compact.2.2.1

theorem write_l0 (e : Engine) (c : Call) : (e.write c).l0 = e.l0 := by
  cases c <;> rfl

theorem length_l0_flushMemTable (e : Engine) : e.flushMemTable.l0.length = e.l0.length + 1 :=
  List.length_append

/-- `Put` and `Delete` leave level 0 alone or below its limit. -/
theorem l0_write (h : Refines e m) (hc : c.Sized) (hne : c ≠ .flush) :
    (e.call c).1.l0.length = e.l0.length ∨ (e.call c).1.l0.length < maxL0Tables := by
  rcases e.call_cases c with ⟨rfl, -⟩ | ⟨-, ⟨-, hcall⟩ | ⟨-, hroom, hcall⟩ | ⟨-, -, hcall⟩⟩
  · exact absurd rfl hne
  · rw [hcall, write_l0]
    exact Or.inl rfl
  · rw [hcall, length_l0_flushMemTable, write_l0]
    exact Or.inr hroom
  · rw [hcall, (h.write hc).flushMemTable.compact_l0]
    exact Or.inr (by decide)

/-- `Flush` adds a table, however many there are. -/
theorem l0_flush (e : Engine) : (e.call .flush).1.l0.length =
    if e.memtable.bytesUsed = 0 then e.l0.length else e.l0.length + 1 := by
  rcases e.call_cases .flush with ⟨-, ⟨hsize, hcall⟩ | ⟨hsize, hcall⟩⟩ | ⟨hne, -⟩
  · rw [hcall, if_pos hsize]
  · rw [hcall, if_neg hsize, length_l0_flushMemTable]
  · exact absurd rfl hne

end Count

theorem sized_of_prefix {cs pre : List Call} (h : ∀ c ∈ cs, c.Sized) (hpre : pre <+: cs) :
    ∀ c ∈ pre, c.Sized :=
  fun c hc => h c (hpre.subset hc)

/-- However many writes there are, level 0 outgrows its limit by the number of calls of
`Flush` at most. -/
theorem l0_length_le {cs : List Call} (h : ∀ c ∈ cs, c.Sized) :
    (runCalls cs).l0.length < maxL0Tables + cs.count .flush := by
  induction cs using List.reverseRecOn with
  | nil => decide
  | append_singleton cs c ih =>
      obtain ⟨hcs, hc⟩ := List.forall_mem_append.mp h
      have hlen := ih hcs
      rw [runCalls_snoc, List.count_append]
      by_cases hflush : c = .flush
      · subst hflush
        rw [l0_flush, List.count_singleton_self]
        split_ifs <;> omega
      · rcases l0_write (refines_runCalls_sized hcs) (hc c List.mem_cons_self) hflush with hl0 | hl0
        · omega
        · omega

/-- **The number of tables.** After every call there is one table in level 1 at most, and
there are no more than `maxL0Tables` in level 0 exactly if no `Flush` that has something to
write finds so many there. -/
theorem tables_bounded_iff {cs : List Call} (h : ∀ c ∈ cs, c.Sized) :
    (∀ pre, pre <+: cs →
        (runCalls pre).l0.length ≤ maxL0Tables ∧ (runCalls pre).l1.length ≤ 1) ↔
      ∀ cs₁ cs₂, cs = cs₁ ++ .flush :: cs₂ →
        (runCalls cs₁).memtable.bytesUsed = 0 ∨ (runCalls cs₁).l0.length < maxL0Tables := by
  constructor
  · rintro hbound cs₁ cs₂ rfl
    have hafter := (hbound (cs₁ ++ [.flush]) ⟨cs₂, by simp⟩).1
    rw [runCalls_snoc, l0_flush] at hafter
    split_ifs at hafter with hsize
    · exact Or.inl hsize
    · exact Or.inr hafter
  · intro hroom pre
    induction pre using List.reverseRecOn with
    | nil => exact fun _ => by decide
    | append_singleton pre c ih =>
        rintro ⟨rest, rfl⟩
        have hpre := ih ⟨c :: rest, by simp⟩
        have hsized := sized_of_prefix h ⟨rest, rfl⟩
        refine ⟨?_, (refines_runCalls_sized hsized).l1⟩
        obtain ⟨hcs, hc⟩ := List.forall_mem_append.mp hsized
        rw [runCalls_snoc]
        by_cases hflush : c = .flush
        · subst hflush
          rw [l0_flush]
          split_ifs with hsize
          · exact hpre.1
          · exact (hroom pre rest (by simp)).resolve_left hsize
        · have hwrite := l0_write (refines_runCalls_sized hcs) (hc c List.mem_cons_self) hflush
          rcases hwrite with hl0 | hl0
          · exact hl0 ▸ hpre.1
          · exact hl0.le

/-- Four flushes, and a fifth with nothing to write. -/
theorem tables_bounded_iff_four :
    let cs : List Call := [.put [97] [1], .flush, .delete [97], .flush, .put [98] [2], .flush,
      .put [99] [], .flush, .flush]
    (runCalls cs).l0.length = 4 ∧ ∀ pre, pre <+: cs →
      (runCalls pre).l0.length ≤ maxL0Tables ∧ (runCalls pre).l1.length ≤ 1 := by
  intro cs
  refine ⟨by decide +kernel, (tables_bounded_iff (by decide +kernel)).mpr ?_⟩
  have hall : ∀ cs₁ ∈ cs.inits, (runCalls cs₁).memtable.bytesUsed = 0 ∨
      (runCalls cs₁).l0.length < maxL0Tables := by decide +kernel
  exact fun cs₁ cs₂ hcs => hall cs₁ ((List.mem_inits _ _).mpr ⟨_, hcs.symm⟩)

/-- Five flushes leave five tables. -/
theorem fifth_table :
    let cs : List Call := [.put [97] [1], .flush, .put [97] [2], .flush, .put [97] [3], .flush,
      .put [97] [4], .flush, .put [97] [5], .flush]
    (∀ c ∈ cs, c.Sized) ∧ (runCalls cs).l0.length = 5 ∧ maxL0Tables = 4 := by
  decide +kernel

/-! ## §2  What is left in memory -/

theorem compact_memtable (e : Engine) : e.compact.1.memtable = e.memtable := by
  rw [Engine.compact]
  split
  · rfl
  · dsimp only
    split_ifs <;> rfl

/-- A call leaves an empty memory table, or the one it wrote to. -/
theorem call_memtable (e : Engine) (c : Call) :
    (e.call c).1.memtable = newMemTable ∨
      (e.call c).1.memtable = (e.write c).memtable ∧ (c = .flush → e.memtable.size = 0) := by
  rcases e.call_cases c with ⟨rfl, ⟨hsize, hcall⟩ | ⟨-, hcall⟩⟩ |
    ⟨hne, ⟨-, hcall⟩ | ⟨-, -, hcall⟩ | ⟨-, -, hcall⟩⟩
  · exact Or.inr ⟨by rw [hcall]; rfl, fun _ => hsize⟩
  · exact Or.inl (by rw [hcall]; rfl)
  · exact Or.inr ⟨by rw [hcall], fun hflush => absurd hflush hne⟩
  · exact Or.inl (by rw [hcall]; rfl)
  · exact Or.inl (by rw [hcall, compact_memtable]; rfl)

/-- A call that leaves the counter of an empty memory table at zero. -/
def Call.Unseen (c : Call) : Prop := c = .put [] [] ∨ c = .flush

instance (c : Call) : Decidable c.Unseen := inferInstanceAs (Decidable (_ ∨ _))

/-- Since the memory table was last empty, it got the empty value at the empty key, and
nothing else. -/
def Blank (cs : List Call) : Prop :=
  ∃ cs₁ cs₂, cs = cs₁ ++ cs₂ ∧ (runCalls cs₁).memtable = newMemTable ∧ .put [] [] ∈ cs₂ ∧
    ∀ c ∈ cs₂, c.Unseen

theorem unseen_of_size {e : Engine} {c : Call} (h : (e.write c).memtable.size = 0) :
    c.Unseen ∧ e.memtable.size = 0 := by
  cases c with
  | put key value =>
      have hsum : e.memtable.size + (key.length + value.length) = 0 := h
      have hkey : key = [] := List.eq_nil_of_length_eq_zero (by omega)
      have hvalue : value = [] := List.eq_nil_of_length_eq_zero (by omega)
      exact ⟨Or.inl (by rw [hkey, hvalue]), by omega⟩
  | delete key =>
      have hsum : e.memtable.size + (key.length + tombstone.length) = 0 := h
      have hlen : 0 < tombstone.length := by decide
      omega
  | flush => exact ⟨Or.inr rfl, h⟩

/-- The counter is at zero only if nothing but unseen calls came since the table was
empty. -/
theorem exists_unseen (cs : List Call) (h : (runCalls cs).memtable.size = 0) :
    ∃ cs₁ cs₂, cs = cs₁ ++ cs₂ ∧ (runCalls cs₁).memtable = newMemTable ∧
      (∀ c ∈ cs₂, c.Unseen) ∧ ((runCalls cs).memtable.data ≠ ∅ → .put [] [] ∈ cs₂) := by
  induction cs using List.reverseRecOn with
  | nil => exact ⟨[], [], rfl, rfl, by simp, fun hne => absurd rfl hne⟩
  | append_singleton cs c ih =>
      rw [runCalls_snoc] at h ⊢
      rcases call_memtable (runCalls cs) c with hnew | ⟨hsame, -⟩
      · refine ⟨cs ++ [c], [], by simp, by rw [runCalls_snoc, hnew], by simp, fun hne => ?_⟩
        rw [hnew] at hne
        exact absurd rfl hne
      · rw [hsame] at h ⊢
        obtain ⟨hunseen, hsize⟩ := unseen_of_size h
        obtain ⟨cs₁, cs₂, rfl, hempty, hall, hput⟩ := ih hsize
        refine ⟨cs₁, cs₂ ++ [c], by simp, hempty, ?_, fun hne => ?_⟩
        · simp only [List.mem_append, List.mem_singleton]
          rintro d (hd | rfl)
          · exact hall d hd
          · exact hunseen
        · rcases hunseen with rfl | rfl
          · exact List.mem_append_right _ (List.mem_singleton_self _)
          · exact List.mem_append_left _ (hput hne)

/-- Unseen calls leave the counter of an empty memory table at zero, and the table not
empty once there was a put. -/
theorem unseen_memtable {cs₁ : List Call} (hempty : (runCalls cs₁).memtable = newMemTable)
    (cs₂ : List Call) (h : ∀ c ∈ cs₂, c.Unseen) :
    (runCalls (cs₁ ++ cs₂)).memtable.size = 0 ∧
      (.put [] [] ∈ cs₂ → (runCalls (cs₁ ++ cs₂)).memtable.data ≠ ∅) := by
  induction cs₂ using List.reverseRecOn with
  | nil =>
      rw [List.append_nil, hempty]
      exact ⟨rfl, by simp⟩
  | append_singleton cs₂ c ih =>
      obtain ⟨hcs, hc⟩ := List.forall_mem_append.mp h
      obtain ⟨hsize, hdata⟩ := ih hcs
      rw [← List.append_assoc, runCalls_snoc]
      generalize runCalls (cs₁ ++ cs₂) = e at hsize hdata
      rcases hc c List.mem_cons_self with rfl | rfl
      · -- nothing is flushed: the counter does not move
        have hsmall : (e.write (.put [] [])).memtable.bytesUsed < memTableSizeLimit := by
          show e.memtable.size + 0 < memTableSizeLimit
          rw [hsize]
          decide
        have hmem : (e.call (.put [] [])).1.memtable = e.memtable.put [] [] := by
          rcases e.call_cases (.put [] []) with ⟨hflush, -⟩ |
            ⟨-, ⟨-, hcall⟩ | ⟨hlarge, -⟩ | ⟨hlarge, -⟩⟩
          · cases hflush
          · rw [hcall]
            rfl
          · exact absurd hsmall (not_lt.mpr hlarge)
          · exact absurd hsmall (not_lt.mpr hlarge)
        rw [hmem]
        refine ⟨hsize, fun _ hnone => ?_⟩
        have hlookup : (e.memtable.data.insert [] []).lookup [] = some ([] : Bytes) :=
          Finmap.lookup_insert _
        change e.memtable.data.insert [] [] = ∅ at hnone
        rw [hnone, Finmap.lookup_empty] at hlookup
        cases hlookup
      · have hcall : (e.call .flush).1 = e := by
          show e.flush.1 = e
          rw [Engine.flush]
          exact congrArg Prod.fst (if_pos hsize)
        rw [hcall]
        refine ⟨hsize, fun hmem => hdata ?_⟩
        simpa using hmem

theorem blank_iff {cs : List Call} :
    Blank cs ↔ (runCalls cs).memtable.size = 0 ∧ (runCalls cs).memtable.data ≠ ∅ := by
  constructor
  · rintro ⟨cs₁, cs₂, rfl, hempty, hput, hall⟩
    obtain ⟨hsize, hdata⟩ := unseen_memtable hempty cs₂ hall
    exact ⟨hsize, hdata hput⟩
  · rintro ⟨hsize, hdata⟩
    obtain ⟨cs₁, cs₂, hcs, hempty, hall, hput⟩ := exists_unseen cs hsize
    exact ⟨cs₁, cs₂, hcs, hempty, hput hdata, hall⟩

/-! ## §3  What becomes of the keys -/

/-- The call runs a compaction. -/
def Engine.Compacts (e : Engine) (c : Call) : Prop :=
  c ≠ .flush ∧ memTableSizeLimit ≤ (e.write c).memtable.bytesUsed ∧
    maxL0Tables ≤ e.l0.length + 1

/-- A compaction found the key deleted, and it was not written again. -/
def Dropped (cs : List Call) (key : Bytes) : Prop :=
  ∃ cs₁ c cs₂, cs = cs₁ ++ c :: cs₂ ∧ (runCalls cs₁).Compacts c ∧
    lastWrite (((cs₁ ++ [c]).filterMap Call.write?).map readable) key = some none ∧
    ∀ w ∈ cs₂.filterMap Call.write?, w.key ≠ key

theorem mem_writes_singleton {c : Call} {w : Write Bytes Bytes} :
    w ∈ [c].filterMap Call.write? ↔ w ∈ c.write? := by
  simp

theorem Dropped.snoc {cs : List Call} {key : Bytes} (h : Dropped cs key) {c : Call}
    (hc : ∀ w ∈ c.write?, w.key ≠ key) : Dropped (cs ++ [c]) key := by
  obtain ⟨cs₁, d, cs₂, rfl, hcompacts, hlast, hcs₂⟩ := h
  refine ⟨cs₁, d, cs₂ ++ [c], by simp, hcompacts, hlast, fun w hw => ?_⟩
  rw [List.filterMap_append, List.mem_append] at hw
  rcases hw with hw | hw
  · exact hcs₂ w hw
  · exact hc w (mem_writes_singleton.mp hw)

/-- A call mentions the key it writes and forgets no other. -/
theorem latest_write {e : Engine} {c : Call} {key : Bytes}
    (h : (∃ w ∈ c.write?, w.key = key) ∨ e.latest key ≠ none) : (e.write c).latest key ≠ none := by
  have hinsert : ∀ {k raw : Bytes} {size : ℕ}, k = key ∨ e.latest key ≠ none →
      { e with memtable := { data := e.memtable.data.insert k raw, size } }.latest key ≠ none := by
    intro k raw size hkey
    rw [Engine.latest]
    by_cases hk : key = k
    · subst hk
      rw [Finmap.lookup_insert]
      simp
    · rw [Finmap.lookup_insert_of_ne _ hk]
      exact hkey.resolve_left fun h => hk h.symm
  cases c with
  | put k v => exact hinsert (by simpa [Call.write?] using h)
  | delete k => exact hinsert (by simpa [Call.write?] using h)
  | flush =>
      rw [show e.write .flush = e from rfl]
      simpa [Call.write?] using h

theorem Refines.latest_flushMemTable {e : Engine} {m : Dict Bytes Bytes} (h : Refines e m)
    (key : Bytes) : e.flushMemTable.latest key = e.latest key := by
  obtain ⟨runs, hrep, -⟩ := h
  rw [hrep.flushMemTable.latest, hrep.latest, newest_cons, SortedTable.get_ofDict]
  exact congrArg (Option.or · _) (Finmap.lookup_empty key)

/-- Every key that was written is mentioned, or a compaction found it deleted. -/
theorem latest_or_dropped {cs : List Call} (h : ∀ c ∈ cs, c.Sized) {key : Bytes}
    (hkey : ∃ w ∈ cs.filterMap Call.write?, w.key = key) :
    (runCalls cs).latest key ≠ none ∨ Dropped cs key := by
  induction cs using List.reverseRecOn with
  | nil => simp at hkey
  | append_singleton cs c ih =>
      obtain ⟨hcs, hc⟩ := List.forall_mem_append.mp h
      have hsized := hc c List.mem_cons_self
      have hrefines := (refines_runCalls_sized hcs).write hsized
      by_cases hdropped : Dropped cs key ∧ ∀ w ∈ c.write?, w.key ≠ key
      · exact Or.inr (hdropped.1.snoc hdropped.2)
      · have hwrite : ((runCalls cs).write c).latest key ≠ none := by
          apply latest_write
          by_cases hc' : ∃ w ∈ c.write?, w.key = key
          · exact Or.inl hc'
          · refine Or.inr ((ih hcs ?_).resolve_right fun hd => hdropped ⟨hd, ?_⟩)
            · obtain ⟨w, hw, rfl⟩ := hkey
              rw [List.filterMap_append, List.mem_append] at hw
              exact ⟨w, hw.resolve_right fun hw => hc' ⟨w, mem_writes_singleton.mp hw, rfl⟩, rfl⟩
            · exact fun w hw heq => hc' ⟨w, hw, heq⟩
        rw [runCalls_snoc]
        rcases (runCalls cs).call_cases c with ⟨rfl, ⟨-, hcall⟩ | ⟨-, hcall⟩⟩ |
          ⟨hne, ⟨-, hcall⟩ | ⟨-, -, hcall⟩ | ⟨hlarge, hfull, hcall⟩⟩
        · rw [hcall]
          exact Or.inl hwrite
        · rw [hcall]
          exact Or.inl ((hrefines.latest_flushMemTable key).symm ▸ hwrite)
        · rw [hcall]
          exact Or.inl hwrite
        · rw [hcall]
          exact Or.inl ((hrefines.latest_flushMemTable key).symm ▸ hwrite)
        · -- what a compaction no longer mentions was deleted
          have hlayered := (refines_runCalls_sized h).layered key
          rw [runCalls_snoc, Engine.layered, lookup_applyAll] at hlayered
          by_cases hnone : ((runCalls cs).call c).1.latest key = none
          · refine Or.inr ⟨cs, c, [], rfl, ⟨hne, hlarge, hfull⟩, ?_, by simp⟩
            obtain ⟨w, hw, rfl⟩ := hkey
            have hwritten := lastWrite_ne_none (List.mem_map_of_mem (f := readable) hw)
            obtain ⟨value, hvalue⟩ := Option.ne_none_iff_exists'.mp hwritten
            rw [hnone] at hlayered
            change lastWrite _ w.key = some value at hvalue
            rw [hvalue] at hlayered
            rw [hvalue, ← show none = value from hlayered]
          · exact Or.inl hnone

/-- **`Flush`** returns no error. It leaves the memory table empty unless that got the
empty value at the empty key and nothing else. Then every key written so far is in some
table, or a compaction dropped it as deleted. -/
theorem flush_empties_iff (cs : List Call) :
    let e := (runCalls cs).flush
    e.2 = none ∧ (e.1.memtable.data = ∅ ↔ ¬ Blank cs) ∧
      (¬ Blank cs → (∀ c ∈ cs, c.Sized) → ∀ w ∈ cs.filterMap Call.write?,
        (∃ sst ∈ e.1.l0 ++ e.1.l1, e.1.mention w.key sst ≠ none) ∨ Dropped cs w.key) := by
  intro e
  have hcases : (runCalls cs).memtable.size = 0 ∧ e = (runCalls cs, none) ∨
      (runCalls cs).memtable.size ≠ 0 ∧ e = ((runCalls cs).flushMemTable, none) := by
    rcases (runCalls cs).call_cases .flush with ⟨-, h⟩ | ⟨hne, -⟩
    · exact h
    · exact absurd rfl hne
  have hempty : e.1.memtable.data = ∅ ↔ ¬ Blank cs := by
    rw [blank_iff]
    rcases hcases with ⟨hsize, he⟩ | ⟨hsize, he⟩
    · rw [he]
      simp [hsize]
    · rw [he]
      exact iff_of_true rfl fun h => hsize h.1
  refine ⟨?_, hempty, fun hblank hsized w hw => ?_⟩
  · rcases hcases with ⟨-, he⟩ | ⟨-, he⟩ <;> rw [he]
  · refine (latest_or_dropped hsized ⟨w, hw, rfl⟩).imp_left fun hlatest => ?_
    have hflushed : e.1.latest w.key ≠ none := by
      rcases hcases with ⟨-, he⟩ | ⟨-, he⟩
      · rwa [he]
      · rwa [he, (refines_runCalls_sized hsized).latest_flushMemTable]
    rw [Engine.latest, hempty.mpr hblank, Finmap.lookup_empty, Option.none_or] at hflushed
    obtain ⟨v, hv⟩ := Option.ne_none_iff_exists'.mp hflushed
    obtain ⟨sst, hsst, hmention⟩ := List.exists_of_findSome?_eq_some hv
    refine ⟨sst, ?_, hmention ▸ Option.some_ne_none v⟩
    simpa [or_comm] using hsst

/-- An empty value at the empty key is flushed together with a deletion. -/
theorem flush_empties_iff_deleted :
    let cs : List Call := [.put [] [], .delete [97]]
    let e := (runCalls cs).flush.1
    e.memtable.data = ∅ ∧ ∃ sst ∈ e.l0 ++ e.l1, e.mention [] sst ≠ none := by
  intro cs e
  obtain ⟨-, hempty, hkeys⟩ := flush_empties_iff cs
  have hblank : ¬ Blank cs := by
    rw [blank_iff]
    exact fun h => absurd h.1 (by decide +kernel)
  refine ⟨hempty.mpr hblank,
    (hkeys hblank (by decide +kernel) ⟨[], some []⟩ (by decide +kernel)).resolve_right ?_⟩
  rintro ⟨cs₁, c, cs₂, hcs, hcompacts, -⟩
  have hfew : ∀ cs₁ ∈ cs.inits, (runCalls cs₁).l0.length + 1 < maxL0Tables := by decide +kernel
  exact absurd hcompacts.2.2 (not_le.mpr (hfew cs₁ ((List.mem_inits _ _).mpr ⟨_, hcs.symm⟩)))

/-- The empty value at the empty key alone: `Flush` returns no error and writes nothing. -/
theorem empty_entry_kept :
    let cs : List Call := [.put [] []]
    let e := (runCalls cs).flush
    e.2 = none ∧ e.1.memtable.data.lookup [] = some [] ∧ e.1.l0 = [] ∧ e.1.l1 = [] := by
  decide +kernel

end KVEngine.LSM
