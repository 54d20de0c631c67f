import KVEngine.Foundation.Run
import KVEngine.Store.Store

/-!
# Concurrent callers

`Put` and `Delete` take three atomic steps: `Append` and `Sync` under the log's
mutex, then the map update under the store's. Nothing keeps the second mutex in
the order of the first, so of two calls on one key the earlier in the log can be
the later in the map (`overtaken_update`), and the running store then disagrees
with every replay of its log.

What is true: when no call updates the map after a call on the same key that
stands behind it in the log, memory and log agree at rest (`memory_agrees`).
-/

namespace KVEngine.Store.Concurrent

open Foundation
open WAL (encode encodeBody maxBodySize framing replay openLog Record)

/-! ## §1  Steps -/

/-- Where a client is in its call. `pos` is the place of the call's record among
those appended; the code does not keep it. -/
inductive Pc : Type where
  | idle
  | appended (c : Call) (pos : ℕ)
  | synced (c : Call) (pos : ℕ)
deriving DecidableEq

/-- The call a client is in, with its place in the log. -/
def Pc.call? : Pc → Option (Call × ℕ)
  | idle => none
  | appended c pos => some (c, pos)
  | synced c pos => some (c, pos)

structure State (I : Type) where
  store : Store
  pc : I → Pc
  /-- The calls appended so far and the places of those that updated the map, for
  stating orders. -/
  order : List Call
  applied : List ℕ

inductive Action (I : Type) : Type where
  | append (i : I) (c : Call)
  | sync (i : I)
  | update (i : I)
deriving DecidableEq

variable {I : Type} [DecidableEq I]

def initial (file : Bytes) : State I :=
  { store := openStore file, pc := fun _ => .idle, order := [], applied := [] }

def step (s : State I) : Action I → Option (State I)
  | .append i c =>
      match s.pc i with
      | .idle => some
          { s with
            store := { s.store with log := s.store.log.append c.record }
            pc := Function.update s.pc i (.appended c s.order.length)
            order := s.order ++ [c] }
      | _ => none
  | .sync i =>
      match s.pc i with
      | .appended c pos => some
          { s with
            store := { s.store with log := s.store.log.sync }
            pc := Function.update s.pc i (.synced c pos) }
      | _ => none
  | .update i =>
      match s.pc i with
      | .synced c pos => some
          { s with
            store := { s.store with data := c.write.apply s.store.data }
            pc := Function.update s.pc i .idle
            applied := s.applied ++ [pos] }
      | _ => none

/-- Uninterrupted, the three steps are the sequential call. -/
theorem exec_call {s : State I} {i : I} (h : s.pc i = .idle) (c : Call) :
    (exec step s [.append i c, .sync i, .update i]).map State.store =
      some (s.store.call c) := by
  cases c <;> simp [exec, step, h, call, put, delete, Call.record, Call.write, Write.apply]

/-- Two clients write one key; the one behind in the log updates the map first.
At rest the map says 1 and the log says 2. -/
theorem overtaken_update :
    let as : List (Action (Fin 2)) :=
      [.append 0 (.put [97] [1]), .append 1 (.put [97] [2]), .sync 0, .sync 1,
        .update 1, .update 0]
    let s := endState step Always (initial []) as
    Run step Always (initial []) as s ∧ (∀ i, s.pc i = .idle) ∧
      s.store.get [97] = some [1] ∧ (openStore s.store.log.file).get [97] = some [2] ∧
      s.store.data ≠ (openStore s.store.log.file).data := by
  refine ⟨run_endState (by decide +kernel), by decide +kernel, by decide +kernel,
    by decide +kernel, fun h => ?_⟩
  have hl := congrArg (Finmap.lookup [97]) h
  revert hl
  decide +kernel

/-! ## §2  Updates in log order -/

/-- Bodies of at most 32 MiB, and no update after one to the same key whose
record stands later in the log. -/
def InOrder (s : State I) : Action I → Prop
  | .append _ c => (encodeBody c.record).length ≤ maxBodySize
  | .sync _ => True
  | .update i =>
      ∀ p ∈ (s.pc i).call?, ∀ q ∈ s.applied, p.2 < q →
        ∀ d ∈ s.order[q]?, d.write.key ≠ p.1.write.key

instance (s : State I) (a : Action I) : Decidable (InOrder s a) :=
  match a with
  | .append _ _ => inferInstanceAs (Decidable (_ ≤ _))
  | .sync _ => inferInstanceAs (Decidable True)
  | .update _ => inferInstanceAs (Decidable (∀ p ∈ _, _))

/-- What a step can do. -/
theorem step_cases {s s' : State I} {a : Action I} (h : step s a = some s') :
    (∃ i c, a = .append i c ∧ s.pc i = .idle ∧
      s' = { s with
        store := { s.store with log := s.store.log.append c.record }
        pc := Function.update s.pc i (.appended c s.order.length)
        order := s.order ++ [c] }) ∨
    (∃ i c pos, a = .sync i ∧ s.pc i = .appended c pos ∧
      s' = { s with
        store := { s.store with log := s.store.log.sync }
        pc := Function.update s.pc i (.synced c pos) }) ∨
    (∃ i c pos, a = .update i ∧ s.pc i = .synced c pos ∧
      s' = { s with
        store := { s.store with data := c.write.apply s.store.data }
        pc := Function.update s.pc i .idle
        applied := s.applied ++ [pos] }) := by
  cases a with
  | append i c =>
      rw [step] at h
      split at h
      · rename_i hpc
        exact Or.inl ⟨i, c, rfl, hpc, (Option.some.inj h).symm⟩
      · cases h
  | sync i =>
      rw [step] at h
      split at h
      · rename_i c pos hpc
        exact Or.inr (Or.inl ⟨i, c, pos, rfl, hpc, (Option.some.inj h).symm⟩)
      · cases h
  | update i =>
      rw [step] at h
      split at h
      · rename_i c pos hpc
        exact Or.inr (Or.inr ⟨i, c, pos, rfl, hpc, (Option.some.inj h).symm⟩)
      · cases h

/-- The log file holds the records `rs` it was opened with and those appended. -/
structure Logged (rs : List Record) (s : State I) : Prop where
  bytes : s.store.log.file ++ s.store.log.pending =
    framing.frames (rs ++ s.order.map Call.record)
  valid : ∀ r ∈ rs ++ s.order.map Call.record, framing.Valid r
  durable : s.store.log.durableOff = s.store.log.file.length
  counted : s.store.log.pendingBytes = s.store.log.pending.length
  flushed : (∀ i c pos, s.pc i ≠ .appended c pos) → s.store.log.pending = []

/-- Every appended call has updated the map or is still in progress. -/
structure Placed (pc : I → Pc) (order : List Call) (applied : List ℕ) : Prop where
  held : ∀ i c pos, (pc i).call? = some (c, pos) → order[pos]? = some c
  bound : ∀ p ∈ applied, p < order.length
  covered : ∀ p < order.length, p ∈ applied ∨ ∃ i c, (pc i).call? = some (c, p)

namespace Placed

variable {pc : I → Pc} {order : List Call} {applied : List ℕ}

omit [DecidableEq I] in
theorem ne_of_idle {i j : I} {p : Call × ℕ} (hpc : pc i = .idle)
    (hj : (pc j).call? = some p) : j ≠ i := by
  rintro rfl
  rw [hpc] at hj
  cases hj

theorem append (h : Placed pc order applied) {i : I} (hpc : pc i = .idle) (c : Call) :
    Placed (Function.update pc i (.appended c order.length)) (order ++ [c]) applied := by
  refine ⟨fun j d q hj => ?_, fun p hp => ?_, fun p hp => ?_⟩
  · by_cases hij : j = i
    · subst hij
      rw [Function.update_self] at hj
      cases hj
      exact List.getElem?_concat_length
    · rw [Function.update_of_ne hij] at hj
      have hq := h.held j d q hj
      rw [List.getElem?_append_left (List.getElem?_eq_some_iff.mp hq).1, hq]
  · rw [List.length_append]
    exact Nat.lt_add_right _ (h.bound p hp)
  · rw [List.length_append] at hp
    rcases Nat.lt_succ_iff_lt_or_eq.mp hp with hp | rfl
    · refine (h.covered p hp).imp_right fun ⟨j, d, hj⟩ => ⟨j, d, ?_⟩
      rw [Function.update_of_ne (ne_of_idle hpc hj), hj]
    · refine Or.inr ⟨i, c, ?_⟩
      rw [Function.update_self]
      rfl

/-- `Sync` moves the client on but keeps its call and place. -/
theorem sync (h : Placed pc order applied) {i : I} {c : Call} {pos : ℕ}
    (hpc : pc i = .appended c pos) :
    Placed (Function.update pc i (.synced c pos)) order applied := by
  have hcall : ∀ j, (Function.update pc i (.synced c pos) j).call? = (pc j).call? := by
    intro j
    by_cases hij : j = i
    · subst hij
      rw [Function.update_self, hpc]
      rfl
    · rw [Function.update_of_ne hij]
  refine ⟨fun j d q hj => h.held j d q ((hcall j).symm.trans hj), h.bound, fun p hp => ?_⟩
  exact (h.covered p hp).imp_right fun ⟨j, d, hj⟩ => ⟨j, d, (hcall j).trans hj⟩

theorem update (h : Placed pc order applied) {i : I} {c : Call} {pos : ℕ}
    (hpc : pc i = .synced c pos) :
    Placed (Function.update pc i .idle) order (applied ++ [pos]) := by
  refine ⟨fun j d q hj => ?_, fun p hp => ?_, fun p hp => ?_⟩
  · by_cases hij : j = i
    · subst hij
      rw [Function.update_self] at hj
      cases hj
    · rw [Function.update_of_ne hij] at hj
      exact h.held j d q hj
  · rcases List.mem_append.mp hp with hp | hp
    · exact h.bound p hp
    · rw [List.mem_singleton.mp hp]
      exact (List.getElem?_eq_some_iff.mp (h.held i c pos (by rw [hpc]; rfl))).1
  · rcases h.covered p hp with hp | ⟨j, d, hj⟩
    · exact Or.inl (List.mem_append_left _ hp)
    · by_cases hij : j = i
      · subst hij
        rw [hpc] at hj
        cases hj
        exact Or.inl (List.mem_append_right _ (List.mem_singleton_self _))
      · exact Or.inr ⟨j, d, by rw [Function.update_of_ne hij, hj]⟩

end Placed

theorem logged_step {rs : List Record} {s s' : State I} {a : Action I}
    (h : Logged rs s) (hC : InOrder s a) (hstep : step s a = some s') : Logged rs s' := by
  obtain ⟨hbytes, hvalid, hdurable, hcounted, hflushed⟩ := h
  rcases step_cases hstep with ⟨i, c, rfl, -, rfl⟩ | ⟨i, c, pos, rfl, -, rfl⟩ |
    ⟨i, c, pos, rfl, hpc, rfl⟩
  · refine ⟨?_, ?_, hdurable, ?_, fun hnone => ?_⟩
    · show s.store.log.file ++ (s.store.log.pending ++ encode c.record) = _
      rw [← List.append_assoc, hbytes, List.map_append, ← List.append_assoc,
        Framing.frames_append (rs ++ _)]
      show _ = _ ++ (encode c.record ++ [])
      rw [List.append_nil]
    · intro r hr
      rw [List.map_append, ← List.append_assoc] at hr
      rcases List.mem_append.mp hr with hr | hr
      · exact hvalid r hr
      · rw [List.mem_singleton.mp hr]
        exact hC
    · show s.store.log.pendingBytes + _ = _
      rw [hcounted]
      exact List.length_append.symm
    · exact absurd (Function.update_self i _ s.pc) (hnone i c _)
  · refine ⟨?_, hvalid, ?_, rfl, fun _ => rfl⟩
    · show s.store.log.file ++ s.store.log.pending ++ [] = _
      rw [List.append_nil, hbytes]
    · show s.store.log.durableOff + s.store.log.pendingBytes = _
      rw [hdurable, hcounted]
      exact List.length_append.symm
  · refine ⟨hbytes, hvalid, hdurable, hcounted, fun hnone => hflushed fun j d q hj => ?_⟩
    have hij : j ≠ i := by
      rintro rfl
      rw [hpc] at hj
      cases hj
    exact hnone j d q ((Function.update_of_ne hij _ _).trans hj)

theorem placed_step {s s' : State I} {a : Action I} (h : Placed s.pc s.order s.applied)
    (hstep : step s a = some s') : Placed s'.pc s'.order s'.applied := by
  rcases step_cases hstep with ⟨i, c, -, hpc, rfl⟩ | ⟨i, c, pos, -, hpc, rfl⟩ |
    ⟨i, c, pos, -, hpc, rfl⟩
  · exact h.append hpc c
  · exact h.sync hpc
  · exact h.update hpc

/-- The map follows the log as long as updates come in its order. -/
theorem reflects_step {base : Dict Bytes Bytes} {s s' : State I} {a : Action I}
    (h : Reflects base (s.order.map Call.write) s.applied s.store.data)
    (hplaced : Placed s.pc s.order s.applied)
    (hC : InOrder s a) (hstep : step s a = some s') :
    Reflects base (s'.order.map Call.write) s'.applied s'.store.data := by
  rcases step_cases hstep with ⟨i, c, rfl, -, rfl⟩ | ⟨i, c, pos, rfl, -, rfl⟩ |
    ⟨i, c, pos, rfl, hpc, rfl⟩
  · rw [List.map_append]
    refine h.log (fun p hp => ?_) c.write
    rw [List.length_map]
    exact hplaced.bound p hp
  · exact h
  · have hcall : (s.pc i).call? = some (c, pos) := by rw [hpc]; rfl
    refine h.come (p := pos) ?_ fun q hq hlt u hu => ?_
    · rw [List.getElem?_map, hplaced.held i c pos hcall]
      rfl
    · rw [List.getElem?_map, Option.map_eq_some_iff] at hu
      obtain ⟨d, hd, rfl⟩ := hu
      exact hC (c, pos) hcall q hq hlt d hd

/-! ## §3  At rest -/

/-- Log, clients and map of a store opened on the records `rs`. -/
structure Consistent (rs : List Record) (s : State I) : Prop where
  logged : Logged rs s
  placed : Placed s.pc s.order s.applied
  memory : Reflects (rs.foldl applyRecord ∅) (s.order.map Call.write) s.applied s.store.data

omit [DecidableEq I] in
theorem consistent_initial {rs : List Record} (hrs : ∀ r ∈ rs, framing.Valid r) :
    Consistent rs (initial (framing.frames rs) : State I) := by
  have hopen : replay (framing.frames rs) = rs := by
    have := Framing.parseAll_torn hrs (Or.inl rfl)
    rwa [List.append_nil] at this
  refine ⟨⟨?_, ?_, rfl, rfl, fun _ => rfl⟩, ⟨?_, ?_, ?_⟩, ?_⟩
  · simp [initial, openStore, openLog]
  · simpa [initial] using hrs
  · intro i c pos h
    cases h
  · intro p hp
    cases hp
  · intro p hp
    exact absurd hp (Nat.not_lt_zero p)
  · show Reflects _ [] [] ((replay (framing.frames rs)).foldl applyRecord ∅)
    rw [hopen]
    exact reflects_base _ _

theorem consistent_run {rs : List Record} (hrs : ∀ r ∈ rs, framing.Valid r)
    {as : List (Action I)} {s : State I}
    (hrun : Run step InOrder (initial (framing.frames rs)) as s) : Consistent rs s :=
  hrun.invariant (consistent_initial hrs) fun h hC hs =>
    ⟨logged_step h.logged hC hs, placed_step h.placed hs,
      reflects_step h.memory h.placed hC hs⟩

/-- **Memory agrees with the log.** Opened on whole records, and with updates in
log order, at rest everything is fsynced and the map is the one a replay of the
file gives. -/
theorem memory_agrees {rs : List Record} (hrs : ∀ r ∈ rs, framing.Valid r)
    {as : List (Action I)} {s : State I}
    (hrun : Run step InOrder (initial (framing.frames rs)) as s)
    (hrest : ∀ i, s.pc i = .idle) :
    s.store.data = (openStore s.store.log.file).data ∧
      replay s.store.log.file = rs ++ s.order.map Call.record ∧
      s.store.log.durableOff = s.store.log.file.length := by
  obtain ⟨hlogged, hplaced, hmem⟩ := consistent_run hrs hrun
  have hpending : s.store.log.pending = [] := by
    refine hlogged.flushed fun i c pos h => ?_
    rw [hrest i] at h
    cases h
  have hreplay : replay s.store.log.file = rs ++ s.order.map Call.record := by
    have hbytes := hlogged.bytes
    rw [hpending] at hbytes
    have := Framing.parseAll_torn hlogged.valid (Or.inl rfl)
    rw [← hbytes, List.append_nil, List.append_nil] at this
    exact this
  have hall : ∀ p < (s.order.map Call.write).length, p ∈ s.applied := by
    intro p hp
    rw [List.length_map] at hp
    rcases hplaced.covered p hp with hp | ⟨i, c, h⟩
    · exact hp
    · rw [hrest i] at h
      cases h
  refine ⟨?_, hreplay, hlogged.durable⟩
  show _ = (replay s.store.log.file).foldl applyRecord ∅
  rw [hreplay, List.foldl_append, foldl_applyRecord]
  exact hmem.complete hall

/-- Two clients on one key and one on another, interleaved, with the two updates
in log order. -/
theorem memory_agrees_pair :
    let rs : List Record := [(Call.put [99] [0]).record]
    let as : List (Action (Fin 3)) :=
      [.append 0 (.put [97] [1]), .append 1 (.put [97] [2]), .append 2 (.delete [99]), .sync 2,
        .update 2, .sync 0, .update 0, .sync 1, .update 1]
    let s := endState step InOrder (initial (framing.frames rs)) as
    s.store.data = (openStore s.store.log.file).data ∧
      s.store.get [97] = some [2] ∧ s.store.get [99] = none := by
  intro rs as s
  have hrun : Run step InOrder (initial (framing.frames rs)) as s :=
    run_endState (by decide +kernel)
  exact ⟨(memory_agrees (by decide +kernel) hrun (by decide +kernel)).1,
    by decide +kernel, by decide +kernel⟩

end KVEngine.Store.Concurrent
