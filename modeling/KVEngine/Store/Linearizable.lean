import KVEngine.LinearCheck.Check
import KVEngine.Store.Clients

/-!
# The store is linearizable

A write takes effect when it updates the map and a `Get` when it reads it. The
calls in this order are a linearization of the recorded history, with the calls
that took effect and have not returned completed and the others dropped
(`store_linearizable`); when every call has returned, `Check` accepts the history. A call
that returned an error did nothing to the map and is not recorded.
-/

namespace KVEngine.Store.Clients

open Foundation
open LinearCheck (Op apply check Sequential KeepsRealTime check_ok_iff linearizable_iff_sequential)

variable {I T : Type} [DecidableEq I] [LinearOrder T]

/-! ## §1  The recorded history -/

/-- What `Recorder` notes of a call: `RecordPut`, `RecordDelete` and
`RecordGet`. -/
def Effect.op (start stop : T) : Effect → Op T
  | .wrote (.put key value) _ => ⟨.put, key, value, false, start, stop⟩
  | .wrote (.delete key) _ => ⟨.delete, key, [], false, start, stop⟩
  | .got key result _ => ⟨.get, key, result.getD [], result.isSome, start, stop⟩

def System.history (s : System I T) : List (Op T) :=
  s.returned.map fun r => r.effect.op r.start r.stop

/-- A call that took effect: whose it is, when it began and what it did. -/
structure Point (I T : Type) where
  client : I
  start : T
  effect : Effect
deriving DecidableEq

/-- A call becomes an operation when it returns. -/
def closing : Closing (T := T) Op.startTime Op.endTime apply (Point I T) where
  began p := p.start
  close p t := p.effect.op p.start t
  start_close p t := by
    rcases p with ⟨i, start, ⟨c, pos⟩ | ⟨key, result, seen⟩⟩
    · cases c <;> rfl
    · rfl
  stop_close p t := by
    rcases p with ⟨i, start, ⟨c, pos⟩ | ⟨key, result, seen⟩⟩
    · cases c <;> rfl
    · rfl
  step_close s p t t' := by
    rcases p with ⟨i, start, ⟨c, pos⟩ | ⟨key, result, seen⟩⟩
    · cases c <;> rfl
    · rfl

omit [LinearOrder T] in
theorem apply_wrote (m : Dict Bytes Bytes) (c : Call) (pos : ℕ) (start stop : T) :
    apply m ((Effect.wrote c pos).op start stop) = some (c.write.apply m) := by
  cases c <;> rfl

omit [LinearOrder T] in
/-- A `Get` that reports what the map says fits. -/
theorem apply_got (m : Dict Bytes Bytes) (key : Bytes) (seen : List ℕ) (start stop : T) :
    apply m ((Effect.got key (m.lookup key) seen).op start stop) = some m := by
  rw [apply, Effect.op]
  dsimp only
  cases m.lookup key with
  | none => rfl
  | some v => simp

/-! ## §2  One moment for each call -/

/-- When the call a client is in began. -/
def Pc.start? : Pc T → Option T
  | .idle => none
  | .called start _ => some start
  | .appended start _ _ => some start
  | .synced start _ _ => some start
  | .asked start _ => some start
  | .done start _ => some start

/-- The calls that took effect and have not returned are `ps`. -/
structure Follows (s : System I T) (ps : List (Point I T)) : Prop where
  tracked : Tracked closing s.now ∅ s.data s.history ps
  points : ∀ p, p ∈ ps ↔ s.pc p.client = .done p.start p.effect
  once : (ps.map Point.client).Nodup
  begun : ∀ i, ∀ start ∈ (s.pc i).start?, start ≤ s.now

omit [LinearOrder T] in
theorem points_update {pc : I → Pc T} {ps : List (Point I T)} {i : I} {next : Pc T}
    (h : ∀ p, p ∈ ps ↔ pc p.client = .done p.start p.effect)
    (hold : ∀ start e, pc i ≠ .done start e) (hnew : ∀ start e, next ≠ .done start e)
    (p : Point I T) :
    p ∈ ps ↔ Function.update pc i next p.client = .done p.start p.effect := by
  rw [h p]
  by_cases hi : p.client = i
  · rw [hi, Function.update_self]
    exact ⟨fun hp => absurd hp (hold _ _), fun hp => absurd hp (hnew _ _)⟩
  · rw [Function.update_of_ne hi]

theorem begun_update {pc : I → Pc T} {now : T} {i : I} {next : Pc T}
    (h : ∀ j, ∀ start ∈ (pc j).start?, start ≤ now) (hnext : ∀ start ∈ next.start?, start ≤ now) :
    ∀ j, ∀ start ∈ (Function.update pc i next j).start?, start ≤ now :=
  (Function.forall_update_iff pc fun _ p => ∀ start ∈ p.start?, start ≤ now).mpr
    ⟨hnext, fun j _ => h j⟩

namespace Follows

variable {s s' : System I T} {ps : List (Point I T)} {i : I} {next : Pc T}

/-- A step inside a call that touches neither map nor history. -/
theorem move (h : Follows s ps) (hnow : s'.now = s.now) (hdata : s'.data = s.data)
    (hret : s'.returned = s.returned) (hpc : s'.pc = Function.update s.pc i next)
    (hold : ∀ start e, s.pc i ≠ .done start e) (hnew : ∀ start e, next ≠ .done start e)
    (hbegun : ∀ start ∈ next.start?, start ≤ s.now) : Follows s' ps := by
  refine ⟨?_, ?_, h.once, ?_⟩
  · rw [hnow, hdata, System.history, hret]
    exact h.tracked
  · rw [hpc]
    exact points_update h.points hold hnew
  · rw [hpc, hnow]
    exact begun_update h.begun hbegun

/-- A call takes effect. -/
theorem effect (h : Follows s ps) {start : T} {e : Effect} (hnow : s'.now = s.now)
    (hdata : apply s.data (e.op start s.now) = some s'.data) (hret : s'.returned = s.returned)
    (hpc : s'.pc = Function.update s.pc i (.done start e))
    (hold : ∀ start e, s.pc i ≠ .done start e) (hbegun : start ≤ s.now) :
    Follows s' (ps ++ [⟨i, start, e⟩]) := by
  have hfresh : ∀ p ∈ ps, p.client ≠ i := by
    rintro p hp rfl
    exact hold _ _ ((h.points p).mp hp)
  refine ⟨?_, fun p => ?_, ?_, ?_⟩
  · rw [hnow, System.history, hret]
    exact h.tracked.effect (p := ⟨i, start, e⟩) hbegun hdata
  · rw [hpc, List.mem_append, List.mem_singleton]
    by_cases hi : p.client = i
    · rw [hi, Function.update_self]
      constructor
      · rintro (hp | rfl)
        · exact absurd hi (hfresh p hp)
        · rfl
      · intro hp
        obtain ⟨hstart, heffect⟩ := Pc.done.inj hp
        exact Or.inr (by rw [← hi, hstart, heffect])
    · rw [Function.update_of_ne hi, ← h.points p]
      refine ⟨fun hp => hp.resolve_right ?_, Or.inl⟩
      rintro rfl
      exact hi rfl
  · rw [List.map_append]
    refine List.Nodup.append h.once (List.nodup_singleton _) ?_
    intro j hj hj'
    obtain ⟨p, hp, rfl⟩ := List.mem_map.mp hj
    exact hfresh p hp (List.mem_singleton.mp hj')
  · rw [hpc, hnow]
    refine begun_update h.begun fun t ht => ?_
    cases ht
    exact hbegun

/-- A call that took effect returns. -/
theorem complete {ps₁ ps₂ : List (Point I T)} {start : T} {e : Effect}
    (h : Follows s (ps₁ ++ ⟨i, start, e⟩ :: ps₂)) (hnow : s'.now = s.now)
    (hdata : s'.data = s.data) (hret : s'.returned = s.returned ++ [⟨start, s.now, e⟩])
    (hpc : s'.pc = Function.update s.pc i .idle) : Follows s' (ps₁ ++ ps₂) := by
  have hsub : (ps₁ ++ ps₂).Sublist (ps₁ ++ ⟨i, start, e⟩ :: ps₂) :=
    (List.Sublist.refl _).append (List.sublist_cons_self _ _)
  -- the client has no other call
  have hfresh : ∀ p ∈ ps₁ ++ ps₂, p.client ≠ i := by
    have hnodup := h.once
    rw [List.map_append, List.map_cons, List.nodup_middle, ← List.map_append] at hnodup
    intro p hp hi
    exact (List.nodup_cons.mp hnodup).1 (List.mem_map.mpr ⟨p, hp, hi⟩)
  refine ⟨?_, fun p => ?_, h.once.sublist (hsub.map _), ?_⟩
  · rw [hnow, hdata, System.history, hret, List.map_append]
    exact h.tracked.complete
  · rw [hpc]
    by_cases hi : p.client = i
    · rw [hi, Function.update_self]
      exact ⟨fun hp => absurd hi (hfresh p hp), fun hp => (by cases hp)⟩
    · rw [Function.update_of_ne hi, ← h.points p]
      refine ⟨fun hp => hsub.subset hp, fun hp => ?_⟩
      rcases List.mem_append.mp hp with hp | hp
      · exact List.mem_append_left _ hp
      · rcases List.mem_cons.mp hp with rfl | hp
        · exact absurd rfl hi
        · exact List.mem_append_right _ hp
  · rw [hpc, hnow]
    exact begun_update h.begun fun t ht => (by cases ht)

end Follows

omit [DecidableEq I] in
theorem follows_initial (t : T) : Follows (initial t : System I T) [] := by
  refine ⟨tracked_start closing t ∅, fun p => ⟨fun hp => ?_, fun hp => ?_⟩, List.nodup_nil,
    fun i start hs => ?_⟩
  · cases hp
  · cases hp
  · cases hs

theorem follows_step {s s' : System I T} {ps : List (Point I T)} {a : Action I T}
    (h : Follows s ps) (hstep : step s a = some s') : ∃ ps', Follows s' ps' := by
  -- the client that moves, and when its call began
  have hdone : ∀ {i : I} {pc : Pc T}, s.pc i = pc → (∀ start e, pc ≠ .done start e) →
      ∀ start e, s.pc i ≠ .done start e := by
    rintro i pc rfl hne
    exact hne
  have hbegun : ∀ {i : I} {pc : Pc T} {start : T}, s.pc i = pc → start ∈ pc.start? →
      start ≤ s.now := by
    rintro i pc start rfl hstart
    exact h.begun i start hstart
  cases step_does hstep with
  | tick hle =>
      exact ⟨ps, h.tracked.tick hle, h.points, h.once,
        fun i start hs => (h.begun i start hs).trans hle⟩
  | write c hpc =>
      refine ⟨ps, h.move rfl rfl rfl rfl (hdone hpc (by simp)) (by simp) fun start hs => ?_⟩
      cases hs
      exact le_refl _
  | get key hpc =>
      refine ⟨ps, h.move rfl rfl rfl rfl (hdone hpc (by simp)) (by simp) fun start hs => ?_⟩
      cases hs
      exact le_refl _
  | @append i start c out log ok hpc hlog =>
      refine ⟨ps, h.move rfl rfl rfl rfl (hdone hpc (by simp)) (by cases ok <;> simp)
        fun t hs => ?_⟩
      cases ok with
      | true =>
          cases hs
          exact hbegun hpc rfl
      | false => cases hs
  | @sync i start c pos out log ok hpc hlog =>
      refine ⟨ps, h.move rfl rfl rfl rfl (hdone hpc (by simp)) (by cases ok <;> simp)
        fun t hs => ?_⟩
      cases ok with
      | true =>
          cases hs
          exact hbegun hpc rfl
      | false => cases hs
  | @update i start c pos hpc =>
      exact ⟨_, h.effect rfl (apply_wrote _ _ _ _ _) rfl rfl (hdone hpc (by simp))
        (hbegun hpc rfl)⟩
  | @read i start key hpc =>
      exact ⟨_, h.effect rfl (apply_got _ _ _ _ _) rfl rfl (hdone hpc (by simp))
        (hbegun hpc rfl)⟩
  | @ret i start e hpc =>
      obtain ⟨ps₁, ps₂, rfl⟩ := List.append_of_mem ((h.points ⟨i, start, e⟩).mpr hpc)
      exact ⟨_, h.complete rfl rfl rfl rfl⟩

theorem follows_run {t : T} {as : List (Action I T)} {s : System I T}
    (hrun : Run step Always (initial t) as s) : ∃ ps, Follows s ps := by
  refine hrun.invariant (I := fun s => ∃ ps, Follows s ps) ⟨[], follows_initial t⟩ ?_
  rintro u v a ⟨ps, h⟩ - hstep
  exact follows_step h hstep

/-! ## §3  Linearizability -/

/-- **Linearizability.** In every state reached, the calls that returned, with
some calls in progress completed now (at most one for each client) and the others
dropped, have an order that is sequential for a map starting empty and keeps real
time. If no call is in progress, `Check` accepts the recorded history. -/
theorem store_linearizable {t : T} {as : List (Action I T)} {s : System I T}
    (hrun : Run step Always (initial t) as s) :
    (∃ ps : List (Point I T), (ps.map Point.client).Nodup ∧
      (∀ p ∈ ps, s.pc p.client = .done p.start p.effect) ∧
      ∃ l : List (Op T), l.Perm (s.history ++ ps.map fun p => p.effect.op p.start s.now) ∧
        Sequential ∅ l ∧ KeepsRealTime l) ∧
      ((∀ i, s.pc i = .idle) → check s.history = .ok ()) := by
  obtain ⟨ps, h⟩ := follows_run hrun
  refine ⟨⟨ps, h.once, fun p hp => (h.points p).mp hp,
    (linearizable_iff_sequential h.tracked.start_le_stop).mp h.tracked.linearizable⟩, ?_⟩
  intro hidle
  obtain rfl : ps = [] := by
    refine List.eq_nil_iff_forall_not_mem.mpr fun p hp => ?_
    have := (h.points p).mp hp
    rw [hidle] at this
    cases this
  have hlin := h.tracked.linearizable
  have htime := h.tracked.start_le_stop
  rw [List.map_nil, List.append_nil] at hlin htime
  exact (check_ok_iff htime).mpr hlin

/-- Two writes of one key whose updates overtake each other, with a `Get` between
them. -/
theorem store_linearizable_overtaking :
    let as : List (Action (Fin 3) ℕ) :=
      [.write 0 (.put [97] [1]), .tick 1, .write 1 (.put [97] [2]), .append 0 (.ok 0),
        .append 1 (.ok 0), .sync 0 .ok, .sync 1 .ok, .update 1, .tick 2, .get 2 [97], .read 2,
        .update 0, .tick 3, .ret 0, .ret 1, .tick 4, .ret 2]
    let s := endState step Always (initial 0) as
    s.history = [⟨.put, [97], [1], false, 0, 3⟩, ⟨.put, [97], [2], false, 1, 3⟩,
        ⟨.get, [97], [2], true, 2, 4⟩] ∧
      check s.history = .ok () := by
  intro as s
  have hrun : Run step Always (initial 0) as s := run_endState (by decide +kernel)
  exact ⟨by decide +kernel, (store_linearizable hrun).2 (by decide +kernel)⟩

end KVEngine.Store.Clients
