import Mathlib.Data.List.Basic

/-!
# Runs of a partial step function

A system is a partial function `step : S → A → Option S`: an action that is not
enabled has no result. A run is a list of actions, newest last, and `C` is a
condition on the state before each step, for statements about the runs whose
steps all meet a condition.
-/

namespace KVEngine.Foundation

/-- A guarded step was enabled. -/
theorem guard_bind_eq_some {α : Type} {p : Prop} [Decidable p] {f : Unit → Option α}
    {x : α} (h : (guard p >>= f) = some x) : p ∧ f () = some x := by
  by_cases hp : p
  · exact ⟨hp, by simpa [guard, hp] using h⟩
  · simp [guard, hp] at h

variable {S A : Type}

/-- `Run step C s as t`: performing `as` from `s` leads to `t`, and each step
meets `C` in the state it is taken in. -/
inductive Run (step : S → A → Option S) (C : S → A → Prop) (s : S) :
    List A → S → Prop where
  | nil : Run step C s [] s
  | snoc {as : List A} {t u : S} {a : A} (h : Run step C s as t) (hC : C t a)
      (hstep : step t a = some u) : Run step C s (as ++ [a]) u

/-- No condition. -/
def Always : S → A → Prop := fun _ _ => True

instance (s : S) (a : A) : Decidable (Always s a) := inferInstanceAs (Decidable True)

/-- **Invariant rule.** What holds at the start and is kept by every step that
meets the condition holds wherever the run gets. -/
theorem Run.invariant {step : S → A → Option S} {C : S → A → Prop} {s t : S}
    {as : List A} (h : Run step C s as t) {I : S → Prop} (h0 : I s)
    (hstep : ∀ {u v : S} {a : A}, I u → C u a → step u a = some v → I v) : I t := by
  induction h with
  | nil => exact h0
  | snoc _ hC hs ih => exact hstep ih hC hs

/-- A weaker condition, or a step function that agrees where the condition
holds, has the same runs. -/
theorem Run.mono {step step' : S → A → Option S} {C C' : S → A → Prop} {s t : S}
    {as : List A} (h : Run step C s as t)
    (himp : ∀ {u v : S} {a : A}, C u a → step u a = some v →
      C' u a ∧ step' u a = some v) : Run step' C' s as t := by
  induction h with
  | nil => exact Run.nil
  | snoc _ hC hs ih =>
      obtain ⟨hC', hs'⟩ := himp hC hs
      exact ih.snoc hC' hs'

theorem Run.trans {step : S → A → Option S} {C : S → A → Prop} {s t u : S}
    {as bs : List A} (h : Run step C s as t) (h' : Run step C t bs u) :
    Run step C s (as ++ bs) u := by
  induction h' with
  | nil => simpa using h
  | snoc _ hC hs ih =>
      rw [← List.append_assoc]
      exact ih.snoc hC hs

/-- **Projection.** Where every step is at most one step of the component `f`, a run
is a run of the component. -/
theorem Run.project {T B : Type} {step : S → A → Option S} {C : S → A → Prop}
    {step' : T → B → Option T} {C' : T → B → Prop} {s t : S} {as : List A}
    (h : Run step C s as t) (f : S → T) {I : S → Prop} (h0 : I s)
    (hstep : ∀ {u v : S} {a : A}, I u → C u a → step u a = some v →
      I v ∧ (f v = f u ∨ ∃ b, C' (f u) b ∧ step' (f u) b = some (f v))) :
    ∃ bs, Run step' C' (f s) bs (f t) := by
  refine (h.invariant (I := fun u => I u ∧ ∃ bs, Run step' C' (f s) bs (f u)) ?_ ?_).2
  · exact ⟨h0, [], Run.nil⟩
  · rintro u v a ⟨hu, bs, hbs⟩ hC hs
    obtain ⟨hv, hsame | ⟨b, hb, hcomp⟩⟩ := hstep hu hC hs
    · rw [hsame]
      exact ⟨hv, bs, hbs⟩
    · exact ⟨hv, bs ++ [b], hbs.snoc hb hcomp⟩

/-- **Termination.** Where every state is done or has a step that keeps the
invariant and decreases the measure, some run ends in a state that is done, after
at most as many steps as the measure says. -/
theorem Run.exists_of_measure {step : S → A → Option S} {C : S → A → Prop} (μ : S → ℕ)
    {I D : S → Prop}
    (hstep : ∀ u, I u → D u ∨ ∃ a v, C u a ∧ step u a = some v ∧ I v ∧ μ v < μ u) :
    ∀ {s : S}, I s → ∃ as t, Run step C s as t ∧ I t ∧ D t ∧ as.length + μ t ≤ μ s := by
  have hind : ∀ (k : ℕ) (s : S), μ s ≤ k → I s →
      ∃ as t, Run step C s as t ∧ I t ∧ D t ∧ as.length + μ t ≤ μ s := by
    intro k
    induction k with
    | zero =>
        intro s hk hs
        rcases hstep s hs with hD | ⟨a, v, -, -, -, hlt⟩
        · exact ⟨[], s, Run.nil, hs, hD, by simp⟩
        · omega
    | succ k ih =>
        intro s hk hs
        rcases hstep s hs with hD | ⟨a, v, hC, hv, hI, hlt⟩
        · exact ⟨[], s, Run.nil, hs, hD, by simp⟩
        · obtain ⟨as, t, hrun, ht, hD, hlen⟩ := ih v (by omega) hI
          have hone : Run step C s ([] ++ [a]) v := Run.nil.snoc hC hv
          refine ⟨[a] ++ as, t, hone.trans hrun, ht, hD, ?_⟩
          simp only [List.length_append, List.length_singleton]
          omega
  exact fun {s} hs => hind (μ s) s (Nat.le_refl _) hs

/-! ## States on the way -/

/-- `P` holds in some state that the run from `s` to `t` passes. -/
def Sometime (step : S → A → Option S) (C : S → A → Prop) (s : S) (as : List A) (t : S)
    (P : S → Prop) : Prop :=
  ∃ bs cs u, as = bs ++ cs ∧ Run step C s bs u ∧ Run step C u cs t ∧ P u

section Sometime

variable {step : S → A → Option S} {C : S → A → Prop} {s t : S} {as : List A} {P Q : S → Prop}

theorem Run.now (h : Run step C s as t) (hP : P t) : Sometime step C s as t P :=
  ⟨as, [], t, by simp, h, Run.nil, hP⟩

theorem Sometime.snoc {u : S} {a : A} (h : Sometime step C s as t P) (hC : C t a)
    (hstep : step t a = some u) : Sometime step C s (as ++ [a]) u P := by
  obtain ⟨bs, cs, v, rfl, hbs, hcs, hP⟩ := h
  exact ⟨bs, cs ++ [a], v, by simp, hbs, hcs.snoc hC hstep, hP⟩

theorem Sometime.imp (h : Sometime step C s as t P)
    (himp : ∀ {bs cs : List A} {u : S}, Run step C s bs u → Run step C u cs t → P u → Q u) :
    Sometime step C s as t Q := by
  obtain ⟨bs, cs, u, has, hbs, hcs, hP⟩ := h
  exact ⟨bs, cs, u, has, hbs, hcs, himp hbs hcs hP⟩

/-- **What has come to hold did so in some step**, and `P` with it if `P` holds
after every step in which it does. -/
theorem Run.sometime {I : S → Prop} (h : Run step C s as t) (h0 : ¬ I s)
    (hnew : ∀ {u v : S} {a : A}, step u a = some v → I v → I u ∨ P v) (ht : I t) :
    Sometime step C s as t fun u => I u ∧ P u := by
  induction h with
  | nil => exact absurd ht h0
  | snoc hrun hC hs ih =>
      rcases hnew hs ht with hold | hP
      · exact (ih hold).snoc hC hs
      · exact (hrun.snoc hC hs).now ⟨ht, hP⟩

end Sometime

/-! ## Performing actions -/

/-- Performing a list of actions. -/
def exec (step : S → A → Option S) : S → List A → Option S
  | s, [] => some s
  | s, a :: as => (step s a).bind fun t => exec step t as

/-- The steps that meet a decidable condition. -/
def restrict (step : S → A → Option S) (C : S → A → Prop)
    [∀ s a, Decidable (C s a)] (s : S) (a : A) : Option S :=
  if C s a then step s a else none

theorem run_of_exec {step : S → A → Option S} {C : S → A → Prop}
    [∀ s a, Decidable (C s a)] : ∀ {as : List A} {s t : S},
    exec (restrict step C) s as = some t → Run step C s as t
  | [], s, t, h => by
      rw [exec] at h
      rw [← Option.some.inj h]
      exact Run.nil
  | a :: as, s, t, h => by
      rw [exec, Option.bind_eq_some_iff] at h
      obtain ⟨u, hu, hrest⟩ := h
      unfold restrict at hu
      split at hu
      · rename_i hC
        have hone : Run step C s ([] ++ [a]) u := Run.nil.snoc hC hu
        exact hone.trans (run_of_exec hrest)
      · cases hu

/-- Where a list of actions leads; `s` itself if one of them is not enabled. -/
def endState (step : S → A → Option S) (C : S → A → Prop) [∀ s a, Decidable (C s a)]
    (s : S) (as : List A) : S :=
  (exec (restrict step C) s as).getD s

theorem run_endState {step : S → A → Option S} {C : S → A → Prop}
    [∀ s a, Decidable (C s a)] {s : S} {as : List A}
    (h : (exec (restrict step C) s as).isSome = true) :
    Run step C s as (endState step C s as) := by
  obtain ⟨t, ht⟩ := Option.isSome_iff_exists.mp h
  apply run_of_exec
  rw [endState, ht]
  rfl

end KVEngine.Foundation
