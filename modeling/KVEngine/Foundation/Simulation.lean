import KVEngine.Foundation.Run
import Mathlib.Data.Option.Basic

/-!
# Partial computations and simulation

A computation written with `bind` and `guard` has a result when its parts have
one. Two partial computations go in step when both have a result, and the results are
related, or neither has one: Mathlib's `Option.Rel`. Computations written with
`bind`, `guard` and `if` go in step when their parts do.

From single steps to runs: a system whose steps are each matched by a step of
another, or skipped, has its runs matched by runs of the other without the
skipped actions.
-/

namespace KVEngine.Foundation

/-! ## §1  Results -/

section Results

variable {α β : Type}

theorem bind_isSome {x : Option α} {f : α → Option β} (hx : ∃ a, x = some a)
    (hf : ∀ a, x = some a → ∃ b, f a = some b) : ∃ b, x >>= f = some b := by
  obtain ⟨a, rfl⟩ := hx
  exact hf a rfl

theorem some_bind_isSome {x : Option α} {a : α} {f : α → Option β} (hx : x = some a)
    (hf : ∃ b, f a = some b) : ∃ b, x >>= f = some b := by
  rw [hx]
  exact hf

theorem guard_isSome {p : Prop} [Decidable p] {f : Unit → Option β} (hp : p)
    (hf : ∃ b, f () = some b) : ∃ b, (guard p >>= f) = some b :=
  some_bind_isSome (by simp [guard, hp]) hf

end Results

/-! ## §2  In step -/

section InStep

variable {α β γ δ : Type} {R : α → β → Prop} {S : γ → δ → Prop}

theorem rel_mono {R' : α → β → Prop} {x : Option α} {y : Option β} (h : Option.Rel R x y)
    (hR : ∀ a b, R a b → R' a b) : Option.Rel R' x y := by
  cases h with
  | some hab => exact .some (hR _ _ hab)
  | none => exact .none

theorem rel_bind {x : Option α} {y : Option β} {f : α → Option γ} {g : β → Option δ}
    (h : Option.Rel R x y) (hf : ∀ a b, R a b → Option.Rel S (f a) (g b)) :
    Option.Rel S (x >>= f) (y >>= g) := by
  cases h with
  | some hab => exact hf _ _ hab
  | none => exact .none

/-- Both go on from the same value. -/
theorem rel_bind_same {x : Option α} {f : α → Option γ} {g : α → Option δ}
    (hf : ∀ a, x = some a → Option.Rel S (f a) (g a)) :
    Option.Rel S (x >>= f) (x >>= g) := by
  cases x with
  | some a => exact hf a rfl
  | none => exact .none

theorem rel_guard {p q : Prop} [Decidable p] [Decidable q] {f : Unit → Option γ}
    {g : Unit → Option δ} (hpq : p ↔ q) (hf : p → Option.Rel S (f ()) (g ())) :
    Option.Rel S (guard p >>= f) (guard q >>= g) := by
  by_cases hp : p
  · simpa [guard, hp, hpq.mp hp] using hf hp
  · have hq : ¬ q := fun hq => hp (hpq.mpr hq)
    simp [guard, hp, hq]

theorem rel_ite {p q : Prop} [Decidable p] [Decidable q] {x x' : Option α}
    {y y' : Option β} (hpq : p ↔ q) (hx : p → Option.Rel R x y)
    (hx' : ¬ p → Option.Rel R x' y') :
    Option.Rel R (if p then x else x') (if q then y else y') := by
  by_cases hp : p
  · rw [if_pos hp, if_pos (hpq.mp hp)]
    exact hx hp
  · rw [if_neg hp, if_neg fun hq => hp (hpq.mpr hq)]
    exact hx' hp

theorem rel_of_some {x : Option α} {y : Option β} {a : α} (h : Option.Rel R x y)
    (ha : x = some a) : ∃ b, y = some b ∧ R a b := by
  cases h with
  | some hab =>
      cases ha
      exact ⟨_, rfl, hab⟩
  | none => cases ha

theorem rel_isSome {x : Option α} {y : Option β} (h : Option.Rel R x y)
    (hy : ∃ b, y = some b) : ∃ a, x = some a := by
  cases h with
  | some _ => exact ⟨_, rfl⟩
  | none => exact absurd hy (by simp)

end InStep

/-! ## §3  Runs -/

/-- **Simulation.** `skip` tells the actions that the second system leaves
out. -/
theorem Run.simulate {S T A : Type} {step : S → A → Option S} {step' : T → A → Option T}
    {C : S → A → Prop} {C' : T → A → Prop} {R : S → T → Prop} {skip : A → Bool}
    {s s' : S} {t : T} {as : List A} (h : Run step C s as s') (hst : R s t)
    (hskip : ∀ {u u' v a}, R u v → C u a → step u a = some u' → skip a = true → R u' v)
    (hmatch : ∀ {u u' v a}, R u v → C u a → step u a = some u' → skip a = false →
      ∃ v', C' v a ∧ step' v a = some v' ∧ R u' v') :
    ∃ t', Run step' C' t (as.filter fun a => !skip a) t' ∧ R s' t' := by
  induction h with
  | nil => exact ⟨t, Run.nil, hst⟩
  | @snoc as u u' a _ hC hs ih =>
      obtain ⟨v, hv, huv⟩ := ih
      rw [List.filter_append]
      cases ha : skip a with
      | true =>
          refine ⟨v, ?_, hskip huv hC hs ha⟩
          simpa [ha] using hv
      | false =>
          obtain ⟨v', hC', hs', hR⟩ := hmatch huv hC hs ha
          refine ⟨v', ?_, hR⟩
          simpa [ha] using hv.snoc hC' hs'

/-- **Stuttering simulation.** Where every step is matched by a step of the other system or by
none, every run is. -/
theorem Run.stutter {S T A B : Type} {step : S → A → Option S} {step' : T → B → Option T}
    {C : S → A → Prop} {C' : T → B → Prop} {R : S → T → Prop} {s s' : S} {t : T} {as : List A}
    (h : Run step C s as s') (hst : R s t)
    (hmatch : ∀ {u u' v a}, R u v → C u a → step u a = some u' →
      R u' v ∨ ∃ b v', C' v b ∧ step' v b = some v' ∧ R u' v') :
    ∃ bs t', Run step' C' t bs t' ∧ R s' t' := by
  induction h with
  | nil => exact ⟨[], t, Run.nil, hst⟩
  | snoc _ hC hs ih =>
      obtain ⟨bs, v, hv, huv⟩ := ih
      rcases hmatch huv hC hs with hsame | ⟨b, v', hC', hs', hR⟩
      · exact ⟨bs, v, hv, hsame⟩
      · exact ⟨bs ++ [b], v', hv.snoc hC' hs', hR⟩

end KVEngine.Foundation
