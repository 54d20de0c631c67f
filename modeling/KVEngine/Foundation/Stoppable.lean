import Mathlib.Data.Option.Basic

/-!
# Programs that can stop

A program works on a state that outlives it, such as the files of a process, and may
stop at any operation. `Meets P c Q R` says what holds when it returns (`Q`) and what
holds of the state it leaves behind when it is stopped (`R`): from a state with `P`,
the program ends in one of the two.
-/

namespace KVEngine.Foundation

/-- How a program ends: with a value, or because it is stopped. -/
inductive Ending (α : Type) : Type where
  | returned (a : α)
  | stopped
deriving DecidableEq

/-- A program on states `σ`; `none` is a program that fails. -/
def Stoppable (σ α : Type) : Type := σ → Option (Ending α × σ)

namespace Stoppable

variable {σ α β : Type}

/-- What comes next is not run when the program has been stopped. -/
def next (c : Stoppable σ α) (f : α → Stoppable σ β) : Stoppable σ β := fun s =>
  (c s).bind fun
    | (.returned a, s') => f a s'
    | (.stopped, s') => some (.stopped, s')

instance instMonad : Monad (Stoppable σ) where
  pure a := fun s => some (.returned a, s)
  bind := next

/-- A computation that does not touch the state. -/
def lift (x : Option α) : Stoppable σ α := fun s => x.map fun a => (.returned a, s)

def Meets (P : σ → Prop) (c : Stoppable σ α) (Q : α → σ → Prop) (R : σ → Prop) : Prop :=
  ∀ s, P s → ∀ e s', c s = some (e, s') →
    match e with
    | .returned a => Q a s'
    | .stopped => R s'

variable {P : σ → Prop} {Q : α → σ → Prop} {R : σ → Prop} {c : Stoppable σ α}

theorem meets_pure {a : α} (h : ∀ s, P s → Q a s) : Meets P (pure a) Q R := by
  intro s hs e s' hrun
  cases hrun
  exact h s hs

theorem meets_lift {x : Option α} (h : ∀ a, x = some a → ∀ s, P s → Q a s) :
    Meets P (lift x) Q R := by
  intro s hs e s' hrun
  obtain ⟨a, ha, heq⟩ := Option.map_eq_some_iff.mp hrun
  cases heq
  exact h a ha s hs

/-- **Sequence.** Being stopped in either part is being stopped. -/
theorem Meets.bind {Q' : β → σ → Prop} {f : α → Stoppable σ β} (h : Meets P c Q R)
    (hf : ∀ a, Meets (Q a) (f a) Q' R) : Meets P (c >>= f) Q' R := by
  intro s hs e s' hrun
  obtain ⟨⟨e₁, s₁⟩, hfirst, hrest⟩ := Option.bind_eq_some_iff.mp hrun
  have hmid := h s hs e₁ s₁ hfirst
  cases e₁ with
  | returned a => exact hf a s₁ hmid e s' hrest
  | stopped =>
      cases hrest
      exact hmid

theorem Meets.imp {P' : σ → Prop} {Q' : α → σ → Prop} {R' : σ → Prop} (h : Meets P c Q R)
    (hP : ∀ s, P' s → P s) (hQ : ∀ a s, Q a s → Q' a s) (hR : ∀ s, R s → R' s) :
    Meets P' c Q' R' := by
  intro s hs e s' hrun
  have hend := h s (hP s hs) e s' hrun
  cases e with
  | returned a => exact hQ a s' hend
  | stopped => exact hR s' hend

end Stoppable

end KVEngine.Foundation
