import KVEngine.Foundation.LogPreservation

/-!
# Leader-based replicated logs — what stays

A node that holds a safe prefix keeps it: its log changes when it leads and appends,
or when it splices in a segment of its term's leader, and that leader's log has the
prefix too.
-/

namespace KVEngine.Foundation.ReplicatedLog

section Stability

variable {N E : Type} {Γ : Params N E} {s s' : State N E} {P : List E} {U : ℕ} {i : N}

theorem step_term_le [DecidableEq N] (h : Step Γ s s') (i : N) : s.term i ≤ s'.term i := by
  cases h with
  | adopt j T hT =>
      rcases eq_or_ne i j with rfl | hj
      · simpa using hT
      · simp [Function.update_of_ne hj]
  | campaign j =>
      rcases eq_or_ne i j with rfl | hj
      · simp
      · simp [Function.update_of_ne hj]
  | _ => exact le_rfl

/-- **One step keeps a safe prefix** in the log of whoever holds it, in its term or a
later one. -/
theorem Safe.held_step [DecidableEq N] (hi : Inv Γ s) (h : Step Γ s s') (hsafe : Safe Γ s P U)
    (hU : U ≤ s.term i) (hheld : P <+: s.log i) : P <+: s'.log i := by
  cases h with
  | propose c e hc he => exact hheld.trans (log_propose s c e i)
  | accept j m hm hri hT hprev =>
      rcases eq_or_ne i j with rfl | hj
      · obtain ⟨L, hL⟩ := (hi.sent m hm).elected
        obtain ⟨-, -, -, -, hkeep⟩ := hi.spliced hm hT hprev (log_accept_self Γ s i m)
        exact hkeep P hheld (hsafe.isPrefix hi (hU.trans hT.le) hL)
      · rwa [log_accept_of_ne Γ s m hj]
  | _ => exact hheld

/-- **Safe prefixes are never lost.** -/
theorem Safe.held [DecidableEq N] (hi : Inv Γ s) (h : Relation.ReflTransGen (Step Γ) s s')
    (hsafe : Safe Γ s P U) (hU : U ≤ s.term i) (hheld : P <+: s.log i) :
    U ≤ s'.term i ∧ P <+: s'.log i := by
  induction h with
  | refl => exact ⟨hU, hheld⟩
  | tail hrun hstep ih =>
      obtain ⟨hterm, hlog⟩ := ih
      have hi' := inv_steps hi hrun
      have hsafe' := hsafe.grow (steps_retain hi hrun).toGrows (le_refl U)
      exact ⟨hterm.trans (step_term_le hstep i), hsafe'.held_step hi' hstep hterm hlog⟩

end Stability

end KVEngine.Foundation.ReplicatedLog
