import Mathlib.Data.List.Basic

/-!
# Replacing a file

A file is replaced by writing a temporary file beside it, syncing that and renaming it
over the file. Each of the five operations may fail, and the process may stop at any of
them. However that goes, the file is whole: the new one if the rename was reached and
went through, the old one otherwise (`Slot.replace_file`).
-/

namespace KVEngine.Foundation

inductive FileOp : Type where
  | create
  | write
  | sync
  | close
  | rename
deriving DecidableEq

/-- What goes wrong with an operation: it returns an error, or the process stops. The
temporary file may be left as anything. -/
inductive Fault (α : Type) : Type where
  | fails (tmp : Option (List α))
  | crashes (tmp : Option (List α))

/-- The process stops, and there is no error to go on after. -/
def Fault.stops {α : Type} : Fault α → Bool
  | .fails _ => false
  | .crashes _ => true

inductive Replaced : Type where
  | done
  | failed
  | crashed
deriving DecidableEq

/-- A file and the temporary file beside it. -/
structure Slot (α : Type) where
  file : Option (List α)
  tmp : Option (List α)

/-- What goes wrong with each operation, if anything. -/
abbrev Faults (α : Type) : Type := FileOp → Option (Fault α)

namespace Slot

variable {α : Type}

/-- An operation that goes through. A rename is atomic. -/
def apply (data : List α) (s : Slot α) : FileOp → Slot α
  | .create => { s with tmp := some [] }
  | .write => { s with tmp := some data }
  | .sync => s
  | .close => s
  | .rename => { file := s.tmp, tmp := none }

/-- After a failed write or sync the temporary file is closed, and the process may stop
there. -/
def afterError (faults : Faults α) (op : FileOp) : Replaced :=
  match op, faults .close with
  | .write, some (.crashes _) => .crashed
  | .sync, some (.crashes _) => .crashed
  | _, _ => .failed

/-- The operations in turn; the error of a close is ignored. -/
def run (faults : Faults α) (data : List α) : List FileOp → Slot α → Slot α × Replaced
  | [], s => (s, .done)
  | op :: ops, s =>
      match faults op with
      | none => run faults data ops (s.apply data op)
      | some (.crashes tmp) => ({ s with tmp }, .crashed)
      | some (.fails tmp) =>
          if op = .close then run faults data ops (s.apply data op)
          else ({ s with tmp }, afterError faults op)

def replace (faults : Faults α) (data : List α) (s : Slot α) : Slot α × Replaced :=
  run faults data [.create, .write, .sync, .close, .rename] s

/-- Nothing goes wrong with the operation, or an error that is ignored. -/
def Passes (faults : Faults α) (op : FileOp) : Prop :=
  faults op = none ∨ op = .close ∧ ∃ tmp, faults op = some (.fails tmp)

/-- All five pass. -/
def Completes (faults : Faults α) : Prop := ∀ op, Passes faults op

theorem completes_none : Completes (fun _ => none : Faults α) := fun _ => Or.inl rfl

variable {faults : Faults α} {data : List α}

theorem afterError_ne_done (op : FileOp) : afterError faults op ≠ .done := by
  unfold afterError
  split <;> exact nofun

/-- An operation passes and the rest is run, or the run ends at it. -/
theorem run_cons (op : FileOp) (ops : List FileOp) (s : Slot α) :
    (Passes faults op ∧ run faults data (op :: ops) s = run faults data ops (s.apply data op)) ∨
      (¬ Passes faults op ∧ ∃ tmp r, r ≠ .done ∧
        run faults data (op :: ops) s = ({ s with tmp }, r)) := by
  rw [run]
  cases hop : faults op with
  | none => exact Or.inl ⟨Or.inl hop, rfl⟩
  | some fault =>
      cases fault with
      | crashes tmp =>
          refine Or.inr ⟨?_, tmp, .crashed, nofun, rfl⟩
          rintro (h | ⟨-, tmp', h⟩)
          · cases hop.symm.trans h
          · cases hop.symm.trans h
      | fails tmp =>
          by_cases hclose : op = .close
          · exact Or.inl ⟨Or.inr ⟨hclose, tmp, hop⟩, if_pos hclose⟩
          · refine Or.inr ⟨?_, tmp, _, afterError_ne_done op, if_neg hclose⟩
            rintro (h | ⟨h, -⟩)
            · cases hop.symm.trans h
            · exact hclose h

theorem run_of_passes {ops : List FileOp} (h : ∀ op ∈ ops, Passes faults op) (s : Slot α) :
    run faults data ops s = (ops.foldl (apply data) s, .done) := by
  induction ops generalizing s with
  | nil => rfl
  | cons op ops ih =>
      obtain ⟨hop, hops⟩ := List.forall_mem_cons.mp h
      rcases run_cons op ops s with ⟨-, hrun⟩ | ⟨hnot, -⟩
      · rw [hrun, ih hops]
        rfl
      · exact absurd hop hnot

theorem run_done {ops : List FileOp} {s : Slot α} (h : (run faults data ops s).2 = .done) :
    ∀ op ∈ ops, Passes faults op := by
  induction ops generalizing s with
  | nil => exact fun _ hop => absurd hop List.not_mem_nil
  | cons op ops ih =>
      rcases run_cons op ops s with ⟨hop, hrun⟩ | ⟨-, tmp, r, hr, hrun⟩
      · rw [hrun] at h
        exact List.forall_mem_cons.mpr ⟨hop, ih h⟩
      · rw [hrun] at h
        exact absurd h hr

/-- Until the rename only the temporary file is touched, so a run that ends early
leaves the file alone. -/
theorem run_file {ops : List FileOp} {s : Slot α} (hops : .rename ∉ ops)
    (h : (run faults data (ops ++ [.rename]) s).2 ≠ .done) :
    (run faults data (ops ++ [.rename]) s).1.file = s.file := by
  induction ops generalizing s with
  | nil =>
      rcases run_cons .rename [] s with ⟨hop, hrun⟩ | ⟨-, tmp, r, -, hrun⟩
      · rw [List.nil_append, hrun] at h
        exact absurd rfl h
      · rw [List.nil_append, hrun]
  | cons op ops ih =>
      obtain ⟨hop, hops⟩ := not_or.mp (mt List.mem_cons.mpr hops)
      rcases run_cons op (ops ++ [.rename]) s with ⟨-, hrun⟩ | ⟨-, tmp, r, -, hrun⟩
      · rw [List.cons_append, hrun] at h ⊢
        rw [ih hops h]
        cases op with
        | rename => exact absurd rfl hop
        | _ => rfl
      · rw [List.cons_append, hrun]

/-- **A file is replaced whole or not at all.** -/
theorem replace_file (faults : Faults α) (data : List α) (s : Slot α) :
    (Completes faults ∧ ∃ s', s.replace faults data = (s', .done) ∧ s'.file = some data) ∨
      (¬ Completes faults ∧ ∃ s' r, s.replace faults data = (s', r) ∧ r ≠ .done ∧
        s'.file = s.file) := by
  by_cases h : Completes faults
  · exact Or.inl ⟨h, _, run_of_passes (fun op _ => h op) s, rfl⟩
  · have hdone : (s.replace faults data).2 ≠ .done := by
      intro hdone
      have hpasses := run_done hdone
      exact h fun op => hpasses op (by cases op <;> decide)
    have hops : FileOp.rename ∉ [FileOp.create, .write, .sync, .close] := by decide
    exact Or.inr ⟨h, _, _, rfl, hdone, run_file hops hdone⟩

/-- How the operations end, which is up to the faults alone. -/
def outcome (faults : Faults α) : List FileOp → Replaced
  | [] => .done
  | op :: ops =>
      match faults op with
      | none => outcome faults ops
      | some (.crashes _) => .crashed
      | some (.fails _) => if op = .close then outcome faults ops else afterError faults op

/-- A replacement that ends with an error, and not with the end of the process. -/
def Errs (faults : Faults α) : Prop :=
  outcome faults [.create, .write, .sync, .close, .rename] = .failed

instance decidableErrs (faults : Faults α) : Decidable (Errs faults) :=
  inferInstanceAs (Decidable (_ = _))

theorem run_outcome : ∀ (ops : List FileOp) (s : Slot α),
    (run faults data ops s).2 = outcome faults ops
  | [], _ => rfl
  | op :: ops, s => by
      rw [run, outcome]
      cases faults op with
      | none => exact run_outcome ops _
      | some fault =>
          cases fault with
          | crashes tmp => rfl
          | fails tmp =>
              dsimp only
              split
              · exact run_outcome ops _
              · rfl

theorem replace_failed_iff {s : Slot α} :
    (s.replace faults data).2 = .failed ↔ Errs faults := by
  rw [replace, run_outcome, Errs]

/-- No operation returns an error, but for the close, whose error is ignored. -/
def Spares (faults : Faults α) : Prop :=
  ∀ op ∈ [FileOp.create, .write, .sync, .rename], ∀ fault ∈ faults op, fault.stops = true

instance decidableSpares (faults : Faults α) : Decidable (Spares faults) :=
  inferInstanceAs (Decidable (∀ op ∈ _, ∀ fault ∈ faults op, _))

theorem Spares.eq_close (h : Spares faults) {op : FileOp} {tmp : Option (List α)}
    (hop : faults op = some (.fails tmp)) : op = .close := by
  cases op with
  | close => rfl
  | _ => exact absurd (h _ (by simp) _ hop) Bool.false_ne_true

theorem run_ne_failed (h : Spares faults) :
    ∀ (ops : List FileOp) (s : Slot α), (run faults data ops s).2 ≠ .failed
  | [], _ => nofun
  | op :: ops, s => by
      rw [run]
      cases hop : faults op with
      | none => exact run_ne_failed h ops _
      | some fault =>
          cases fault with
          | crashes tmp => exact nofun
          | fails tmp =>
              dsimp only
              rw [if_pos (h.eq_close hop)]
              exact run_ne_failed h ops _

/-- Without errors the file is replaced, or the process stops and the file is as it was. -/
theorem replace_of_spares (h : Spares faults) (data : List α) (s : Slot α) :
    (∃ s', s.replace faults data = (s', .done) ∧ s'.file = some data) ∨
      ∃ s', s.replace faults data = (s', .crashed) ∧ s'.file = s.file := by
  rcases replace_file faults data s with ⟨-, hdone⟩ | ⟨-, s', r, hrun, hr, hfile⟩
  · exact Or.inl hdone
  · have hfailed : r ≠ .failed := by
      have hne : (s.replace faults data).2 ≠ .failed := run_ne_failed h _ s
      rwa [hrun] at hne
    cases r with
    | done => exact absurd rfl hr
    | failed => exact absurd rfl hfailed
    | crashed => exact Or.inr ⟨s', hrun, hfile⟩

end Slot

end KVEngine.Foundation
