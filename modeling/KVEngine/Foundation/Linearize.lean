import Mathlib.Data.List.Perm.Basic
import Mathlib.Order.Lattice

/-!
# Linearizability of finite histories

Operations with an interval of time, and a partial step function that says which
of them a state accepts. A history is linearizable if its operations can be put
in an order that the step function accepts and that keeps every pair whose
intervals do not overlap.

Linearizability can be searched for: some operation that no other one precedes
is accepted first, and the rest is linearizable after it (`linearizable_iff`).

A concurrent object is linearizable if every call takes effect at one moment
between its beginning and its end: the calls in the order of these moments are a
linearization (`Tracked.linearizable`).
-/

namespace KVEngine.Foundation

/-! ## §1  Histories -/

variable {O S T : Type} [LinearOrder T]

/-- The states accept the operations one after the other. -/
def Legal (step : S → O → Option S) : S → List O → Prop
  | _, [] => True
  | s, o :: os => ∃ s', step s o = some s' ∧ Legal step s' os

/-- Nothing stands behind an operation that began after it was over. -/
def RealTime (start stop : O → T) (os : List O) : Prop :=
  os.Pairwise fun a b => ¬ stop b < start a

def Linearizable (start stop : O → T) (step : S → O → Option S) (s : S) (os : List O) : Prop :=
  ∃ l, l.Perm os ∧ Legal step s l ∧ RealTime start stop l

variable {start stop : O → T} {step : S → O → Option S} {s : S} {os : List O}

theorem linearizable_nil : Linearizable start stop step s [] :=
  ⟨[], List.Perm.refl _, trivial, List.Pairwise.nil⟩

/-- **One step of the search.** -/
theorem linearizable_iff (hne : os ≠ []) (htime : ∀ o ∈ os, start o ≤ stop o) :
    Linearizable start stop step s os ↔
      ∃ i o, os[i]? = some o ∧ (∀ p ∈ os, start o ≤ stop p) ∧
        ∃ s', step s o = some s' ∧ Linearizable start stop step s' (os.eraseIdx i) := by
  constructor
  · rintro ⟨l, hperm, hlegal, hreal⟩
    cases l with
    | nil => exact absurd hperm.nil_eq.symm hne
    | cons o l =>
        obtain ⟨hfirst, hreal⟩ := List.pairwise_cons.mp hreal
        obtain ⟨s', hstep, hlegal⟩ := hlegal
        obtain ⟨i, hi, hget⟩ := List.getElem_of_mem (hperm.subset List.mem_cons_self)
        have hrest : l.Perm (os.eraseIdx i) := by
          refine List.Perm.cons_inv (a := o) (hperm.trans ?_)
          rw [← hget]
          exact (List.getElem_cons_eraseIdx_perm hi).symm
        refine ⟨i, o, List.getElem?_eq_some_iff.mpr ⟨hi, hget⟩, fun p hp => ?_, s', hstep,
          l, hrest, hlegal, hreal⟩
        rcases List.mem_cons.mp (hperm.symm.subset hp) with rfl | hp'
        · exact htime p hp
        · exact not_lt.mp (hfirst p hp')
  · rintro ⟨i, o, hget, hmin, s', hstep, l, hperm, hlegal, hreal⟩
    obtain ⟨hi, rfl⟩ := List.getElem?_eq_some_iff.mp hget
    refine ⟨os[i] :: l, (hperm.cons _).trans (List.getElem_cons_eraseIdx_perm hi),
      ⟨s', hstep, hlegal⟩, List.pairwise_cons.mpr ⟨fun p hp => ?_, hreal⟩⟩
    exact not_lt.mpr (hmin p (List.mem_of_mem_eraseIdx (hperm.subset hp)))

/-! ## §2  Calls that take effect at a moment

`P` is a call that has taken effect, with its result. It becomes an operation
once it is known when it returned; until then it counts as returning now. -/

/-- How a call becomes an operation: when it began, and what it is when it returns
at a given time. The time of the return is nothing to the object. -/
structure Closing (start stop : O → T) (step : S → O → Option S) (P : Type) where
  began : P → T
  close : P → T → O
  start_close : ∀ p t, start (close p t) = began p
  stop_close : ∀ p t, stop (close p t) = t
  step_close : ∀ s p t t', step s (close p t) = step s (close p t')

variable {P : Type} (C : Closing start stop step P)

/-- A call with the time it returned, if it has, as of `now`. -/
def Closing.closeAt (now : T) (e : P × Option T) : O := C.close e.1 (e.2.getD now)

/-- The calls in the order they took effect lead the object from `s₀` to `s`, and
none of them was over before an earlier one began. -/
structure InEffect (now : T) (s₀ s : S) (es : List (P × Option T)) : Prop where
  leads : (es.map (C.closeAt now)).foldlM step s₀ = some s
  began : ∀ e ∈ es, C.began e.1 ≤ now
  ended : ∀ e ∈ es, ∀ t ∈ e.2, C.began e.1 ≤ t
  timely : es.Pairwise fun a b => ∀ t ∈ b.2, C.began a.1 ≤ t

variable {C} {now : T} {s₀ : S} {es : List (P × Option T)}

omit [LinearOrder T] in
theorem leads_closeAt (now now' : T) : ∀ (es : List (P × Option T)) (s : S),
    (es.map (C.closeAt now)).foldlM step s = (es.map (C.closeAt now')).foldlM step s
  | [], _ => rfl
  | e :: es, s => by
      have hstep : step s (C.closeAt now e) = step s (C.closeAt now' e) := C.step_close s e.1 _ _
      rw [List.map_cons, List.map_cons, List.foldlM_cons, List.foldlM_cons, hstep]
      exact congrArg _ (funext fun s' => leads_closeAt now now' es s')

theorem InEffect.tick (h : InEffect C now s₀ s es) {now' : T} (hle : now ≤ now') :
    InEffect C now' s₀ s es :=
  ⟨(leads_closeAt now' now es s₀).trans h.leads, fun e he => (h.began e he).trans hle,
    h.ended, h.timely⟩

/-- A call that began takes effect. -/
theorem InEffect.effect (h : InEffect C now s₀ s es) {p : P} {s' : S}
    (hbegan : C.began p ≤ now) (hstep : step s (C.close p now) = some s') :
    InEffect C now s₀ s' (es ++ [(p, none)]) := by
  refine ⟨?_, fun e he => ?_, fun e he t ht => ?_,
    List.pairwise_append.mpr ⟨h.timely, List.pairwise_singleton _ _, ?_⟩⟩
  · rw [List.map_append, List.foldlM_append, h.leads]
    show (step s (C.close p now)).bind _ = _
    rw [hstep]
    rfl
  · rcases List.mem_append.mp he with he | he
    · exact h.began e he
    · rw [List.mem_singleton.mp he]
      exact hbegan
  · rcases List.mem_append.mp he with he | he
    · exact h.ended e he t ht
    · rw [List.mem_singleton.mp he] at ht
      cases ht
  · intro a _ b hb t ht
    rw [List.mem_singleton.mp hb] at ht
    cases ht

/-- A call that has taken effect returns. -/
theorem InEffect.complete {l r : List (P × Option T)} {p : P}
    (h : InEffect C now s₀ s (l ++ (p, none) :: r)) :
    InEffect C now s₀ s (l ++ (p, some now) :: r) := by
  obtain ⟨hl, hpr, hcross⟩ := List.pairwise_append.mp h.timely
  obtain ⟨hp, hr⟩ := List.pairwise_cons.mp hpr
  -- the entry that changes is still the same call
  have hsame : ∀ e ∈ l ++ (p, some now) :: r, e = (p, some now) ∨ e ∈ l ++ (p, none) :: r := by
    intro e he
    rcases List.mem_append.mp he with he | he
    · exact Or.inr (List.mem_append_left _ he)
    · exact (List.mem_cons.mp he).imp_right fun he =>
        List.mem_append_right _ (List.mem_cons_of_mem _ he)
  have hbegan : C.began p ≤ now := h.began (p, none) (List.mem_append_right _ List.mem_cons_self)
  refine ⟨?_, fun e he => ?_, fun e he t ht => ?_, List.pairwise_append.mpr
    ⟨hl, List.pairwise_cons.mpr ⟨hp, hr⟩, fun a ha b hb t ht => ?_⟩⟩
  · rw [← h.leads, List.map_append, List.map_append]
    rfl
  · rcases hsame e he with rfl | he
    · exact hbegan
    · exact h.began e he
  · rcases hsame e he with rfl | he
    · cases ht
      exact hbegan
    · exact h.ended e he t ht
  · rcases List.mem_cons.mp hb with rfl | hb
    · cases ht
      exact h.began a (List.mem_append_left _ ha)
    · exact hcross a ha b (List.mem_cons_of_mem _ hb) t ht

theorem legal_of_leads : ∀ {os : List O} {s₀ s : S}, os.foldlM step s₀ = some s → Legal step s₀ os
  | [], _, _, _ => trivial
  | o :: os, s₀, s, h => by
      rw [List.foldlM_cons] at h
      obtain ⟨s', hs', h⟩ := Option.bind_eq_some_iff.mp h
      exact ⟨s', hs', legal_of_leads h⟩

theorem InEffect.realTime (h : InEffect C now s₀ s es) :
    RealTime start stop (es.map (C.closeAt now)) := by
  refine List.pairwise_map.mpr (h.timely.imp_of_mem fun {a b} ha _ hab => not_lt.mpr ?_)
  rw [Closing.closeAt, Closing.closeAt, C.start_close, C.stop_close]
  cases hb : b.2 with
  | none => exact h.began a ha
  | some t => exact hab t hb

/-! ## §3  Linearization points -/

/-- The calls that returned, as operations. -/
def Closing.returned (C : Closing start stop step P) (es : List (P × Option T)) : List O :=
  es.filterMap fun e => e.2.map (C.close e.1)

/-- The calls that have not. -/
def pending (es : List (P × Option T)) : List P :=
  es.filterMap fun e => match e.2 with
    | none => some e.1
    | some _ => none

omit [LinearOrder T] in
theorem closeAt_perm (now : T) : ∀ es : List (P × Option T),
    (es.map (C.closeAt now)).Perm (C.returned es ++ (pending es).map fun p => C.close p now)
  | [] => List.Perm.refl _
  | (_, none) :: es => (List.Perm.cons _ (closeAt_perm now es)).trans List.perm_middle.symm
  | (_, some _) :: es => List.Perm.cons _ (closeAt_perm now es)

/-- The object went from `s₀` to `s` by calls that each took effect at one moment;
`history` are those that returned and `ps` those that have not. -/
def Tracked (C : Closing start stop step P) (now : T) (s₀ s : S) (history : List O)
    (ps : List P) : Prop :=
  ∃ es, InEffect C now s₀ s es ∧ (C.returned es).Perm history ∧ pending es = ps

variable {history : List O} {ps : List P}

theorem tracked_start (C : Closing start stop step P) (now : T) (s₀ : S) :
    Tracked C now s₀ s₀ [] [] := by
  refine ⟨[], ⟨rfl, ?_, ?_, List.Pairwise.nil⟩, List.Perm.refl _, rfl⟩
  · intro e he
    cases he
  · intro e he
    cases he

theorem Tracked.tick (h : Tracked C now s₀ s history ps) {now' : T} (hle : now ≤ now') :
    Tracked C now' s₀ s history ps := by
  obtain ⟨es, hes, hhist, hps⟩ := h
  exact ⟨es, hes.tick hle, hhist, hps⟩

theorem Tracked.effect (h : Tracked C now s₀ s history ps) {p : P} {s' : S}
    (hbegan : C.began p ≤ now) (hstep : step s (C.close p now) = some s') :
    Tracked C now s₀ s' history (ps ++ [p]) := by
  obtain ⟨es, hes, hhist, rfl⟩ := h
  refine ⟨es ++ [(p, none)], hes.effect hbegan hstep, ?_, List.filterMap_append⟩
  rw [Closing.returned, List.filterMap_append]
  show (C.returned es ++ []).Perm history
  rwa [List.append_nil]

omit [LinearOrder T] in
/-- Where a pending call stands among the effects. -/
theorem pending_eq_append_cons : ∀ {es : List (P × Option T)} {l r : List P} {p : P},
    pending es = l ++ p :: r →
    ∃ es₁ es₂, es = es₁ ++ (p, none) :: es₂ ∧ pending es₁ = l ∧ pending es₂ = r
  | [], l, r, p, h => absurd h (by simp [pending])
  | (q, some t) :: es, l, r, p, h => by
      have hes : pending es = l ++ p :: r := h
      obtain ⟨es₁, es₂, rfl, h₁, h₂⟩ := pending_eq_append_cons hes
      exact ⟨(q, some t) :: es₁, es₂, rfl, h₁, h₂⟩
  | (q, none) :: es, [], r, p, h => by
      obtain ⟨rfl, rfl⟩ := List.cons.inj h
      exact ⟨[], es, rfl, rfl, rfl⟩
  | (q, none) :: es, q' :: l, r, p, h => by
      obtain ⟨hq, hrest⟩ : q = q' ∧ pending es = l ++ p :: r := List.cons.inj h
      obtain ⟨es₁, es₂, rfl, h₁, h₂⟩ := pending_eq_append_cons hrest
      exact ⟨(q, none) :: es₁, es₂, rfl, congrArg₂ List.cons hq h₁, h₂⟩

theorem Tracked.complete {l r : List P} {p : P} (h : Tracked C now s₀ s history (l ++ p :: r)) :
    Tracked C now s₀ s (history ++ [C.close p now]) (l ++ r) := by
  obtain ⟨es, hes, hhist, hps⟩ := h
  obtain ⟨es₁, es₂, rfl, rfl, rfl⟩ := pending_eq_append_cons hps
  refine ⟨es₁ ++ (p, some now) :: es₂, hes.complete, ?_, List.filterMap_append⟩
  have hold : C.returned (es₁ ++ (p, none) :: es₂) = C.returned es₁ ++ C.returned es₂ :=
    List.filterMap_append
  have hnew : C.returned (es₁ ++ (p, some now) :: es₂) =
      C.returned es₁ ++ C.close p now :: C.returned es₂ := List.filterMap_append
  rw [hold] at hhist
  rw [hnew]
  calc (C.returned es₁ ++ C.close p now :: C.returned es₂).Perm
        (C.close p now :: (C.returned es₁ ++ C.returned es₂)) := List.perm_middle
    List.Perm _ (C.close p now :: history) := List.Perm.cons _ hhist
    List.Perm _ (history ++ [C.close p now]) := (List.perm_append_singleton _ _).symm

/-- **Linearization points.** The order in which the calls took effect is a
linearization of those that returned and those that have not. -/
theorem Tracked.linearizable (h : Tracked C now s₀ s history ps) :
    Linearizable start stop step s₀ (history ++ ps.map fun p => C.close p now) := by
  obtain ⟨es, hes, hhist, rfl⟩ := h
  exact ⟨es.map (C.closeAt now), (closeAt_perm now es).trans (hhist.append_right _),
    legal_of_leads hes.leads, hes.realTime⟩

/-- Every operation begins before it ends. -/
theorem Tracked.start_le_stop (h : Tracked C now s₀ s history ps) :
    ∀ o ∈ history ++ ps.map fun p => C.close p now, start o ≤ stop o := by
  obtain ⟨es, hes, hhist, rfl⟩ := h
  intro o ho
  have hmem := ((closeAt_perm now es).trans (hhist.append_right _)).symm.subset ho
  obtain ⟨e, he, rfl⟩ := List.mem_map.mp hmem
  rw [Closing.closeAt, C.start_close, C.stop_close]
  cases hstop : e.2 with
  | none => exact hes.began e he
  | some t => exact hes.ended e he t hstop

end KVEngine.Foundation
