import Mathlib.Data.List.Infix
import Mathlib.Data.Nat.Notation

/-!
# Framed logs

Records written back to back, each in a frame of its own, and read back one
after the other until the reader fails. The records, the symbols and the format
are arbitrary; a format has to read back a whole frame whatever follows it, and
to fail on a frame that was cut short.

The reader then returns exactly the records of a log whose last frame may be
torn (`parseAll_torn`). What stands behind a torn frame it does not see, so a
log must not be appended to before the tear is removed.

A format may also be given as a grammar, which says what frames a record has and no more;
a reader for it shows that it can be read in one way only (`Spells.parseAll`).
-/

namespace KVEngine.Foundation

/-! ## §1  Reading until failure -/

section Reading

variable {α R : Type}

/-- At most `n` records. -/
def parseUpTo (parse : List α → Option (R × List α)) : ℕ → List α → List R
  | 0, _ => []
  | n + 1, s =>
      match parse s with
      | none => []
      | some (r, rest) => r :: parseUpTo parse n rest

/-- All records up to the first failure: a record is not empty, so there are no
more of them than symbols. -/
def parseAll (parse : List α → Option (R × List α)) (s : List α) : List R :=
  parseUpTo parse s.length s

variable {parse : List α → Option (R × List α)}

theorem parseUpTo_of_none {n : ℕ} {s : List α} (h : parse s = none) :
    parseUpTo parse n s = [] := by
  cases n with
  | zero => rfl
  | succ n => rw [parseUpTo, h]

/-- Fuel beyond the length changes nothing. -/
theorem parseUpTo_eq_parseAll
    (hlt : ∀ s r rest, parse s = some (r, rest) → rest.length < s.length) :
    ∀ {n : ℕ} {s : List α}, s.length ≤ n → parseUpTo parse n s = parseAll parse s := by
  have hfuel : ∀ (n m : ℕ) (s : List α), s.length ≤ n → s.length ≤ m →
      parseUpTo parse n s = parseUpTo parse m s := by
    intro n
    induction n with
    | zero =>
        intro m s hn _
        have hs : parse s = none := by
          cases hp : parse s with
          | none => rfl
          | some p =>
              have := hlt s p.1 p.2 hp
              omega
        rw [parseUpTo_of_none hs, parseUpTo_of_none hs]
    | succ n ih =>
        intro m s hn hm
        cases hp : parse s with
        | none => rw [parseUpTo_of_none hp, parseUpTo_of_none hp]
        | some p =>
            have hrest := hlt s p.1 p.2 hp
            obtain ⟨m, rfl⟩ : ∃ k, m = k + 1 := ⟨m - 1, by omega⟩
            rw [parseUpTo, parseUpTo, hp]
            show p.1 :: parseUpTo parse n p.2 = p.1 :: parseUpTo parse m p.2
            rw [ih m p.2 (by omega) (by omega)]
  intro n s hn
  exact hfuel n s.length s hn (le_refl _)

/-- The loop, one record at a time. -/
theorem parseAll_of_some
    (hlt : ∀ s r rest, parse s = some (r, rest) → rest.length < s.length)
    {s rest : List α} {r : R} (h : parse s = some (r, rest)) :
    parseAll parse s = r :: parseAll parse rest := by
  have hlen := hlt s r rest h
  obtain ⟨n, hn⟩ : ∃ n, s.length = n + 1 := ⟨s.length - 1, by omega⟩
  rw [parseAll, hn, parseUpTo, h]
  show r :: parseUpTo parse n rest = _
  rw [parseUpTo_eq_parseAll hlt (by omega)]

/-- The loop with a bound on its rounds; `none` if it would still go on. -/
def parseRounds (parse : List α → Option (R × List α)) : ℕ → List α → Option (List R)
  | 0, _ => none
  | n + 1, s =>
      match parse s with
      | none => some []
      | some (r, rest) => (parseRounds parse n rest).map fun rs => r :: rs

/-- **The loop ends**, within one round more than there are symbols. -/
theorem parseRounds_eq_parseAll
    (hlt : ∀ s r rest, parse s = some (r, rest) → rest.length < s.length) :
    ∀ {n : ℕ} {s : List α}, s.length < n → parseRounds parse n s = some (parseAll parse s)
  | n + 1, s, hn => by
      cases hp : parse s with
      | none =>
          rw [parseRounds, hp, parseAll, parseUpTo_of_none hp]
      | some p =>
          have hrest := hlt s p.1 p.2 hp
          rw [parseRounds, hp, parseAll_of_some hlt hp]
          show (parseRounds parse n p.2).map _ = _
          rw [parseRounds_eq_parseAll hlt (by omega)]
          rfl

/-- **Truncation.** Where a record is read the same whatever follows it, a part of
the symbols is read as a part of the records. -/
theorem parseAll_mono
    (hlt : ∀ s r rest, parse s = some (r, rest) → rest.length < s.length)
    (hmono : ∀ {s rest : List α} {r : R} (t : List α), parse s = some (r, rest) →
      parse (s ++ t) = some (r, rest ++ t)) :
    ∀ (p t : List α), parseAll parse p <+: parseAll parse (p ++ t) := by
  have hind : ∀ (n : ℕ) (p t : List α), p.length ≤ n →
      parseAll parse p <+: parseAll parse (p ++ t) := by
    intro n
    induction n with
    | zero =>
        intro p t hn
        rw [List.eq_nil_of_length_eq_zero (Nat.le_zero.mp hn)]
        exact List.nil_prefix
    | succ n ih =>
        intro p t hn
        cases hp : parse p with
        | none =>
            rw [parseAll, parseUpTo_of_none hp]
            exact List.nil_prefix
        | some x =>
            have hrest := hlt p x.1 x.2 hp
            rw [parseAll_of_some hlt hp, parseAll_of_some hlt (hmono t hp)]
            exact List.cons_prefix_cons.mpr ⟨rfl, ih x.2 t (by omega)⟩
  exact fun p t => hind p.length p t (le_refl _)

/-- **Where a cut falls.** Behind whole pieces and inside one of them. -/
theorem exists_cut (f : R → List α) : ∀ {rs : List R} {n : ℕ}, n < (rs.flatMap f).length →
    ∃ us r vs m, rs = us ++ r :: vs ∧ n = (us.flatMap f).length + m ∧ m < (f r).length ∧
      (rs.flatMap f).take n = us.flatMap f ++ (f r).take m
  | [], _, h => absurd h (Nat.not_lt_zero _)
  | r :: rs, n, h => by
      rw [List.flatMap_cons, List.length_append] at h
      by_cases hn : n < (f r).length
      · refine ⟨[], r, rs, n, rfl, (Nat.zero_add n).symm, hn, ?_⟩
        rw [List.flatMap_cons, List.take_append_of_le_length (le_of_lt hn)]
        rfl
      · have hrest : n - (f r).length < (rs.flatMap f).length := by omega
        obtain ⟨us, u, vs, m, rfl, hm, hlt, htake⟩ := exists_cut f hrest
        refine ⟨r :: us, u, vs, m, rfl, ?_, hlt, ?_⟩
        · rw [List.flatMap_cons, List.length_append]
          omega
        · rw [List.flatMap_cons, List.take_append, List.take_of_length_le (by omega), htake,
            List.flatMap_cons, List.append_assoc]

/-! ### Grammars

What a record may look like, without a reader: `G r x` says that `x` is a frame of `r`. -/

/-- One frame after the other, and nothing else. -/
inductive Spells (G : R → List α → Prop) : List R → List α → Prop where
  | nil : Spells G [] []
  | cons {r : R} {x : List α} {rs : List R} {y : List α} (hr : G r x) (hrs : Spells G rs y) :
      Spells G (r :: rs) (x ++ y)

theorem spells_of_forall₂ {G : R → List α → Prop} {rs : List R} {xs : List (List α)}
    (h : List.Forall₂ G rs xs) : Spells G rs xs.flatten := by
  induction h with
  | nil => exact .nil
  | cons hr _ ih => exact .cons hr ih

/-- A reader that takes the frame of a record and leaves what follows reads all that is
spelled. There is then no other way to read it. -/
theorem Spells.parseAll {G : R → List α → Prop}
    (hlt : ∀ s r rest, parse s = some (r, rest) → rest.length < s.length)
    (hparse : ∀ {r : R} {x : List α} (t : List α), G r x → parse (x ++ t) = some (r, t))
    {rs : List R} {y : List α} (h : Spells G rs y) : Foundation.parseAll parse y = rs := by
  induction h with
  | nil => rfl
  | cons hr _ ih => rw [parseAll_of_some hlt (hparse _ hr), ih]

end Reading

/-! ## §2  Formats -/

/-- A frame format for the records that satisfy `Valid`. -/
structure Framing (α R : Type) where
  Valid : R → Prop
  encode : R → List α
  parse : List α → Option (R × List α)
  parse_encode : ∀ {r : R} (rest : List α), Valid r →
    parse (encode r ++ rest) = some (r, rest)
  parse_cut : ∀ {r : R} {p : List α}, Valid r → p <+: encode r → p ≠ encode r →
    parse p = none
  parse_lt : ∀ s r rest, parse s = some (r, rest) → rest.length < s.length

namespace Framing

variable {α R : Type} (F : Framing α R)

def frames (rs : List R) : List α := rs.flatMap F.encode

/-- What a crash can leave of the frame it interrupted: nothing, or a part that
is not the whole frame of a valid record. -/
def Torn (t : List α) : Prop :=
  t = [] ∨ ∃ r, F.Valid r ∧ t <+: F.encode r ∧ t ≠ F.encode r

variable {F}

theorem frames_cons (r : R) (rs : List R) :
    F.frames (r :: rs) = F.encode r ++ F.frames rs :=
  List.flatMap_cons

theorem frames_append (rs us : List R) :
    F.frames (rs ++ us) = F.frames rs ++ F.frames us :=
  List.flatMap_append

theorem parse_nil : F.parse [] = none := by
  cases h : F.parse [] with
  | none => rfl
  | some p => exact absurd (F.parse_lt [] p.1 p.2 h) (Nat.not_lt_zero _)

theorem Torn.parse {t : List α} (h : F.Torn t) : F.parse t = none := by
  rcases h with rfl | ⟨r, hr, hp, hne⟩
  · exact parse_nil
  · exact F.parse_cut hr hp hne

/-- Reading skips over whole frames, whatever follows. -/
theorem parseAll_frames : ∀ {rs : List R} (tail : List α), (∀ r ∈ rs, F.Valid r) →
    parseAll F.parse (F.frames rs ++ tail) = rs ++ parseAll F.parse tail
  | [], tail, _ => by simp [frames]
  | r :: rs, tail, h => by
      have hr := F.parse_encode (F.frames rs ++ tail) (h r List.mem_cons_self)
      rw [frames_cons, List.append_assoc, parseAll_of_some F.parse_lt hr,
        parseAll_frames tail fun r' hr' => h r' (List.mem_cons_of_mem _ hr')]
      rfl

/-- **Recovery.** Whole frames followed by a torn one are read as the records of
the whole frames. -/
theorem parseAll_torn {rs : List R} {t : List α} (h : ∀ r ∈ rs, F.Valid r)
    (ht : F.Torn t) : parseAll F.parse (F.frames rs ++ t) = rs := by
  rw [parseAll_frames t h, parseAll, parseUpTo_of_none ht.parse, List.append_nil]

/-- What is left of a frame after `n` symbols of it were written is the whole
frame or torn. -/
theorem torn_take {r : R} (hr : F.Valid r) {n : ℕ} (hn : n < (F.encode r).length) :
    F.Torn ((F.encode r).take n) := by
  refine Or.inr ⟨r, hr, List.take_prefix _ _, fun h => ?_⟩
  have := congrArg List.length h
  rw [List.length_take] at this
  omega

/-- **Cut.** A log that is cut anywhere is whole frames and a torn one, and every
frame that fits in what is left is among the whole ones. -/
theorem cut_frames : ∀ {rs : List R} {p : List α}, (∀ r ∈ rs, F.Valid r) → p <+: F.frames rs →
    ∃ m t, p = F.frames (rs.take m) ++ t ∧ F.Torn t ∧
      ∀ d ≤ rs.length, (F.frames (rs.take d)).length ≤ p.length → d ≤ m
  | [], p, _, hp => by
      refine ⟨0, [], ?_, Or.inl rfl, fun d hd _ => hd⟩
      rw [List.append_nil]
      exact List.prefix_nil.mp hp
  | r :: rs, p, h, hp => by
      rw [frames_cons] at hp
      by_cases hlen : (F.encode r).length ≤ p.length
      · obtain ⟨q, rfl⟩ : F.encode r <+: p :=
          List.prefix_of_prefix_length_le (List.prefix_append _ _) hp hlen
        obtain ⟨m, t, rfl, ht, hd⟩ := cut_frames (fun u hu => h u (List.mem_cons_of_mem _ hu))
          ((List.prefix_append_right_inj _).mp hp)
        refine ⟨m + 1, t, ?_, ht, fun d hdl hfit => ?_⟩
        · rw [List.take_succ_cons, frames_cons, List.append_assoc]
        · cases d with
          | zero => exact Nat.zero_le _
          | succ d =>
              rw [List.take_succ_cons, frames_cons, List.length_append, List.length_append] at hfit
              exact Nat.succ_le_succ (hd d (Nat.le_of_succ_le_succ hdl) (by omega))
      · -- not even the first frame is there
        have hcut : p <+: F.encode r :=
          List.prefix_of_prefix_length_le hp (List.prefix_append _ _) (by omega)
        refine ⟨0, p, rfl, Or.inr ⟨r, h r List.mem_cons_self, hcut, ?_⟩, fun d _ hfit => ?_⟩
        · rintro rfl
          exact hlen (le_refl _)
        · cases d with
          | zero => exact le_refl _
          | succ d =>
              rw [List.take_succ_cons, frames_cons, List.length_append] at hfit
              omega

end Framing

end KVEngine.Foundation
