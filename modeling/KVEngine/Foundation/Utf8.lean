import KVEngine.Foundation.Bytes
import KVEngine.Foundation.Framing

/-!
# UTF-8, read forgivingly

A byte string is a sequence of characters and of bytes that begin no character;
such a byte is read as U+FFFD. Every byte string can be read, and written back as
well-formed UTF-8 it is `coerce`: the same string exactly when it was well formed
(`coerce_eq_iff`).

An ASCII byte is a character wherever it stands, so a string can be read in parts
that meet at one (`runes_append`).
-/

namespace KVEngine.Foundation.Utf8

/-! ## §1  Reading -/

inductive Rune : Type where
  | char (bytes : Bytes)
  | bad (b : UInt8)
deriving DecidableEq

/-- After the first byte of a character that is not ASCII: the least and the
greatest second byte, and how many bytes follow that one. -/
def lead (b : UInt8) : Option (UInt8 × UInt8 × ℕ) :=
  if 0xC2 ≤ b ∧ b ≤ 0xDF then some (0x80, 0xBF, 0)
  else if b = 0xE0 then some (0xA0, 0xBF, 1)
  else if b = 0xED then some (0x80, 0x9F, 1)
  else if 0xE1 ≤ b ∧ b ≤ 0xEF then some (0x80, 0xBF, 1)
  else if b = 0xF0 then some (0x90, 0xBF, 2)
  else if 0xF1 ≤ b ∧ b ≤ 0xF3 then some (0x80, 0xBF, 2)
  else if b = 0xF4 then some (0x80, 0x8F, 2)
  else none

def isTail (b : UInt8) : Bool := decide (0x80 ≤ b ∧ b ≤ 0xBF)

/-- The bytes after the first are those of a character. -/
def Continues (lo hi : UInt8) (n : ℕ) (c : UInt8) (more : Bytes) : Prop :=
  (lo ≤ c ∧ c ≤ hi) ∧ n ≤ more.length ∧ (more.take n).all isTail = true

instance (lo hi : UInt8) (n : ℕ) (c : UInt8) (more : Bytes) :
    Decidable (Continues lo hi n c more) :=
  inferInstanceAs (Decidable (_ ∧ _))

/-- A character that begins with `b`, which is not ASCII, or a bad byte. -/
def multiByte (b : UInt8) (rest : Bytes) : Rune × Bytes :=
  match lead b with
  | none => (.bad b, rest)
  | some (lo, hi, n) =>
      match rest with
      | [] => (.bad b, rest)
      | c :: more =>
          if Continues lo hi n c more then (.char (b :: c :: more.take n), more.drop n)
          else (.bad b, rest)

def nextRune : Bytes → Option (Rune × Bytes)
  | [] => none
  | b :: rest => some (if b < 0x80 then (.char [b], rest) else multiByte b rest)

def runes (s : Bytes) : List Rune := parseAll nextRune s

theorem nextRune_ascii {b : UInt8} (h : b < 0x80) (s : Bytes) :
    nextRune (b :: s) = some (.char [b], s) := by
  rw [nextRune, if_pos h]

theorem nextRune_multiByte {b : UInt8} (h : 0x80 ≤ b) (s : Bytes) :
    nextRune (b :: s) = some (multiByte b s) := by
  rw [nextRune, if_neg (not_lt.mpr h)]

theorem multiByte_of_continues {b lo hi c : UInt8} {n : ℕ} {more : Bytes}
    (hlead : lead b = some (lo, hi, n)) (h : Continues lo hi n c more) :
    multiByte b (c :: more) = (.char (b :: c :: more.take n), more.drop n) := by
  rw [multiByte, hlead]
  exact if_pos h

theorem multiByte_cases (b : UInt8) (s : Bytes) :
    (∃ lo hi n c more, lead b = some (lo, hi, n) ∧ s = c :: more ∧ Continues lo hi n c more ∧
      multiByte b s = (.char (b :: c :: more.take n), more.drop n)) ∨
    (multiByte b s = (.bad b, s) ∧
      ∀ lo hi n, lead b = some (lo, hi, n) → ∀ c more, s = c :: more →
        ¬ Continues lo hi n c more) := by
  rw [multiByte]
  cases hlead : lead b with
  | none => exact Or.inr ⟨rfl, fun lo hi n h => (by cases h)⟩
  | some p =>
      obtain ⟨lo, hi, n⟩ := p
      cases s with
      | nil => exact Or.inr ⟨rfl, fun _ _ _ _ c more h => (by cases h)⟩
      | cons c more =>
          dsimp only
          by_cases hc : Continues lo hi n c more
          · exact Or.inl ⟨lo, hi, n, c, more, rfl, rfl, hc, if_pos hc⟩
          · refine Or.inr ⟨if_neg hc, fun lo' hi' n' hp c' more' hs => ?_⟩
            cases hp
            cases hs
            exact hc

/-- What can stand at the front. -/
theorem nextRune_cases {s rest : Bytes} {r : Rune} (h : nextRune s = some (r, rest)) :
    (∃ b, b < 0x80 ∧ s = b :: rest ∧ r = .char [b]) ∨
    (∃ b lo hi n c more, 0x80 ≤ b ∧ lead b = some (lo, hi, n) ∧ s = b :: c :: more ∧
      Continues lo hi n c more ∧ r = .char (b :: c :: more.take n) ∧ rest = more.drop n) ∨
    (∃ b, 0x80 ≤ b ∧ s = b :: rest ∧ r = .bad b ∧
      ∀ lo hi n, lead b = some (lo, hi, n) → ∀ c more, rest = c :: more →
        ¬ Continues lo hi n c more) := by
  cases s with
  | nil => cases h
  | cons b s =>
      by_cases hb : b < 0x80
      · rw [nextRune_ascii hb] at h
        cases h
        exact Or.inl ⟨b, hb, rfl, rfl⟩
      · have hge : 0x80 ≤ b := not_lt.mp hb
        rw [nextRune_multiByte hge] at h
        rcases multiByte_cases b s with ⟨lo, hi, n, c, more, hlead, rfl, hc, hm⟩ | ⟨hm, hno⟩
        · rw [hm] at h
          cases h
          exact Or.inr (Or.inl ⟨b, lo, hi, n, c, more, hge, hlead, rfl, hc, rfl, rfl⟩)
        · rw [hm] at h
          cases h
          exact Or.inr (Or.inr ⟨b, hge, rfl, rfl, hno⟩)

def Rune.bytes : Rune → Bytes
  | .char bs => bs
  | .bad b => [b]

theorem nextRune_bytes {s rest : Bytes} {r : Rune} (h : nextRune s = some (r, rest)) :
    s = r.bytes ++ rest := by
  rcases nextRune_cases h with ⟨b, -, rfl, rfl⟩ |
    ⟨b, lo, hi, n, c, more, -, -, rfl, -, rfl, rfl⟩ | ⟨b, -, rfl, rfl, -⟩
  · rfl
  · show _ = b :: c :: (more.take n ++ more.drop n)
    rw [List.take_append_drop]
  · rfl

theorem bytes_ne_nil {s rest : Bytes} {r : Rune} (h : nextRune s = some (r, rest)) :
    r.bytes ≠ [] := by
  rcases nextRune_cases h with ⟨b, -, -, rfl⟩ | ⟨b, lo, hi, n, c, more, -, -, -, -, rfl, -⟩ |
    ⟨b, -, -, rfl, -⟩ <;> exact List.cons_ne_nil _ _

theorem nextRune_lt (s : Bytes) (r : Rune) (rest : Bytes) (h : nextRune s = some (r, rest)) :
    rest.length < s.length := by
  have hpos := List.length_pos_of_ne_nil (bytes_ne_nil h)
  rw [nextRune_bytes h, List.length_append]
  omega

theorem runes_of_some {s rest : Bytes} {r : Rune} (h : nextRune s = some (r, rest)) :
    runes s = r :: runes rest :=
  parseAll_of_some nextRune_lt h

/-- **Induction** over the runes of a string. -/
theorem rune_induction {P : Bytes → Prop} (nil : P [])
    (rune : ∀ s r rest, nextRune s = some (r, rest) → P rest → P s) (s : Bytes) : P s := by
  induction hn : s.length using Nat.strong_induction_on generalizing s with
  | _ n ih =>
      cases hs : s with
      | nil => exact nil
      | cons b t =>
          obtain ⟨⟨r, rest⟩, hr⟩ : ∃ p, nextRune (b :: t) = some p := ⟨_, rfl⟩
          have hlt := nextRune_lt _ r rest hr
          rw [← hs, hn] at hlt
          exact rune _ r rest hr (ih rest.length hlt rest rfl)

/-- Nothing is lost. -/
theorem flatMap_bytes (s : Bytes) : (runes s).flatMap Rune.bytes = s := by
  induction s using rune_induction with
  | nil => rfl
  | rune s r rest h ih => rw [runes_of_some h, List.flatMap_cons, ih, ← nextRune_bytes h]

/-! ## §2  Well-formed strings -/

/-- The replacement character U+FFFD. -/
def replacement : Bytes := [0xEF, 0xBF, 0xBD]

def Rune.coerced : Rune → Bytes
  | .char bs => bs
  | .bad _ => replacement

/-- The UTF-8 encoding of a code point; half a surrogate pair is none. -/
def encodeRune (c : ℕ) : Bytes :=
  if c < 0x80 then [UInt8.ofNat c]
  else if c < 0x800 then [UInt8.ofNat (0xC0 + c / 64), UInt8.ofNat (0x80 + c % 64)]
  else if 0xD800 ≤ c ∧ c < 0xE000 then replacement
  else if c < 0x10000 then
    [UInt8.ofNat (0xE0 + c / 4096), UInt8.ofNat (0x80 + c / 64 % 64), UInt8.ofNat (0x80 + c % 64)]
  else
    [UInt8.ofNat (0xF0 + c / 262144), UInt8.ofNat (0x80 + c / 4096 % 64),
      UInt8.ofNat (0x80 + c / 64 % 64), UInt8.ofNat (0x80 + c % 64)]

/-- The code point a character's bytes stand for. -/
def codePoint : Bytes → ℕ
  | [a] => a.toNat
  | [a, b] => a.toNat % 32 * 64 + b.toNat % 64
  | [a, b, c] => a.toNat % 16 * 4096 + b.toNat % 64 * 64 + c.toNat % 64
  | [a, b, c, d] =>
      a.toNat % 8 * 262144 + b.toNat % 64 * 4096 + c.toNat % 64 * 64 + d.toNat % 64
  | _ => 0

def Rune.code : Rune → ℕ
  | .char bs => codePoint bs
  | .bad _ => 0xFFFD

/-- The string with the replacement character for every bad byte. -/
def coerce (s : Bytes) : Bytes := (runes s).flatMap Rune.coerced

def Rune.isChar : Rune → Bool
  | .char _ => true
  | .bad _ => false

def Valid (s : Bytes) : Prop := (runes s).all Rune.isChar = true

instance (s : Bytes) : Decidable (Valid s) := inferInstanceAs (Decidable (_ = true))

theorem valid_of_some {s rest : Bytes} {r : Rune} (h : nextRune s = some (r, rest)) :
    Valid s ↔ r.isChar = true ∧ Valid rest := by
  rw [Valid, runes_of_some h, List.all_cons, Bool.and_eq_true]
  rfl

theorem coerce_of_some {s rest : Bytes} {r : Rune} (h : nextRune s = some (r, rest)) :
    coerce s = r.coerced ++ coerce rest := by
  rw [coerce, runes_of_some h, List.flatMap_cons]
  rfl

/-- A bad byte makes the string longer, so it cannot stay the same. -/
theorem length_le_coerce (s : Bytes) :
    s.length ≤ (coerce s).length ∧ (¬ Valid s → s.length < (coerce s).length) := by
  induction s using rune_induction with
  | nil => exact ⟨le_refl _, fun h => absurd rfl h⟩
  | rune s r rest h ih =>
      rw [coerce_of_some h, valid_of_some h]
      have hlen : s.length = r.bytes.length + rest.length := by
        conv_lhs => rw [nextRune_bytes h]
        exact List.length_append
      rw [hlen, List.length_append]
      cases r with
      | char bs =>
          refine ⟨Nat.add_le_add_left ih.1 _, fun hbad => Nat.add_lt_add_left (ih.2 ?_) _⟩
          exact fun hv => hbad ⟨rfl, hv⟩
      | bad b =>
          have hlt : ([b] : Bytes).length < replacement.length := Nat.one_lt_ofNat
          exact ⟨Nat.add_le_add hlt.le ih.1, fun _ => Nat.add_lt_add_of_lt_of_le hlt ih.1⟩

/-- **Well-formed strings** are the ones that stay as they are. -/
theorem coerce_eq_iff (s : Bytes) : coerce s = s ↔ Valid s := by
  constructor
  · intro h
    by_contra hbad
    have := (length_le_coerce s).2 hbad
    rw [h] at this
    exact lt_irrefl _ this
  · intro h
    have hsame : ∀ r ∈ runes s, r.coerced = r.bytes := by
      intro r hr
      cases r with
      | char bs => rfl
      | bad b => exact absurd (List.all_eq_true.mp h _ hr) Bool.false_ne_true
    rw [coerce, List.flatMap_congr hsame, flatMap_bytes]

/-! ## §3  ASCII -/

theorem lead_lo {b lo hi : UInt8} {n : ℕ} (h : lead b = some (lo, hi, n)) : 0x80 ≤ lo := by
  unfold lead at h
  split_ifs at h <;> cases h <;> decide

theorem isTail_of_lt {b : UInt8} (h : b < 0x80) : isTail b = false :=
  decide_eq_false fun ht => absurd h (not_lt.mpr ht.1)

/-- A character is read whatever follows it. -/
theorem nextRune_char {s rest : Bytes} {bs : Bytes} (h : nextRune s = some (.char bs, rest))
    (t : Bytes) : nextRune (bs ++ t) = some (.char bs, t) := by
  rcases nextRune_cases h with ⟨b, hb, -, hr⟩ |
    ⟨b, lo, hi, n, c, more, hb, hlead, -, ⟨hrange, hlen, htails⟩, hr, -⟩ | ⟨b, -, -, hr, -⟩
  · cases hr
    exact nextRune_ascii hb t
  · cases hr
    have htake : (more.take n).length = n := List.length_take_of_le hlen
    have hown : (more.take n ++ t).take n = more.take n := by
      rw [List.take_append_of_le_length htake.ge, List.take_take, Nat.min_self]
    have hcont : Continues lo hi n c (more.take n ++ t) := by
      refine ⟨hrange, ?_, by rw [hown]; exact htails⟩
      rw [List.length_append, htake]
      exact Nat.le_add_right _ _
    show nextRune (b :: c :: (more.take n ++ t)) = _
    rw [nextRune_multiByte hb, multiByte_of_continues hlead hcont, hown]
    congr 2
    exact List.drop_left' htake
  · cases hr

/-- What was made well formed is. -/
theorem valid_coerce (s : Bytes) : Valid (coerce s) := by
  induction s using rune_induction with
  | nil => rfl
  | rune s r rest h ih =>
      rw [coerce_of_some h]
      cases r with
      | char bs => exact (valid_of_some (nextRune_char h (coerce rest))).mpr ⟨rfl, ih⟩
      | bad b =>
          have hrep : nextRune replacement = some (.char replacement, []) := by decide
          exact (valid_of_some (nextRune_char hrep (coerce rest))).mpr ⟨rfl, ih⟩

/-- A bad byte stays bad before an ASCII byte: no character runs over one. -/
theorem not_continues_append {lo hi c x : UInt8} {n : ℕ} {s t more : Bytes} (hlo : 0x80 ≤ lo)
    (hno : ∀ c more, s = c :: more → ¬ Continues lo hi n c more) (hx : x < 0x80)
    (hs : s ++ x :: t = c :: more) : ¬ Continues lo hi n c more := by
  rintro ⟨⟨hc, hhi⟩, hlen, htails⟩
  cases s with
  | nil =>
      obtain ⟨rfl, -⟩ := List.cons.inj hs
      exact absurd hx (not_lt.mpr (hlo.trans hc))
  | cons d s =>
      rw [List.cons_append] at hs
      obtain ⟨rfl, rfl⟩ := List.cons.inj hs
      by_cases hn : n ≤ s.length
      · refine hno d s rfl ⟨⟨hc, hhi⟩, hn, ?_⟩
        rwa [List.take_append_of_le_length hn] at htails
      · have hmem : x ∈ (s ++ x :: t).take n := by
          obtain ⟨k, hk⟩ : ∃ k, n - s.length = k + 1 := ⟨n - s.length - 1, by omega⟩
          rw [List.take_append, hk, List.take_succ_cons]
          exact List.mem_append_right _ List.mem_cons_self
        have htail := List.all_eq_true.mp htails x hmem
        rw [isTail_of_lt hx] at htail
        cases htail

/-- An ASCII byte ends what stands before it. -/
theorem nextRune_append {a rest : Bytes} {r : Rune} (h : nextRune a = some (r, rest))
    {x : UInt8} (hx : x < 0x80) (t : Bytes) :
    nextRune (a ++ x :: t) = some (r, rest ++ x :: t) := by
  have hbytes := nextRune_bytes h
  rcases nextRune_cases h with ⟨b, -, -, rfl⟩ | ⟨b, lo, hi, n, c, more, -, -, -, -, rfl, -⟩ |
    ⟨b, hb, rfl, rfl, hno⟩
  · rw [hbytes, List.append_assoc]
    exact nextRune_char h _
  · rw [hbytes, List.append_assoc]
    exact nextRune_char h _
  · show nextRune (b :: (rest ++ x :: t)) = _
    rw [nextRune_multiByte hb]
    rcases multiByte_cases b (rest ++ x :: t) with ⟨lo, hi, n, c, more, hlead, hs, hc, -⟩ | ⟨hm, -⟩
    · exact absurd hc (not_continues_append (lead_lo hlead) (hno lo hi n hlead) hx hs)
    · rw [hm]

/-- **Parts that meet at an ASCII byte** are read each on its own. -/
theorem runes_append (a : Bytes) {x : UInt8} (hx : x < 0x80) (t : Bytes) :
    runes (a ++ x :: t) = runes a ++ .char [x] :: runes t := by
  induction a using rune_induction with
  | nil => exact runes_of_some (nextRune_ascii hx t)
  | rune s r rest h ih =>
      rw [runes_of_some (nextRune_append h hx t), runes_of_some h, ih, List.cons_append]

theorem runes_ascii : ∀ {s : Bytes}, (∀ b ∈ s, b < 0x80) → runes s = s.map fun b => .char [b]
  | [], _ => rfl
  | b :: s, h => by
      rw [runes_of_some (nextRune_ascii (h b List.mem_cons_self) s),
        runes_ascii fun c hc => h c (List.mem_cons_of_mem b hc), List.map_cons]

/-- An ASCII byte is a rune of every string it occurs in. -/
theorem char_mem_runes {s : Bytes} {x : UInt8} (hx : x < 0x80) (h : x ∈ s) :
    Rune.char [x] ∈ runes s := by
  obtain ⟨a, t, rfl⟩ := List.append_of_mem h
  rw [runes_append a hx]
  exact List.mem_append_right _ List.mem_cons_self

end KVEngine.Foundation.Utf8
