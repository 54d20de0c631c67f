import KVEngine.Foundation.Utf8
import Mathlib.Data.Nat.Digits.Defs

/-!
# Text

Decimal numbers, upper case, quoted strings and fields, as Go's `strconv`,
`strings` and `fmt` have them. A number that was written reads back
(`atoi_decimal`), and words joined by blanks come apart again (`fields_joined`).

Of the tables of Unicode only white space is written out.
-/

namespace KVEngine.Foundation.Text

open Utf8 (Rune runes codePoint encodeRune)

/-- The bytes of a literal. -/
def text (s : String) : Bytes := s.toUTF8.data.toList

/-! ## §1  Numbers -/

def hexDigit (n : ℕ) : UInt8 :=
  if n < 10 then UInt8.ofNat (48 + n) else UInt8.ofNat (87 + n)

/-- The low `k` hexadecimal digits. -/
def hex : ℕ → ℕ → Bytes
  | 0, _ => []
  | k + 1, n => hex k (n / 16) ++ [hexDigit (n % 16)]

def digit (d : ℕ) : UInt8 := UInt8.ofNat (48 + d)

/-- `%d` of a number that is not negative. -/
def decimal (n : ℕ) : Bytes :=
  (if n = 0 then [0] else Nat.digits 10 n).reverse.map digit

def digitValue (b : UInt8) : Option ℕ :=
  if 48 ≤ b ∧ b ≤ 57 then some (b.toNat - 48) else none

/-- A number without a sign. -/
def parseNat (s : Bytes) : Option ℕ :=
  if s = [] then none
  else (s.mapM digitValue).map fun ds => Nat.ofDigits 10 ds.reverse

/-- `strconv.Atoi`, for an `int` of 64 bits. -/
def atoi (s : Bytes) : Option ℤ :=
  match s with
  | 45 :: s => do
      let n ← parseNat s
      if n ≤ 2 ^ 63 then return -n else none
  | 43 :: s => do
      let n ← parseNat s
      if n < 2 ^ 63 then return n else none
  | s => do
      let n ← parseNat s
      if n < 2 ^ 63 then return n else none

/-- The digits that are written. -/
theorem decimal_digits (n : ℕ) : ∃ ds : List ℕ,
    decimal n = ds.map digit ∧ ds ≠ [] ∧ (∀ d ∈ ds, d < 10) ∧ Nat.ofDigits 10 ds.reverse = n := by
  by_cases hn : n = 0
  · subst hn
    exact ⟨[0], rfl, List.cons_ne_nil _ _, by decide, rfl⟩
  · refine ⟨(Nat.digits 10 n).reverse, by rw [decimal, if_neg hn], ?_, ?_, ?_⟩
    · rw [Ne, List.reverse_eq_nil_iff]
      exact Nat.digits_ne_nil_iff_ne_zero.mpr hn
    · intro d hd
      exact Nat.digits_lt_base (by decide) (List.mem_reverse.mp hd)
    · rw [List.reverse_reverse, Nat.ofDigits_digits]

theorem digitValue_digit : ∀ d < 10, digitValue (digit d) = some d := by decide

theorem digit_range : ∀ d < 10, 48 ≤ digit d ∧ digit d ≤ 57 := by decide

theorem mapM_digitValue : ∀ {ds : List ℕ}, (∀ d ∈ ds, d < 10) →
    (ds.map digit).mapM digitValue = some ds
  | [], _ => rfl
  | d :: ds, h => by
      rw [List.map_cons, List.mapM_cons, digitValue_digit d (h d List.mem_cons_self),
        mapM_digitValue fun e he => h e (List.mem_cons_of_mem d he)]
      rfl

theorem decimal_range {n : ℕ} {b : UInt8} (h : b ∈ decimal n) : 48 ≤ b ∧ b ≤ 57 := by
  obtain ⟨ds, hds, -, hlt, -⟩ := decimal_digits n
  rw [hds] at h
  obtain ⟨d, hd, rfl⟩ := List.mem_map.mp h
  exact digit_range d (hlt d hd)

theorem decimal_ne_nil (n : ℕ) : decimal n ≠ [] := by
  obtain ⟨ds, hds, hne, -, -⟩ := decimal_digits n
  rw [hds, Ne, List.map_eq_nil_iff]
  exact hne

theorem digits_of_mapM : ∀ {s : Bytes} {ds : List ℕ}, s.mapM digitValue = some ds →
    ∀ b ∈ s, 48 ≤ b ∧ b ≤ 57
  | [], _, _, b, hb => absurd hb List.not_mem_nil
  | x :: s, ds, h, b, hb => by
      rw [List.mapM_cons] at h
      obtain ⟨d, hd, h⟩ := Option.bind_eq_some_iff.mp h
      obtain ⟨ds', hds', -⟩ := Option.bind_eq_some_iff.mp h
      rcases List.mem_cons.mp hb with rfl | hb
      · unfold digitValue at hd
        split_ifs at hd with hrange
        exact hrange
      · exact digits_of_mapM hds' b hb

/-- A number without a sign consists of digits. -/
theorem parseNat_range {s : Bytes} {n : ℕ} (h : parseNat s = some n) :
    ∀ b ∈ s, 48 ≤ b ∧ b ≤ 57 := by
  unfold parseNat at h
  split_ifs at h
  obtain ⟨ds, hds, -⟩ := Option.map_eq_some_iff.mp h
  exact digits_of_mapM hds

theorem parseNat_decimal (n : ℕ) : parseNat (decimal n) = some n := by
  rw [parseNat, if_neg (decimal_ne_nil n)]
  obtain ⟨ds, hds, -, hlt, hval⟩ := decimal_digits n
  rw [hds, mapM_digitValue hlt, Option.map_some, hval]

/-- **Numbers.** -/
theorem atoi_decimal {n : ℕ} (h : n < 2 ^ 63) : atoi (decimal n) = some (n : ℤ) := by
  have hparse := parseNat_decimal n
  have hrange := fun b => @decimal_range n b
  unfold atoi
  split
  · rename_i s hs
    exact absurd (hrange 45 (hs ▸ List.mem_cons_self)) (by decide)
  · rename_i s hs
    exact absurd (hrange 43 (hs ▸ List.mem_cons_self)) (by decide)
  · rw [hparse]
    exact if_pos h

/-! ## §2  Case and quotes -/

/-- What is taken from the tables of Unicode. -/
structure Tables where
  upper : ℕ → ℕ
  isPrint : ℕ → Bool

def upperAscii (b : UInt8) : UInt8 := if 97 ≤ b ∧ b ≤ 122 then b - 32 else b

/-- `strings.ToUpper` -/
def toUpper (tables : Tables) (s : Bytes) : Bytes :=
  if s.all (· < 0x80) then s.map upperAscii
  else (runes s).flatMap fun r => encodeRune (tables.upper r.code)

/-- `strconv.IsPrint` -/
def isPrint (tables : Tables) (c : ℕ) : Bool :=
  if c < 0x80 then 32 ≤ c && c < 127 else tables.isPrint c

def quoteRune (tables : Tables) : Rune → Bytes
  | .bad b => text "\\x" ++ hex 2 b.toNat
  | .char bs =>
      let c := codePoint bs
      if c = 34 ∨ c = 92 then 92 :: bs
      else if isPrint tables c then bs
      else if c = 7 then text "\\a"
      else if c = 8 then text "\\b"
      else if c = 12 then text "\\f"
      else if c = 10 then text "\\n"
      else if c = 13 then text "\\r"
      else if c = 9 then text "\\t"
      else if c = 11 then text "\\v"
      else if c < 32 ∨ c = 127 then text "\\x" ++ hex 2 c
      else if c < 0x10000 then text "\\u" ++ hex 4 c
      else text "\\U" ++ hex 8 c

/-- `%q` -/
def quoted (tables : Tables) (s : Bytes) : Bytes :=
  34 :: ((runes s).flatMap (quoteRune tables) ++ [34])

/-! ## §3  Fields -/

/-- `unicode.IsSpace` -/
def isSpace (r : Rune) : Bool :=
  decide (r.code ∈ [9, 10, 11, 12, 13, 32, 0x85, 0xA0, 0x1680, 0x2028, 0x2029, 0x202F, 0x205F,
    0x3000] ∨ 0x2000 ≤ r.code ∧ r.code ≤ 0x200A)

/-- `strings.Fields`: the runs of runes between white space. -/
def fields (s : Bytes) : List Bytes :=
  (((runes s).splitOnP isSpace).filter (· ≠ [])).map fun rs => rs.flatMap Rune.bytes

/-- A string that is one field. -/
def Word (s : Bytes) : Prop := s ≠ [] ∧ (runes s).all (fun r => !isSpace r) = true

instance decidableWord (s : Bytes) : Decidable (Word s) := inferInstanceAs (Decidable (_ ∧ _))

theorem runes_ne_nil {s : Bytes} (h : s ≠ []) : runes s ≠ [] := by
  intro hnil
  apply h
  rw [← Utf8.flatMap_bytes s, hnil]
  rfl

theorem Word.not_isSpace {s : Bytes} (h : Word s) {r : Rune} (hr : r ∈ runes s) :
    isSpace r = false := by
  have := List.all_eq_true.mp h.2 r hr
  simpa using this

theorem Word.fields {s : Bytes} (h : Word s) : fields s = [s] := by
  have hne : (runes s ≠ []) = True := eq_true (runes_ne_nil h.1)
  rw [Text.fields, List.splitOnP_eq_singleton fun r hr => h.not_isSpace hr]
  simp [hne, Utf8.flatMap_bytes]

/-- A blank separates. -/
theorem fields_append (a : Bytes) {x : UInt8} (hx : x < 0x80)
    (hspace : isSpace (.char [x]) = true) (t : Bytes) :
    fields (a ++ x :: t) = fields a ++ fields t := by
  rw [fields, Utf8.runes_append a hx, List.splitOnP_append_cons _ _ hspace, List.filter_append,
    List.map_append]
  rfl

/-- A line of words. -/
def joined : List Bytes → Bytes
  | [] => []
  | [w] => w
  | w :: ws => w ++ 32 :: joined ws

theorem joined_cons {ws : List Bytes} (h : ws ≠ []) (w : Bytes) :
    joined (w :: ws) = w ++ 32 :: joined ws := by
  cases ws with
  | nil => exact absurd rfl h
  | cons v vs => rfl

/-- **Words** joined by blanks come apart again. -/
theorem fields_joined : ∀ {ws : List Bytes}, (∀ w ∈ ws, Word w) → fields (joined ws) = ws
  | [], _ => rfl
  | [w], h => (h w List.mem_cons_self).fields
  | w :: v :: vs, h => by
      rw [joined_cons (List.cons_ne_nil v vs), fields_append w (by decide) (by decide),
        (h w List.mem_cons_self).fields, fields_joined fun u hu => h u (List.mem_cons_of_mem w hu)]
      rfl

/-- No ASCII white space is part of a word. -/
theorem Word.not_mem {s : Bytes} (h : Word s) {x : UInt8} (hx : x < 0x80)
    (hspace : isSpace (.char [x]) = true) : x ∉ s := by
  intro hmem
  rw [h.not_isSpace (Utf8.char_mem_runes hx hmem)] at hspace
  cases hspace

theorem word_ascii {s : Bytes} (hne : s ≠ []) (h : ∀ b ∈ s, 33 ≤ b ∧ b < 0x80) : Word s := by
  refine ⟨hne, List.all_eq_true.mpr fun r hr => ?_⟩
  rw [Utf8.runes_ascii fun b hb => (h b hb).2] at hr
  obtain ⟨b, hb, rfl⟩ := List.mem_map.mp hr
  have hlo : 33 ≤ b.toNat := UInt8.le_iff_toNat_le.mp (h b hb).1
  have hhi : b.toNat < 128 := UInt8.lt_iff_toNat_lt.mp (h b hb).2
  simp only [isSpace, Rune.code, codePoint, Bool.not_eq_true', decide_eq_false_iff_not,
    List.mem_cons, List.not_mem_nil, or_false]
  omega

theorem word_decimal (n : ℕ) : Word (decimal n) := by
  refine word_ascii (decimal_ne_nil n) fun b hb => ?_
  obtain ⟨hlo, hhi⟩ := decimal_range hb
  exact ⟨le_trans (by decide) hlo, lt_of_le_of_lt hhi (by decide)⟩

end KVEngine.Foundation.Text
