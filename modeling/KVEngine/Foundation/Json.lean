import KVEngine.Foundation.Text

/-!
# JSON

Strings as `encoding/json` writes and reads them. The writer escapes quotes,
backslashes, control characters, the three characters that mean something in HTML
and the two line separators of Unicode, and writes U+FFFD for a byte that begins
no character. What it writes reads back as the string made well formed
(`unquote_quote`), and so do objects whose values read back (`parseObjectOf_object`).
Byte strings are written in base64 and come back as they are (`readByteSlice_byteSlice`).
Of arrays and structs only the writer is here.
-/

namespace KVEngine.Foundation.Json

open Utf8 (Rune nextRune runes coerce rune_induction encodeRune)
open Text (hexDigit)

/-! ## §1  Writing strings -/

/-- An ASCII character: as it is, or after a backslash. -/
def escapeAscii (b : UInt8) : Bytes :=
  if b = 34 ∨ b = 92 then [92, b]
  else if b = 8 then [92, 98]
  else if b = 12 then [92, 102]
  else if b = 10 then [92, 110]
  else if b = 13 then [92, 114]
  else if b = 9 then [92, 116]
  else if b < 32 ∨ b = 60 ∨ b = 62 ∨ b = 38 then
    [92, 117, 48, 48, hexDigit (b.toNat / 16), hexDigit (b.toNat % 16)]
  else [b]

/-- Any other character: only U+2028 and U+2029 are escaped. -/
def escapeWide (bs : Bytes) : Bytes :=
  if bs = [0xE2, 0x80, 0xA8] then [92, 117, 50, 48, 50, 56]
  else if bs = [0xE2, 0x80, 0xA9] then [92, 117, 50, 48, 50, 57]
  else bs

def escape : Rune → Bytes
  | .bad _ => [92, 117, 102, 102, 102, 100]
  | .char [b] => escapeAscii b
  | .char bs => escapeWide bs

def quote (s : Bytes) : Bytes := 34 :: ((runes s).flatMap escape ++ [34])

/-! ## §2  Reading strings -/

def hexValue (b : UInt8) : Option ℕ :=
  if 48 ≤ b ∧ b ≤ 57 then some (b.toNat - 48)
  else if 97 ≤ b ∧ b ≤ 102 then some (b.toNat - 87)
  else if 65 ≤ b ∧ b ≤ 70 then some (b.toNat - 55)
  else none

/-- The four digits after a `\u`. -/
def hex4 : Bytes → Option (ℕ × Bytes)
  | a :: b :: c :: d :: rest => do
      let a ← hexValue a
      let b ← hexValue b
      let c ← hexValue c
      let d ← hexValue d
      return (((a * 16 + b) * 16 + c) * 16 + d, rest)
  | _ => none

/-- The code point that a surrogate and the escape behind it make together. -/
def surrogatePair (hi : ℕ) : Bytes → Option (ℕ × Bytes)
  | 92 :: 117 :: rest => do
      let (lo, rest) ← hex4 rest
      guard (0xD800 ≤ hi ∧ hi < 0xDC00 ∧ 0xDC00 ≤ lo ∧ lo < 0xE000)
      return (0x10000 + (hi - 0xD800) * 1024 + (lo - 0xDC00), rest)
  | _ => none

/-- What follows a backslash. -/
def unescape : Bytes → Option (Bytes × Bytes)
  | 34 :: rest => some ([34], rest)
  | 92 :: rest => some ([92], rest)
  | 47 :: rest => some ([47], rest)
  | 98 :: rest => some ([8], rest)
  | 102 :: rest => some ([12], rest)
  | 110 :: rest => some ([10], rest)
  | 114 :: rest => some ([13], rest)
  | 116 :: rest => some ([9], rest)
  | 117 :: rest => do
      let (c, rest) ← hex4 rest
      match surrogatePair c rest with
      | some (c, rest) => return (encodeRune c, rest)
      | none => return (encodeRune c, rest)
  | _ => none

/-- One element of a string: `none` for the closing quote. -/
def nextElement : Bytes → Option (Option Bytes × Bytes)
  | [] => none
  | b :: rest =>
      if b = 34 then some (none, rest)
      else if b = 92 then (unescape rest).map fun p => (some p.1, p.2)
      else if b < 32 then none
      else (nextRune (b :: rest)).map fun p => (some p.1.coerced, p.2)

/-- Elements up to the closing quote, at most `n` in all. -/
def unquoteUpTo : ℕ → Bytes → Option (Bytes × Bytes)
  | 0, _ => none
  | n + 1, s => do
      let (element, rest) ← nextElement s
      match element with
      | none => return ([], rest)
      | some bs =>
          let (tail, rest) ← unquoteUpTo n rest
          return (bs ++ tail, rest)

/-- A string from its opening quote on, and what follows it. -/
def unquote : Bytes → Option (Bytes × Bytes)
  | 34 :: s => unquoteUpTo s.length s
  | _ => none

/-! ## §3  What was written is read -/

theorem hexValue_hexDigit : ∀ n < 16, hexValue (hexDigit n) = some n := by decide

theorem surrogatePair_eq_none {c : ℕ} (h : ¬ (0xD800 ≤ c ∧ c < 0xDC00)) (t : Bytes) :
    surrogatePair c t = none := by
  unfold surrogatePair
  split
  · cases hex4 _ with
    | none => rfl
    | some p =>
        have hno : ¬ (0xD800 ≤ c ∧ c < 0xDC00 ∧ 0xDC00 ≤ p.1 ∧ p.1 < 0xE000) :=
          fun hp => h ⟨hp.1, hp.2.1⟩
        simp [guard, hno]
  · rfl

/-- An escape with four digits that is no half of a pair. -/
theorem nextElement_hex {s t : Bytes} {c : ℕ} (hs : hex4 s = some (c, t))
    (hc : ¬ (0xD800 ≤ c ∧ c < 0xDC00)) :
    nextElement (92 :: 117 :: s) = some (some (encodeRune c), t) := by
  have hun : unescape (117 :: s) = some (encodeRune c, t) := by
    rw [unescape, hs]
    show (match surrogatePair c t with
      | some (c, rest) => some (encodeRune c, rest)
      | none => some (encodeRune c, t)) = _
    rw [surrogatePair_eq_none hc]
  show (unescape (117 :: s)).map _ = _
  rw [hun]
  rfl

theorem nextElement_raw {b : UInt8} {s : Bytes} (hb : 32 ≤ b) (hquote : b ≠ 34)
    (hslash : b ≠ 92) :
    nextElement (b :: s) = (nextRune (b :: s)).map fun p => (some p.1.coerced, p.2) := by
  rw [nextElement, if_neg hquote, if_neg hslash, if_neg (not_lt.mpr hb)]

theorem nextElement_escapeAscii {b : UInt8} (hb : b < 0x80) (t : Bytes) :
    nextElement (escapeAscii b ++ t) = some (some [b], t) := by
  by_cases hshort : b = 34 ∨ b = 92 ∨ b = 8 ∨ b = 12 ∨ b = 10 ∨ b = 13 ∨ b = 9
  · rcases hshort with rfl | rfl | rfl | rfl | rfl | rfl | rfl <;> rfl
  · simp only [not_or] at hshort
    obtain ⟨h34, h92, h8, h12, h10, h13, h9⟩ := hshort
    rw [escapeAscii, if_neg (by simp [h34, h92]), if_neg h8, if_neg h12, if_neg h10, if_neg h13,
      if_neg h9]
    split
    · have hlt : b.toNat < 128 := hb
      have hhex : hex4 (48 :: 48 :: hexDigit (b.toNat / 16) :: hexDigit (b.toNat % 16) :: t) =
          some (b.toNat, t) := by
        rw [hex4, hexValue_hexDigit _ (by omega), hexValue_hexDigit _ (by omega)]
        show some (((0 * 16 + 0) * 16 + b.toNat / 16) * 16 + b.toNat % 16, t) = _
        rw [show ((0 * 16 + 0) * 16 + b.toNat / 16) * 16 + b.toNat % 16 = b.toNat by omega]
      have hone : encodeRune b.toNat = [b] := by
        rw [encodeRune, if_pos hlt, UInt8.ofNat_toNat]
      refine (nextElement_hex hhex (by omega)).trans ?_
      rw [hone]
    · rename_i hplain
      have h32 : 32 ≤ b := not_lt.mp fun h => hplain (Or.inl h)
      show nextElement (b :: t) = _
      rw [nextElement_raw h32 h34 h92, Utf8.nextRune_ascii hb]
      rfl

/-- **One character.** Whatever follows it. -/
theorem nextElement_escape {s rest : Bytes} {r : Rune} (h : nextRune s = some (r, rest))
    (t : Bytes) : nextElement (escape r ++ t) = some (some r.coerced, t) := by
  rcases Utf8.nextRune_cases h with ⟨b, hb, -, rfl⟩ |
    ⟨b, lo, hi, n, c, more, hb, -, -, -, rfl, -⟩ | ⟨b, -, -, rfl, -⟩
  · exact nextElement_escapeAscii hb t
  · show nextElement (escapeWide (b :: c :: more.take n) ++ t) = _
    unfold escapeWide
    split
    · rename_i hsep
      rw [hsep]
      exact nextElement_hex (c := 0x2028) rfl (by decide)
    · split
      · rename_i hsep
        rw [hsep]
        exact nextElement_hex (c := 0x2029) rfl (by decide)
      · have hchar := Utf8.nextRune_char h t
        have h34 : b ≠ 34 := by
          rintro rfl
          exact absurd hb (by decide)
        have h92 : b ≠ 92 := by
          rintro rfl
          exact absurd hb (by decide)
        have h32 : (32 : UInt8) ≤ b := le_trans (by decide) hb
        show nextElement (b :: (c :: more.take n ++ t)) = _
        rw [nextElement_raw h32 h34 h92]
        exact congrArg _ hchar
  · exact nextElement_hex (c := 0xFFFD) rfl (by decide)

theorem unquoteUpTo_escaped (s : Bytes) (t : Bytes) : ∀ {n : ℕ}, (runes s).length < n →
    unquoteUpTo n ((runes s).flatMap escape ++ 34 :: t) = some (coerce s, t) := by
  induction s using rune_induction with
  | nil =>
      intro n hn
      obtain ⟨n, rfl⟩ := Nat.exists_eq_add_of_lt hn
      rfl
  | rune s r rest h ih =>
      intro n hn
      rw [Utf8.runes_of_some h, List.length_cons] at hn
      obtain ⟨n, rfl⟩ : ∃ k, n = k + 1 := ⟨n - 1, by omega⟩
      rw [Utf8.runes_of_some h, List.flatMap_cons, List.append_assoc, unquoteUpTo,
        nextElement_escape h]
      show (unquoteUpTo n _).bind _ = _
      rw [ih (by omega), Utf8.coerce_of_some h]
      rfl

theorem escape_ne_nil {s rest : Bytes} {r : Rune} (h : nextRune s = some (r, rest)) :
    escape r ≠ [] := by
  intro hnil
  have := nextElement_escape h []
  rw [hnil] at this
  cases this

theorem length_runes_le (s : Bytes) : (runes s).length ≤ ((runes s).flatMap escape).length := by
  induction s using rune_induction with
  | nil => exact le_refl _
  | rune s r rest h ih =>
      have := List.length_pos_of_ne_nil (escape_ne_nil h)
      rw [Utf8.runes_of_some h, List.length_cons, List.flatMap_cons, List.length_append]
      omega

/-- **Strings.** -/
theorem unquote_quote (s t : Bytes) : unquote (quote s ++ t) = some (coerce s, t) := by
  have hlen := length_runes_le s
  have hquote : quote s ++ t = 34 :: ((runes s).flatMap escape ++ 34 :: t) := by
    rw [quote, List.cons_append, List.append_assoc]
    rfl
  rw [hquote, unquote]
  refine unquoteUpTo_escaped s t ?_
  rw [List.length_append, List.length_cons]
  omega

/-! ## §4  Objects

White space is left out: the writer makes none. -/

def field (name value : Bytes) : Bytes := quote name ++ 58 :: value

def object (fields : List Bytes) : Bytes := 123 :: ([44].intercalate fields ++ [125])

section Objects

variable {V W : Type}

/-- A name, a colon and what `value` reads. -/
def parseField (value : Bytes → Option (V × Bytes)) (s : Bytes) :
    Option ((Bytes × V) × Bytes) := do
  let (name, s) ← unquote s
  match s with
  | 58 :: s =>
      let (v, s) ← value s
      return ((name, v), s)
  | _ => none

/-- Fields up to the closing brace, at most `n` of them. -/
def parseFields (value : Bytes → Option (V × Bytes)) :
    ℕ → Bytes → Option (List (Bytes × V) × Bytes)
  | 0, _ => none
  | n + 1, s => do
      let (m, s) ← parseField value s
      match s with
      | 44 :: s =>
          let (ms, s) ← parseFields value n s
          return (m :: ms, s)
      | 125 :: s => return ([m], s)
      | _ => none

def parseObjectOf (value : Bytes → Option (V × Bytes)) :
    Bytes → Option (List (Bytes × V) × Bytes)
  | 123 :: s =>
      match s with
      | 125 :: s => some ([], s)
      | _ => parseFields value s.length s
  | _ => none

/-- The fields of an object, each with its value written. -/
def fieldsOf (write : W → Bytes) (ms : List (Bytes × W)) : List Bytes :=
  ms.map fun m => field m.1 (write m.2)

/-- The fields as they are read back, if `f` is what becomes of the values. -/
def readFields (f : W → V) (ms : List (Bytes × W)) : List (Bytes × V) :=
  ms.map fun m => (coerce m.1, f m.2)

theorem intercalate_fieldsOf (write : W → Bytes) (m m' : Bytes × W) (ms : List (Bytes × W)) :
    [44].intercalate (fieldsOf write (m :: m' :: ms)) =
      field m.1 (write m.2) ++ (44 :: [44].intercalate (fieldsOf write (m' :: ms))) := by
  rw [fieldsOf, List.map_cons, List.map_cons, List.intercalate_cons_cons, List.append_assoc]
  rfl

variable {write : W → Bytes} {read : Bytes → Option (V × Bytes)} {f : W → V}

theorem parseField_field (hread : ∀ w t, read (write w ++ t) = some (f w, t)) (m : Bytes × W)
    (t : Bytes) :
    parseField read (field m.1 (write m.2) ++ t) = some ((coerce m.1, f m.2), t) := by
  rw [field, List.append_assoc, List.cons_append, parseField, unquote_quote]
  show (read (write m.2 ++ t)).bind _ = _
  rw [hread]
  rfl

theorem parseFields_fields (hread : ∀ w t, read (write w ++ t) = some (f w, t)) (t : Bytes) :
    ∀ (m : Bytes × W) (ms : List (Bytes × W)) {n : ℕ}, ms.length < n →
    parseFields read n ([44].intercalate (fieldsOf write (m :: ms)) ++ 125 :: t) =
      some (readFields f (m :: ms), t)
  | m, [], n, hn => by
      obtain ⟨n, rfl⟩ : ∃ k, n = k + 1 := ⟨n - 1, by omega⟩
      rw [parseFields, fieldsOf, List.map_singleton, List.intercalate_singleton,
        parseField_field hread]
      rfl
  | m, m' :: ms, n, hn => by
      obtain ⟨n, rfl⟩ : ∃ k, n = k + 1 := ⟨n - 1, by omega⟩
      rw [intercalate_fieldsOf, List.append_assoc, parseFields, parseField_field hread]
      show (parseFields read n ([44].intercalate (fieldsOf write (m' :: ms)) ++ 125 :: t)).bind _ =
        _
      rw [parseFields_fields hread t m' ms (by simpa using hn)]
      rfl

/-- Fields begin with a quote, and there are no more of them than bytes. -/
theorem fields_bytes (write : W → Bytes) : ∀ (m : Bytes × W) (ms : List (Bytes × W)),
    ∃ s, [44].intercalate (fieldsOf write (m :: ms)) = 34 :: s ∧ ms.length ≤ s.length
  | m, [] => ⟨_, List.intercalate_singleton, Nat.zero_le _⟩
  | m, m' :: ms => by
      obtain ⟨s, hs, hlen⟩ := fields_bytes write m' ms
      rw [intercalate_fieldsOf, hs]
      refine ⟨((runes m.1).flatMap escape ++ [34] ++ 58 :: write m.2) ++ 44 :: 34 :: s, rfl, ?_⟩
      rw [List.length_append, List.length_cons, List.length_cons, List.length_cons]
      omega

/-- **Objects.** -/
theorem parseObjectOf_object (hread : ∀ w t, read (write w ++ t) = some (f w, t))
    (ms : List (Bytes × W)) (t : Bytes) :
    parseObjectOf read (object (fieldsOf write ms) ++ t) = some (readFields f ms, t) := by
  cases ms with
  | nil => rfl
  | cons m ms =>
      have hobject : object (fieldsOf write (m :: ms)) ++ t =
          123 :: ([44].intercalate (fieldsOf write (m :: ms)) ++ 125 :: t) := by
        rw [object, List.cons_append, List.append_assoc]
        rfl
      obtain ⟨s, hs, hlen⟩ := fields_bytes write m ms
      have hfields := parseFields_fields hread t m ms (n := (34 :: s ++ 125 :: t).length) (by
        rw [List.length_append, List.length_cons]
        omega)
      rw [hobject]
      rw [hs] at hfields ⊢
      exact hfields

end Objects

/-! ### Objects of strings -/

/-- The members of an object, in the order written. -/
abbrev Members : Type := List (Bytes × Bytes)

/-- An object whose values are strings. -/
def marshal (ms : Members) : Bytes := object (fieldsOf quote ms)

def parseObject : Bytes → Option (Members × Bytes) := parseObjectOf unquote

/-- A member as it is read back. -/
def coerceMember (m : Bytes × Bytes) : Bytes × Bytes := (coerce m.1, coerce m.2)

theorem parseObject_marshal (ms : Members) (t : Bytes) :
    parseObject (marshal ms ++ t) = some (ms.map coerceMember, t) :=
  parseObjectOf_object unquote_quote ms t

/-! ## §5  Writing values

Byte strings, arrays and structs. A struct's fields are written in the order
declared; a nil slice is `null`. -/

/-- The alphabet of `base64.StdEncoding`. -/
def base64Digit (n : ℕ) : UInt8 :=
  if n < 26 then UInt8.ofNat (65 + n)
  else if n < 52 then UInt8.ofNat (71 + n)
  else if n < 62 then UInt8.ofNat (n - 4)
  else if n = 62 then 43 else 47

/-- `base64.StdEncoding`: three bytes become four digits, `=` fills up the last
group. -/
def base64 : Bytes → Bytes
  | [] => []
  | [a] => [base64Digit (a.toNat / 4), base64Digit (a.toNat % 4 * 16), 61, 61]
  | [a, b] =>
      [base64Digit (a.toNat / 4), base64Digit (a.toNat % 4 * 16 + b.toNat / 16),
       base64Digit (b.toNat % 16 * 4), 61]
  | a :: b :: c :: rest =>
      base64Digit (a.toNat / 4) :: base64Digit (a.toNat % 4 * 16 + b.toNat / 16) ::
        base64Digit (b.toNat % 16 * 4 + c.toNat / 64) :: base64Digit (c.toNat % 64) ::
        base64 rest

example : base64 (Text.text "light wo") = Text.text "bGlnaHQgd28=" := by decide +kernel

def null : Bytes := Text.text "null"

/-- A `[]byte`. -/
def byteSlice : Option Bytes → Bytes
  | none => null
  | some s => 34 :: (base64 s ++ [34])

def array (values : List Bytes) : Bytes := 91 :: ([44].intercalate values ++ [93])

/-! ### Lengths -/

theorem length_le_base64 (s : Bytes) : s.length ≤ (base64 s).length := by
  induction s using base64.induct with
  | case1 => exact le_rfl
  | case2 a => simp [base64]
  | case3 a b => simp [base64]
  | case4 a b c rest ih =>
      simp only [base64, List.length_cons]
      omega

theorem length_le_byteSlice (s : Option Bytes) : (s.getD []).length ≤ (byteSlice s).length := by
  cases s with
  | none => exact Nat.zero_le _
  | some s =>
      have h := length_le_base64 s
      simp only [Option.getD_some, byteSlice, List.length_cons, List.length_append]
      omega

theorem sum_length_le_intercalate (sep : Bytes) : ∀ xs : List Bytes,
    (xs.map List.length).sum ≤ (sep.intercalate xs).length
  | [] => Nat.zero_le _
  | [x] => by simp [List.intercalate_singleton]
  | x :: y :: xs => by
      have ih := sum_length_le_intercalate sep (y :: xs)
      rw [List.intercalate_cons_cons, List.map_cons, List.sum_cons, List.length_append,
        List.length_append]
      omega

theorem sum_length_le_array (values : List Bytes) :
    (values.map List.length).sum ≤ (array values).length := by
  have h := sum_length_le_intercalate [44] values
  simp only [array, List.length_cons, List.length_append]
  omega

/-- An object is not shorter than the value of any of its fields. -/
theorem length_le_object (name : Bytes) {fields : List Bytes} {value : Bytes}
    (h : field name value ∈ fields) : value.length ≤ (object fields).length := by
  have hsum := sum_length_le_intercalate [44] fields
  have hfield : (field name value).length ≤ (fields.map List.length).sum := by
    rw [← List.length_flatten]
    exact (List.sublist_flatten_of_mem h).length_le
  simp only [field, List.length_append, List.length_cons] at hfield
  simp only [object, List.length_cons, List.length_append]
  omega

/-! ## §6  Reading byte strings

Line breaks inside base64 are left out: the writer makes none. -/

def base64Value (b : UInt8) : Option ℕ :=
  if 65 ≤ b ∧ b ≤ 90 then some (b.toNat - 65)
  else if 97 ≤ b ∧ b ≤ 122 then some (b.toNat - 71)
  else if 48 ≤ b ∧ b ≤ 57 then some (b.toNat + 4)
  else if b = 43 then some 62
  else if b = 47 then some 63
  else none

/-- Groups of four digits; only the last may be filled up with `=`. -/
def unbase64 : Bytes → Option Bytes
  | [] => some []
  | a :: b :: c :: d :: rest =>
      if rest = [] ∧ d = 61 then
        if c = 61 then do
          let a ← base64Value a
          let b ← base64Value b
          return [UInt8.ofNat (a * 4 + b / 16)]
        else do
          let a ← base64Value a
          let b ← base64Value b
          let c ← base64Value c
          return [UInt8.ofNat (a * 4 + b / 16), UInt8.ofNat (b % 16 * 16 + c / 4)]
      else do
        let a ← base64Value a
        let b ← base64Value b
        let c ← base64Value c
        let d ← base64Value d
        let rest ← unbase64 rest
        return UInt8.ofNat (a * 4 + b / 16) :: UInt8.ofNat (b % 16 * 16 + c / 4) ::
          UInt8.ofNat (c % 4 * 64 + d) :: rest
  | _ => none

def readByteSlice (s : Bytes) : Option (Option Bytes × Bytes) :=
  match s with
  | 110 :: 117 :: 108 :: 108 :: rest => some (none, rest)
  | _ => do
      let (digits, rest) ← unquote s
      let bs ← unbase64 digits
      return (some bs, rest)

theorem base64Value_digit : ∀ n < 64, base64Value (base64Digit n) = some n := by decide

theorem base64Digit_ne {n : ℕ} (h : n < 64) : base64Digit n ≠ 61 := by
  intro heq
  have hvalue := base64Value_digit n h
  rw [heq] at hvalue
  cases hvalue

/-- The bytes that three or four digits of six bits are made of. -/
theorem ofNat_digits (a b c : UInt8) :
    UInt8.ofNat (a.toNat / 4 * 4 + (a.toNat % 4 * 16 + b.toNat / 16) / 16) = a ∧
      UInt8.ofNat ((a.toNat % 4 * 16 + b.toNat / 16) % 16 * 16 +
        (b.toNat % 16 * 4 + c.toNat / 64) / 4) = b ∧
      UInt8.ofNat ((b.toNat % 16 * 4 + c.toNat / 64) % 4 * 64 + c.toNat % 64) = c := by
  have ha := a.toNat_lt
  have hb := b.toNat_lt
  have hc := c.toNat_lt
  refine ⟨?_, ?_, ?_⟩
  · rw [show a.toNat / 4 * 4 + (a.toNat % 4 * 16 + b.toNat / 16) / 16 = a.toNat by omega,
      UInt8.ofNat_toNat]
  · rw [show (a.toNat % 4 * 16 + b.toNat / 16) % 16 * 16 +
      (b.toNat % 16 * 4 + c.toNat / 64) / 4 = b.toNat by omega, UInt8.ofNat_toNat]
  · rw [show (b.toNat % 16 * 4 + c.toNat / 64) % 4 * 64 + c.toNat % 64 = c.toNat by omega,
      UInt8.ofNat_toNat]

/-- **Base64.** -/
theorem unbase64_base64 (s : Bytes) : unbase64 (base64 s) = some s := by
  induction s using base64.induct with
  | case1 => rfl
  | case2 a =>
      have ha := a.toNat_lt
      rw [base64, unbase64, if_pos ⟨rfl, rfl⟩, if_pos rfl, base64Value_digit _ (by omega),
        base64Value_digit _ (by omega)]
      show some [UInt8.ofNat (a.toNat / 4 * 4 + a.toNat % 4 * 16 / 16)] = _
      rw [show a.toNat / 4 * 4 + a.toNat % 4 * 16 / 16 = a.toNat by omega, UInt8.ofNat_toNat]
  | case3 a b =>
      have ha := a.toNat_lt
      have hb := b.toNat_lt
      obtain ⟨hfirst, hsecond, -⟩ := ofNat_digits a b 0
      rw [base64, unbase64, if_pos ⟨rfl, rfl⟩, if_neg (base64Digit_ne (by omega)),
        base64Value_digit _ (by omega), base64Value_digit _ (by omega),
        base64Value_digit _ (by omega)]
      show some [UInt8.ofNat _, UInt8.ofNat _] = some [a, b]
      rw [hfirst]
      exact congrArg (fun x => some [a, x]) hsecond
  | case4 a b c rest ih =>
      have ha := a.toNat_lt
      have hb := b.toNat_lt
      have hc := c.toNat_lt
      obtain ⟨hfirst, hsecond, hthird⟩ := ofNat_digits a b c
      rw [base64, unbase64, if_neg fun h => base64Digit_ne (by omega) h.2,
        base64Value_digit _ (by omega), base64Value_digit _ (by omega),
        base64Value_digit _ (by omega), base64Value_digit _ (by omega), ih]
      show some (UInt8.ofNat _ :: UInt8.ofNat _ :: UInt8.ofNat _ :: rest) = _
      rw [hfirst, hsecond, hthird]

/-- Digits and `=` need no escape. -/
theorem escapeAscii_digit (n : ℕ) :
    base64Digit n < 0x80 ∧ escapeAscii (base64Digit n) = [base64Digit n] := by
  by_cases h : n < 64
  · have hall : ∀ k < 64, base64Digit k < 0x80 ∧ escapeAscii (base64Digit k) = [base64Digit k] := by
      decide
    exact hall n h
  · have hlast : base64Digit n = 47 := by
      rw [base64Digit, if_neg (by omega), if_neg (by omega), if_neg (by omega), if_neg (by omega)]
    rw [hlast]
    decide

theorem mem_base64 {s : Bytes} : ∀ b ∈ base64 s, b < 0x80 ∧ escapeAscii b = [b] := by
  have hpad : (61 : UInt8) < 0x80 ∧ escapeAscii 61 = [61] := by decide
  induction s using base64.induct with
  | case1 => simp [base64]
  | case2 a => simp [base64, escapeAscii_digit, hpad]
  | case3 a b => simp [base64, escapeAscii_digit, hpad]
  | case4 a b c rest ih => simpa [base64, escapeAscii_digit] using ih

theorem quote_base64 (s : Bytes) : quote (base64 s) = 34 :: (base64 s ++ [34]) := by
  have hrunes := Utf8.runes_ascii fun b hb => (mem_base64 (s := s) b hb).1
  have hplain : (base64 s).flatMap (fun b => escape (.char [b])) =
      (base64 s).flatMap fun b => [b] :=
    List.flatMap_congr fun b hb => (mem_base64 b hb).2
  rw [quote, hrunes, List.flatMap_map, hplain, List.flatMap_singleton']

/-- **Byte strings.** -/
theorem readByteSlice_byteSlice (v : Option Bytes) (t : Bytes) :
    readByteSlice (byteSlice v ++ t) = some (v, t) := by
  cases v with
  | none =>
      have hnull : null = [110, 117, 108, 108] := by decide
      rw [byteSlice, hnull]
      rfl
  | some s =>
      have hvalid : coerce (base64 s) = base64 s := by
        rw [coerce, Utf8.runes_ascii fun b hb => (mem_base64 b hb).1, List.flatMap_map]
        exact List.flatMap_singleton' _
      have hunquote := unquote_quote (base64 s) t
      rw [hvalid, quote_base64] at hunquote
      have hread : readByteSlice (byteSlice (some s) ++ t) =
          (unquote (34 :: (base64 s ++ [34]) ++ t)).bind fun x =>
            (unbase64 x.1).bind fun bs => some (some bs, x.2) := rfl
      rw [hread, hunquote]
      show (unbase64 (base64 s)).bind _ = _
      rw [unbase64_base64]
      rfl

end KVEngine.Foundation.Json
