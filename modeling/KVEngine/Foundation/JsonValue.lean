import KVEngine.Foundation.Json
import Mathlib.Data.Nat.Digits.Lemmas

/-!
# JSON values

`json.Unmarshal` checks the whole text against the grammar before it stores anything.
`parse` is that grammar, with its white space and its limit on nesting, and gives a value:
numbers as they are spelled, strings decoded. §3 is storing a value: `null` leaves a number,
a flag, a string or a struct as it is, an unknown name is skipped, a name counts whatever
its case, and the last of two members with one name wins.

The writers of `Json` write texts that `parse` reads whatever stands behind them
(`Reads`).
-/

namespace KVEngine.Foundation.Json

open Utf8 (Rune runes coerce)
open Text (decimal parseNat upperAscii)

/-! ## §1  The grammar -/

inductive Value : Type where
  | null
  | bool (b : Bool)
  | number (literal : Bytes)
  | string (s : Bytes)
  | array (vs : List Value)
  | object (ms : List (Bytes × Value))

def isSpace (b : UInt8) : Bool := b = 32 ∨ b = 9 ∨ b = 13 ∨ b = 10

def skipSpace (s : Bytes) : Bytes := s.dropWhile isSpace

def isDigit (b : UInt8) : Bool := 48 ≤ b ∧ b ≤ 57

/-- At least one digit. -/
def spanDigits (s : Bytes) : Option (Bytes × Bytes) :=
  let ds := s.takeWhile isDigit
  if ds = [] then none else some (ds, s.dropWhile isDigit)

/-- A zero, or digits that do not begin with one. -/
def parseInteger : Bytes → Option (Bytes × Bytes)
  | 48 :: s => some ([48], s)
  | s => spanDigits s

def parseFraction : Bytes → Option (Bytes × Bytes)
  | 46 :: s => (spanDigits s).map fun p => (46 :: p.1, p.2)
  | s => some ([], s)

def parseExponent : Bytes → Option (Bytes × Bytes)
  | b :: s =>
      if b = 101 ∨ b = 69 then
        match s with
        | 43 :: s => (spanDigits s).map fun p => (b :: 43 :: p.1, p.2)
        | 45 :: s => (spanDigits s).map fun p => (b :: 45 :: p.1, p.2)
        | s => (spanDigits s).map fun p => (b :: p.1, p.2)
      else some ([], b :: s)
  | [] => some ([], [])

def parseSign : Bytes → Bytes × Bytes
  | 45 :: s => ([45], s)
  | s => ([], s)

/-- The literal of a number, and what follows it. -/
def parseNumber (s : Bytes) : Option (Bytes × Bytes) := do
  let (sign, s) := parseSign s
  let (int, s) ← parseInteger s
  let (frac, s) ← parseFraction s
  let (exp, s) ← parseExponent s
  return (sign ++ int ++ frac ++ exp, s)

section Compound

variable {V : Type} (value : Bytes → Option (V × Bytes))

/-- Values up to the closing bracket, at most `n` of them. -/
def parseElements : ℕ → Bytes → Option (List V × Bytes)
  | 0, _ => none
  | n + 1, s => do
      let (v, s) ← value s
      match skipSpace s with
      | 44 :: s =>
          let (vs, s) ← parseElements n s
          return (v :: vs, s)
      | 93 :: s => return ([v], s)
      | _ => none

/-- An array from behind its opening bracket on. -/
def parseArray (s : Bytes) : Option (List V × Bytes) :=
  match skipSpace s with
  | 93 :: s => some ([], s)
  | _ => parseElements value s.length s

def parseMember (s : Bytes) : Option ((Bytes × V) × Bytes) := do
  let (name, s) ← unquote (skipSpace s)
  match skipSpace s with
  | 58 :: s =>
      let (v, s) ← value s
      return ((name, v), s)
  | _ => none

/-- Members up to the closing brace, at most `n` of them. -/
def parseMembers : ℕ → Bytes → Option (List (Bytes × V) × Bytes)
  | 0, _ => none
  | n + 1, s => do
      let (m, s) ← parseMember value s
      match skipSpace s with
      | 44 :: s =>
          let (ms, s) ← parseMembers n s
          return (m :: ms, s)
      | 125 :: s => return ([m], s)
      | _ => none

/-- An object from behind its opening brace on. -/
def parseBraces (s : Bytes) : Option (List (Bytes × V) × Bytes) :=
  match skipSpace s with
  | 125 :: s => some ([], s)
  | _ => parseMembers value s.length s

end Compound

def parseScalar : Bytes → Option (Value × Bytes)
  | 110 :: 117 :: 108 :: 108 :: s => some (.null, s)
  | 116 :: 114 :: 117 :: 101 :: s => some (.bool true, s)
  | 102 :: 97 :: 108 :: 115 :: 101 :: s => some (.bool false, s)
  | 34 :: s => (unquote (34 :: s)).map fun p => (.string p.1, p.2)
  | s => (parseNumber s).map fun p => (.number p.1, p.2)

/-- A value, in which arrays and objects are at most `depth` deep. -/
def parseValue : ℕ → Bytes → Option (Value × Bytes)
  | 0, s => parseScalar (skipSpace s)
  | depth + 1, s =>
      match skipSpace s with
      | 91 :: s => (parseArray (parseValue depth) s).map fun p => (.array p.1, p.2)
      | 123 :: s => (parseBraces (parseValue depth) s).map fun p => (.object p.1, p.2)
      | s => parseScalar s

def maxNestingDepth : ℕ := 10000

/-- A text that is one value. -/
def parse (s : Bytes) : Option Value := do
  let (v, rest) ← parseValue maxNestingDepth s
  guard (skipSpace rest = [])
  return v

/-! ## §2  What the writers write -/

/-- What may stand behind a value. -/
def Follows (t : Bytes) : Prop := ∀ b ∈ t.head?, b = 44 ∨ b = 93 ∨ b = 125

/-- The text is read as the value, whatever follows it. -/
def Reads (depth : ℕ) (s : Bytes) (v : Value) : Prop :=
  ∀ t, Follows t → parseValue depth (s ++ t) = some (v, t)

section Reading

variable {d : ℕ} {t : Bytes}

theorem follows_comma (t : Bytes) : Follows (44 :: t) := by
  intro b hb
  exact Or.inl (Option.some.inj hb).symm

theorem follows_bracket (t : Bytes) : Follows (93 :: t) := by
  intro b hb
  exact Or.inr (Or.inl (Option.some.inj hb).symm)

theorem follows_brace (t : Bytes) : Follows (125 :: t) := by
  intro b hb
  exact Or.inr (Or.inr (Option.some.inj hb).symm)

theorem Follows.cases (h : Follows t) :
    t = [] ∨ ∃ b s, t = b :: s ∧ (b = 44 ∨ b = 93 ∨ b = 125) := by
  cases t with
  | nil => exact Or.inl rfl
  | cons b s => exact Or.inr ⟨b, s, rfl, h b rfl⟩

/-- A text that begins with no space. -/
theorem skipSpace_cons {b : UInt8} (h : isSpace b = false) (s : Bytes) :
    skipSpace (b :: s) = b :: s := by
  rw [skipSpace, List.dropWhile_cons, h]
  rfl

theorem reads_scalar {b : UInt8} {s : Bytes} {v : Value} (hb : isSpace b = false)
    (h91 : b ≠ 91) (h123 : b ≠ 123)
    (h : ∀ t, Follows t → parseScalar (b :: s ++ t) = some (v, t)) : Reads d (b :: s) v := by
  intro t ht
  have hskip : skipSpace (b :: s ++ t) = b :: s ++ t := skipSpace_cons hb (s ++ t)
  cases d with
  | zero =>
      rw [parseValue, hskip]
      exact h t ht
  | succ d =>
      rw [parseValue, hskip]
      split
      · rename_i heq
        cases heq
        exact absurd rfl h91
      · rename_i heq
        cases heq
        exact absurd rfl h123
      · exact h t ht

theorem reads_null : Reads d null .null :=
  reads_scalar (b := 110) (by decide) (by decide) (by decide) fun _ _ => rfl

theorem reads_quote (s : Bytes) : Reads d (quote s) (.string (coerce s)) := by
  refine reads_scalar (b := 34) (by decide) (by decide) (by decide) fun t _ => ?_
  show (unquote (quote s ++ t)).map _ = _
  rw [unquote_quote]
  rfl

def flag (b : Bool) : Bytes := if b then Text.text "true" else Text.text "false"

theorem reads_flag (b : Bool) : Reads d (flag b) (.bool b) := by
  cases b with
  | false => exact reads_scalar (b := 102) (by decide) (by decide) (by decide) fun _ _ => rfl
  | true => exact reads_scalar (b := 116) (by decide) (by decide) (by decide) fun _ _ => rfl

/-! ### Numbers -/

theorem spanDigits_append {ds : Bytes} (hne : ds ≠ []) (hds : ∀ b ∈ ds, isDigit b = true)
    (ht : Follows t) : spanDigits (ds ++ t) = some (ds, t) := by
  have hstop : t.takeWhile isDigit = [] ∧ t.dropWhile isDigit = t := by
    rcases ht.cases with rfl | ⟨b, s, rfl, rfl | rfl | rfl⟩
    · exact ⟨rfl, rfl⟩
    all_goals exact ⟨rfl, rfl⟩
  rw [spanDigits, List.takeWhile_append_of_pos hds, List.dropWhile_append_of_pos hds, hstop.1,
    hstop.2, List.append_nil, if_neg hne]

/-- Only zero is written with a zero in front. -/
theorem decimal_cases (n : ℕ) :
    decimal n = [48] ∨ ∃ b s, decimal n = b :: s ∧ b ≠ 48 := by
  by_cases hn : n = 0
  · subst hn
    exact Or.inl rfl
  · right
    have hne : Nat.digits 10 n ≠ [] := Nat.digits_ne_nil_iff_ne_zero.mpr hn
    have hlast := Nat.getLast_digit_ne_zero 10 hn
    have hlt := Nat.digits_lt_base (b := 10) (by decide) (List.getLast_mem hne)
    have hdigit : ∀ d < 10, d ≠ 0 → Text.digit d ≠ 48 := by decide
    refine ⟨_, (Nat.digits 10 n).dropLast.reverse.map Text.digit, ?_, hdigit _ hlt hlast⟩
    have hrev : (Nat.digits 10 n).reverse =
        (Nat.digits 10 n).getLast hne :: (Nat.digits 10 n).dropLast.reverse := by
      rw [← List.reverse_concat, List.dropLast_append_getLast hne]
    rw [decimal, if_neg hn, hrev, List.map_cons]

theorem parseNumber_decimal (n : ℕ) (ht : Follows t) :
    parseNumber (decimal n ++ t) = some (decimal n, t) := by
  have hdigits : ∀ b ∈ decimal n, isDigit b = true := by
    intro b hb
    exact decide_eq_true (Text.decimal_range hb)
  have hfrac : parseFraction t = some ([], t) ∧ parseExponent t = some ([], t) := by
    rcases ht.cases with rfl | ⟨b, s, rfl, rfl | rfl | rfl⟩
    · exact ⟨rfl, rfl⟩
    all_goals exact ⟨rfl, rfl⟩
  have hint : parseInteger (decimal n ++ t) = some (decimal n, t) := by
    rcases decimal_cases n with hzero | ⟨b, s, hdec, hb⟩
    · rw [hzero]
      rfl
    · rw [← spanDigits_append (Text.decimal_ne_nil n) hdigits ht, hdec]
      unfold parseInteger
      split
      · rename_i heq
        cases heq
        exact absurd rfl hb
      · rfl
  have hsign : parseSign (decimal n ++ t) = ([], decimal n ++ t) := by
    obtain ⟨b, s, hdec⟩ := List.exists_cons_of_ne_nil (Text.decimal_ne_nil n)
    have hb := Text.decimal_range (n := n) (b := b) (by rw [hdec]; exact List.mem_cons_self)
    rw [hdec]
    unfold parseSign
    split
    · rename_i heq
      cases heq
      exact absurd hb.1 (by decide)
    · rfl
  unfold parseNumber
  rw [hsign]
  dsimp only
  rw [hint]
  show (parseFraction t).bind _ = _
  rw [hfrac.1]
  show (parseExponent t).bind _ = _
  rw [hfrac.2]
  show some ([] ++ decimal n ++ [] ++ [], t) = _
  rw [List.nil_append, List.append_nil, List.append_nil]

theorem reads_decimal (n : ℕ) : Reads d (decimal n) (.number (decimal n)) := by
  obtain ⟨b, s, hdec⟩ := List.exists_cons_of_ne_nil (Text.decimal_ne_nil n)
  have hb := Text.decimal_range (n := n) (b := b) (by rw [hdec]; exact List.mem_cons_self)
  have hne : ∀ {c : UInt8}, ¬ (48 ≤ c ∧ c ≤ 57) → b ≠ c := fun hc heq => hc (heq ▸ hb)
  have hspace : isSpace b = false := by
    refine decide_eq_false ?_
    rintro (rfl | rfl | rfl | rfl) <;> exact absurd hb (by decide)
  have hnum := fun t (ht : Follows t) => parseNumber_decimal n ht
  rw [hdec] at hnum ⊢
  refine reads_scalar hspace (hne (by decide)) (hne (by decide)) fun t ht => ?_
  unfold parseScalar
  split
  · rename_i heq
    exact absurd (List.cons.inj heq).1 (hne (by decide))
  · rename_i heq
    exact absurd (List.cons.inj heq).1 (hne (by decide))
  · rename_i heq
    exact absurd (List.cons.inj heq).1 (hne (by decide))
  · rename_i heq
    exact absurd (List.cons.inj heq).1 (hne (by decide))
  · rw [hnum t ht]
    rfl

/-! ### Arrays and objects -/

theorem parseElements_append {value : Bytes → Option (Value × Bytes)} :
    ∀ (m : Bytes × Value) (ms : List (Bytes × Value)) {n : ℕ}, ms.length < n →
    (∀ x ∈ m :: ms, ∀ t, Follows t → value (x.1 ++ t) = some (x.2, t)) →
    parseElements value n ([44].intercalate ((m :: ms).map Prod.fst) ++ 93 :: t) =
      some ((m :: ms).map Prod.snd, t)
  | m, [], n, hn, h => by
      obtain ⟨n, rfl⟩ : ∃ k, n = k + 1 := ⟨n - 1, by omega⟩
      rw [parseElements, List.map_singleton, List.intercalate_singleton,
        h m List.mem_cons_self _ (follows_bracket t)]
      rfl
  | m, m' :: ms, n, hn, h => by
      obtain ⟨n, rfl⟩ : ∃ k, n = k + 1 := ⟨n - 1, by omega⟩
      have ih := parseElements_append m' ms (n := n) (by simpa using hn)
        fun x hx => h x (List.mem_cons_of_mem m hx)
      rw [List.map_cons, List.map_cons, List.intercalate_cons_cons, ← List.map_cons,
        List.append_assoc, List.append_assoc, List.singleton_append, parseElements,
        h m List.mem_cons_self _ (follows_comma _)]
      show (parseElements value n _).bind _ = _
      rw [ih]
      rfl

/-- Texts are not empty, so that there are no more of them than bytes. -/
theorem length_le_intercalate : ∀ (xs : List Bytes), (∀ x ∈ xs, x ≠ []) →
    xs.length ≤ ([44].intercalate xs).length
  | [], _ => Nat.zero_le _
  | [x], h => by
      rw [List.intercalate_singleton]
      exact List.length_pos_of_ne_nil (h x List.mem_cons_self)
  | x :: y :: xs, h => by
      have ih := length_le_intercalate (y :: xs) fun z hz => h z (List.mem_cons_of_mem x hz)
      rw [List.intercalate_cons_cons, List.length_append, List.length_append, List.length_cons]
      simp only [List.length_singleton]
      omega

theorem Reads.ne_nil {s : Bytes} {v : Value} (h : Reads d s v) : s ≠ [] := by
  rintro rfl
  have hempty := h [] (by simp [Follows])
  cases d <;> cases hempty

/-- A value does not begin with a closing bracket. -/
theorem parseValue_bracket {s s' : Bytes} (h : skipSpace s = 93 :: s') :
    parseValue d s = none := by
  cases d <;> rw [parseValue, h] <;> rfl

/-- **Arrays.** -/
theorem reads_array (ms : List (Bytes × Value)) (h : ∀ m ∈ ms, Reads d m.1 m.2) :
    Reads (d + 1) (array (ms.map Prod.fst)) (.array (ms.map Prod.snd)) := by
  intro t _
  have hvalue : parseValue (d + 1) (array (ms.map Prod.fst) ++ t) =
      (parseArray (parseValue d) ([44].intercalate (ms.map Prod.fst) ++ 93 :: t)).map
        fun p => (.array p.1, p.2) := by
    rw [parseValue, array, List.cons_append, List.append_assoc, skipSpace_cons (by decide)]
    rfl
  rw [hvalue]
  cases ms with
  | nil => rfl
  | cons m ms =>
      have hlen := length_le_intercalate ((m :: ms).map Prod.fst) (by
        intro x hx
        obtain ⟨y, hy, rfl⟩ := List.mem_map.mp hx
        exact (h y hy).ne_nil)
      rw [List.length_map, List.length_cons] at hlen
      have helements := parseElements_append (t := t) m ms
        (n := ([44].intercalate ((m :: ms).map Prod.fst) ++ 93 :: t).length)
        (by rw [List.length_append, List.length_cons]; omega) fun x hx => h x hx
      unfold parseArray
      split
      · rename_i heq
        obtain ⟨k, hk⟩ : ∃ k, ([44].intercalate ((m :: ms).map Prod.fst) ++ 93 :: t).length
            = k + 1 := Nat.exists_eq_succ_of_ne_zero (by
          rw [List.length_append, List.length_cons]
          omega)
        rw [hk, parseElements, parseValue_bracket heq] at helements
        cases helements
      · rw [helements]
        rfl

theorem parseMember_append {value : Bytes → Option (Value × Bytes)} (m : Bytes × Bytes × Value)
    (h : ∀ t, Follows t → value (m.2.1 ++ t) = some (m.2.2, t)) (ht : Follows t) :
    parseMember value (field m.1 m.2.1 ++ t) = some ((coerce m.1, m.2.2), t) := by
  have hskip : skipSpace (field m.1 m.2.1 ++ t) = field m.1 m.2.1 ++ t :=
    skipSpace_cons (b := 34) (by decide) _
  rw [parseMember, hskip, field, List.append_assoc, unquote_quote]
  show (value (m.2.1 ++ t)).bind _ = _
  rw [h t ht]
  rfl

theorem parseMembers_append {value : Bytes → Option (Value × Bytes)} :
    ∀ (m : Bytes × Bytes × Value) (ms : List (Bytes × Bytes × Value)) {n : ℕ}, ms.length < n →
    (∀ x ∈ m :: ms, ∀ t, Follows t → value (x.2.1 ++ t) = some (x.2.2, t)) →
    parseMembers value n
        ([44].intercalate ((m :: ms).map fun x => field x.1 x.2.1) ++ 125 :: t) =
      some ((m :: ms).map fun x => (coerce x.1, x.2.2), t)
  | m, [], n, hn, h => by
      obtain ⟨n, rfl⟩ : ∃ k, n = k + 1 := ⟨n - 1, by omega⟩
      rw [parseMembers, List.map_singleton, List.intercalate_singleton,
        parseMember_append m (h m List.mem_cons_self) (follows_brace t)]
      rfl
  | m, m' :: ms, n, hn, h => by
      obtain ⟨n, rfl⟩ : ∃ k, n = k + 1 := ⟨n - 1, by omega⟩
      have ih := parseMembers_append m' ms (n := n) (by simpa using hn)
        fun x hx => h x (List.mem_cons_of_mem m hx)
      rw [List.map_cons] at ih
      rw [List.map_cons, List.map_cons, List.intercalate_cons_cons, List.append_assoc,
        List.append_assoc, List.singleton_append, parseMembers,
        parseMember_append m (h m List.mem_cons_self) (follows_comma _)]
      show (parseMembers value n _).bind _ = _
      rw [ih]
      rfl

/-- **Objects.** -/
theorem reads_object (ms : List (Bytes × Bytes × Value)) (h : ∀ m ∈ ms, Reads d m.2.1 m.2.2) :
    Reads (d + 1) (object (ms.map fun m => field m.1 m.2.1))
      (.object (ms.map fun m => (coerce m.1, m.2.2))) := by
  intro t _
  have hvalue : parseValue (d + 1) (object (ms.map fun m => field m.1 m.2.1) ++ t) =
      (parseBraces (parseValue d)
        ([44].intercalate (ms.map fun m => field m.1 m.2.1) ++ 125 :: t)).map
          fun p => (.object p.1, p.2) := by
    rw [parseValue, object, List.cons_append, List.append_assoc, skipSpace_cons (by decide)]
    rfl
  rw [hvalue]
  cases ms with
  | nil => rfl
  | cons m ms =>
      have hlen := length_le_intercalate ((m :: ms).map fun m => field m.1 m.2.1) (by
        intro x hx
        obtain ⟨y, -, rfl⟩ := List.mem_map.mp hx
        exact List.cons_ne_nil _ _)
      rw [List.length_map, List.length_cons] at hlen
      have hmembers := parseMembers_append (t := t) m ms
        (n := ([44].intercalate ((m :: ms).map fun m => field m.1 m.2.1) ++ 125 :: t).length)
        (by rw [List.length_append, List.length_cons]; omega) fun x hx => h x hx
      obtain ⟨s, hs⟩ : ∃ s, [44].intercalate ((m :: ms).map fun m => field m.1 m.2.1) ++ 125 :: t =
          34 :: s := by
        cases ms with
        | nil => exact ⟨_, rfl⟩
        | cons m' ms => exact ⟨_, rfl⟩
      unfold parseBraces
      rw [hs] at hmembers ⊢
      rw [skipSpace_cons (by decide)]
      show (parseMembers (parseValue d) (34 :: s).length (34 :: s)).map _ = _
      rw [hmembers]
      rfl

/-- **Texts.** -/
theorem parse_of_reads {s : Bytes} {v : Value} (h : Reads maxNestingDepth s v) :
    parse s = some v := by
  have hvalue := h [] (by simp [Follows])
  rw [List.append_nil] at hvalue
  rw [parse, hvalue]
  rfl

end Reading

/-! ## §3  Storing a value -/

namespace Value

/-- An unsigned integer of `bits` bits: no sign, fraction or exponent, and in range. -/
def uint (bits : ℕ) (old : ℕ) : Value → Option ℕ
  | .null => some old
  | .number literal => do
      let n ← parseNat literal
      guard (n < 2 ^ bits)
      return n
  | _ => none

def flag (old : Bool) : Value → Option Bool
  | .null => some old
  | .bool b => some b
  | _ => none

def text (old : Bytes) : Value → Option Bytes
  | .null => some old
  | .string s => some s
  | _ => none

/-- Each element is stored into a zero value. -/
def slice {α : Type} (element : Value → Option α) : Value → Option (List α)
  | .null => some []
  | .array vs => vs.mapM element
  | _ => none

/-- A `[]byte`: base64, in which line breaks are skipped, or the numbers one by one. -/
def bytes : Value → Option (Option Bytes)
  | .null => some none
  | .string s => (unbase64 (s.filter fun b => b ≠ 10 ∧ b ≠ 13)).map some
  | .array vs => (vs.mapM (uint 8 0)).map fun ns => some (ns.map UInt8.ofNat)
  | _ => none

end Value

/-- A name in ASCII has the fold of the names that count as it: two letters outside ASCII
fold to letters in it. -/
def foldRune : Rune → Bytes
  | .char [b] => [upperAscii b]
  | .char [0xC5, 0xBF] => [83]
  | .char [0xE2, 0x84, 0xAA] => [75]
  | r => r.bytes

def foldName (s : Bytes) : Bytes := (runes s).flatMap foldRune

/-- A field of a struct `σ`. -/
structure Field (σ : Type) where
  name : Bytes
  store : Value → σ → Option σ

section Structs

variable {σ : Type} {fs : List (Field σ)}

/-- The field with the very name comes first. -/
def lookupField (fs : List (Field σ)) (key : Bytes) : Option (Field σ) :=
  (fs.find? fun f => f.name = key).or (fs.find? fun f => foldName f.name = foldName key)

def storeMember (fs : List (Field σ)) (x : σ) (m : Bytes × Value) : Option σ :=
  match lookupField fs m.1 with
  | some f => f.store m.2 x
  | none => some x

def Value.struct (fs : List (Field σ)) (x : σ) : Value → Option σ
  | .null => some x
  | .object ms => ms.foldlM (storeMember fs) x
  | _ => none

/-! ### Storing what was written -/

theorem Value.uint_decimal (bits old n : ℕ) :
    (Value.number (decimal n)).uint bits old = if n < 2 ^ bits then some n else none := by
  rw [Value.uint, Text.parseNat_decimal]
  by_cases h : n < 2 ^ bits
  · simp [h]
  · simp [h]

/-- The value that `byteSlice` writes. -/
def bytesValue : Option Bytes → Value
  | none => .null
  | some s => .string (base64 s)

theorem reads_byteSlice {d : ℕ} (s : Option Bytes) :
    Reads d (byteSlice s) (bytesValue s) := by
  cases s with
  | none => exact reads_null
  | some s =>
      have hvalid : coerce (base64 s) = base64 s := by
        rw [coerce, Utf8.runes_ascii fun b hb => (mem_base64 b hb).1, List.flatMap_map]
        exact List.flatMap_singleton' _
      have h := reads_quote (d := d) (base64 s)
      rwa [hvalid, quote_base64] at h

theorem Value.bytes_bytesValue (s : Option Bytes) : (bytesValue s).bytes = some s := by
  cases s with
  | none => rfl
  | some s =>
      have hplain : (base64 s).filter (fun b => b ≠ 10 ∧ b ≠ 13) = base64 s := by
        refine List.filter_eq_self.mpr fun b hb => ?_
        have hesc := (mem_base64 b hb).2
        refine decide_eq_true ⟨?_, ?_⟩ <;> rintro rfl <;> exact absurd hesc (by decide)
      rw [bytesValue, Value.bytes, hplain, unbase64_base64]
      rfl

theorem lookupField_of_mem {f : Field σ} (hn : (fs.map Field.name).Nodup) (hf : f ∈ fs) :
    lookupField fs f.name = some f := by
  have hfind : fs.find? (fun g => g.name = f.name) = some f := by
    induction fs with
    | nil => cases hf
    | cons g fs ih =>
        rw [List.map_cons, List.nodup_cons] at hn
        rcases List.mem_cons.mp hf with rfl | hf
        · exact List.find?_cons_of_pos (by simp)
        · have hne : g.name ≠ f.name := fun heq => hn.1 (heq ▸ List.mem_map_of_mem hf)
          rw [List.find?_cons_of_neg (by simpa using hne)]
          exact ih hn.2 hf
  rw [lookupField, hfind]
  rfl

end Structs

/-! ## §4  Structs -/

/-- A field with what is written for it, `n` deep at most. -/
structure Member (n : ℕ) (σ : Type) extends Field σ where
  write : σ → Bytes
  value : σ → Value
  reads : ∀ {depth : ℕ} (x : σ), n ≤ depth → Reads depth (write x) (value x)

section Members

variable {n : ℕ} {σ : Type}

def uint64Member (name : Bytes) (get : σ → ℕ) (set : σ → ℕ → σ) : Member n σ where
  name := name
  store v x := (v.uint 64 (get x)).map (set x)
  write x := decimal (get x)
  value x := .number (decimal (get x))
  reads x _ := reads_decimal (get x)

def stringMember (name : Bytes) (get : σ → Bytes) (set : σ → Bytes → σ) : Member n σ where
  name := name
  store v x := (v.text (get x)).map (set x)
  write x := quote (get x)
  value x := .string (coerce (get x))
  reads x _ := reads_quote (get x)

def boolMember (name : Bytes) (get : σ → Bool) (set : σ → Bool → σ) : Member n σ where
  name := name
  store v x := (v.flag (get x)).map (set x)
  write x := flag (get x)
  value x := .bool (get x)
  reads x _ := reads_flag (get x)

def bytesMember (name : Bytes) (get : σ → Option Bytes) (set : σ → Option Bytes → σ) :
    Member n σ where
  name := name
  store v x := v.bytes.map (set x)
  write x := byteSlice (get x)
  value x := bytesValue (get x)
  reads x _ := reads_byteSlice (get x)

/-! What storing the written value does. -/

section Stores

variable (name : Bytes) (x y : σ)

theorem store_uint64Member (get : σ → ℕ) (set : σ → ℕ → σ) :
    let m : Member n σ := uint64Member name get set
    m.store (m.value x) y = if get x < 2 ^ 64 then some (set y (get x)) else none := by
  show (Value.uint 64 (get y) (.number (decimal (get x)))).map (set y) = _
  rw [Value.uint_decimal]
  split <;> rfl

theorem store_stringMember (get : σ → Bytes) (set : σ → Bytes → σ) :
    let m : Member n σ := stringMember name get set
    m.store (m.value x) y = some (set y (coerce (get x))) := rfl

theorem store_boolMember (get : σ → Bool) (set : σ → Bool → σ) :
    let m : Member n σ := boolMember name get set
    m.store (m.value x) y = some (set y (get x)) := rfl

theorem store_bytesMember (get : σ → Option Bytes) (set : σ → Option Bytes → σ) :
    let m : Member n σ := bytesMember name get set
    m.store (m.value x) y = some (set y (get x)) := by
  show (bytesValue (get x)).bytes.map (set y) = _
  rw [Value.bytes_bytesValue]
  rfl

end Stores

/-- A struct type: its members have names of their own, in Unicode. -/
structure Codec (n : ℕ) (σ : Type) where
  members : List (Member n σ)
  zero : σ
  nodup : (members.map fun m => m.name).Nodup
  valid : ∀ m ∈ members, coerce m.name = m.name

namespace Codec

variable (C : Codec n σ)

def marshal (x : σ) : Bytes := object (C.members.map fun m => field m.name (m.write x))

def value (x : σ) : Value := .object (C.members.map fun m => (m.name, m.value x))

def store (x : σ) (v : Value) : Option σ := v.struct (C.members.map Member.toField) x

/-- What the members of `x` leave behind, stored one after the other. -/
def stored (x : σ) : Option σ := C.members.foldlM (fun y m => m.store (m.value x) y) C.zero

/-- `json.Unmarshal` into a fresh struct. -/
def unmarshal (s : Bytes) : Option σ := do
  let v ← parse s
  C.store C.zero v

theorem reads_marshal (x : σ) {depth : ℕ} (hd : n < depth) :
    Reads depth (C.marshal x) (C.value x) := by
  obtain ⟨d, rfl⟩ : ∃ d, depth = d + 1 := ⟨depth - 1, by omega⟩
  have h := reads_object (d := d) (C.members.map fun m => (m.name, m.write x, m.value x)) (by
    intro m hm
    obtain ⟨w, -, rfl⟩ := List.mem_map.mp hm
    exact w.reads x (Nat.lt_succ_iff.mp hd))
  rw [List.map_map, List.map_map] at h
  have hnames : C.members.map ((fun m : Bytes × Bytes × Value => (coerce m.1, m.2.2)) ∘
      fun m => (m.name, m.write x, m.value x)) = C.members.map fun m => (m.name, m.value x) :=
    List.map_congr_left fun m hm => by
      show (coerce m.name, m.value x) = (m.name, m.value x)
      rw [C.valid m hm]
  rw [hnames] at h
  exact h

theorem store_value (x : σ) : C.store C.zero (C.value x) = C.stored x := by
  have hn : ((C.members.map Member.toField).map Field.name).Nodup := by
    rw [List.map_map]
    exact C.nodup
  have hall : ∀ (ms : List (Member n σ)) (y : σ), (∀ m ∈ ms, m ∈ C.members) →
      (ms.map fun m => (m.name, m.value x)).foldlM
          (storeMember (C.members.map Member.toField)) y =
        ms.foldlM (fun y m => m.store (m.value x) y) y := by
    intro ms
    induction ms with
    | nil =>
        intro y _
        rfl
    | cons m ms ih =>
        intro y hms
        have hm : m.toField ∈ C.members.map Member.toField :=
          List.mem_map_of_mem (hms m List.mem_cons_self)
        rw [List.map_cons, List.foldlM_cons, List.foldlM_cons, storeMember,
          lookupField_of_mem hn hm]
        exact congrArg _ (funext fun z => ih z fun w hw => hms w (List.mem_cons_of_mem m hw))
  exact hall C.members C.zero fun _ hm => hm

/-- **Structs** are read back as they are stored. -/
theorem unmarshal_marshal (hn : n < maxNestingDepth) (x : σ) :
    C.unmarshal (C.marshal x) = C.stored x := by
  rw [unmarshal, parse_of_reads (C.reads_marshal x hn)]
  exact C.store_value x

/-- A slice of structs; nil is `null`. -/
def sliceMember {τ : Type} (name : Bytes) (get : τ → List σ) (set : τ → List σ → τ) :
    Member (n + 2) τ where
  name := name
  store v x := (v.slice (C.store C.zero)).map (set x)
  write x := if get x = [] then null else array ((get x).map C.marshal)
  value x := if get x = [] then .null else .array ((get x).map C.value)
  reads {depth} x hd := by
    split
    · exact reads_null
    · obtain ⟨d, rfl⟩ : ∃ d, depth = d + 1 := ⟨depth - 1, by omega⟩
      have h := reads_array (d := d) ((get x).map fun y => (C.marshal y, C.value y)) (by
        intro m hm
        obtain ⟨y, -, rfl⟩ := List.mem_map.mp hm
        exact C.reads_marshal y (by omega))
      rwa [List.map_map, List.map_map] at h

theorem store_sliceMember {τ : Type} (name : Bytes) (x y : τ) (get : τ → List σ)
    (set : τ → List σ → τ) :
    let m := C.sliceMember name get set
    m.store (m.value x) y = ((get x).mapM C.stored).map (set y) := by
  show (Value.slice (C.store C.zero)
    (if get x = [] then .null else .array ((get x).map C.value))).map (set y) = _
  split
  · rename_i hnil
    rw [hnil]
    rfl
  · show (((get x).map C.value).mapM (C.store C.zero)).map (set y) = _
    rw [List.mapM_map]
    exact congrArg (fun f => ((get x).mapM f).map (set y)) (funext C.store_value)

end Codec

end Members

end KVEngine.Foundation.Json
