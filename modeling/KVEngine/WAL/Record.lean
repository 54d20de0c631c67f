import KVEngine.Foundation.Bytes
import KVEngine.Foundation.Framing

/-!
# Records of the write-ahead log

`internal/wal/wal.go`: the frame of a record, `ReadRecord` with each of its
errors, and `Replay`. A file is the list of its bytes; a reader is what is left
of it.

The format is a `Framing`: a whole frame is read back whatever follows, a frame
cut short is refused because the length in its header promises more bytes than
are there. No property of the checksum is used for either, so writer and reader
take it as a parameter; the ones of the source have `checksumIEEE` for it.
-/

namespace KVEngine.WAL

open Foundation (toLE ofLE length_toLE ofLE_toLE_of_lt ofLE_lt toLE_ofLE Framing parseAll)

/-! ## §1  The frame -/

abbrev RecordType : Type := UInt8

def recordPut : RecordType := 1

def recordDelete : RecordType := 2

structure Record where
  type : RecordType
  key : Bytes
  value : Bytes
deriving DecidableEq

/-- One bit of the reflected CRC-32. -/
def crcShift (c : UInt32) : UInt32 :=
  if c &&& 1 = 1 then (c >>> 1) ^^^ 0xEDB88320 else c >>> 1

def crcByte (c : UInt32) (b : UInt8) : UInt32 :=
  crcShift^[8] (c ^^^ b.toUInt32)

/-- `crc32.ChecksumIEEE`. -/
def checksumIEEE (bytes : Bytes) : UInt32 :=
  bytes.foldl crcByte 0xFFFFFFFF ^^^ 0xFFFFFFFF

-- the check value of the CRC-32 catalogue, for the string "123456789"
example : checksumIEEE [49, 50, 51, 52, 53, 54, 55, 56, 57] = 0xCBF43926 := by
  decide +kernel

/-- Type, key length, key, value length, value. Lengths are `uint32`. -/
def encodeBody (rec : Record) : Bytes :=
  rec.type :: (toLE 4 rec.key.length ++ rec.key ++ toLE 4 rec.value.length ++ rec.value)

/-- Checksum of the body, length of the body, body. -/
def frame (sum : Bytes → UInt32) (body : Bytes) : Bytes :=
  toLE 4 (sum body).toNat ++ toLE 4 body.length ++ body

def encodeWith (sum : Bytes → UInt32) (rec : Record) : Bytes := frame sum (encodeBody rec)

def encode (rec : Record) : Bytes := encodeWith checksumIEEE rec

/-! ## §2  Reading -/

inductive ReadError : Type where
  | eof
  | unexpectedEOF
  | bodyTooLarge (length : ℕ)
  | checksumMismatch
  | malformedBody
  | malformedKeyLength
  | malformedValueLength
deriving DecidableEq

/-- 32 MiB. -/
def maxBodySize : ℕ := 32 * 2 ^ 20

/-- The part of `ReadRecord` after the checksum. -/
def decodeBody (body : Bytes) : Except ReadError Record :=
  if body.length < 9 then .error .malformedBody
  else
    let keyLen := ofLE ((body.drop 1).take 4)
    let valLenOffset := 5 + keyLen
    if valLenOffset + 4 > body.length then .error .malformedKeyLength
    else
      let valLen := ofLE ((body.drop valLenOffset).take 4)
      let valStart := valLenOffset + 4
      if valStart + valLen > body.length then .error .malformedValueLength
      else .ok { type := body.headD 0, key := (body.drop 5).take keyLen,
                 value := (body.drop valStart).take valLen }

/-- `ReadRecord`: the record or the error, the number of bytes it reports as
consumed, and what is left in the reader. `io.ReadFull` drains a reader that is
too short. -/
def readRecordWith (sum : Bytes → UInt32) (r : Bytes) : Except ReadError Record × ℕ × Bytes :=
  if r.length < 8 then
    (.error (if r.length = 0 then .eof else .unexpectedEOF), 0, [])
  else
    let header := r.take 8
    let crcWant := ofLE (header.take 4)
    let length := ofLE (header.drop 4)
    let r := r.drop 8
    if length > maxBodySize then (.error (.bodyTooLarge length), 0, r)
    else if r.length < length then (.error .unexpectedEOF, 8, [])
    else
      let body := r.take length
      let r := r.drop length
      if (sum body).toNat ≠ crcWant then
        (.error .checksumMismatch, 8 + length, r)
      else (decodeBody body, 8 + length, r)

def readRecord (r : Bytes) : Except ReadError Record × ℕ × Bytes :=
  readRecordWith checksumIEEE r

/-- What `Replay` goes on with: a record and the rest, or nothing after any
error. -/
def nextRecordWith (sum : Bytes → UInt32) (r : Bytes) : Option (Record × Bytes) :=
  match readRecordWith sum r with
  | (.ok rec, _, rest) => some (rec, rest)
  | (.error _, _, _) => none

def nextRecord (r : Bytes) : Option (Record × Bytes) := nextRecordWith checksumIEEE r

/-- `Replay`. A file that does not exist is an empty one. -/
def replayWith (sum : Bytes → UInt32) (file : Bytes) : List Record :=
  parseAll (nextRecordWith sum) file

def replay (file : Bytes) : List Record := replayWith checksumIEEE file

/-! ## §3  Bodies -/

theorem length_encodeBody (rec : Record) :
    (encodeBody rec).length = 9 + rec.key.length + rec.value.length := by
  simp only [encodeBody, List.length_cons, List.length_append, length_toLE]
  omega

theorem lt_of_le_maxBodySize {n : ℕ} (h : n ≤ maxBodySize) : n < 2 ^ 32 := by
  have hmax : maxBodySize < 2 ^ 32 := by decide
  omega

/-- A body is decoded as its record, whatever stands behind the value. -/
theorem decodeBody_encodeBody {rec : Record} (hkey : rec.key.length < 2 ^ 32)
    (hvalue : rec.value.length < 2 ^ 32) (junk : Bytes) :
    decodeBody (encodeBody rec ++ junk) = .ok rec := by
  have hlen : (encodeBody rec ++ junk).length =
      9 + rec.key.length + rec.value.length + junk.length := by
    rw [List.length_append, length_encodeBody]
  have hdrop1 : (encodeBody rec ++ junk).drop 1 =
      toLE 4 rec.key.length ++ (rec.key ++ (toLE 4 rec.value.length ++ (rec.value ++ junk))) := by
    simp only [encodeBody, List.cons_append, List.drop_succ_cons, List.drop_zero,
      List.append_assoc]
  have hkeyLen : ofLE (((encodeBody rec ++ junk).drop 1).take 4) = rec.key.length := by
    rw [hdrop1, List.take_left' (length_toLE _ _), ofLE_toLE_of_lt (by omega)]
  have hdrop5 : (encodeBody rec ++ junk).drop 5 =
      rec.key ++ (toLE 4 rec.value.length ++ (rec.value ++ junk)) := by
    rw [← List.drop_drop (i := 4) (j := 1), hdrop1, List.drop_left' (length_toLE _ _)]
  have hdropv : (encodeBody rec ++ junk).drop (5 + rec.key.length) =
      toLE 4 rec.value.length ++ (rec.value ++ junk) := by
    rw [← List.drop_drop, hdrop5, List.drop_left]
  have hvalLen : ofLE (((encodeBody rec ++ junk).drop (5 + rec.key.length)).take 4) =
      rec.value.length := by
    rw [hdropv, List.take_left' (length_toLE _ _), ofLE_toLE_of_lt (by omega)]
  have hdrope : (encodeBody rec ++ junk).drop (5 + rec.key.length + 4) = rec.value ++ junk := by
    rw [← List.drop_drop, hdropv, List.drop_left' (length_toLE _ _)]
  unfold decodeBody
  simp only [hkeyLen, hvalLen, hdrop5, hdrope, hlen]
  rw [if_neg (by omega), if_neg (by omega), if_neg (by omega), List.take_left, List.take_left]
  rfl

/-- The four bytes of a length field, as written. -/
theorem toLE_field {b : Bytes} {i : ℕ} (h : i + 4 ≤ b.length) :
    toLE 4 (ofLE ((b.drop i).take 4)) = (b.drop i).take 4 := by
  refine toLE_ofLE ?_
  rw [List.length_take, List.length_drop]
  omega

theorem field_lt {b : Bytes} {i : ℕ} : ofLE ((b.drop i).take 4) < 2 ^ 32 := by
  have hlen : ((b.drop i).take 4).length ≤ 4 := List.length_take_le _ _
  have hlt := ofLE_lt ((b.drop i).take 4)
  have hpow : 256 ^ ((b.drop i).take 4).length ≤ 256 ^ 4 := Nat.pow_le_pow_right (by omega) hlen
  omega

/-- **Bodies that are decoded** are the encoded ones with anything behind them. -/
theorem decodeBody_eq_ok_iff {body : Bytes} {rec : Record} :
    decodeBody body = .ok rec ↔
      rec.key.length < 2 ^ 32 ∧ rec.value.length < 2 ^ 32 ∧
        ∃ junk, body = encodeBody rec ++ junk := by
  constructor
  · intro h
    unfold decodeBody at h
    split at h
    · cases h
    rename_i h9
    dsimp only at h
    split at h
    · cases h
    rename_i hkey
    split at h
    · cases h
    rename_i hvalue
    cases h
    set keyLen := ofLE ((body.drop 1).take 4) with hkeyLen
    set valLen := ofLE ((body.drop (5 + keyLen)).take 4) with hvalLen
    have hk : ((body.drop 5).take keyLen).length = keyLen := by
      rw [List.length_take, List.length_drop]
      omega
    have hv : ((body.drop (5 + keyLen + 4)).take valLen).length = valLen := by
      rw [List.length_take, List.length_drop]
      omega
    refine ⟨hk.trans_lt field_lt, hv.trans_lt field_lt, body.drop (5 + keyLen + 4 + valLen), ?_⟩
    -- the body is its parts
    have hhead : body = body.headD 0 :: body.drop 1 := by
      cases body with
      | nil => simp at h9
      | cons b body => rfl
    have hsplit : ∀ i n, body.drop i = (body.drop i).take n ++ body.drop (i + n) := by
      intro i n
      rw [← List.drop_drop, List.take_append_drop]
    conv_lhs => rw [hhead, hsplit 1 4, hsplit (1 + 4) keyLen, hsplit (5 + keyLen) 4,
      hsplit (5 + keyLen + 4) valLen]
    simp only [encodeBody, hk, hv, List.cons_append, List.append_assoc]
    rw [hkeyLen, toLE_field (by omega), ← hkeyLen, hvalLen, toLE_field (by omega)]
  · rintro ⟨hkey, hvalue, junk, rfl⟩
    exact decodeBody_encodeBody hkey hvalue junk

/-! ## §4  Frames -/

section Frames

variable {sum : Bytes → UInt32}

theorem length_frame (sum : Bytes → UInt32) (body : Bytes) :
    (frame sum body).length = 8 + body.length := by
  simp only [frame, List.length_append, length_toLE]

theorem length_encode (rec : Record) :
    (encode rec).length = 8 + (encodeBody rec).length :=
  length_frame checksumIEEE _

/-- The header of a frame whose length fits its field, read off any string that
starts with it. -/
theorem header_frame (sum : Bytes → UInt32) (body rest : Bytes) (h : body.length < 2 ^ 32) :
    ofLE (((frame sum body ++ rest).take 8).take 4) = (sum body).toNat ∧
      ofLE (((frame sum body ++ rest).take 8).drop 4) = body.length ∧
      (frame sum body ++ rest).drop 8 = body ++ rest := by
  have hcrc : (sum body).toNat < 256 ^ 4 := (sum body).toNat_lt
  have hshape : frame sum body ++ rest =
      (toLE 4 (sum body).toNat ++ toLE 4 body.length) ++ (body ++ rest) := by
    simp only [frame, List.append_assoc]
  have hlen8 : (toLE 4 (sum body).toNat ++ toLE 4 body.length).length = 8 := by
    rw [List.length_append, length_toLE, length_toLE]
  rw [hshape, List.take_left' hlen8, List.drop_left' hlen8,
    List.take_left' (length_toLE _ _), List.drop_left' (length_toLE _ _),
    ofLE_toLE_of_lt hcrc, ofLE_toLE_of_lt (by omega)]
  exact ⟨rfl, rfl, rfl⟩

/-- A frame within the limit is left to `decodeBody`, and the reader stands behind
it. -/
theorem readRecordWith_frame {body : Bytes} (h : body.length ≤ maxBodySize) (rest : Bytes) :
    readRecordWith sum (frame sum body ++ rest) =
      (decodeBody body, (frame sum body).length, rest) := by
  obtain ⟨hcrc, hlen, hdrop⟩ := header_frame sum body rest (lt_of_le_maxBodySize h)
  have h8 := length_frame sum body
  unfold readRecordWith
  simp only [hcrc, hlen, hdrop]
  rw [if_neg (by rw [List.length_append]; omega), if_neg (by omega),
    if_neg (by rw [List.length_append]; omega), List.take_left, List.drop_left,
    if_neg (by simp), h8]

/-- **What is accepted** is a frame within the limit whose body is decoded. -/
theorem readRecordWith_eq_ok_iff {r rest : Bytes} {rec : Record} {n : ℕ} :
    readRecordWith sum r = (.ok rec, n, rest) ↔
      ∃ body, body.length ≤ maxBodySize ∧ decodeBody body = .ok rec ∧
        n = (frame sum body).length ∧ r = frame sum body ++ rest := by
  constructor
  · intro h
    unfold readRecordWith at h
    split at h
    · simp at h
    rename_i h8
    dsimp only at h
    split at h
    · simp at h
    rename_i hmax
    split at h
    · simp at h
    rename_i hshort
    split at h
    · simp at h
    rename_i hcrc
    simp only [Prod.mk.injEq] at h
    obtain ⟨hdecode, hn, hrest⟩ := h
    rw [not_not] at hcrc
    set length := ofLE ((r.take 8).drop 4) with hlength
    have hbody : ((r.drop 8).take length).length = length := by
      rw [List.length_take]
      omega
    refine ⟨(r.drop 8).take length, by omega, hdecode, by rw [length_frame, hbody, hn], ?_⟩
    rw [frame, hcrc, hbody, hlength, toLE_ofLE (by simp; omega), toLE_ofLE (by simp; omega),
      ← hlength, List.take_append_drop, List.append_assoc, ← hrest, List.take_append_drop,
      List.take_append_drop]
  · rintro ⟨body, hmax, hdecode, rfl, rfl⟩
    rw [readRecordWith_frame hmax, hdecode]

/-- **Round trip.** A frame is read back, and the reader stands behind it. -/
theorem readRecordWith_encode {rec : Record} (rest : Bytes)
    (h : (encodeBody rec).length ≤ maxBodySize) :
    readRecordWith sum (encodeWith sum rec ++ rest) =
      (.ok rec, (encodeWith sum rec).length, rest) := by
  have hlen := length_encodeBody rec
  have hmax := lt_of_le_maxBodySize h
  have hdecode : decodeBody (encodeBody rec ++ []) = .ok rec :=
    decodeBody_encodeBody (by omega) (by omega) []
  rw [List.append_nil] at hdecode
  rw [encodeWith, readRecordWith_frame h, hdecode]

/-- A reader that holds less than a frame does not get a record out of it, and one
that holds a frame with a body beyond the limit does not either. -/
theorem readRecordWith_error (sum : Bytes → UInt32) {body p : Bytes} (h : body.length < 2 ^ 32)
    {rest : Bytes} (hp : p <+: frame sum body ++ rest)
    (hbad : p.length < (frame sum body).length ∨ maxBodySize < body.length) :
    ∃ e n rest', readRecordWith sum p = (.error e, n, rest') := by
  have h8 := length_frame sum body
  unfold readRecordWith
  by_cases hshort : p.length < 8
  · exact ⟨_, _, _, if_pos hshort⟩
  · -- the header is there and says how long the body is
    obtain ⟨t, ht⟩ := hp
    have htake : p.take 8 = (frame sum body ++ rest).take 8 := by
      rw [← ht, List.take_append_of_le_length (by omega)]
    obtain ⟨-, hlen, -⟩ := header_frame sum body rest h
    rw [if_neg hshort]
    simp only [htake, hlen]
    by_cases hmax : body.length > maxBodySize
    · rw [if_pos hmax]
      exact ⟨_, _, _, rfl⟩
    · rw [if_neg hmax, if_pos (by rw [List.length_drop]; omega)]
      exact ⟨_, _, _, rfl⟩

theorem nextRecordWith_eq_some_iff {r rest : Bytes} {rec : Record} :
    nextRecordWith sum r = some (rec, rest) ↔ ∃ n, readRecordWith sum r = (.ok rec, n, rest) := by
  unfold nextRecordWith
  split
  · rename_i rec' n rest' hr
    simp [hr]
  · rename_i hr
    simp [hr]

theorem nextRecordWith_lt (r : Bytes) (rec : Record) (rest : Bytes)
    (h : nextRecordWith sum r = some (rec, rest)) : rest.length < r.length := by
  obtain ⟨n, hn⟩ := nextRecordWith_eq_some_iff.mp h
  obtain ⟨body, -, -, -, rfl⟩ := readRecordWith_eq_ok_iff.mp hn
  rw [List.length_append, length_frame]
  omega

end Frames

/-- The log format, for records whose body the reader accepts. -/
def framingWith (sum : Bytes → UInt32) : Framing UInt8 Record where
  Valid := fun rec => (encodeBody rec).length ≤ maxBodySize
  encode := encodeWith sum
  parse := nextRecordWith sum
  parse_encode := by
    intro rec rest h
    rw [nextRecordWith, readRecordWith_encode rest h]
  parse_cut := by
    -- a proper part is shorter than the header says
    intro rec p h hp hne
    have hlt : p.length < (encodeWith sum rec).length :=
      lt_of_le_of_ne hp.length_le fun hlen => hne (hp.eq_of_length hlen)
    obtain ⟨e, n, rest, he⟩ := readRecordWith_error sum (lt_of_le_maxBodySize h)
      (hp.trans (List.prefix_append _ [])) (Or.inl hlt)
    rw [nextRecordWith, he]
  parse_lt := nextRecordWith_lt

def framing : Framing UInt8 Record := framingWith checksumIEEE

/-- **Reading from a boundary.** A record read off any part of a stream that starts
at a boundary is the next one, if the lengths fit their fields. -/
theorem readRecord_frames {rs : List Record} (h : ∀ r ∈ rs, (encodeBody r).length < 2 ^ 32)
    {p rest : Bytes} (hp : p <+: framing.frames rs) {rec : Record} {n : ℕ}
    (hread : readRecord p = (.ok rec, n, rest)) :
    ∃ us, rs = rec :: us ∧ n = (encode rec).length ∧ p = encode rec ++ rest ∧
      rest <+: framing.frames us := by
  cases rs with
  | nil =>
      rw [List.prefix_nil.mp hp] at hread
      cases hread
  | cons r us =>
      have hr := h r List.mem_cons_self
      have hp' : p <+: encode r ++ framing.frames us := hp
      have hwhole : (encode r).length ≤ p.length ∧ (encodeBody r).length ≤ maxBodySize := by
        by_contra hbad
        obtain ⟨e, m, t, he⟩ := readRecordWith_error checksumIEEE hr hp' (by
          change p.length < (encode r).length ∨ _
          omega)
        rw [readRecord, he] at hread
        cases hread
      obtain ⟨t, rfl⟩ : encode r <+: p :=
        List.prefix_of_prefix_length_le (List.prefix_append _ _) hp' hwhole.1
      rw [readRecord, encode, readRecordWith_encode t hwhole.2] at hread
      simp only [Prod.mk.injEq, Except.ok.injEq] at hread
      obtain ⟨rfl, rfl, rfl⟩ := hread
      exact ⟨us, rfl, rfl, rfl, (List.prefix_append_right_inj _).mp hp'⟩

instance (rec : Record) : Decidable (framing.Valid rec) :=
  inferInstanceAs (Decidable (_ ≤ _))

end KVEngine.WAL
