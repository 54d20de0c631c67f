import KVEngine.WAL.Record

/-!
# The decoder on arbitrary bytes

`ReadRecord` and `Replay` of `internal/wal/wal.go` on files nobody has checked: cut
anywhere, or written by something else than `Append`.

§1 is about logs that were written and then cut. §2 is about any bytes: with every
index and slice of the source as a partial operation, none is out of range, and what
a part of a file replays to is a part of what the file replays to. §3 says which
frames are accepted. They are those of `encode` and more: the type is not looked at,
and neither is what a body holds behind its value (`junk_accepted`).
-/

namespace KVEngine.WAL

open Foundation (toLE ofLE Framing parseAll parseRounds parseRounds_eq_parseAll parseAll_mono)

/-! ## §1  Cut logs -/

def encodeAll (sum : Bytes → UInt32) (rs : List Record) : Bytes := rs.flatMap (encodeWith sum)

/-- `us` is the longest beginning of `rs` whose encodings fit in `n` bytes. -/
def LongestFitting (sum : Bytes → UInt32) (n : ℕ) (rs us : List Record) : Prop :=
  us <+: rs ∧ (encodeAll sum us).length ≤ n ∧
    ∀ vs, vs <+: rs → (encodeAll sum vs).length ≤ n → vs <+: us

theorem encodeAll_length_le (sum : Bytes → UInt32) {us rs : List Record} (h : us <+: rs) :
    (encodeAll sum us).length ≤ (encodeAll sum rs).length := by
  obtain ⟨vs, rfl⟩ := h
  rw [encodeAll, encodeAll, List.flatMap_append, List.length_append]
  exact Nat.le_add_right _ _

/-- **Recovery from a torn tail** is exact, whatever the checksum. -/
theorem replay_cut (sum : Bytes → UInt32) {rs : List Record}
    (h : ∀ rec ∈ rs, (encodeBody rec).length ≤ maxBodySize) (n : ℕ) :
    LongestFitting sum n rs (replayWith sum ((encodeAll sum rs).take n)) ∧
      replayWith sum (encodeAll sum rs) = rs := by
  constructor
  · obtain ⟨m, t, hcut, htorn, hmost⟩ := Framing.cut_frames (F := framingWith sum) h
      (List.take_prefix n (encodeAll sum rs))
    have hreplay : replayWith sum ((encodeAll sum rs).take n) = rs.take m := by
      rw [hcut]
      exact Framing.parseAll_torn (fun r hr => h r (List.mem_of_mem_take hr)) htorn
    rw [hreplay]
    refine ⟨List.take_prefix m rs, ?_, fun vs hvs hfit => ?_⟩
    · have hlen := congrArg List.length hcut
      rw [List.length_append, List.length_take] at hlen
      change _ = (encodeAll sum (rs.take m)).length + t.length at hlen
      omega
    · -- what fits is not longer than what is left of the log
      have hle := encodeAll_length_le sum hvs
      have htake : vs = rs.take vs.length := List.prefix_iff_eq_take.mp hvs
      have hm : vs.length ≤ m := by
        refine hmost vs.length hvs.length_le ?_
        rw [← htake, List.length_take]
        change (encodeAll sum vs).length ≤ _
        omega
      rw [htake]
      exact List.take_prefix_take_left hm
  · have hall := Framing.parseAll_torn (F := framingWith sum) h (Or.inl rfl)
    rwa [List.append_nil] at hall

/-- Two records, cut inside the value of the second. -/
theorem replay_cut_value :
    let rs : List Record := [⟨recordPut, [97], [1]⟩, ⟨recordPut, [98], [2, 3]⟩]
    LongestFitting checksumIEEE 38 rs (replay ((encodeAll checksumIEEE rs).take 38)) ∧
      (encodeAll checksumIEEE rs).length = 39 ∧
      replay ((encodeAll checksumIEEE rs).take 38) = [⟨recordPut, [97], [1]⟩] :=
  ⟨(replay_cut checksumIEEE (by decide) 38).1, by decide +kernel, by decide +kernel⟩

/-! ## §2  Indices -/

/-- `int` has 64 bits. -/
def int64 (z : ℤ) : ℤ := z.bmod (2 ^ 64)

/-- `b[lo:hi]`; `none` is the panic. -/
def slice (b : Bytes) (lo hi : ℤ) : Option Bytes :=
  if 0 ≤ lo ∧ lo ≤ hi ∧ hi ≤ b.length then
    some ((b.drop lo.toNat).take (hi - lo).toNat)
  else none

/-- `binary.LittleEndian.Uint32`, which looks at `b[3]` first. -/
def uint32 (b : Bytes) : Option ℕ :=
  if 3 < b.length then some (ofLE (b.take 4)) else none

/-- `decodeBody` with the indices and slices of the source. -/
def decodeBodyChecked (body : Bytes) : Option (Except ReadError Record) :=
  if body.length < 9 then some (.error .malformedBody)
  else do
    let typ ← body[0]?
    let keyLen ← uint32 (← slice body 1 5)
    let valLenOffset := int64 (5 + keyLen)
    if int64 (valLenOffset + 4) > body.length then return .error .malformedKeyLength
    else
      let key ← slice body 5 valLenOffset
      let valLen ← uint32 (← slice body valLenOffset (int64 (valLenOffset + 4)))
      let valStart := int64 (valLenOffset + 4)
      if int64 (valStart + valLen) > body.length then return .error .malformedValueLength
      else
        let val ← slice body valStart (int64 (valStart + valLen))
        return .ok { type := typ, key, value := val }

/-- `readRecord` with the indices and slices of the source. The size is added up in
32 bits. -/
def readRecordChecked (r : Bytes) : Option (Except ReadError Record × ℕ × Bytes) :=
  if r.length < 8 then
    some (.error (if r.length = 0 then .eof else .unexpectedEOF), 0, [])
  else do
    let header := r.take 8
    let crcWant ← uint32 (← slice header 0 4)
    let length ← uint32 (← slice header 4 8)
    let r := r.drop 8
    if length > maxBodySize then return (.error (.bodyTooLarge length), 0, r)
    else if r.length < length then return (.error .unexpectedEOF, 8, [])
    else
      let body := r.take length
      let r := r.drop length
      let size := (8 + length) % 2 ^ 32
      if (checksumIEEE body).toNat ≠ crcWant then return (.error .checksumMismatch, size, r)
      else
        let result ← decodeBodyChecked body
        return (result, size, r)

/-- The loop of `Replay`, for `n` rounds at most; `none` if it would still go on. -/
def replayRounds (n : ℕ) (file : Bytes) : Option (List Record) := parseRounds nextRecord n file

theorem int64_eq {z : ℤ} (n : ℕ) (hz : z = n) (h : n < 2 ^ 63) : int64 z = n := by
  unfold int64
  rw [hz]
  exact Int.bmod_eq_of_le (by omega) (by omega)

theorem slice_eq {b : Bytes} {lo hi : ℤ} (l k : ℕ) (hlo : lo = l) (hhi : hi = (l + k : ℕ))
    (hb : l + k ≤ b.length) : slice b lo hi = some ((b.drop l).take k) := by
  subst hlo hhi
  unfold slice
  rw [if_pos (by omega), Int.toNat_natCast]
  congr 2
  omega

/-- A length field that is there whole. -/
theorem bind_field {β : Type} {b : Bytes} {lo hi : ℤ} {f : ℕ → Option β} (l : ℕ) (hlo : lo = l)
    (hhi : hi = (l + 4 : ℕ)) (hb : l + 4 ≤ b.length) :
    ((slice b lo hi).bind fun x => (uint32 x).bind f) = f (ofLE ((b.drop l).take 4)) := by
  have hlen : ((b.drop l).take 4).length = 4 := by
    rw [List.length_take, List.length_drop]
    omega
  rw [slice_eq l 4 hlo hhi hb, Option.bind_some, uint32, if_pos (by omega),
    List.take_of_length_le (by omega), Option.bind_some]

/-- Every index lies inside the body: each slice is taken after the test for it. -/
theorem decodeBodyChecked_eq (body : Bytes) :
    decodeBodyChecked body = some (decodeBody body) := by
  unfold decodeBodyChecked decodeBody
  by_cases h9 : body.length < 9
  · rw [if_pos h9, if_pos h9]
  rw [if_neg h9, if_neg h9]
  have htyp : body[0]? = some (body.headD 0) := by
    cases body with
    | nil => simp at h9
    | cons b body => rfl
  rw [htyp]
  refine Eq.trans (bind_field 1 rfl rfl (by omega)) ?_
  -- `int` does not overflow: lengths have 32 bits
  have hlt : ofLE ((body.drop 1).take 4) < 2 ^ 32 := field_lt
  generalize ofLE ((body.drop 1).take 4) = keyLen at hlt ⊢
  have hoff : int64 (5 + keyLen) = ((5 + keyLen : ℕ) : ℤ) :=
    int64_eq (5 + keyLen) (by push_cast; rfl) (by omega)
  have hstart : int64 (((5 + keyLen : ℕ) : ℤ) + 4) = ((5 + keyLen + 4 : ℕ) : ℤ) :=
    int64_eq (5 + keyLen + 4) (by push_cast; rfl) (by omega)
  dsimp only
  rw [hoff, hstart]
  by_cases hkey : 5 + keyLen + 4 > body.length
  · rw [if_pos (by omega), if_pos hkey]
    rfl
  rw [if_neg (by omega), if_neg hkey]
  have hkeyBytes : slice body 5 ((5 + keyLen : ℕ) : ℤ) = some ((body.drop 5).take keyLen) :=
    slice_eq 5 keyLen rfl rfl (by omega)
  rw [hkeyBytes]
  refine Eq.trans (bind_field (5 + keyLen) rfl rfl (by omega)) ?_
  have hvlt : ofLE ((body.drop (5 + keyLen)).take 4) < 2 ^ 32 := field_lt
  generalize ofLE ((body.drop (5 + keyLen)).take 4) = valLen at hvlt ⊢
  have hend : int64 (((5 + keyLen + 4 : ℕ) : ℤ) + valLen) =
      ((5 + keyLen + 4 + valLen : ℕ) : ℤ) :=
    int64_eq (5 + keyLen + 4 + valLen) (by push_cast; rfl) (by omega)
  rw [hend]
  by_cases hvalue : 5 + keyLen + 4 + valLen > body.length
  · rw [if_pos (by omega), if_pos hvalue]
    rfl
  rw [if_neg (by omega), if_neg hvalue]
  have hvalBytes : slice body ((5 + keyLen + 4 : ℕ) : ℤ) ((5 + keyLen + 4 + valLen : ℕ) : ℤ) =
      some ((body.drop (5 + keyLen + 4)).take valLen) :=
    slice_eq (5 + keyLen + 4) valLen rfl rfl (by omega)
  rw [hvalBytes]
  rfl

theorem readRecordChecked_eq (r : Bytes) : readRecordChecked r = some (readRecord r) := by
  unfold readRecordChecked readRecord readRecordWith
  by_cases h8 : r.length < 8
  · rw [if_pos h8, if_pos h8]
  rw [if_neg h8, if_neg h8]
  have hlen : (r.take 8).length = 8 := by
    rw [List.length_take]
    omega
  have htail : ((r.take 8).drop 4).take 4 = (r.take 8).drop 4 :=
    List.take_of_length_le (by rw [List.length_drop]; omega)
  refine Eq.trans (bind_field 0 rfl rfl (by omega)) ?_
  refine Eq.trans (bind_field 4 rfl rfl (by omega)) ?_
  dsimp only
  rw [htail, List.drop_zero]
  generalize ofLE ((r.take 8).drop 4) = length
  by_cases hmax : length > maxBodySize
  · rw [if_pos hmax, if_pos hmax]
    rfl
  rw [if_neg hmax, if_neg hmax]
  by_cases hshort : (r.drop 8).length < length
  · rw [if_pos hshort, if_pos hshort]
    rfl
  rw [if_neg hshort, if_neg hshort]
  have hsize : (8 + length) % 2 ^ 32 = 8 + length := by
    have hcap : maxBodySize < 2 ^ 31 := by decide
    exact Nat.mod_eq_of_lt (by omega)
  rw [hsize, decodeBodyChecked_eq]
  by_cases hsum : (checksumIEEE ((r.drop 8).take length)).toNat ≠ ofLE ((r.take 8).take 4)
  · rw [if_pos hsum, if_pos hsum]
    rfl
  · rw [if_neg hsum, if_neg hsum]
    rfl

/-- A record is read the same whatever follows it. -/
theorem nextRecord_append {s rest : Bytes} {rec : Record} (t : Bytes)
    (h : nextRecord s = some (rec, rest)) : nextRecord (s ++ t) = some (rec, rest ++ t) := by
  obtain ⟨n, hn⟩ := nextRecordWith_eq_some_iff.mp h
  obtain ⟨body, hmax, hdecode, rfl, rfl⟩ := readRecordWith_eq_ok_iff.mp hn
  refine nextRecordWith_eq_some_iff.mpr ⟨(frame checksumIEEE body).length, ?_⟩
  rw [List.append_assoc, readRecordWith_frame hmax, hdecode]

/-- **The decoder is safe on any bytes**: no index is out of range, a record that is
read was there whole, `Replay` ends, and cutting the file cuts what it replays to. -/
theorem decoder_safe (b : Bytes) :
    readRecordChecked b = some (readRecord b) ∧
      (∀ rec n rest, readRecord b = (.ok rec, n, rest) →
        n = 8 + ofLE ((b.drop 4).take 4) ∧ n ≤ b.length ∧ rest = b.drop n) ∧
      replayRounds (b.length + 1) b = some (replay b) ∧
      ∀ p, p <+: b → replay p <+: replay b := by
  refine ⟨readRecordChecked_eq b, ?_, ?_, ?_⟩
  · intro rec n rest h
    obtain ⟨body, hmax, -, rfl, rfl⟩ := readRecordWith_eq_ok_iff.mp h
    have hfield := (header_frame checksumIEEE body rest (lt_of_le_maxBodySize hmax)).2.1
    rw [List.drop_take] at hfield
    refine ⟨by rw [hfield, length_frame], ?_, (List.drop_left).symm⟩
    rw [List.length_append]
    exact Nat.le_add_right _ _
  · exact parseRounds_eq_parseAll nextRecordWith_lt (Nat.lt_succ_self _)
  · rintro p ⟨t, rfl⟩
    exact parseAll_mono nextRecordWith_lt nextRecord_append p t

/-- A frame, and the first byte of another. -/
theorem decoder_safe_cut :
    let b := encode ⟨recordPut, [97], [1]⟩ ++ [0]
    readRecord b = (.ok ⟨recordPut, [97], [1]⟩, 19, [0]) ∧
      (19 = 8 + ofLE ((b.drop 4).take 4) ∧ 19 ≤ b.length ∧ [0] = b.drop 19) ∧
      replay (b.take 5) <+: replay b := by
  intro b
  have hread : readRecord b = (.ok ⟨recordPut, [97], [1]⟩, 19, [0]) := by decide +kernel
  obtain ⟨-, hsize, -, hmono⟩ := decoder_safe b
  exact ⟨hread, hsize _ _ _ hread, hmono _ (List.take_prefix 5 b)⟩

/-! ## §3  Accepted frames -/

/-- A type that is neither `Put` nor `Delete` is accepted, and so is a body with a byte
behind its value: then two frames are read as one record. -/
theorem junk_accepted :
    let r : Record := ⟨recordPut, [97], [1]⟩
    let padded := frame checksumIEEE (encodeBody r ++ [9])
    readRecord (encode ⟨7, [97], []⟩) = (.ok ⟨7, [97], []⟩, 18, []) ∧
      readRecord (encode r) = (.ok r, 19, []) ∧ readRecord padded = (.ok r, 20, []) ∧
      padded.take 20 ≠ encode r ∧
      replay (padded ++ encode ⟨7, [97], []⟩) = [r, ⟨7, [97], []⟩] := by
  decide +kernel

/-- What is accepted is an encoded record, with some bytes behind its value that the
length and the checksum count in. -/
theorem readRecord_frame {b rest : Bytes} {rec : Record} {n : ℕ}
    (h : readRecord b = (.ok rec, n, rest)) :
    ∃ junk, b.take n = frame checksumIEEE (encodeBody rec ++ junk) ∧
      n = 17 + rec.key.length + rec.value.length + junk.length := by
  obtain ⟨body, -, hdecode, rfl, rfl⟩ := readRecordWith_eq_ok_iff.mp h
  obtain ⟨-, -, junk, rfl⟩ := decodeBody_eq_ok_iff.mp hdecode
  refine ⟨junk, List.take_left, ?_⟩
  rw [length_frame, List.length_append, length_encodeBody]
  omega

/-- **What the decoder accepts is what the encoder writes** exactly if the type byte is
that of `Put` or `Delete` and the frame ends with the value; such a frame is the only
one for its record. -/
theorem accepted_iff {b rest : Bytes} {rec : Record} {n : ℕ}
    (h : readRecord b = (.ok rec, n, rest)) :
    (((rec.type = recordPut ∨ rec.type = recordDelete) ∧ b.take n = encode rec) ↔
      (b[8]? = some recordPut ∨ b[8]? = some recordDelete) ∧
        n = 17 + rec.key.length + rec.value.length) ∧
    ∀ b' rest', readRecord b' = (.ok rec, n, rest') →
      n = 17 + rec.key.length + rec.value.length → b'.take n = b.take n := by
  -- with the length of the record there is nothing behind the value
  have hexact : ∀ {b' rest' : Bytes}, readRecord b' = (.ok rec, n, rest') →
      n = 17 + rec.key.length + rec.value.length → b'.take n = encode rec := by
    intro b' rest' h' hn
    obtain ⟨junk, hframe, hlen⟩ := readRecord_frame h'
    have hjunk : junk = [] := List.eq_nil_of_length_eq_zero (by omega)
    rw [hframe, hjunk, List.append_nil]
    rfl
  obtain ⟨junk, hframe, hlen⟩ := readRecord_frame h
  have htype : b[8]? = some rec.type := by
    have hlt : 8 < n := by omega
    rw [← List.getElem?_take_of_lt hlt, hframe, frame, List.getElem?_append_right (by simp)]
    simp [encodeBody]
  refine ⟨⟨?_, ?_⟩, fun b' rest' h' hn => (hexact h' hn).trans (hexact h hn).symm⟩
  · rintro ⟨hkind, henc⟩
    refine ⟨by simpa [htype] using hkind, ?_⟩
    have hlens := congrArg List.length henc
    rw [hframe, length_frame, length_encode, List.length_append] at hlens
    omega
  · rintro ⟨hkind, hn⟩
    exact ⟨by simpa [htype] using hkind, hexact h hn⟩

/-- The frame of a deletion, followed by something else. -/
theorem accepted_iff_delete :
    let b := encode ⟨recordDelete, [97], []⟩ ++ [1, 2, 3]
    readRecord b = (.ok ⟨recordDelete, [97], []⟩, 18, [1, 2, 3]) ∧
      b.take 18 = encode ⟨recordDelete, [97], []⟩ := by
  intro b
  have hread : readRecord b = (.ok ⟨recordDelete, [97], []⟩, 18, [1, 2, 3]) := by decide +kernel
  exact ⟨hread, ((accepted_iff hread).1.mpr ⟨by decide +kernel, by decide +kernel⟩).2⟩

end KVEngine.WAL
