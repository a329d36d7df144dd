import LibShare.Base

/-!
# libshare — base64

`shbase64_encode` and `shbase64_decode` of `shmem_base64.c`. The loop of the encoder ends two bytes
before the end of the data, with a length that has no sign: of less than two bytes there is no such
end, and it reads on behind them. The sizes of the text are numbers of type `int`, and those that do
not fit are no sizes that can be allocated.

Main results:

* `encodeLoop_eq`, `decodeLoop_eq` — the loops, as functions of what is left of the data and the
  text.
* `base64_iff` — the data comes back if it has two bytes, and not too many for a size.

A call without a result is one that reads behind the data or writes behind its allocation.
-/

namespace LibShare.Mem

/-! ## Sizes -/

/-- A number that is cut to an `int`. -/
def cInt (i : Int) : Int := (i + 2 ^ 31) % 2 ^ 32 - 2 ^ 31

/-- A number that is cut to a `size_t`. -/
def cSize (i : Int) : Nat := (i % 2 ^ 64).toNat

/-- `calloc`: the size of the memory, which is never more than half of what addresses can tell. -/
def calloc (size : Nat) : Option Nat := if size < 2 ^ 63 then some size else none

/-- A number that is an `int` is what it is. -/
theorem cInt_of_lt {i : Int} (hlow : -2 ^ 31 ≤ i) (hhigh : i < 2 ^ 31) : cInt i = i := by
  unfold cInt
  omega

/-- A number that is a `size_t` is what it is. -/
theorem cSize_of_lt {n : Nat} (h : n < 2 ^ 64) : cSize n = n := by
  unfold cSize
  omega

/-! ## The tables -/

/-- `_shbase64_decode_table`. -/
def shbase64DecodeTable : List UInt8 :=
  [ 64, 64, 64, 64, 64, 64, 64, 64, 64, 64, 64, 64, 64, 64, 64, 64,
    64, 64, 64, 64, 64, 64, 64, 64, 64, 64, 64, 64, 64, 64, 64, 64,
    64, 64, 64, 64, 64, 64, 64, 64, 64, 64, 64, 62, 64, 64, 64, 63,
    52, 53, 54, 55, 56, 57, 58, 59, 60, 61, 64, 64, 64, 64, 64, 64,
    64,  0,  1,  2,  3,  4,  5,  6,  7,  8,  9, 10, 11, 12, 13, 14,
    15, 16, 17, 18, 19, 20, 21, 22, 23, 24, 25, 64, 64, 64, 64, 64,
    64, 26, 27, 28, 29, 30, 31, 32, 33, 34, 35, 36, 37, 38, 39, 40,
    41, 42, 43, 44, 45, 46, 47, 48, 49, 50, 51, 64, 64, 64, 64, 64,
    64, 64, 64, 64, 64, 64, 64, 64, 64, 64, 64, 64, 64, 64, 64, 64,
    64, 64, 64, 64, 64, 64, 64, 64, 64, 64, 64, 64, 64, 64, 64, 64,
    64, 64, 64, 64, 64, 64, 64, 64, 64, 64, 64, 64, 64, 64, 64, 64,
    64, 64, 64, 64, 64, 64, 64, 64, 64, 64, 64, 64, 64, 64, 64, 64,
    64, 64, 64, 64, 64, 64, 64, 64, 64, 64, 64, 64, 64, 64, 64, 64,
    64, 64, 64, 64, 64, 64, 64, 64, 64, 64, 64, 64, 64, 64, 64, 64,
    64, 64, 64, 64, 64, 64, 64, 64, 64, 64, 64, 64, 64, 64, 64, 64,
    64, 64, 64, 64, 64, 64, 64, 64, 64, 64, 64, 64, 64, 64, 64, 64 ]

/-- `_shbase64_encode_table`. -/
def shbase64EncodeTable : List Char :=
  "ABCDEFGHIJKLMNOPQRSTUVWXYZabcdefghijklmnopqrstuvwxyz0123456789+/".toList

/-- The value of a character, which is 64 for those that have none. -/
def sextet (ch : UInt8) : UInt8 := shbase64DecodeTable.getD ch.toNat 64

/-- The character of a value. -/
def sextetChar (v : UInt8) : UInt8 := UInt8.ofNat (shbase64EncodeTable.getD v.toNat '=').toNat

/-! ## The encoder -/

/-- `shbase64_encode_len`. -/
def shbase64EncodeLen (len : Int) : Int := cInt (cInt ((cInt (len + 2)).tdiv 3 * 4) + 1)

/-- The characters of three bytes. -/
def encodeThree (a b c : UInt8) : Bytes :=
  [sextetChar (a >>> 2 &&& 0x3f), sextetChar ((a &&& 0x3) <<< 4 ||| (b &&& 0xf0) >>> 4),
    sextetChar ((b &&& 0xf) <<< 2 ||| (c &&& 0xc0) >>> 6), sextetChar (c &&& 0x3f)]

/-- The characters of the bytes that are left behind the loop. -/
def encodeRest : Bytes → Bytes
  | [] => []
  | [a] => [sextetChar (a >>> 2 &&& 0x3f), sextetChar ((a &&& 0x3) <<< 4), 0x3d, 0x3d]
  | a :: b :: _ =>
    [sextetChar (a >>> 2 &&& 0x3f), sextetChar ((a &&& 0x3) <<< 4 ||| (b &&& 0xf0) >>> 4),
      sextetChar ((b &&& 0xf) <<< 2), 0x3d]

/-- Characters at the end of others, in an allocation of so many. -/
def putChars {α : Type} (max : Nat) (out chars : List α) : Option (List α) :=
  if out.length + chars.length ≤ max then some (out ++ chars) else none

/-- The loop of `shbase64_encode` up to an index, and what follows it. -/
def shbase64EncodeLoop (lim max : Nat) : Nat → Bytes → Bytes → Option Bytes
  | i, out, a :: b :: c :: rest =>
    if i < lim then (putChars max out (encodeThree a b c)).bind fun out =>
      shbase64EncodeLoop lim max (i + 3) out rest
    else putChars max out (encodeRest (a :: b :: c :: rest))
  -- the next three bytes are not all in the data
  | i, out, rest => if i < lim then none else putChars max out (encodeRest rest)

/-- `shbase64_encode`. -/
def shbase64Encode (data : Bytes) : Option (Except Sherr Bytes) :=
  (calloc (cSize (cSize (shbase64EncodeLen (cInt data.length)) + 1))).elim
    (some (.error .nomem)) fun max =>
    (shbase64EncodeLoop (cSize (data.length - 2)) max 0 [] data).map .ok

/-! ## The decoder -/

/-- The characters of a text up to the first one that has no value. -/
def validChars (encData : Bytes) : Bytes := encData.takeWhile (sextet · ≤ 63)

/-- What three bytes are made from. -/
def decodeFirst (c0 c1 : UInt8) : UInt8 := sextet c0 <<< 2 ||| sextet c1 >>> 4

def decodeSecond (c1 c2 : UInt8) : UInt8 := sextet c1 <<< 4 ||| sextet c2 >>> 2

def decodeThird (c2 c3 : UInt8) : UInt8 := sextet c2 <<< 6 ||| sextet c3

/-- The bytes of the characters that are left behind the loop. -/
def decodeRest (nprbytes : Nat) (bufin : Bytes) : Option Bytes := do
  let first ← if nprbytes > 1 then do some [decodeFirst (← bufin[0]?) (← bufin[1]?)] else some []
  let second ← if nprbytes > 2 then do some [decodeSecond (← bufin[1]?) (← bufin[2]?)] else some []
  let third ← if nprbytes > 3 then do some [decodeThird (← bufin[2]?) (← bufin[3]?)] else some []
  some (first ++ second ++ third)

/-- The loop of `shbase64_decode`, and what follows it up to the terminator. -/
def shbase64DecodeLoop (max : Nat) : Nat → Bytes → Bytes → Option Bytes
  | nprbytes, out, c0 :: c1 :: c2 :: c3 :: rest =>
    if 4 < nprbytes then
      (putChars max out [decodeFirst c0 c1, decodeSecond c1 c2, decodeThird c2 c3]).bind fun out =>
        shbase64DecodeLoop max (nprbytes - 4) out rest
    else (decodeRest nprbytes (c0 :: c1 :: c2 :: c3 :: rest)).bind (putChars max out)
  | nprbytes, out, rest =>
    if 4 < nprbytes then none else (decodeRest nprbytes rest).bind (putChars max out)

/-- The bytes of so many characters. -/
def decodedLen (nprbytes : Int) : Int := cInt ((cInt (nprbytes + 3)).tdiv 4 * 3)

/-- `shbase64_decode_len`. -/
def shbase64DecodeLen (encData : Bytes) : Int :=
  cInt (decodedLen (cInt (validChars encData).length) + 1)

/-- `shbase64_decode`: the memory, and the length. -/
def shbase64Decode (encData : Bytes) : Option (Except Sherr (Bytes × Nat)) :=
  (calloc (cSize (cSize (shbase64DecodeLen encData) + 1))).elim (some (.error .nomem)) fun max => do
    let nprbytes := cInt (validChars encData).length
    let out ← shbase64DecodeLoop max nprbytes.toNat [] encData
    let plain ← putChars max out [0]
    -- the characters that are missing from the last four
    let nbytesdecoded := decodedLen nprbytes - (4 - nprbytes) % 4
    some (.ok (plain ++ List.replicate (max - plain.length) 0, cSize nbytesdecoded))

/-! ## Characters and values -/

theorem shbase64EncodeTable_eq :
    shbase64EncodeTable = ['A', 'B', 'C', 'D', 'E', 'F', 'G', 'H', 'I', 'J', 'K', 'L', 'M', 'N',
      'O', 'P', 'Q', 'R', 'S', 'T', 'U', 'V', 'W', 'X', 'Y', 'Z', 'a', 'b', 'c', 'd', 'e',
        'f', 'g', 'h',
    'i', 'j', 'k', 'l', 'm', 'n', 'o', 'p', 'q', 'r', 's', 't', 'u', 'v', 'w', 'x', 'y', 'z', '0',
      '1', '2', '3',
    '4', '5', '6', '7', '8', '9', '+', '/'] := String.toList_ofList

set_option maxRecDepth 20000 in
/-- The character of a value of six bits is read as that value. -/
theorem sextet_sextetChar : ∀ v : UInt8, v >>> 6 = 0 → sextet (sextetChar v) = v := by
  refine forall_byte ?_
  unfold sextet sextetChar
  rw [shbase64EncodeTable_eq]
  decide

set_option maxRecDepth 20000 in
theorem zero_ne_sextetChar : ∀ v : UInt8, 0 ≠ sextetChar v := by
  refine forall_byte ?_
  unfold sextetChar
  rw [shbase64EncodeTable_eq]
  decide

set_option maxRecDepth 20000 in
theorem le_of_six_bits : ∀ v : UInt8, v >>> 6 = 0 → v ≤ 63 := by
  refine forall_byte ?_
  decide

/-- The four values of three bytes have six bits each. -/
theorem six_bits (a b c : UInt8) :
    (a >>> 2 &&& 0x3f) >>> 6 = 0 ∧ ((a &&& 0x3) <<< 4 ||| (b &&& 0xf0) >>> 4) >>> 6 = 0 ∧
      ((b &&& 0xf) <<< 2 ||| (c &&& 0xc0) >>> 6) >>> 6 = 0 ∧ (c &&& 0x3f) >>> 6 = 0 := by
  refine ⟨?_, ?_, ?_, ?_⟩ <;>
  · apply UInt8.eq_of_toBitVec_eq
    ext i hi
    interval_cases i <;> simp

/-- Three bytes from the four values. -/
theorem three_bytes (a b c : UInt8) :
    (a >>> 2 &&& 0x3f) <<< 2 ||| ((a &&& 0x3) <<< 4 ||| (b &&& 0xf0) >>> 4) >>> 4 = a ∧
      ((a &&& 0x3) <<< 4 ||| (b &&& 0xf0) >>> 4) <<< 4 |||
      ((b &&& 0xf) <<< 2 ||| (c &&& 0xc0) >>> 6) >>> 2 = b ∧
      ((b &&& 0xf) <<< 2 ||| (c &&& 0xc0) >>> 6) <<< 6 ||| c &&& 0x3f = c := by
  refine ⟨?_, ?_, ?_⟩ <;>
  · apply UInt8.eq_of_toBitVec_eq
    ext i hi
    interval_cases i <;> simp

/-! ## Encoding -/

theorem putChars_nil {α : Type} {max : Nat} {chars : List α} : putChars max [] chars =
    if chars.length ≤ max then some chars else none := by
  rw [putChars, List.length_nil, Nat.zero_add, List.nil_append]

/-- Characters that are put one after the other. -/
theorem putChars_append {α : Type} (max : Nat) (out xs ys : List α) :
    ((putChars max out xs).bind fun out => putChars max out ys) = putChars max out (xs ++ ys) := by
  unfold putChars
  by_cases hx : out.length + xs.length ≤ max
  · rw [if_pos hx, Option.bind_some, List.length_append, List.length_append, Nat.add_assoc,
      List.append_assoc]
  · rw [if_neg hx, Option.bind_none, List.length_append, if_neg (by omega)]

/-- The text of a byte string. -/
def base64Text : Bytes → Bytes
  | a :: b :: c :: rest => encodeThree a b c ++ base64Text rest
  | rest => encodeRest rest

/-- Three bytes make four characters. -/
theorem length_base64Text : ∀ data :
    Bytes, (base64Text data).length = (data.length + 2) / 3 * 4 := by
  intro data
  induction data using base64Text.induct with
  | case1 a b c rest ih =>
    rw [base64Text, List.length_append, ih]
    simp only [List.length_cons, encodeThree, List.length_nil]
    omega
  | case2 rest hshort =>
    rcases rest with _ | ⟨a, _ | ⟨b, _ | ⟨c, rest⟩⟩⟩
    · rfl
    · simp [base64Text, encodeRest]
    · simp [base64Text, encodeRest]
    · exact absurd rfl (hshort a b c rest)

/-- The loop of the encoder, where its limit is two bytes before the end of the data. -/
theorem encodeLoop_eq {lim max : Nat} : ∀ (data out : Bytes) (i : Nat), i + data.length = lim + 2 →
    shbase64EncodeLoop lim max i out data = putChars max out (base64Text data) := by
  intro data
  induction data using base64Text.induct with
  | case1 a b c rest ih =>
    intro out i hi
    simp only [List.length_cons] at hi
    rw [shbase64EncodeLoop, if_pos (by omega), base64Text]
    have hrest : ∀ out, shbase64EncodeLoop lim max (i + 3) out rest =
        putChars max out (base64Text rest) :=
      fun out => ih out (i + 3) (by omega)
    simp only [hrest]
    exact putChars_append max out _ _
  | case2 rest hshort =>
    intro out i hi
    -- less than three bytes are left, and the index has reached the limit
    have hend : ¬ i < lim := by
      rcases rest with _ | ⟨a, _ | ⟨b, _ | ⟨c, rest⟩⟩⟩
      · simp only [List.length_nil] at hi
        omega
      · simp only [List.length_cons, List.length_nil] at hi
        omega
      · simp only [List.length_cons, List.length_nil] at hi
        omega
      · exact absurd rfl (hshort a b c rest)
    rw [shbase64EncodeLoop, if_neg hend, base64Text]
    · exact hshort
    · exact hshort

/-- Of less than two bytes the loop has no end. -/
theorem encodeLoop_short {lim max : Nat} {data : Bytes} (hlim : 0 < lim)
    (hshort : data.length < 2) :
    shbase64EncodeLoop lim max 0 [] data = none := by
  rcases data with _ | ⟨a, _ | ⟨b, rest⟩⟩
  · exact if_pos hlim
  · exact if_pos hlim
  · simp only [List.length_cons] at hshort
    omega

/-- The size of a text that fits an `int`. -/
theorem encodeLen_eq {n : Nat} (h : (n + 2) / 3 * 4 + 1 < 2 ^ 31) :
    shbase64EncodeLen (cInt n) = (n + 2) / 3 * 4 + 1 := by
  have hn : cInt n = n := cInt_of_lt (by omega) (by omega)
  have hplus : cInt ((n : Int) + 2) = n + 2 := cInt_of_lt (by omega) (by omega)
  have htext : cInt (((n : Int) + 2) / 3 * 4) = (n + 2) / 3 * 4 := cInt_of_lt (by omega) (by omega)
  rw [shbase64EncodeLen, hn, hplus, Int.tdiv_eq_ediv_of_nonneg (by omega), htext]
  exact cInt_of_lt (by omega) (by omega)

/-- A size that is not negative is less than half of the numbers of 32 bits. -/
theorem encodeLen_le {len : Int} (h : 0 ≤ shbase64EncodeLen len) :
    shbase64EncodeLen len ≤ 2 ^ 31 - 3 := by
  unfold shbase64EncodeLen cInt at *
  omega

/-- A length that is not negative is allocated. -/
theorem calloc_of_nonneg {i : Int} (hlow : 0 ≤ i) (hhigh : i < 2 ^ 31) :
    calloc (cSize (cSize i + 1)) = some (i.toNat + 1) := by
  have hsize : cSize i = i.toNat := by
    unfold cSize
    omega
  rw [hsize, calloc]
  have hnext : cSize ((i.toNat : Int) + 1) = i.toNat + 1 := by
    unfold cSize
    omega
  rw [hnext, if_pos (by omega)]

/-- A negative size is more than there is. -/
theorem calloc_of_neg {i : Int} (hlow : -2 ^ 31 ≤ i) (hneg : i < -1) :
    calloc (cSize (cSize i + 1)) = none := by
  unfold calloc cSize
  rw [if_neg (by omega)]

/-- What `shbase64_encode` does with a byte string of any length. -/
theorem shbase64Encode_eq {data : Bytes} (hsize : data.length < 2 ^ 64) : shbase64Encode data =
    if shbase64EncodeLen (cInt data.length) < 0 then some (.error .nomem)
    else if 2 ≤ data.length ∧ (data.length + 2) / 3 * 4 + 1 < 2 ^ 31 then
      some (.ok (base64Text data))
    else none := by
  unfold shbase64Encode
  by_cases hneg : shbase64EncodeLen (cInt data.length) < 0
  · have hlow : -2 ^ 31 ≤ shbase64EncodeLen (cInt data.length) ∧
        shbase64EncodeLen (cInt data.length) < -1 := by
      unfold shbase64EncodeLen cInt at *
      omega
    rw [if_pos hneg, calloc_of_neg hlow.1 hlow.2, Option.elim_none]
  have hle := encodeLen_le (Int.not_lt.mp hneg)
  rw [if_neg hneg, calloc_of_nonneg (by omega) (by omega), Option.elim_some]
  by_cases hshort : data.length < 2
  · have hlim : 0 < cSize (data.length - 2) := by
      unfold cSize
      omega
    rw [encodeLoop_short hlim hshort, Option.map_none, if_neg fun h =>
      absurd h.1 (Nat.not_le.mpr hshort)]
  have hlim : 0 + data.length = cSize (data.length - 2) + 2 := by
    unfold cSize
    omega
  rw [encodeLoop_eq data [] 0 hlim, putChars_nil, length_base64Text]
  by_cases hmany : (data.length + 2) / 3 * 4 + 1 < 2 ^ 31
  · have hlen := encodeLen_eq hmany
    rw [if_pos (by omega), if_pos ⟨Nat.le_of_not_lt hshort, hmany⟩, Option.map_some]
  · rw [if_neg (by omega), if_neg fun h => hmany h.2, Option.map_none]

/-! ## Decoding -/

/-- The bytes of characters with values. -/
def base64Bytes : Bytes → Bytes
  | c0 :: c1 :: c2 :: c3 :: rest =>
    [decodeFirst c0 c1, decodeSecond c1 c2, decodeThird c2 c3] ++ base64Bytes rest
  | [c0, c1, c2] => [decodeFirst c0 c1, decodeSecond c1 c2]
  | [c0, c1] => [decodeFirst c0 c1]
  | [_] => []
  | [] => []

/-- Four characters make three bytes. -/
theorem length_base64Bytes : ∀ chars :
    Bytes, (base64Bytes chars).length = chars.length * 3 / 4 := by
  intro chars
  induction chars using base64Bytes.induct with
  | case1 c0 c1 c2 c3 rest ih =>
    rw [base64Bytes, List.length_append, ih]
    simp only [List.length_cons, List.length_nil]
    omega
  | case2 | case3 | case4 | case5 => simp [base64Bytes]

/-- The last characters, of which there are at most four. -/
theorem decodeRest_eq {chars : Bytes} (h : chars.length ≤ 4) (more : Bytes) :
    decodeRest chars.length (chars ++ more) = some (base64Bytes chars) := by
  rcases chars with _ | ⟨c0, _ | ⟨c1, _ | ⟨c2, _ | ⟨c3, _ | ⟨c4, rest⟩⟩⟩⟩⟩
  · simp [decodeRest, base64Bytes]
  · simp [decodeRest, base64Bytes]
  · simp [decodeRest, base64Bytes]
  · simp [decodeRest, base64Bytes]
  · simp [decodeRest, base64Bytes]
  · simp only [List.length_cons] at h
    omega

/-- The loop of the decoder does not go on with four characters or less. -/
theorem decodeLoop_rest {max n : Nat} (h : n ≤ 4) (out bufin : Bytes) :
    shbase64DecodeLoop max n out bufin = (decodeRest n bufin).bind (putChars max out) := by
  rcases bufin with _ | ⟨c0, _ | ⟨c1, _ | ⟨c2, _ | ⟨c3, rest⟩⟩⟩⟩ <;>
    exact if_neg (Nat.not_lt.mpr h)

/-- The loop of the decoder over the first characters of a text. -/
theorem decodeLoop_eq {max : Nat} : ∀ (chars more out : Bytes),
    shbase64DecodeLoop max chars.length out (chars ++ more) =
      putChars max out (base64Bytes chars) := by
  intro chars
  induction chars using base64Bytes.induct with
  | case1 c0 c1 c2 c3 rest ih =>
    intro more out
    by_cases hrest : rest = []
    · subst hrest
      have hfour : [c0, c1, c2, c3].length ≤ 4 := Nat.le_refl 4
      rw [decodeLoop_rest hfour, decodeRest_eq hfour, Option.bind_some]
    · have hpos := List.length_pos_iff.mpr hrest
      have hlen : (c0 :: c1 :: c2 :: c3 :: rest).length = rest.length + 4 := rfl
      rw [hlen, List.cons_append, List.cons_append, List.cons_append, List.cons_append,
        shbase64DecodeLoop, if_pos (by omega), Nat.add_sub_cancel, base64Bytes]
      simp only [ih]
      exact putChars_append max out _ _
  | case2 | case3 | case4 | case5 =>
    intro more out
    rw [decodeLoop_rest (by simp), decodeRest_eq (by simp), Option.bind_some]

/-- What is decoded from so many characters, in so much memory. -/
theorem decodeLoop_take {max n : Nat} {bufin : Bytes} (h : n ≤ bufin.length) :
    shbase64DecodeLoop max n [] bufin = putChars max [] (base64Bytes (bufin.take n)) := by
  have hloop := @decodeLoop_eq max (bufin.take n) (bufin.drop n) []
  rwa [List.take_append_drop, List.length_take, Nat.min_eq_left h] at hloop

/-- There are no more valid characters than characters. -/
theorem length_validChars_le (encData : Bytes) : (validChars encData).length ≤ encData.length :=
  (List.takeWhile_prefix _).length_le

/-- What `shbase64_decode` does with a text, if the number of its characters is an `int` even when
it is rounded up. -/
theorem shbase64Decode_int {encData : Bytes} {n : Nat} (hint : cInt (validChars encData).length = n)
    (h : n < 2 ^ 31 - 3) :
    ∃ zeros, shbase64Decode encData = some (.ok (base64Bytes (encData.take n) ++ zeros,
      (base64Bytes (encData.take n)).length)) := by
  have hle : n ≤ encData.length := by
    have hvalid := length_validChars_le encData
    unfold cInt at hint
    omega
  have hlen := length_base64Bytes (encData.take n)
  rw [List.length_take, Nat.min_eq_left hle] at hlen
  have hplus : cInt ((n : Int) + 3) = n + 3 := cInt_of_lt (by omega) (by omega)
  have hdecoded : decodedLen n = (n + 3) / 4 * 3 := by
    rw [decodedLen, hplus, Int.tdiv_eq_ediv_of_nonneg (by omega)]
    exact cInt_of_lt (by omega) (by omega)
  have hsize : shbase64DecodeLen encData = (n + 3) / 4 * 3 + 1 := by
    rw [shbase64DecodeLen, hint, hdecoded]
    exact cInt_of_lt (by omega) (by omega)
  have hcount : cSize (decodedLen n - (4 - n) % 4) = n * 3 / 4 := by
    have hmod : n % 4 = 0 ∨ n % 4 = 1 ∨ n % 4 = 2 ∨ n % 4 = 3 := by omega
    have hexact : ((n : Int) + 3) / 4 * 3 - (4 - (n : Int)) % 4 = (n * 3 / 4 : Nat) := by
      rcases hmod with h0 | h1 | h2 | h3 <;> omega
    rw [hdecoded, hexact]
    exact cSize_of_lt (by omega)
  unfold shbase64Decode
  rw [hsize, calloc_of_nonneg (by omega) (by omega), Option.elim_some, hint]
  dsimp only
  rw [hcount, Int.toNat_natCast, decodeLoop_take hle, putChars_nil, hlen, if_pos (by omega)]
  -- there is room for the terminator
  have hroom : putChars (((n : Int) + 3) / 4 * 3 + 1).toNat.succ
      (base64Bytes (encData.take n)) [0] =
      some (base64Bytes (encData.take n) ++ [0]) := if_pos (by
    rw [hlen, List.length_singleton]
    omega)
  rw [Option.bind_eq_bind, Option.bind_some, hroom, Option.bind_some, List.append_assoc]
  exact ⟨_, rfl⟩

/-- All characters are decoded, if they are less than an `int` can count. -/
theorem shbase64Decode_eq {encData : Bytes} (h : (validChars encData).length < 2 ^ 31 - 3) :
    ∃ zeros, shbase64Decode encData = some (.ok (base64Bytes (validChars encData) ++ zeros,
      (base64Bytes (validChars encData)).length)) := by
  have htake : encData.take (validChars encData).length = validChars encData :=
    List.prefix_iff_eq_take.mp (List.takeWhile_prefix _) |>.symm
  have hdec := shbase64Decode_int (cInt_of_lt (by omega) (by omega)) h
  rwa [htake] at hdec

/-! ## There and back -/

/-- A character of the alphabet is valid. -/
theorem validChars_cons {ch : UInt8} (chars : Bytes) (h : sextet ch ≤ 63) :
    validChars (ch :: chars) = ch :: validChars chars := by
  unfold validChars
  exact List.takeWhile_cons_of_pos (decide_eq_true h)

/-- The padding ends the text. -/
theorem validChars_pad (chars : Bytes) : validChars (0x3d :: chars) = [] := rfl

/-- The character of a value is in the text. -/
theorem sextetChar_le {v : UInt8} (h : v >>> 6 = 0) : sextet (sextetChar v) ≤ 63 := by
  rw [sextet_sextetChar v h]
  exact le_of_six_bits v h

/-- The text of a byte string gives it back. -/
theorem base64Bytes_base64Text : ∀ data :
    Bytes, base64Bytes (validChars (base64Text data)) = data := by
  intro data
  induction data using base64Text.induct with
  | case1 a b c rest ih =>
    obtain ⟨h0, h1, h2, h3⟩ := six_bits a b c
    obtain ⟨ha, hb, hc⟩ := three_bytes a b c
    rw [base64Text, encodeThree]
    simp only [List.cons_append, List.nil_append]
    rw [validChars_cons _ (sextetChar_le h0), validChars_cons _ (sextetChar_le h1),
      validChars_cons _ (sextetChar_le h2), validChars_cons _ (sextetChar_le h3), base64Bytes, ih]
    simp only [decodeFirst, decodeSecond, decodeThird, sextet_sextetChar _ h0,
      sextet_sextetChar _ h1, sextet_sextetChar _ h2, sextet_sextetChar _ h3, ha, hb, hc,
        List.cons_append, List.nil_append]
  | case2 rest hshort =>
    rcases rest with _ | ⟨a, _ | ⟨b, _ | ⟨c, rest⟩⟩⟩
    · rfl
    · -- the second byte counts as zero
      obtain ⟨h0, h1, -⟩ := six_bits a 0 0
      have ha := (three_bytes a 0 0).1
      have hzero : (0 &&& 0xf0 : UInt8) >>> 4 = 0 := rfl
      rw [hzero, UInt8.or_zero] at h1 ha
      simp only [base64Text, encodeRest]
      rw [validChars_cons _ (sextetChar_le h0), validChars_cons _ (sextetChar_le h1),
        validChars_pad, base64Bytes, decodeFirst, sextet_sextetChar _ h0,
          sextet_sextetChar _ h1, ha]
    · -- the third byte counts as zero
      obtain ⟨h0, h1, h2, -⟩ := six_bits a b 0
      obtain ⟨ha, hb, -⟩ := three_bytes a b 0
      have hzero : (0 &&& 0xc0 : UInt8) >>> 6 = 0 := rfl
      rw [hzero, UInt8.or_zero] at h2 hb
      simp only [base64Text, encodeRest]
      rw [validChars_cons _ (sextetChar_le h0), validChars_cons _ (sextetChar_le h1),
        validChars_cons _ (sextetChar_le h2), validChars_pad, base64Bytes, decodeFirst,
          decodeSecond,
        sextet_sextetChar _ h0, sextet_sextetChar _ h1, sextet_sextetChar _ h2, ha, hb]
    · exact absurd rfl (hshort a b c rest)

/-- The memory that is decoded into is not larger than there can be. -/
theorem length_decoded {encData plain : Bytes} {len : Nat}
    (h : shbase64Decode encData = some (.ok (plain, len))) :
    plain.length < 2 ^ 63 := by
  unfold shbase64Decode at h
  rcases halloc : calloc (cSize (cSize (shbase64DecodeLen encData) + 1)) with _ | max
  · rw [halloc, Option.elim_none] at h
    cases h
  rw [halloc, Option.elim_some] at h
  obtain ⟨out, -, h⟩ := Option.bind_eq_some_iff.mp h
  obtain ⟨ended, hput, h⟩ := Option.bind_eq_some_iff.mp h
  rw [Option.some.injEq, Except.ok.injEq, Prod.mk.injEq] at h
  unfold putChars at hput
  split at hput
  · next hroom =>
    rw [Option.some.injEq] at hput
    have hmax : max < 2 ^ 63 := by
      unfold calloc at halloc
      split at halloc
      · next hlt =>
        rw [← Option.some.inj halloc]
        exact hlt
      · cases halloc
    rw [← h.1, ← hput, List.length_append, List.length_append, List.length_replicate]
    omega
  · cases hput

/-- The encoder reads nothing but the data, and its text gives the data and its length back. -/
def Base64Exact (data : Bytes) : Prop :=
  ∃ text plain, shbase64Encode data = some (.ok text) ∧
    shbase64Decode text = some (.ok (plain, data.length)) ∧ plain.take data.length = data

/-- The data comes back if and only if it has two bytes, and the size of its text is an `int`. -/
theorem base64_iff (data : Bytes) :
    Base64Exact data ↔ 2 ≤ data.length ∧ (data.length + 2) / 3 * 4 + 1 < 2 ^ 31 := by
  constructor
  · rintro ⟨text, plain, henc, hdec, hback⟩
    -- what is decoded has room in memory, and so had the data
    have hmem := length_decoded hdec
    have hlen := congrArg List.length hback
    rw [List.length_take] at hlen
    rw [shbase64Encode_eq (by omega)] at henc
    split at henc
    · cases henc
    · split at henc
      · next hfits => exact hfits
      · cases henc
  · intro hfits
    have hlen := encodeLen_eq hfits.2
    have henc : shbase64Encode data = some (.ok (base64Text data)) := by
      rw [shbase64Encode_eq (by omega), if_neg (by omega), if_pos hfits]
    have hchars := length_validChars_le (base64Text data)
    rw [length_base64Text] at hchars
    obtain ⟨zeros, hdec⟩ := @shbase64Decode_eq (base64Text data) (by omega)
    rw [base64Bytes_base64Text] at hdec
    exact ⟨_, _, henc, hdec, List.take_left⟩

/-- The encoder reads behind a single byte. -/
theorem one_byte_over_read : shbase64Encode [97] = none ∧ ¬ Base64Exact [97] := by
  have hnone : shbase64Encode [97] = none := by decide
  refine ⟨hnone, ?_⟩
  rintro ⟨text, plain, henc, -⟩
  rw [hnone] at henc
  cases henc

end LibShare.Mem
