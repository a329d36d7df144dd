import LibShare.Mem.Alg
import LibShare.Mem.Shr56

/-!
# libshare — the texts of binary data

`shalg_encode` and `shalg_decode` of `shmem_alg.c`, in the formats SHFMT_HEX, SHFMT_BASE64 and
SHFMT_SHR56. The text is made in a buffer of 4096 bytes, and the data in memory of the caller, whose
size is an argument. Each format looks after these bounds in its own way:

* the hexadecimal encoder compares the data with twice the buffer instead of its half, the decoder
  compares nothing;
* a base64 text that is longer than the buffer is cut off without its terminator;
* the encoder of SHR56 compares nothing, the decoder compares a length that leaves out the end of
  the last number, which it copies if five characters are left over.

Main results:

* `shbase64Decode_total` — the decoder of base64 comes back from every text.
* `encode_inside_iff`, `decode_inside_iff` — the lengths with which a call stays inside.
* `text_buffers_iff` — both.
-/

namespace LibShare.Mem

/-! ## The formats -/

/-- The formats SHFMT_HEX, SHFMT_BASE64 and SHFMT_SHR56. -/
inductive ShFmt where
  | hex
  | base64
  | shr56
deriving DecidableEq

/-- A hexadecimal digit as it is printed. -/
def hexChar (d : Nat) : UInt8 := UInt8.ofNat (if d < 10 then 48 + d else 87 + d)

/-- `sprintf` of a byte with `%-2.2x`. -/
def hexByte (b : UInt8) : Bytes := [hexChar (b.toNat / 16), hexChar (b.toNat % 16)]

def textBytes (text : List Char) : Bytes := text.map fun ch => UInt8.ofNat ch.toNat

def textChars (text : Bytes) : List Char := text.map fun c => Char.ofNat c.toNat

/-! ## Encoding -/

/-- The buffer with a text in it. -/
def textBuf (text : Bytes) : Bytes := text ++ List.replicate (retBufMax - text.length) 0

/-- The loop of `_shalg_encode_hex`. -/
def hexEncodeLoop : Bytes → Bytes → Option Bytes
  | retBuf, [] => some retBuf
  | retBuf, b :: data => (putText retBuf (hexByte b)).bind fun retBuf => hexEncodeLoop retBuf data

/-- `_shalg_encode_hex`. -/
def shalgEncodeHex (data : Bytes) : Option (Option Bytes) :=
  if data.length ≥ retBufMax * 2 then some none
  else (hexEncodeLoop [] data).map fun text => some (textBuf text)

/-- `_shalg_encode_b64`. -/
def shalgEncodeB64 (data : Bytes) : Option (Option Bytes) :=
  (shbase64Encode data).map fun
    | .error _ => none
    -- `strncpy`
    | .ok encData => some (textBuf (encData.take retBufMax))

/-- `shalg_encode`: the buffer that is returned, if one is. -/
def shalgEncode (fmt : ShFmt) (val : UInt32) (data : Bytes) : Option (Option Bytes) :=
  match fmt with
  | .hex => shalgEncodeHex data
  | .base64 => shalgEncodeB64 data
  | .shr56 => (shalgEncodeShr56 val data).map fun text => some (textBuf (textBytes text))

/-! ## Decoding -/

/-- `_shalg_decode_hex`, into memory of zeros. -/
def shalgDecodeHexTo (inData : Bytes) (dataMax : Nat) : Option (Except Sherr (Bytes × Nat)) :=
  let len := cInt inData.length
  -- the offset would be counted over the end of an `int`
  if len = 2 ^ 31 - 1 then none
  else (store (List.replicate dataMax 0) 0
    ((shalgDecodeHex inData).take ((len + 1) / 2).toNat)).map fun data =>
    .ok (data, (inData.length + 1) / 2)

/-- `_shalg_decode_b64`, into memory of zeros. -/
def shalgDecodeB64 (inText : Bytes) (dataMax : Nat) : Option (Except Sherr (Bytes × Nat)) :=
  (shbase64Decode inText).bind fun
    | .error err => some (.error err)
    | .ok (retData, retLen) =>
      if dataMax < retLen then some (.error .inval)
      else ((fetch retData 0 retLen).bind (store (List.replicate dataMax 0) 0)).map fun data =>
        .ok (data, retLen)

/-- `shalg_decode` of the text in a buffer: the memory of the caller, and the length. -/
def shalgDecode (fmt : ShFmt) (inData : Bytes) (dataMax : Nat) :
    Option (Except Sherr (Bytes × Nat)) :=
  let text := inData.takeWhile (· ≠ 0)
  match fmt with
  | .hex => shalgDecodeHexTo text dataMax
  | .base64 => shalgDecodeB64 text dataMax
  | .shr56 => shalgDecodeShr56 (textChars text) dataMax

theorem shalgDecode_hex (inData : Bytes) (dataMax : Nat) :
    shalgDecode .hex inData dataMax = shalgDecodeHexTo (inData.takeWhile (· ≠ 0)) dataMax := rfl

theorem shalgDecode_base64 (inData : Bytes) (dataMax : Nat) :
    shalgDecode .base64 inData dataMax = shalgDecodeB64 (inData.takeWhile (· ≠ 0)) dataMax := rfl

theorem shalgDecode_shr56 (inData : Bytes) (dataMax : Nat) :
    shalgDecode .shr56 inData dataMax = shalgDecodeShr56
      (textChars (inData.takeWhile (· ≠ 0))) dataMax := rfl

/-! ## The buffer -/

/-- A text without zeros is what stands before the zero of its buffer. -/
theorem takeWhile_textBuf {text : Bytes} (hzero : 0 ∉ text) :
    (textBuf text).takeWhile (· ≠ 0) = text := by
  have hall : ∀ c ∈ text, decide (c ≠ 0) = true :=
    fun c hc => decide_eq_true fun h => hzero (h ▸ hc)
  rw [textBuf, List.takeWhile_append_of_pos hall]
  cases retBufMax - text.length with
  | zero => rw [List.replicate_zero, List.takeWhile_nil, List.append_nil]
  | succ n => rw [List.replicate_succ, List.takeWhile_cons_of_neg (by decide), List.append_nil]

/-- A text has its terminator in the buffer if it is shorter than the buffer. -/
theorem zero_mem_textBuf {text : Bytes} (hzero : 0 ∉ text) :
    0 ∈ textBuf text ↔ text.length < retBufMax := by
  rw [textBuf, List.mem_append, List.mem_replicate, or_iff_right hzero]
  constructor
  · rintro ⟨hne, -⟩
    omega
  · intro hlt
    exact ⟨by omega, rfl⟩

/-! ## Hexadecimal texts -/

/-- A hexadecimal digit is read as the number it has been written for. -/
theorem hexDigit_hexChar : ∀ d < 16, hexDigit (hexChar d) = some d ∧ hexChar d ≠ 0 := by decide

/-- Two digits are read as their byte. -/
theorem strtol16_hexChar :
    ∀ d < 16, ∀ e < 16, strtol16 [hexChar d, hexChar e] = (16 * d + e : Nat) := by decide

/-- The digits of a byte give it back. -/
theorem ofInt_hexByte (b : UInt8) : UInt8.ofInt (strtol16 (hexByte b)) = b := by
  have hlt := b.toNat_lt
  rw [hexByte, strtol16_hexChar _ (by omega) _ (by omega), Nat.div_add_mod]
  have hofNat : UInt8.ofInt (b.toNat : Int) = UInt8.ofNat b.toNat := by
    rw [UInt8.ofInt, Int.emod_eq_of_lt (by omega) (by omega), Int.toNat_natCast]
  rw [hofNat, UInt8.ofNat_toNat]

/-- The hexadecimal text of some data is decoded as the data. -/
theorem shalgDecodeHex_flatMap (data : Bytes) : shalgDecodeHex (data.flatMap hexByte) = data := by
  induction data with
  | nil => rfl
  | cons b data ih =>
    rw [List.flatMap_cons]
    show UInt8.ofInt (strtol16 (hexByte b)) :: shalgDecodeHex (data.flatMap hexByte) = _
    rw [ofInt_hexByte, ih]

/-- Two characters make one byte, and a single one at the end another. -/
theorem length_shalgDecodeHex : ∀ inData :
    Bytes, (shalgDecodeHex inData).length = (inData.length + 1) / 2 := by
  intro inData
  induction inData using shalgDecodeHex.induct with
  | case1 c0 c1 rest ih =>
    rw [shalgDecodeHex, List.length_cons, ih]
    simp only [List.length_cons]
    omega
  | case2 c0 => simp [shalgDecodeHex]
  | case3 => simp [shalgDecodeHex]

/-- A byte has two digits. -/
theorem length_hexText (data : Bytes) : (data.flatMap hexByte).length = 2 * data.length := by
  induction data with
  | nil => rfl
  | cons b data ih =>
    rw [List.flatMap_cons, List.length_append, ih, List.length_cons]
    show 2 + _ = _
    omega

/-- A hexadecimal text has no zeros in it. -/
theorem zero_notMem_hexText (data : Bytes) : 0 ∉ data.flatMap hexByte := by
  intro hmem
  obtain ⟨b, -, hb⟩ := List.mem_flatMap.mp hmem
  have hlt := b.toNat_lt
  rcases List.mem_cons.mp hb with h | h
  · exact (hexDigit_hexChar _ (by omega)).2 h.symm
  · exact (hexDigit_hexChar _ (by omega)).2 (List.mem_singleton.mp h).symm

/-- The loop that encodes appends the text of all the data, as far as the buffer goes. -/
theorem hexEncodeLoop_eq : ∀ data retBuf : Bytes, retBuf.length < retBufMax →
    hexEncodeLoop retBuf data = putText retBuf (data.flatMap hexByte) := by
  intro data
  induction data with
  | nil =>
    intro retBuf hroom
    exact (putText_nil_right hroom).symm
  | cons b data ih =>
    intro retBuf hroom
    rw [hexEncodeLoop, List.flatMap_cons, ← putText_append]
    rcases hput : putText retBuf (hexByte b) with _ | next
    · rfl
    · exact ih next (length_putText hput)

/-! ## The other texts -/

/-- A text in an empty buffer. -/
theorem putText_nil {α : Type} {text : List α} :
    putText [] text = if text.length < retBufMax then some text else none := by
  rw [putText, putChars_nil]
  exact if_congr (Nat.le_sub_one_iff_lt (by decide)) rfl rfl

/-- A text in base 64 has no zeros in it. -/
theorem zero_notMem_base64Text : ∀ data : Bytes, 0 ∉ base64Text data := by
  intro data
  induction data using base64Text.induct with
  | case1 a b c rest ih =>
    rw [base64Text, List.mem_append, not_or]
    refine ⟨?_, ih⟩
    simp [encodeThree, zero_ne_sextetChar]
  | case2 rest hshort =>
    rcases rest with _ | ⟨a, _ | ⟨b, _ | ⟨c, rest⟩⟩⟩
    · simp [base64Text, encodeRest]
    · simp [base64Text, encodeRest, zero_ne_sextetChar]
    · simp [base64Text, encodeRest, zero_ne_sextetChar]
    · exact absurd rfl (hshort a b c rest)

/-- The characters of a text in the format SHR56 are single bytes. -/
theorem shr56Text_chars (val : UInt32) (data : Bytes) :
    ∀ ch ∈ shr56Text val data, 0 < ch.toNat ∧ ch.toNat < 128 := by
  have hdot : ∀ n, ∀ ch ∈ List.replicate n '.', 0 < ch.toNat ∧ ch.toNat < 128 := by
    intro n ch hch
    rw [List.eq_of_mem_replicate hch]
    decide
  intro ch hch
  rcases List.mem_append.mp hch with hrow | hpad
  · obtain ⟨w, -, hw⟩ := List.mem_flatMap.mp hrow
    rcases List.mem_append.mp hw with hfill | hdigit
    · exact hdot _ ch hfill
    · exact (mem_shcrcstrLoop 65 hdigit).2.2
  · exact hdot _ ch hpad

/-- A text of ASCII characters is the text of its bytes. -/
theorem textChars_textBytes : ∀ text : List Char, (∀ ch ∈ text, 0 < ch.toNat ∧ ch.toNat < 128) →
    textChars (textBytes text) = text ∧ 0 ∉ textBytes text := by
  intro text
  induction text with
  | nil => exact fun _ => ⟨rfl, List.not_mem_nil⟩
  | cons ch text ih =>
    intro hall
    have hch := hall ch List.mem_cons_self
    have hback : (UInt8.ofNat ch.toNat).toNat = ch.toNat := by
      rw [UInt8.toNat_ofNat']
      omega
    obtain ⟨hrest, hzero⟩ := ih fun c hc => hall c (List.mem_cons_of_mem _ hc)
    constructor
    · show Char.ofNat (UInt8.ofNat ch.toNat).toNat :: textChars (textBytes text) = _
      rw [hback, Char.ofNat_toNat, hrest]
    · intro hmem
      rcases List.mem_cons.mp hmem with h | h
      · have hnat := congrArg UInt8.toNat h
        rw [hback] at hnat
        exact absurd hnat (by rw [UInt8.toNat_zero]; omega)
      · exact hzero h

/-! ## The decoder of base64 -/

/-- Division of C for a number that is not positive. -/
theorem tdiv_four_of_nonpos {i : Int} (h : i ≤ 0) : i.tdiv 4 = -(-i / 4) := by
  obtain ⟨n, rfl⟩ : ∃ n : Nat, i = -(n : Int) := ⟨i.natAbs, by omega⟩
  rw [Int.neg_tdiv, Int.neg_neg, Int.tdiv_eq_ediv_of_nonneg (by omega)]

/-- The number of the characters, where it is negative, or cannot be rounded up. -/
theorem decodedLen_neg {k : Int} (hlow : -2 ^ 31 ≤ k) (hhigh : k < 2 ^ 31)
    (hneg : k < -6 ∨ 2 ^ 31 - 3 ≤ k) :
    -2 ^ 31 < decodedLen k ∧ decodedLen k < -2 := by
  have hplus : cInt (k + 3) ≤ -4 ∧ -2 ^ 31 ≤ cInt (k + 3) := by
    unfold cInt
    omega
  rw [decodedLen, tdiv_four_of_nonpos (by omega), cInt_of_lt (by omega) (by omega)]
  omega

/-- A length a little below zero is cut to zero. -/
theorem decodedLen_zero {k : Int} (hlow : -6 ≤ k) (hhigh : k < 0) : decodedLen k = 0 := by
  have hplus : cInt (k + 3) = k + 3 := cInt_of_lt (by omega) (by omega)
  have hdiv : (k + 3).tdiv 4 = 0 := by
    by_cases hpos : k + 3 ≤ 0
    · rw [tdiv_four_of_nonpos hpos]
      omega
    · rw [Int.tdiv_eq_ediv_of_nonneg (by omega)]
      omega
  rw [decodedLen, hplus, hdiv]
  rfl

/-- The decoder of base64 comes back from every text. It has decoded the length that it returns, or
the length is one that no memory has. -/
theorem shbase64Decode_total (encData : Bytes) : ∃ ret, shbase64Decode encData = some ret ∧
    ∀ retData retLen, ret = .ok (retData, retLen) → retLen ≤ retData.length ∨ 2 ^ 63 ≤ retLen := by
  obtain ⟨k, hcount⟩ : ∃ k, cInt (validChars encData).length = k := ⟨_, rfl⟩
  have hlow : -2 ^ 31 ≤ k ∧ k < 2 ^ 31 := by
    unfold cInt at hcount
    omega
  by_cases hneg : k < -6 ∨ 2 ^ 31 - 3 ≤ k
  · -- the size of the memory is negative
    have hlen := decodedLen_neg hlow.1 hlow.2 hneg
    have hsize : shbase64DecodeLen encData = decodedLen k + 1 := by
      rw [shbase64DecodeLen, hcount]
      exact cInt_of_lt (by omega) (by omega)
    refine ⟨.error .nomem, ?_, fun _ _ hret => by cases hret⟩
    rw [shbase64Decode, hsize, calloc_of_neg (by omega) (by omega), Option.elim_none]
  by_cases hpos : 0 ≤ k
  · obtain ⟨n, rfl⟩ := Int.eq_ofNat_of_zero_le hpos
    obtain ⟨zeros, hdec⟩ := shbase64Decode_int hcount (by omega)
    refine ⟨_, hdec, fun retData retLen hret => Or.inl ?_⟩
    rw [Except.ok.injEq, Prod.mk.injEq] at hret
    rw [← hret.1, ← hret.2, List.length_append]
    exact Nat.le_add_right _ _
  · -- no character is decoded, but the length is less than zero
    have hzero := decodedLen_zero (k := k) (by omega) (by omega)
    have hsize : shbase64DecodeLen encData = 1 := by
      rw [shbase64DecodeLen, hcount, hzero]
      rfl
    have hnone : k.toNat = 0 := by omega
    refine ⟨.ok ([0, 0], cSize (0 - (4 - k) % 4)), ?_, fun retData retLen hret => ?_⟩
    · rw [shbase64Decode, hsize, calloc_of_nonneg (by omega) (by omega), Option.elim_some, hcount]
      dsimp only
      rw [hzero, hnone, decodeLoop_take (Nat.zero_le _)]
      rfl
    · rw [Except.ok.injEq, Prod.mk.injEq] at hret
      rw [← hret.1, ← hret.2, List.length_cons, List.length_singleton]
      unfold cSize
      omega

/-! ## Inside the buffers -/

/-- A call of `shalg_encode` stays inside its buffer. It fails, or its text has an end, and is
decoded to the data in any memory that has room for it. -/
def EncodesInside (fmt : ShFmt) (val : UInt32) (data : Bytes) : Prop :=
  ∃ ret, shalgEncode fmt val data = some ret ∧ ∀ retBuf, ret = some retBuf →
    0 ∈ retBuf ∧ ∀ dataMax, data.length ≤ dataMax →
      ∃ plain, shalgDecode fmt retBuf dataMax = some (.ok (plain, data.length)) ∧
        plain.take data.length = data

/-- A call of `shalg_decode` stays inside the memory of the caller. It fails, or its length does as
well. -/
def DecodesInside (fmt : ShFmt) (inData : Bytes) (dataMax : Nat) : Prop :=
  ∃ ret, shalgDecode fmt inData dataMax = some ret ∧ ∀ plain len, ret = .ok (plain, len) →
    len ≤ dataMax

/-- The lengths with which the encoder stays inside. -/
def encodeFits : ShFmt → Nat → Prop
  | .hex, n => 2 * n < retBufMax ∨ retBufMax * 2 ≤ n
  | .base64, n => shbase64EncodeLen (cInt n) < 0 ∨ 2 ≤ n ∧ (n + 2) / 3 * 4 < retBufMax
  | .shr56, n => 6 * ((n + 3) / 4) + padDotsOf n < retBufMax

/-- The lengths of a text, as an `int`, with which the decoder stays inside. -/
def decodeFits : ShFmt → Nat → Nat → Prop
  | .hex, n, dataMax => (n + 1) / 2 ≤ dataMax ∧ cInt n ≠ 2 ^ 31 - 1
  | .base64, _, _ => True
  | .shr56, n, dataMax =>
    cInt n % 6 = 5 → 2 ≤ cInt n / 6 → 4 * (cInt n / 6) ≤ dataMax + 5 → 4 * (cInt n / 6) ≤ dataMax

/-- Data that is stored into memory of zeros. -/
theorem store_zeros {bs : Bytes} {dataMax : Nat} (h : bs.length ≤ dataMax) :
    store (List.replicate dataMax 0) 0 bs = some
      (bs ++ List.replicate (dataMax - bs.length) 0) := by
  rw [store_zero (by rwa [List.length_replicate]), List.drop_replicate]

/-- What is longer than the block is not stored. -/
theorem store_zeros_none {bs : Bytes} {dataMax : Nat} (h : dataMax < bs.length) :
    store (List.replicate dataMax 0) 0 bs = none := by
  rw [store, List.length_replicate, if_neg (by omega)]

/-- An encoder without a result has written behind its buffer. -/
theorem not_encodesInside {fmt : ShFmt} {val : UInt32} {data : Bytes}
    (henc : shalgEncode fmt val data = none) :
    ¬ EncodesInside fmt val data := by
  rintro ⟨ret, hret, -⟩
  rw [henc] at hret
  cases hret

/-- A text that fits the buffer, if it is decoded to the data. -/
theorem encodesInside_text {fmt : ShFmt} {val : UInt32} {data text : Bytes}
    (henc : shalgEncode fmt val data = some (some (textBuf text))) (hzero : 0 ∉ text)
    (hfits : text.length < retBufMax)
    (hdec : ∀ dataMax, data.length ≤ dataMax → shalgDecode fmt (textBuf text) dataMax =
      some (.ok (data ++ List.replicate (dataMax - data.length) 0, data.length))) :
    EncodesInside fmt val data := by
  refine ⟨_, henc, ?_⟩
  rintro _ ⟨⟩
  exact ⟨(zero_mem_textBuf hzero).mpr hfits, fun dataMax hmax =>
    ⟨_, hdec dataMax hmax, List.take_left⟩⟩

/-- Hexadecimal texts: exactly the lengths that the buffer has room for. -/
theorem hex_encode_iff (val : UInt32) (data : Bytes) :
    EncodesInside .hex val data ↔ encodeFits .hex data.length := by
  have henc : shalgEncode .hex val data = if retBufMax * 2 ≤ data.length then some none
      else (putText [] (data.flatMap hexByte)).map fun text => some (textBuf text) := by
    show shalgEncodeHex data = _
    rw [shalgEncodeHex, hexEncodeLoop_eq data [] (by decide)]
  rw [putText_nil, length_hexText] at henc
  rw [encodeFits]
  by_cases hlong : retBufMax * 2 ≤ data.length
  · rw [if_pos hlong] at henc
    exact ⟨fun _ => Or.inr hlong, fun _ => ⟨none, henc, fun _ h => by cases h⟩⟩
  rw [if_neg hlong] at henc
  rw [or_iff_left hlong]
  by_cases hfits : 2 * data.length < retBufMax
  · rw [if_pos hfits, Option.map_some] at henc
    have hzero := zero_notMem_hexText data
    refine ⟨fun _ => hfits, fun _ =>
      encodesInside_text henc hzero (by rwa [length_hexText]) fun dataMax hmax => ?_⟩
    unfold retBufMax at hfits
    have hint : cInt (2 * data.length : Nat) = (2 * data.length : Nat) :=
      cInt_of_lt (by omega) (by omega)
    have hall : data.take ((((2 * data.length : Nat) : Int) + 1) / 2).toNat = data :=
      List.take_of_length_le (by omega)
    have hhalf : (2 * data.length + 1) / 2 = data.length := by omega
    have hdec : shalgDecodeHexTo (data.flatMap hexByte) dataMax =
        some (.ok (data ++ List.replicate (dataMax - data.length) 0, data.length)) := by
      rw [shalgDecodeHexTo, shalgDecodeHex_flatMap, length_hexText, hint, if_neg (by omega), hall,
        store_zeros hmax, Option.map_some, hhalf]
    rw [shalgDecode_hex, takeWhile_textBuf hzero, hdec]
  · rw [if_neg hfits, Option.map_none] at henc
    exact iff_of_false (not_encodesInside henc) hfits

/-- Base 64: exactly the lengths that the buffer has room for. -/
theorem base64_encode_iff (val : UInt32) (data : Bytes) (hsize : data.length < 2 ^ 64) :
    EncodesInside .base64 val data ↔ encodeFits .base64 data.length := by
  have henc : shalgEncode .base64 val data = shalgEncodeB64 data := rfl
  rw [shalgEncodeB64, shbase64Encode_eq hsize] at henc
  rw [encodeFits]
  by_cases hneg : shbase64EncodeLen (cInt data.length) < 0
  · rw [if_pos hneg, Option.map_some] at henc
    exact ⟨fun _ => Or.inl hneg, fun _ => ⟨none, henc, fun _ h => by cases h⟩⟩
  rw [if_neg hneg] at henc
  rw [or_iff_right hneg]
  by_cases hint : 2 ≤ data.length ∧ (data.length + 2) / 3 * 4 + 1 < 2 ^ 31
  · rw [if_pos hint, Option.map_some] at henc
    dsimp only at henc
    have hlen := length_base64Text data
    have hzero : 0 ∉ (base64Text data).take retBufMax := fun h =>
      zero_notMem_base64Text data (List.mem_of_mem_take h)
    by_cases hfits : (data.length + 2) / 3 * 4 < retBufMax
    · have hall : (base64Text data).take retBufMax = base64Text data :=
        List.take_of_length_le (by omega)
      rw [hall] at henc hzero
      refine iff_of_true (encodesInside_text henc hzero (by omega) fun dataMax hmax =>
        ?_) ⟨hint.1, hfits⟩
      have hchars := length_validChars_le (base64Text data)
      obtain ⟨zeros, hdec⟩ := @shbase64Decode_eq (base64Text data) (by omega)
      rw [base64Bytes_base64Text] at hdec
      rw [shalgDecode_base64, takeWhile_textBuf hzero, shalgDecodeB64, hdec, Option.bind_some]
      dsimp only
      rw [if_neg (Nat.not_lt.mpr hmax), fetch_eq (by rw [List.length_append]; omega),
        List.drop_zero, List.take_left, Option.bind_some, store_zeros hmax, Option.map_some]
    · -- the text is cut off without its end
      refine iff_of_false ?_ fun h => hfits h.2
      rintro ⟨ret, hret, htext⟩
      rw [henc] at hret
      have hend := (htext _ (Option.some.inj hret).symm).1
      rw [zero_mem_textBuf hzero, List.length_take] at hend
      omega
  · rw [if_neg hint, Option.map_none] at henc
    refine iff_of_false (not_encodesInside henc) fun h => hint ⟨h.1, ?_⟩
    unfold retBufMax at h
    omega

/-- SHR56: exactly the lengths that the buffer has room for. -/
theorem shr56_encode_iff (val : UInt32) (data : Bytes) :
    EncodesInside .shr56 val data ↔ encodeFits .shr56 data.length := by
  have henc : shalgEncode .shr56 val data =
      (shalgEncodeShr56 val data).map fun text => some (textBuf (textBytes text)) := rfl
  have hlen := length_shr56Text val data
  rw [encodeFits, ← hlen]
  rcases htext : shalgEncodeShr56 val data with _ | text
  · rw [htext, Option.map_none] at henc
    rw [encodeShr56_eq, putText_nil] at htext
    refine iff_of_false (not_encodesInside henc) fun hfits => ?_
    rw [if_pos hfits] at htext
    cases htext
  · rw [htext, Option.map_some] at henc
    have hroom := htext
    rw [encodeShr56_eq, putText_nil] at hroom
    split at hroom
    case isFalse => cases hroom
    case isTrue hfits =>
      obtain rfl := Option.some.inj hroom
      obtain ⟨hback, hzero⟩ := textChars_textBytes _ (shr56Text_chars val data)
      refine iff_of_true (encodesInside_text henc hzero (by rwa [textBytes, List.length_map])
        fun dataMax hmax => ?_) hfits
      rw [shalgDecode_shr56, takeWhile_textBuf hzero, hback,
        shr56_round_trip val data _ htext dataMax hmax]

/-- The three encoders in one statement. -/
theorem encode_inside_iff (fmt : ShFmt) (val : UInt32) (data : Bytes)
    (hsize : data.length < 2 ^ 64) :
    EncodesInside fmt val data ↔ encodeFits fmt data.length := by
  cases fmt with
  | hex => exact hex_encode_iff val data
  | base64 => exact base64_encode_iff val data hsize
  | shr56 => exact shr56_encode_iff val data

/-! ## Inside the memory of the caller -/

/-- A decoder without a result has written behind its buffer. -/
theorem not_decodesInside {fmt : ShFmt} {inData : Bytes} {dataMax : Nat}
    (hdec : shalgDecode fmt inData dataMax = none) : ¬ DecodesInside fmt inData dataMax := by
  rintro ⟨ret, hret, -⟩
  rw [hdec] at hret
  cases hret

/-- A decoder with a result stays inside just when the length it returns does. -/
theorem decodesInside_ok {fmt : ShFmt} {inData plain : Bytes} {dataMax len : Nat}
    (hdec : shalgDecode fmt inData dataMax = some (.ok (plain, len))) :
    DecodesInside fmt inData dataMax ↔ len ≤ dataMax := by
  constructor
  · rintro ⟨ret, hret, hlen⟩
    rw [hdec] at hret
    exact hlen plain len (Option.some.inj hret).symm
  · intro hle
    refine ⟨_, hdec, fun plain' len' hret => ?_⟩
    rw [Except.ok.injEq, Prod.mk.injEq] at hret
    exact hret.2 ▸ hle

/-- An error is inside. -/
theorem decodesInside_error {fmt : ShFmt} {inData : Bytes} {dataMax : Nat} {err : Sherr}
    (hdec : shalgDecode fmt inData dataMax = some (.error err)) :
    DecodesInside fmt inData dataMax :=
  ⟨_, hdec, fun _ _ hret => by cases hret⟩

/-- Hexadecimal texts: exactly the lengths that are decoded inside of the buffer. -/
theorem hex_decode_iff (inData : Bytes) (dataMax : Nat) :
    DecodesInside .hex inData dataMax ↔ decodeFits .hex (inData.takeWhile (· ≠ 0)).length
      dataMax := by
  have hdec := shalgDecode_hex inData dataMax
  generalize inData.takeWhile (· ≠ 0) = text at hdec ⊢
  have hlen := length_shalgDecodeHex text
  have hint : cInt text.length ≤ text.length := by
    unfold cInt
    omega
  rw [shalgDecodeHexTo] at hdec
  rw [decodeFits]
  by_cases hlast : cInt text.length = 2 ^ 31 - 1
  · rw [if_pos hlast] at hdec
    exact iff_of_false (not_decodesInside hdec) fun h => h.2 hlast
  rw [if_neg hlast] at hdec
  rw [and_iff_left hlast]
  by_cases hroom : ((shalgDecodeHex text).take ((cInt text.length + 1) / 2).toNat).length ≤ dataMax
  · rw [store_zeros hroom, Option.map_some] at hdec
    exact decodesInside_ok hdec
  · rw [store_zeros_none (Nat.lt_of_not_le hroom), Option.map_none] at hdec
    refine iff_of_false (not_decodesInside hdec) fun hle => hroom ?_
    rw [List.length_take]
    omega

/-- The decoder of base 64 never leaves its buffer. -/
theorem base64_decode_inside (inData : Bytes) (dataMax : Nat) (hmax : dataMax < 2 ^ 63) :
    DecodesInside .base64 inData dataMax := by
  have hdec := shalgDecode_base64 inData dataMax
  obtain ⟨ret, hret, hlen⟩ := shbase64Decode_total (inData.takeWhile (· ≠ 0))
  rw [shalgDecodeB64, hret, Option.bind_some] at hdec
  rcases ret with err | ⟨retData, retLen⟩
  · exact decodesInside_error hdec
  dsimp only at hdec
  by_cases hover : dataMax < retLen
  · rw [if_pos hover] at hdec
    exact decodesInside_error hdec
  · have hle : 0 + retLen ≤ retData.length := by
      have hor := hlen retData retLen rfl
      omega
    have hroom : ((retData.drop 0).take retLen).length ≤ dataMax := by
      rw [List.length_take]
      omega
    rw [if_neg hover, fetch_eq hle, Option.bind_some, store_zeros hroom, Option.map_some] at hdec
    exact (decodesInside_ok hdec).mpr (Nat.le_of_not_lt hover)

/-- A store changes no length. -/
theorem length_store {buf bs next : Bytes} {a : Nat} (h : store buf a bs = some next) :
    next.length = buf.length := by
  unfold store at h
  split at h
  · next hroom =>
    rw [← Option.some.inj h, List.length_append, List.length_append, List.length_take,
      List.length_drop]
    omega
  · cases h

/-- The numbers that have room as a whole are written, whatever the length is. -/
theorem decodeLoop_some {retLen : Int} : ∀ (blks retOf : Nat) (inText : List Char) (data : Bytes),
    retOf + 4 * blks ≤ data.length → ∃ out, shr56DecodeLoop retLen blks retOf inText data =
      some out := by
  intro blks
  induction blks with
  | zero =>
    intro retOf inText data _
    exact ⟨data, rfl⟩
  | succ blks ih =>
    intro retOf inText data hroom
    rw [shr56DecodeLoop]
    generalize hbs : (leBytes32 (genWord (inText.take 6))).take (cSize (retLen - retOf)) = bs
    have hfour : bs.length ≤ 4 := by
      rw [← hbs]
      exact List.length_take_le' _ _
    obtain ⟨next, hnext⟩ : ∃ next, store data retOf bs = some next := ⟨_, if_pos (by omega)⟩
    rw [hnext, Option.bind_some]
    exact ih _ _ _ (by rw [length_store hnext]; omega)

/-- With five characters left over, the last number is written as a whole. -/
theorem decodeLoop_none : ∀ (blks retOf : Nat) (inText : List Char) (data : Bytes),
    data.length < retOf + 4 * (blks + 1) →
    shr56DecodeLoop ((retOf + 4 * (blks + 1) : Nat) - 5) (blks + 1) retOf inText data = none := by
  intro blks
  induction blks with
  | zero =>
    intro retOf inText data hshort
    have hsize : cSize (((retOf + 4 * (0 + 1) : Nat) : Int) - 5 - retOf) = 2 ^ 64 - 1 := by
      unfold cSize
      omega
    have hfour : ((leBytes32 (genWord (inText.take 6))).take (2 ^ 64 - 1)).length = 4 := by
      rw [List.length_take, length_leBytes32]
      rfl
    rw [shr56DecodeLoop, hsize, store, if_neg (by omega), Option.bind_none]
  | succ blks ih =>
    intro retOf inText data hshort
    rw [shr56DecodeLoop]
    rcases hstore : store data retOf _ with _ | next
    · rfl
    · have hrest : retOf + 4 * (blks + 1 + 1) = retOf + 4 + 4 * (blks + 1) := by omega
      rw [Option.bind_some, hrest]
      exact ih _ _ _ (by rw [length_store hstore]; omega)

/-- A length that is not positive has no blocks. -/
theorem decodeShr56_nonpos {inText : List Char} (hneg : cInt inText.length ≤ 0) (dataMax : Nat) :
    ∃ retLen : Int, shalgDecodeShr56 inText dataMax =
      if retLen < 0 ∨ dataMax < retLen then some (.error .inval)
      else some (.ok (List.replicate dataMax 0, retLen.toNat)) := by
  unfold shalgDecodeShr56
  dsimp only
  obtain ⟨n, hn⟩ : ∃ n : Nat, cInt inText.length = -(n : Int) :=
    ⟨(cInt inText.length).natAbs, by omega⟩
  have hblks : ((cInt inText.length - (cInt inText.length).tmod 6).tdiv 6).toNat = 0 := by
    rw [hn, Int.neg_tmod, Int.tmod_eq_emod_of_nonneg (by omega)]
    obtain ⟨m, hm⟩ : ∃ m : Nat, -(n : Int) - -((n : Int) % 6) = -(m : Int) :=
      ⟨(-(n : Int) - -((n : Int) % 6)).natAbs, by omega⟩
    rw [hm, Int.neg_tdiv, Int.tdiv_eq_ediv_of_nonneg (by omega)]
    omega
  rw [hblks]
  exact ⟨_, rfl⟩

/-- SHR56: exactly the lengths that are decoded inside of the buffer. -/
theorem shr56_decode_iff (inData : Bytes) (dataMax : Nat) :
    DecodesInside .shr56 inData dataMax ↔ decodeFits .shr56 (inData.takeWhile (· ≠ 0)).length
      dataMax := by
  have hdec := shalgDecode_shr56 inData dataMax
  have hlen : (textChars (inData.takeWhile (· ≠ 0))).length = (inData.takeWhile (· ≠ 0)).length :=
    List.length_map _
  generalize textChars (inData.takeWhile (· ≠ 0)) = text at hdec hlen
  have hint : cInt text.length < 2 ^ 31 := by
    unfold cInt
    omega
  rw [← hlen, decodeFits]
  by_cases hneg : cInt text.length ≤ 0
  · obtain ⟨retLen, heq⟩ := decodeShr56_nonpos hneg dataMax
    rw [heq] at hdec
    refine iff_of_true ?_ (by omega)
    split at hdec
    · exact decodesInside_error hdec
    · exact (decodesInside_ok hdec).mpr (by omega)
  · obtain ⟨blks, pad, hin, hpad⟩ : ∃ blks pad : Nat,
        cInt text.length = (6 * blks + pad : Nat) ∧ pad < 6 :=
      ⟨(cInt text.length).toNat / 6, (cInt text.length).toNat % 6, by omega, by omega⟩
    rw [decodeShr56_int hin hpad] at hdec
    rw [hin]
    by_cases hbad : 4 * blks < pad ∨ dataMax + pad < 4 * blks
    · rw [if_pos hbad] at hdec
      exact iff_of_true (decodesInside_error hdec) (by omega)
    rw [if_neg hbad] at hdec
    by_cases hroom : 4 * blks ≤ dataMax
    · obtain ⟨out, hout⟩ :=
        @decodeLoop_some (4 * blks - pad : Nat) blks 0 text (List.replicate dataMax 0)
        (by rw [List.length_replicate]; omega)
      rw [hout, Option.map_some] at hdec
      exact iff_of_true ((decodesInside_ok hdec).mpr (by omega)) (by omega)
    by_cases hfive : pad = 5
    · -- the last number ends behind the memory
      obtain ⟨more, rfl⟩ : ∃ more, blks = more + 1 := ⟨blks - 1, by omega⟩
      have hret : ((4 * (more + 1) - pad : Nat) : Int) = (0 + 4 * (more + 1) : Nat) - 5 := by omega
      rw [hret, decodeLoop_none more 0 text (List.replicate dataMax 0)
        (by rw [List.length_replicate]; omega), Option.map_none] at hdec
      exact iff_of_false (not_decodesInside hdec) (by omega)
    · have hblocks :=
        decodeLoop_blocks blks text [] (List.replicate dataMax 0) (4 * blks - pad)
          (by omega) (by omega)
        (by rw [List.length_replicate]; omega) (by omega)
      rw [List.length_nil, Nat.zero_add, List.nil_append] at hblocks
      rw [hblocks, Option.map_some] at hdec
      exact iff_of_true ((decodesInside_ok hdec).mpr (by omega)) (by omega)

/-- The three decoders in one statement. -/
theorem decode_inside_iff (fmt : ShFmt) (inData : Bytes) (dataMax : Nat) (hmax : dataMax < 2 ^ 63) :
    DecodesInside fmt inData dataMax ↔ decodeFits fmt
      (inData.takeWhile (· ≠ 0)).length dataMax := by
  cases fmt with
  | hex => exact hex_decode_iff inData dataMax
  | base64 => exact iff_of_true (base64_decode_inside inData dataMax hmax) trivial
  | shr56 => exact shr56_decode_iff inData dataMax

/-- A call stays inside its buffer, or the memory of the caller, if and only if the length fits. -/
theorem text_buffers_iff (fmt : ShFmt) (val : UInt32) (data : Bytes) (hsize : data.length < 2 ^ 64)
    (inData : Bytes)
    (dataMax : Nat) (hmax : dataMax < 2 ^ 63) :
    (EncodesInside fmt val data ↔ encodeFits fmt data.length) ∧
      (DecodesInside fmt inData dataMax ↔ decodeFits fmt
        (inData.takeWhile (· ≠ 0)).length dataMax) :=
  ⟨encode_inside_iff fmt val data hsize, decode_inside_iff fmt inData dataMax hmax⟩

/-- A text of seventeen characters decodes to three bytes, but has two numbers. -/
theorem text_buffers_seventeen : (EncodesInside .shr56 0 [1, 2, 3] ↔ encodeFits .shr56 3) ∧
    (DecodesInside .shr56 (List.replicate 17 65) 7 ↔ decodeFits .shr56 17 7) :=
  text_buffers_iff .shr56 0 [1, 2, 3] (by decide) (List.replicate 17 65) 7 (by decide)

/-- Data of half of the buffer does not fit it in hexadecimal, and a text of two bytes is written
over the memory of one. -/
theorem hex_over_the_end :
    ¬ EncodesInside .hex 0 (List.replicate 2048 0) ∧ ¬ DecodesInside .hex [48, 48, 48, 48] 1 := by
  rw [hex_encode_iff, hex_decode_iff, List.length_replicate]
  exact ⟨by unfold encodeFits; decide, by unfold decodeFits; decide⟩

end LibShare.Mem
