import LibShare.Mem.Base64
import LibShare.Mem.Codec
import LibShare.Mem.KeyText

/-!
# libshare — binary data in the characters of checksums

The format SHR56 of `shalg_encode` and `shalg_decode` (`shmem_alg.c`). Every four bytes are a number
that is written like a code word of a key. Of the last bytes there may be less than four. They are
put over the number before them, and as many dots as are missing follow the text.

Main results:

* `encodeShr56_eq` — the text of a byte string, where it fits.
* `decodeLoop_blocks` — what the blocks of a text leave in the memory of the caller.
* `shr56_round_trip` — the data and its length come back.

A call without a result is one that writes behind the buffer of the text, or behind the memory of
the caller.
-/

namespace LibShare.Mem

/-! ## Encoding -/

/-- The size of the buffer of `shalg_encode`. -/
def retBufMax : Nat := 4096

/-- A text that goes on in the buffer, with its terminator. -/
def putText {α : Type} (out chars : List α) : Option (List α) := putChars (retBufMax - 1) out chars

/-- The loop of `_shalg_encode_shr56`, with the number that it has at its beginning. -/
def shr56EncodeLoop : UInt32 → List Char → Bytes → Option (List Char)
  | _, retBuf, b0 :: b1 :: b2 :: b3 :: rest =>
    (putText retBuf (printWord (shcrcstr (leWord32 [b0, b1, b2, b3]).toUInt64))).bind fun retBuf =>
      shr56EncodeLoop (leWord32 [b0, b1, b2, b3]) retBuf rest
  | _, retBuf, [] => some retBuf
  | val, retBuf, rest =>
    -- the number keeps the bytes that are not copied over it
    putText retBuf (printWord (shcrcstr (leWord32
      (rest ++ (leBytes32 val).drop rest.length)).toUInt64))

/-- `_shalg_encode_shr56`. The number is not initialized. -/
def shalgEncodeShr56 (val : UInt32) (data : Bytes) : Option (List Char) :=
  (shr56EncodeLoop val [] data).bind fun retBuf =>
    let retBuf := retBuf.map fun ch => if ch = ' ' then '.' else ch
    let padLen := data.length % 4
    if padLen = 0 then some retBuf else putText retBuf (List.replicate (4 - padLen) '.')

/-! ## Decoding -/

/-- The loop of `_shalg_decode_shr56` over so many blocks of six characters. -/
def shr56DecodeLoop (retLen : Int) : Nat → Nat → List Char → Bytes → Option Bytes
  | 0, _, _, data => some data
  | blks + 1, retOf, inText, data =>
    (store data retOf ((leBytes32 (genWord (inText.take 6))).take (cSize (retLen - retOf)))).bind
    fun data =>
      shr56DecodeLoop retLen blks (retOf + 4) (inText.drop 6) data

/-- `_shalg_decode_shr56`, into memory of zeros. -/
def shalgDecodeShr56 (inText : List Char) (dataMax : Nat) : Option (Except Sherr (Bytes × Nat)) :=
  let inLen := cInt inText.length
  let padLen := inLen.tmod 6
  let blks := (inLen - padLen).tdiv 6
  let retLen := blks * 4 - padLen
  if retLen < 0 ∨ dataMax < retLen then some (.error .inval)
  else (shr56DecodeLoop retLen blks.toNat 0 inText (List.replicate dataMax 0)).map fun data =>
    .ok (data, retLen.toNat)

/-! ## The text -/

/-- The numbers of a byte string. -/
def shr56Words : UInt32 → Bytes → List UInt32
  | _, b0 :: b1 :: b2 :: b3 :: rest =>
    leWord32 [b0, b1, b2, b3] :: shr56Words (leWord32 [b0, b1, b2, b3]) rest
  | _, [] => []
  | val, rest => [leWord32 (rest ++ (leBytes32 val).drop rest.length)]

theorem putText_append {α : Type} (out xs ys : List α) :
    ((putText out xs).bind fun out => putText out ys) = putText out (xs ++ ys) :=
  putChars_append _ out xs ys

theorem putText_nil_right {α : Type} {out : List α} (h : out.length < retBufMax) :
    putText out [] = some out := by
  have hle : out.length + ([] : List α).length ≤ retBufMax - 1 := Nat.le_sub_one_of_lt h
  rw [putText, putChars, if_pos hle, List.append_nil]

theorem length_putText {α : Type} {out chars text : List α} (h : putText out chars = some text) :
    text.length < retBufMax := by
  unfold putText putChars at h
  split at h
  · next hle =>
    rw [← Option.some.inj h, List.length_append]
    exact Nat.lt_of_le_of_lt hle (by decide)
  · cases h

/-- The loop of the encoder writes the texts of the numbers. -/
theorem encodeLoop_words (val : UInt32) (data : Bytes) : ∀ retBuf :
    List Char, retBuf.length < retBufMax →
    shr56EncodeLoop val retBuf data =
      putText retBuf ((shr56Words val data).flatMap fun w => printWord (shcrcstr w.toUInt64)) := by
  induction val, data using shr56Words.induct with
  | case1 val b0 b1 b2 b3 rest ih =>
    intro retBuf _
    rw [shr56EncodeLoop, shr56Words, List.flatMap_cons, ← putText_append]
    refine Option.bind_congr fun text htext => ?_
    exact ih text (length_putText htext)
  | case2 val =>
    intro retBuf hbuf
    rw [shr56EncodeLoop, shr56Words, List.flatMap_nil, putText_nil_right hbuf]
  | case3 val rest hfew hne =>
    intro retBuf _
    rw [shr56EncodeLoop, shr56Words, List.flatMap_cons, List.flatMap_nil, List.append_nil]
    all_goals assumption

theorem length_shr56Words (val : UInt32) (data : Bytes) :
    (shr56Words val data).length = (data.length + 3) / 4 := by
  induction val, data using shr56Words.induct with
  | case1 val b0 b1 b2 b3 rest ih =>
    rw [shr56Words, List.length_cons, ih]
    simp only [List.length_cons]
    omega
  | case2 val => rfl
  | case3 val rest hfew hne =>
    rcases rest with _ | ⟨b0, _ | ⟨b1, _ | ⟨b2, _ | ⟨b3, rest⟩⟩⟩⟩
    · exact absurd rfl hne
    · simp [shr56Words]
    · simp [shr56Words]
    · simp [shr56Words]
    · exact absurd rfl (hfew b0 b1 b2 b3 rest)

/-- The data is the bytes of the numbers, without those that were in the last one before. -/
theorem shr56Words_bytes (val : UInt32) (data : Bytes) :
    ((shr56Words val data).flatMap leBytes32).take data.length = data := by
  induction val, data using shr56Words.induct with
  | case1 val b0 b1 b2 b3 rest ih =>
    have hlen : (b0 :: b1 :: b2 :: b3 :: rest).length =
        (leBytes32 (leWord32 [b0, b1, b2, b3])).length + rest.length := by
      simp only [List.length_cons, length_leBytes32]
      omega
    rw [shr56Words, List.flatMap_cons, hlen, List.take_append, Nat.add_sub_cancel_left, ih,
      List.take_of_length_le (Nat.le_add_right _ _), leBytes32_leWord32]
    rfl
  | case2 val => rfl
  | case3 val rest hfew hne =>
    have hshort : rest.length < 4 := by
      rcases rest with _ | ⟨b0, _ | ⟨b1, _ | ⟨b2, _ | ⟨b3, rest⟩⟩⟩⟩
      · exact absurd rfl hne
      · simp
      · simp
      · simp
      · exact absurd rfl (hfew b0 b1 b2 b3 rest)
    have hwords : shr56Words val rest = [leWord32 (rest ++ (leBytes32 val).drop rest.length)] := by
      rw [shr56Words]
      all_goals assumption
    have hfour : (rest ++ (leBytes32 val).drop rest.length).length = 4 := by
      rw [List.length_append, List.length_drop, length_leBytes32]
      omega
    have hbytes : leBytes32 (leWord32 (rest ++ (leBytes32 val).drop rest.length)) =
        rest ++ (leBytes32 val).drop rest.length := by
      generalize rest ++ (leBytes32 val).drop rest.length = bs at hfour
      rcases bs with _ | ⟨b0, _ | ⟨b1, _ | ⟨b2, _ | ⟨b3, _ | ⟨b4, more⟩⟩⟩⟩⟩
      · cases hfour
      · cases hfour
      · cases hfour
      · cases hfour
      · exact leBytes32_leWord32 ..
      · simp at hfour
    rw [hwords, List.flatMap_cons, List.flatMap_nil, List.append_nil, hbytes, List.take_left]

/-- The dots behind the text of so many bytes. -/
def padDotsOf (len : Nat) : Nat := (4 - len % 4) % 4

/-- The text of a byte string, if the buffer has room for it. -/
def shr56Text (val : UInt32) (data : Bytes) : List Char :=
  (shr56Words val data).flatMap wordText ++ List.replicate (padDotsOf data.length) '.'

theorem encodeShr56_eq (val : UInt32) (data : Bytes) :
    shalgEncodeShr56 val data = putText [] (shr56Text val data) := by
  have hdots : ((shr56Words val data).flatMap fun w => printWord (shcrcstr w.toUInt64)).map
      (fun ch => if ch = ' ' then '.' else ch) = (shr56Words val data).flatMap wordText := by
    rw [List.map_flatMap]
    exact List.flatMap_congr fun w _ => printWord_dots w
  rw [shalgEncodeShr56, encodeLoop_words val data [] (by decide), shr56Text,
    ← putText_append, padDotsOf]
  generalize ((shr56Words val data).flatMap fun w => printWord (shcrcstr w.toUInt64)) = raw at hdots
  -- the spaces are as many characters as the dots
  have hlen : raw.length = ((shr56Words val data).flatMap wordText).length := by
    rw [← hdots, List.length_map]
  by_cases hfits : raw.length ≤ retBufMax - 1
  · have hraw : putText [] raw = some raw := by rw [putText, putChars_nil, if_pos hfits]
    have htext : putText [] ((shr56Words val data).flatMap wordText) =
        some ((shr56Words val data).flatMap wordText) := by
      rw [putText, putChars_nil, if_pos (hlen ▸ hfits)]
    rw [hraw, htext, Option.bind_some, Option.bind_some]
    dsimp only
    rw [hdots]
    by_cases hpad : data.length % 4 = 0
    · have hroom : ((shr56Words val data).flatMap wordText).length < retBufMax := by
        rw [← hlen]
        exact Nat.lt_of_le_of_lt hfits (by decide)
      rw [if_pos hpad, hpad]
      exact (putText_nil_right hroom).symm
    · have hsame : (4 - data.length % 4) % 4 = 4 - data.length % 4 := by omega
      rw [if_neg hpad, hsame]
  · have hraw : putText [] raw = none := by rw [putText, putChars_nil, if_neg hfits]
    have htext : putText [] ((shr56Words val data).flatMap wordText) = none := by
      rw [putText, putChars_nil, if_neg (hlen ▸ hfits)]
    rw [hraw, htext, Option.bind_none, Option.bind_none]

theorem length_shr56Text (val : UInt32) (data : Bytes) :
    (shr56Text val data).length = 6 * ((data.length + 3) / 4) + padDotsOf data.length := by
  rw [shr56Text, List.length_append, length_row, length_shr56Words, List.length_replicate]

/-! ## The blocks -/

/-- The numbers of so many blocks of a text. -/
def blockWords : Nat → List Char → List UInt32
  | 0, _ => []
  | blks + 1, inText => genWord (inText.take 6) :: blockWords blks (inText.drop 6)

/-- The numbers are read as they were written. -/
theorem blockWords_row (more : List Char) : ∀ ws : List UInt32,
    blockWords ws.length (ws.flatMap wordText ++ more) = ws := by
  intro ws
  induction ws with
  | nil => rfl
  | cons w ws ih =>
    have hlen := length_wordText w
    rw [List.length_cons, blockWords, List.flatMap_cons, List.append_assoc, List.take_left' hlen,
      List.drop_left' hlen, ih, genWord_wordText]

/-- What the blocks leave in the memory, if the last one is not left out altogether: the bytes of
their numbers, up to the length that is returned. -/
theorem decodeLoop_blocks : ∀ (blks : Nat) (inText : List Char) (done rest : Bytes) (len : Nat),
    len ≤ 4 * blks → 4 * blks ≤ len + 4 → len ≤ rest.length → len < 2 ^ 64 →
    shr56DecodeLoop (done.length + len : Nat) blks done.length inText (done ++ rest) =
      some (done ++ (((blockWords blks inText).flatMap leBytes32).take len ++ rest.drop len)) := by
  intro blks
  induction blks with
  | zero =>
    intro inText done rest len hle _ _ _
    obtain rfl : len = 0 := Nat.le_zero.mp hle
    rfl
  | succ blks ih =>
    intro inText done rest len hle hge hroom hsize
    have hleft : cSize ((done.length + len : Nat) - (done.length : Nat)) = len := by
      unfold cSize
      omega
    rw [shr56DecodeLoop, hleft, blockWords, List.flatMap_cons]
    generalize hw : leBytes32 (genWord (inText.take 6)) = bs
    have hfour : bs.length = 4 := by rw [← hw, length_leBytes32]
    by_cases hfull : 4 ≤ len
    · rw [List.take_of_length_le (Nat.le_trans (Nat.le_of_eq hfour) hfull),
        store_append rfl (by omega), Option.bind_some]
      have hnext := ih (inText.drop 6) (done ++ bs) (rest.drop 4) (len - 4) (by omega) (by omega)
        (by rw [List.length_drop]; omega) (by omega)
      have hlen : (done ++ bs).length = done.length + 4 := by rw [List.length_append, hfour]
      have htotal : done.length + 4 + (len - 4) = done.length + len := by omega
      rw [hlen, htotal] at hnext
      rw [hfour, ← List.append_assoc, hnext, List.take_append, hfour,
        List.take_of_length_le (by omega : bs.length ≤ len), List.drop_drop, List.append_assoc,
          List.append_assoc, Nat.add_sub_cancel' hfull]
    · -- the last block, of which less than four bytes are left
      obtain rfl : blks = 0 := by omega
      have htake : (bs.take len).length = len := by
        rw [List.length_take]
        omega
      rw [store_append rfl (by omega), Option.bind_some, shr56DecodeLoop, htake, blockWords,
        List.flatMap_nil, List.append_nil]

/-! ## There and back -/

/-- A text whose length is, as an `int`, so many blocks and the characters behind them. -/
theorem decodeShr56_int {inText : List Char} {blks pad : Nat}
    (hin : cInt inText.length = (6 * blks + pad : Nat))
    (hpad : pad < 6) (dataMax : Nat) : shalgDecodeShr56 inText dataMax =
      if 4 * blks < pad ∨ dataMax + pad < 4 * blks then some (.error .inval)
      else (shr56DecodeLoop (4 * blks - pad : Nat) blks 0 inText
        (List.replicate dataMax 0)).map fun data =>
        .ok (data, 4 * blks - pad) := by
  have hmod : ((6 * blks + pad : Nat) : Int).tmod 6 = pad := by
    rw [Int.tmod_eq_emod_of_nonneg (by omega)]
    omega
  have hdiv : (((6 * blks + pad : Nat) : Int) - pad).tdiv 6 = blks := by
    rw [Int.tdiv_eq_ediv_of_nonneg (by omega)]
    omega
  unfold shalgDecodeShr56
  dsimp only
  rw [hin, hmod, hdiv, Int.toNat_natCast]
  by_cases hbad : 4 * blks < pad ∨ dataMax + pad < 4 * blks
  · rw [if_pos hbad, if_pos (by omega)]
  · have hret : (blks : Int) * 4 - pad = (4 * blks - pad : Nat) := by omega
    rw [if_neg hbad, if_neg (by omega), hret, Int.toNat_natCast]

theorem decodeShr56_eq {inText : List Char} {blks pad : Nat} (hlen : inText.length = 6 * blks + pad)
    (hpad : pad < 6)
    (hint : inText.length < 2 ^ 31) (dataMax : Nat) : shalgDecodeShr56 inText dataMax =
      if 4 * blks < pad ∨ dataMax + pad < 4 * blks then some (.error .inval)
      else (shr56DecodeLoop (4 * blks - pad : Nat) blks 0 inText
        (List.replicate dataMax 0)).map fun data =>
        .ok (data, 4 * blks - pad) := by
  have hin : cInt inText.length = (6 * blks + pad : Nat) := by
    rw [cInt_of_lt (by omega) (by omega), hlen]
  exact decodeShr56_int hin hpad dataMax

/-- The text of a byte string that fits the buffer is decoded to it, with its length. -/
theorem shr56_round_trip (val : UInt32) (data : Bytes) (text : List Char)
    (henc : shalgEncodeShr56 val data = some text) (dataMax : Nat) (hmax : data.length ≤ dataMax) :
    shalgDecodeShr56 text dataMax =
      some (.ok (data ++ List.replicate (dataMax - data.length) 0, data.length)) := by
  rw [encodeShr56_eq] at henc
  have hroom := length_putText henc
  rw [putText, putChars_nil] at henc
  split at henc
  case isFalse => cases henc
  obtain rfl := Option.some.inj henc
  have hlen := length_shr56Text val data
  have hpad : padDotsOf data.length < 4 ∧
      4 * ((data.length + 3) / 4) = data.length + padDotsOf data.length := by
    unfold padDotsOf
    omega
  unfold retBufMax at hroom
  rw [decodeShr56_eq hlen (by omega) (by omega), if_neg (by omega), hpad.2, Nat.add_sub_cancel]
  -- the blocks are decoded in a loop, from the front
  have hblocks :=
    decodeLoop_blocks ((data.length + 3) / 4) (shr56Text val data) [] (List.replicate dataMax 0)
    data.length (by omega) (by omega) (by rwa [List.length_replicate]) (by omega)
  have hwords := blockWords_row (List.replicate (padDotsOf data.length) '.') (shr56Words val data)
  rw [length_shr56Words] at hwords
  rw [List.length_nil, Nat.zero_add, List.nil_append, shr56Text, hwords, shr56Words_bytes,
    List.nil_append, List.drop_replicate] at hblocks
  rw [shr56Text, hblocks, Option.map_some]

/-- Five bytes, of which the first four are zero. -/
theorem shr56_round_trip_five : ∃ text, shalgEncodeShr56 0 [0, 0, 0, 0, 7] = some text ∧
    shalgDecodeShr56 text 5 = some (.ok ([0, 0, 0, 0, 7], 5)) := by
  have henc : shalgEncodeShr56 0 [0, 0, 0, 0, 7] = putText [] (shr56Text 0 [0, 0, 0, 0, 7]) :=
    encodeShr56_eq 0 _
  have hfits : (shr56Text 0 [0, 0, 0, 0, 7]).length ≤ retBufMax - 1 := by
    rw [length_shr56Text]
    decide
  rw [putText, putChars_nil, if_pos hfits] at henc
  exact ⟨_, henc, shr56_round_trip 0 [0, 0, 0, 0, 7] _ henc 5 (Nat.le_refl 5)⟩

end LibShare.Mem
