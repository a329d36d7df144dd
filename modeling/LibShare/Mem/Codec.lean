import LibShare.Mem.Buf
import LibShare.Mem.Crypto

/-!
# libshare — encoding in place and into buffers

`ashencode` and `ashdecode` of `shmem_crypto.c` work on the memory of the caller, `shencode` and
`shdecode` on buffers of their own. All four look at the first bytes for the magic word to see
whether the data is encoded.

Main results:

* `ashencode_eq`, `ashdecode_eq` — what the two calls leave in the memory.
* `ashdecode_ashencode_iff` — the data comes back in place if it is short, or is not taken for
  encoded data and leaves room for a header in 32 bits, or is its own decoding.
* `shencode_cases`, `shdecode_cases` — when a copying call sets its output arguments.
* `codec_iff` — all of it for one byte string.
* `shdecode_shencode` — what a caller of `shdecode` makes of encoded data.
* `shdecode_isSome_iff` — when the length that `shdecode` reports is within the block of its buffer.

* A length in a call of `ashencode` or `ashdecode` is cut to 32 bits. `shbuf_grow` cannot make a
  buffer of 2^31 bytes, after which the calls write to a null pointer.
* A call without a result is one that reads or writes where it must not.
-/

namespace LibShare.Mem

/-! ## Memory of the caller -/

/-- Bytes of a segment, which must have them. -/
def fetch (buf : Bytes) (a n : Nat) : Option Bytes :=
  if a + n ≤ buf.length then some ((buf.drop a).take n) else none

/-- Bytes over those of a segment, which must have room. -/
def store (buf : Bytes) (a : Nat) (bs : Bytes) : Option Bytes :=
  if a + bs.length ≤ buf.length then some (buf.take a ++ bs ++ buf.drop (a + bs.length)) else none

/-- Bytes that are there are fetched. -/
theorem fetch_eq {buf : Bytes} {a n : Nat} (h : a + n ≤ buf.length) :
    fetch buf a n = some ((buf.drop a).take n) := if_pos h

/-- Bytes that are written behind others. -/
theorem store_append {x buf bs : Bytes} {a : Nat} (ha : x.length = a) (h : bs.length ≤ buf.length) :
    store (x ++ buf) a bs = some (x ++ (bs ++ buf.drop bs.length)) := by
  rw [store, if_pos (by rw [List.length_append]; omega), ← ha, List.take_left, List.drop_append,
    List.append_assoc, List.drop_eq_nil_of_le (Nat.le_add_right _ _), List.nil_append,
    Nat.add_sub_cancel_left]

/-- Bytes are stored at the front. -/
theorem store_zero {buf bs : Bytes} (h : bs.length ≤ buf.length) :
    store buf 0 bs = some (bs ++ buf.drop bs.length) := @store_append [] buf bs 0 rfl h

/-- The part in the middle is fetched. -/
theorem fetch_append {x y z : Bytes} {a n : Nat} (ha : x.length = a) (hn : y.length = n) :
    fetch (x ++ (y ++ z)) a n = some y := by
  rw [fetch_eq (by simp only [List.length_append]; omega), ← ha, ← hn, List.drop_left,
    List.take_left]

/-! ## In place -/

/-- The header of encoded data. -/
def cryptHeader (l : Nat) : Bytes := leBytes32 cryptMagic ++ leBytes32 (UInt32.ofNat l)

theorem length_leBytes32 (w : UInt32) : (leBytes32 w).length = 4 := rfl

theorem length_cryptHeader (l : Nat) : (cryptHeader l).length = 8 := rfl

/-- `GET_CRYPT_LENGTH`. -/
def cryptLength (data : Bytes) : Nat := (leWord32 ((data.drop 4).take 4)).toNat

/-- `ashencode` of so many bytes of a segment, with the segment and the length that it leaves. -/
def ashencode (buf : Bytes) (len : Nat) (key : ShKey) : Option (Bytes × Nat) :=
  let l := len % 2 ^ 32
  if l < 8 then some (buf, len)
  else do
    let head ← fetch buf 0 4
    -- this is already encrypted
    if isCryptMagic head then some (buf, len)
    else
      -- add encryption identifier
      let plain ← fetch buf 0 l
      let buf ← store buf 8 plain
      let buf ← store buf 0 (leBytes32 cryptMagic)
      let buf ← store buf 4 (leBytes32 (UInt32.ofNat l))
      -- encrypt segment
      let segment ← fetch buf 8 l
      let buf ← store buf 8 (teaEncryptData key segment)
      some (buf, l + 8)

/-- `ashdecode`. -/
def ashdecode (buf : Bytes) (len : Nat) (key : ShKey) : Option (Bytes × Nat) :=
  let dataLen := len % 2 ^ 32
  if dataLen < 8 then some (buf, len)
  else do
    let head ← fetch buf 0 4
    if isCryptMagic head then
      let len ← (fetch buf 4 4).map fun word => (leWord32 word).toNat
      let dataLen := dataLen - 8
      let segment ← fetch buf 8 dataLen
      let buf ← store buf 0 segment
      let segment ← fetch buf 0 dataLen
      let buf ← store buf 0 (teaDecryptData key segment)
      some (buf, len)
    -- not encrypted
    else some (buf, len)

variable {D buf room : Bytes} {key : ShKey} {len : Nat}

/-- The magic is in the first four bytes. -/
theorem isCryptMagic_append {x : Bytes} (y : Bytes) (h : 4 ≤ x.length) :
    isCryptMagic (x ++ y) = isCryptMagic x := by
  rw [isCryptMagic, isCryptMagic, List.take_append_of_le_length h]

/-- The magic needs no more than four bytes. -/
theorem isCryptMagic_take (x : Bytes) : isCryptMagic (x.take 4) = isCryptMagic x := by
  rw [isCryptMagic, isCryptMagic, List.take_take, Nat.min_self]

/-- What is encoded gets a header, and the rest is left. -/
theorem ashencode_eq (key : ShKey) (hlen : D.length < 2 ^ 32) (hroom : 8 ≤ room.length) :
    ashencode (D ++ room) D.length key =
      if D.length < 8 ∨ isCryptMagic D = true then some (D ++ room, D.length)
      else some (cryptHeader D.length ++ (teaEncryptData key D ++ room.drop 8), D.length + 8) := by
  unfold ashencode
  dsimp only
  rw [Nat.mod_eq_of_lt hlen]
  by_cases hshort : D.length < 8
  · rw [if_pos hshort, if_pos (Or.inl hshort)]
  have hhead : fetch (D ++ room) 0 4 = some (D.take 4) := by
    rw [fetch_eq (by rw [List.length_append]; omega), List.drop_zero,
      List.take_append_of_le_length (by omega)]
  rw [if_neg hshort, hhead, Option.bind_eq_bind, Option.bind_some, isCryptMagic_take]
  by_cases hmagic : isCryptMagic D = true
  · rw [if_pos hmagic, if_pos (Or.inr hmagic)]
  rw [if_neg hmagic, if_neg fun hor => hor.elim hshort hmagic]
  have hplain : fetch (D ++ room) 0 D.length = some D := by
    rw [fetch_eq (by rw [List.length_append]; omega), List.drop_zero, List.take_left]
  -- the data is moved behind the place of the header
  have hmoved : store (D ++ room) 8 D = some (D.take 8 ++ (D ++ room.drop 8)) := by
    have hsplit : D ++ room = D.take 8 ++ (D ++ room).drop 8 := by
      rw [List.drop_append_of_le_length (by omega), ← List.append_assoc, List.take_append_drop]
    rw [hsplit, store_append (by rw [List.length_take]; omega)
      (by rw [List.length_drop, List.length_append]; omega), List.drop_drop, List.drop_append,
      List.drop_eq_nil_of_le (by omega), List.nil_append]
    congr 5
    omega
  have hmagicked : store (D.take 8 ++ (D ++ room.drop 8)) 0 (leBytes32 cryptMagic) =
      some (leBytes32 cryptMagic ++ ((D.take 8).drop 4 ++ (D ++ room.drop 8))) := by
    rw [store_zero (by simp only [List.length_append, List.length_take]; show 4 ≤ _; omega),
      List.drop_append_of_le_length (by rw [List.length_take]; show 4 ≤ _; omega)]
    rfl
  have hsized : store (leBytes32 cryptMagic ++ ((D.take 8).drop 4 ++ (D ++ room.drop 8))) 4
      (leBytes32 (UInt32.ofNat D.length)) = some (cryptHeader D.length ++ (D ++ room.drop 8)) := by
    have hfour : ((D.take 8).drop 4).length = (leBytes32 (UInt32.ofNat D.length)).length := by
      rw [length_leBytes32, List.length_drop, List.length_take]
      omega
    rw [store_append (length_leBytes32 _) (by rw [List.length_append]; omega),
      List.drop_left' hfour, cryptHeader, List.append_assoc]
  have hsegment : fetch (cryptHeader D.length ++ (D ++ room.drop 8)) 8 D.length = some D :=
    fetch_append (length_cryptHeader _) rfl
  have henc : (teaEncryptData key D).length = D.length := teaData_length _ D
  have hdone : store (cryptHeader D.length ++ (D ++ room.drop 8)) 8 (teaEncryptData key D) =
      some (cryptHeader D.length ++ (teaEncryptData key D ++ room.drop 8)) := by
    rw [store_append (length_cryptHeader _) (by rw [henc, List.length_append]; omega), henc,
      List.drop_left]
  simp only [hplain, hmoved, hmagicked, hsized, hsegment, hdone, Option.bind_some]

/-- What is taken for encoded data is moved down over its header and decrypted. -/
theorem ashdecode_eq (buf : Bytes) (key : ShKey) (hlen : len % 2 ^ 32 ≤ buf.length) :
    ashdecode buf len key =
      if len % 2 ^ 32 < 8 ∨ isCryptMagic buf = false then some (buf, len)
      else some (teaDecryptData key ((buf.drop 8).take (len % 2 ^ 32 - 8)) ++
        buf.drop (len % 2 ^ 32 - 8), cryptLength buf) := by
  unfold ashdecode
  dsimp only
  generalize len % 2 ^ 32 = l at hlen
  by_cases hshort : l < 8
  · rw [if_pos hshort, if_pos (Or.inl hshort)]
  rw [if_neg hshort, fetch_eq (by omega), List.drop_zero, Option.bind_eq_bind, Option.bind_some,
    isCryptMagic_take]
  by_cases hmagic : isCryptMagic buf = true
  · rw [if_pos hmagic, if_neg fun hor => hor.elim hshort fun hno =>
      absurd hmagic (by rw [hno]; decide)]
    have hlength : ((buf.drop 8).take (l - 8)).length = l - 8 := by
      rw [List.length_take, List.length_drop]
      omega
    have hmoved : store buf 0 ((buf.drop 8).take (l - 8)) =
        some ((buf.drop 8).take (l - 8) ++ buf.drop (l - 8)) := by
      rw [store_zero (by omega), hlength]
    have hsegment : fetch ((buf.drop 8).take (l - 8) ++ buf.drop (l - 8)) 0 (l - 8) =
        some ((buf.drop 8).take (l - 8)) := @fetch_append [] _ _ 0 _ rfl hlength
    have hdec : (teaDecryptData key ((buf.drop 8).take (l - 8))).length = l - 8 :=
      (teaData_length _ _).trans hlength
    have hdone : store ((buf.drop 8).take (l - 8) ++ buf.drop (l - 8)) 0
        (teaDecryptData key ((buf.drop 8).take (l - 8))) =
        some (teaDecryptData key ((buf.drop 8).take (l - 8)) ++ buf.drop (l - 8)) := by
      rw [store_zero (by rw [List.length_append]; omega), hdec, List.drop_left' hlength]
    rw [fetch_eq (by omega : 4 + 4 ≤ buf.length), fetch_eq (by omega : 8 + (l - 8) ≤ buf.length)]
    simp only [Option.map_some, Option.bind_eq_bind, Option.bind_some, hmoved, hsegment, hdone]
    rfl
  · rw [if_neg hmagic, if_pos (Or.inr (by simpa using hmagic))]

/-- Data that comes back in place: short, or with room for a header in 32 bits and not taken for
encoded data, or its own decoding. -/
def InPlace (key : ShKey) (D : Bytes) : Prop :=
  D.length < 8 ∨ (isCryptMagic D = false ∧ D.length < 2 ^ 32 - 8) ∨
    (isCryptMagic D = true ∧ cryptLength D = D.length ∧
      teaDecryptData key (D.drop 8) = D.take (D.length - 8))

/-- Both calls in place give the data and its length back. -/
def BackInPlace (key : ShKey) (D room : Bytes) : Prop :=
  ∃ enc n dec, ashencode (D ++ room) D.length key = some (enc, n) ∧
    ashdecode enc n key = some (dec, D.length) ∧ dec.take D.length = D

/-- The data come back just when the decoder returns their length and the bytes. -/
theorem backInPlace_iff {enc : Bytes} {n : Nat}
    (henc : ashencode (D ++ room) D.length key = some (enc, n)) :
    BackInPlace key D room ↔ ∃ dec, ashdecode enc n key = some (dec, D.length) ∧
      dec.take D.length = D := by
  constructor
  · rintro ⟨enc', n', dec, henc', hdec⟩
    rw [henc, Option.some.injEq, Prod.mk.injEq] at henc'
    obtain ⟨rfl, rfl⟩ := henc'
    exact ⟨dec, hdec⟩
  · rintro ⟨dec, hdec⟩
    exact ⟨enc, n, dec, henc, hdec⟩

/-- The length is in the first eight bytes. -/
theorem cryptLength_append {x : Bytes} (y : Bytes) (h : 8 ≤ x.length) :
    cryptLength (x ++ y) = cryptLength x := by
  rw [cryptLength, cryptLength, List.drop_append_of_le_length (by omega),
    List.take_append_of_le_length (by rw [List.length_drop]; omega)]

/-- The length in a header is the one that was put there. -/
theorem cryptLength_header {l : Nat} (hl : l < 2 ^ 32) : cryptLength (cryptHeader l) = l := by
  show (leWord32 (leBytes32 (UInt32.ofNat l))).toNat = l
  rw [leWord32_leBytes32]
  exact UInt32.toNat_ofNat_of_lt' hl

/-- Short data is left by both calls. -/
theorem backInPlace_short (hlen : D.length < 2 ^ 32) (hroom : 8 ≤ room.length)
    (hshort : D.length < 8) :
    BackInPlace key D room := by
  rw [backInPlace_iff ((ashencode_eq key hlen hroom).trans (if_pos (Or.inl hshort))),
    ashdecode_eq _ key (by rw [List.length_append]; omega), if_pos (Or.inl (by omega))]
  exact ⟨_, rfl, List.take_left⟩

/-- Data with the magic word is decoded all the same. -/
theorem backInPlace_magic (hlen : D.length < 2 ^ 32) (hroom : 8 ≤ room.length)
    (hlong : ¬ D.length < 8)
    (hmagic : isCryptMagic D = true) : BackInPlace key D room ↔
      cryptLength D = D.length ∧ teaDecryptData key (D.drop 8) = D.take (D.length - 8) := by
  have hfirst : isCryptMagic (D ++ room) = true :=
    (isCryptMagic_append room (by omega)).trans hmagic
  rw [backInPlace_iff ((ashencode_eq key hlen hroom).trans (if_pos (Or.inr hmagic))),
    ashdecode_eq _ key (by rw [List.length_append]; omega), Nat.mod_eq_of_lt hlen,
    if_neg (by rw [hfirst]; exact fun hor => hor.elim hlong fun hno => nomatch hno),
    cryptLength_append room (by omega)]
  have hsegment : ((D ++ room).drop 8).take (D.length - 8) = D.drop 8 := by
    rw [List.drop_append_of_le_length (by omega), List.take_left' (by rw [List.length_drop])]
  have hdec : (teaDecryptData key (D.drop 8)).length = D.length - 8 := by
    rw [teaDecryptData, teaData_length, List.length_drop]
  -- the last bytes are those that were there before
  have htail : (D ++ room).drop (D.length - 8) = D.drop (D.length - 8) ++ room :=
    List.drop_append_of_le_length (Nat.sub_le _ _)
  have hwhole : (teaDecryptData key (D.drop 8) ++ (D ++ room).drop (D.length - 8)).take D.length =
      teaDecryptData key (D.drop 8) ++ D.drop (D.length - 8) := by
    rw [htail, ← List.append_assoc, List.take_left']
    rw [List.length_append, hdec, List.length_drop]
    omega
  rw [hsegment]
  simp only [Option.some.injEq, Prod.mk.injEq]
  constructor
  · rintro ⟨dec, ⟨rfl, hfield⟩, hback⟩
    refine ⟨hfield, ?_⟩
    rw [hwhole] at hback
    have htake := congrArg (List.take (D.length - 8)) hback
    rwa [List.take_left' hdec] at htake
  · rintro ⟨hfield, hself⟩
    refine ⟨_, ⟨rfl, hfield⟩, ?_⟩
    rw [hwhole, hself, List.take_append_drop]

/-- Data that is encoded is decoded, if the length with the header is still one of 32 bits. -/
theorem backInPlace_encoded (hlen : D.length < 2 ^ 32) (hroom : 8 ≤ room.length)
    (hlong : ¬ D.length < 8)
    (hmagic : ¬ isCryptMagic D = true) : BackInPlace key D room ↔ D.length < 2 ^ 32 - 8 := by
  have henc : (teaEncryptData key D).length = D.length := teaData_length _ D
  have hfirst : isCryptMagic
      (cryptHeader D.length ++ (teaEncryptData key D ++ room.drop 8)) = true := rfl
  rw [backInPlace_iff ((ashencode_eq key hlen hroom).trans (if_neg fun hor =>
    hor.elim hlong hmagic)), ashdecode_eq _ key (by
      simp only [List.length_append, length_cryptHeader, henc]
      exact Nat.le_trans (Nat.mod_le _ _) (by omega))]
  by_cases hfits : D.length < 2 ^ 32 - 8
  · rw [Nat.mod_eq_of_lt (by omega),
      if_neg (by rw [hfirst]; exact fun hor => hor.elim (by omega) fun hno => nomatch hno),
      cryptLength_append _ (by rw [length_cryptHeader]), cryptLength_header hlen,
        Nat.add_sub_cancel,
      List.drop_left' (length_cryptHeader _), List.take_left' henc, teaDecryptData_teaEncryptData]
    exact iff_of_true ⟨_, rfl, List.take_left⟩ hfits
  · -- the length with the header is cut to less than eight
    rw [if_pos (Or.inl (by omega))]
    refine iff_of_false ?_ hfits
    rintro ⟨dec, hdec, -⟩
    rw [Option.some.injEq, Prod.mk.injEq] at hdec
    exact absurd hdec.2 (by omega)

/-- In place, data come back just when they are short, or not encoded yet, and have room. -/
theorem ashdecode_ashencode_iff (key : ShKey) (hlen : D.length < 2 ^ 32) (hroom : 8 ≤ room.length) :
    BackInPlace key D room ↔ InPlace key D := by
  unfold InPlace
  by_cases hshort : D.length < 8
  · exact iff_of_true (backInPlace_short hlen hroom hshort) (Or.inl hshort)
  by_cases hmagic : isCryptMagic D = true
  · rw [backInPlace_magic hlen hroom hshort hmagic, hmagic]
    simp [hshort]
  · rw [backInPlace_encoded hlen hroom hshort hmagic]
    simp only [Bool.not_eq_true] at hmagic
    simp [hshort, hmagic]

/-! ## Into buffers -/

/-- What a copying call hands to its caller: the memory of its buffer, and a length. -/
structure Handed where
  buff : Shbuf
  len : Nat

/-- The bytes that the caller takes it for. -/
def Handed.bytes (h : Handed) : Bytes := slice h.buff.data 0 h.len

/-- The segment of a buffer behind an offset is ciphered. -/
def cipherFrom (f : Bytes → Bytes) (buf : Shbuf) (a : Nat) : Shbuf :=
  { buf with data := poke buf.data a (f (slice buf.data a (buf.dataOf - a))) }

/-- `shencode` with its buffer, if it sets its output arguments. -/
def shencodeCopy (data : Bytes) (key : ShKey) : Option (Option Handed) :=
  let l := data.length % 2 ^ 32
  if data.length < 8 then (shbufCat shbufInit data).map fun buf => some ⟨buf, data.length⟩
  else do
    let head ← fetch data 0 4
    -- this is already encrypted
    if isCryptMagic head then some none
    else
      -- add encryption identifier
      let buf ← shbufCat shbufInit (leBytes32 cryptMagic)
      -- add size
      let buf ← shbufCat buf (leBytes32 (UInt32.ofNat l))
      -- encrypt segment
      let plain ← fetch data 0 l
      let buf ← shbufCat buf plain
      let buf ← shbufGrow buf (8 + l + 32)
      some (some ⟨cipherFrom (teaEncryptData key) buf 8, buf.dataOf⟩)

/-- `shdecode` with its buffer, if it sets its output arguments. -/
def shdecodeCopy (data : Bytes) (key : ShKey) : Option (Option Handed) :=
  let l := data.length % 2 ^ 32
  if l < 8 then do
    let plain ← fetch data 0 l
    (shbufCat shbufInit plain).map fun buf => some ⟨buf, buf.dataOf⟩
  else do
    let head ← fetch data 0 4
    if isCryptMagic head then
      let decLen ← (fetch data 4 4).map fun word => (leWord32 word).toNat
      let segment ← fetch data 8 (l - 8)
      let buf ← shbufCat shbufInit segment
      some (some ⟨cipherFrom (teaDecryptData key) buf 0, decLen⟩)
    -- not encrypted
    else some none

/-- `shdecode` with what its caller makes of it: output arguments that are as they were, or bytes. A
length beyond the block of the buffer has no result, since the caller reads behind the block. -/
def shdecode (data : Bytes) (key : ShKey) : Option (Option Bytes) :=
  (shdecodeCopy data key).bind fun
    | none => some none
    | some h => if h.len ≤ h.buff.dataMax then some (some h.bytes) else none

/-- A buffer whose contents are these. -/
def Shbuf.Has (buf : Shbuf) (xs : Bytes) : Prop := buf.contents = xs ∧ buf.dataOf ≤ buf.dataMax

/-- A buffer is as long as its contents. -/
theorem Shbuf.Has.dataOf {buf : Shbuf} {xs : Bytes} (h : buf.Has xs) : buf.dataOf = xs.length := by
  rw [← h.1, Shbuf.length_contents]

theorem shbufInit_has : shbufInit.Has [] := ⟨rfl, Nat.le_refl _⟩

/-- What is appended to a new buffer, and how large the block is. -/
theorem cat_shbufInit (xs : Bytes) :
    if Fits xs.length then
      ∃ buf, shbufCat shbufInit xs = some buf ∧ buf.Has xs ∧
      buf.dataMax = shbufBlocks (xs.length + 1)
    else shbufCat shbufInit xs = none := by
  have hempty : shbufInit.dataOf ≤ shbufInit.dataMax := Nat.le_refl 0
  have hspec := shbufCat_spec hempty xs
  have hsum : shbufInit.dataOf + xs.length = xs.length := Nat.zero_add _
  rw [hsum] at hspec
  split
  · next hfits =>
    rw [if_pos hfits] at hspec
    obtain ⟨buf, hrun, hcontents, hle⟩ := hspec
    refine ⟨buf, hrun, ⟨hcontents, hle⟩, ?_⟩
    have hne : ¬ shbufBlocks (xs.length + 1) ≤ shbufInit.dataMax :=
      Nat.not_le.mpr (Nat.lt_of_lt_of_le (Nat.succ_pos _) (shbufBlocks_le _))
    rw [shbufCat, shbufGrow, hsum, if_pos (show shbufBlocks (xs.length + 1) < 2 ^ 31 from hfits),
      Shbuf.grown, if_neg hne, if_pos (show shbufInit.dataMax = 0 from rfl)] at hrun
    obtain rfl := Option.some.inj hrun
    rfl
  · next hfits =>
    rw [if_neg hfits] at hspec
    exact hspec

/-- What is appended is in the buffer, where there can be such a buffer. -/
theorem Shbuf.Has.cat {buf : Shbuf} {xs : Bytes} (h : buf.Has xs) (ys : Bytes) :
    if Fits (xs.length + ys.length) then ∃ buf', shbufCat buf ys = some buf' ∧ buf'.Has (xs ++ ys)
    else shbufCat buf ys = none := by
  have hspec := shbufCat_spec h.2 ys
  rw [h.dataOf, h.1] at hspec
  exact hspec

/-- A buffer that grows has what it had. -/
theorem Shbuf.Has.grow {buf : Shbuf} {xs : Bytes} (h : buf.Has xs) (len : Nat) :
    (buf.grown len).Has xs := by
  obtain ⟨hsame, hof, -⟩ := Shbuf.grown_spec h.2 len
  refine ⟨hsame.trans h.1, ?_⟩
  rw [hof]
  exact Nat.le_trans h.2 (buf.le_grown len)

/-- A segment that is ciphered, with what stands before it. -/
theorem cipherFrom_bytes {buf : Shbuf} {xs ys : Bytes} (h : buf.Has (xs ++ ys)) {f : Bytes → Bytes}
    (hf : (f ys).length = ys.length) {a : Nat} (ha : xs.length = a) :
    slice (cipherFrom f buf a).data 0 (a + ys.length) = xs ++ f ys := by
  have hof : buf.dataOf = a + ys.length := by rw [h.dataOf, List.length_append, ha]
  have hboth : slice buf.data 0 a ++ slice buf.data a ys.length = xs ++ ys := by
    have hsplit := slice_append buf.data ys.length a 0
    rw [Nat.zero_add, ← hof] at hsplit
    exact hsplit.symm.trans h.1
  obtain ⟨hx, hy⟩ := List.append_inj hboth (by rw [length_slice, ha])
  have hsub : buf.dataOf - a = ys.length := by omega
  show slice (poke buf.data a (f (slice buf.data a (buf.dataOf - a)))) 0 (a + ys.length) = _
  rw [hsub, hy, slice_append, Nat.zero_add]
  congr 1
  · rw [slice_poke_ne (Or.inl (Nat.le_of_eq (Nat.zero_add a))), hx]
  · rw [← hf]
    exact slice_poke _ _ _

/-- There can be a buffer for the encoded data, with the pad that `shencode` asks for. -/
def EncodeFits (l : Nat) : Prop := shbufBlocks (8 + l + 32) < 2 ^ 31

/-- What can be encoded can be allocated. -/
theorem EncodeFits.fits {l n : Nat} (h : EncodeFits l) (hle : n ≤ 8 + l + 31) : Fits n :=
  Fits.mono (show Fits (8 + l + 31) from h) hle

/-- Short data is copied. -/
theorem shencodeCopy_short (key : ShKey) (hshort : D.length < 8) :
    ∃ h, shencodeCopy D key = some (some h) ∧ h.bytes = D := by
  have hcat := shbufInit_has.cat D
  rw [if_pos (Fits.mono (by decide : Fits 8) (by rw [List.length_nil]; omega))] at hcat
  obtain ⟨buf, hrun, hhas⟩ := hcat
  refine ⟨⟨buf, D.length⟩, ?_, ?_⟩
  · rw [shencodeCopy, if_pos hshort, hrun]
    rfl
  · show slice buf.data 0 D.length = D
    have hcontents := hhas.1
    rwa [Shbuf.contents, hhas.dataOf] at hcontents

/-- Data that are encoded already are not encoded again, and no output is set. -/
theorem shencodeCopy_magic (key : ShKey) (hlong : ¬ D.length < 8) (hmagic : isCryptMagic D = true) :
    shencodeCopy D key = some none := by
  rw [shencodeCopy, if_neg hlong, fetch_eq (by omega), Option.bind_eq_bind, Option.bind_some,
    List.drop_zero, isCryptMagic_take, if_pos hmagic]

/-- Other data is encoded, where there can be a buffer for it. -/
theorem shencodeCopy_encoded (key : ShKey) (hlen : D.length < 2 ^ 32) (hlong : ¬ D.length < 8)
    (hmagic : ¬ isCryptMagic D = true) :
    (EncodeFits D.length ∧ ∃ h, shencodeCopy D key = some (some h) ∧
      h.bytes = cryptHeader D.length ++ teaEncryptData key D) ∨
    ¬ EncodeFits D.length ∧ shencodeCopy D key = none := by
  have hmagicked := shbufInit_has.cat (leBytes32 cryptMagic)
  rw [if_pos (by decide)] at hmagicked
  obtain ⟨buf₁, hrun₁, hhas₁⟩ := hmagicked
  have hsized := hhas₁.cat (leBytes32 (UInt32.ofNat D.length))
  rw [List.nil_append, length_leBytes32, length_leBytes32, if_pos (by decide)] at hsized
  obtain ⟨buf₂, hrun₂, hhas₂⟩ := hsized
  have hhas₂ : buf₂.Has (cryptHeader D.length) := hhas₂
  have hplain := hhas₂.cat D
  have henc : (teaEncryptData key D).length = D.length := teaData_length _ D
  have hwhole : fetch D 0 D.length = some D := by
    rw [fetch_eq (by omega), List.drop_zero, List.take_length]
  unfold shencodeCopy
  rw [if_neg hlong, fetch_eq (by omega), Option.bind_eq_bind, Option.bind_some, List.drop_zero,
    isCryptMagic_take, if_neg hmagic, Nat.mod_eq_of_lt hlen]
  rw [hrun₁, Option.bind_eq_bind, Option.bind_some, hrun₂, Option.bind_some, hwhole,
    Option.bind_some]
  rw [length_cryptHeader] at hplain
  by_cases hfits : Fits (8 + D.length)
  · rw [if_pos hfits] at hplain
    obtain ⟨buf₃, hrun₃, hhas₃⟩ := hplain
    rw [hrun₃, Option.bind_some, shbufGrow]
    by_cases hgrow : EncodeFits D.length
    · rw [if_pos (show shbufBlocks (8 + D.length + 32) < 2 ^ 31 from hgrow), Option.bind_some]
      refine Or.inl ⟨hgrow, _, rfl, ?_⟩
      have hhas₄ := hhas₃.grow (8 + D.length + 32)
      show slice _ 0 (buf₃.grown (8 + D.length + 32)).dataOf = _
      rw [hhas₄.dataOf, List.length_append, length_cryptHeader]
      exact cipherFrom_bytes hhas₄ henc (length_cryptHeader _)
    · rw [if_neg (show ¬ shbufBlocks (8 + D.length + 32) < 2 ^ 31 from hgrow)]
      exact Or.inr ⟨hgrow, rfl⟩
  · rw [if_neg hfits] at hplain
    rw [hplain]
    exact Or.inr ⟨fun hgrow => hfits (hgrow.fits (Nat.le_add_right _ _)), rfl⟩

/-- What is not short is decoded only with the magic word, where there can be a buffer for it. -/
theorem shdecodeCopy_eq (key : ShKey) (hlen : D.length < 2 ^ 32) (hlong : ¬ D.length < 8) :
    if isCryptMagic D = true then
      if Fits (D.length - 8) then
        ∃ h, shdecodeCopy D key = some (some h) ∧ h.len = cryptLength D ∧
        h.buff.dataOf = D.length - 8 ∧
          slice h.buff.data 0 (D.length - 8) = teaDecryptData key (D.drop 8) ∧
          h.buff.dataMax = shbufBlocks (D.length - 8 + 1)
      else shdecodeCopy D key = none
    else shdecodeCopy D key = some none := by
  unfold shdecodeCopy
  rw [Nat.mod_eq_of_lt hlen]
  dsimp only
  rw [if_neg hlong, fetch_eq (by omega), Option.bind_eq_bind, Option.bind_some, List.drop_zero,
    isCryptMagic_take]
  by_cases hmagic : isCryptMagic D = true
  · rw [if_pos hmagic, if_pos hmagic]
    have hlength : (D.drop 8).length = D.length - 8 := List.length_drop
    have hcat := cat_shbufInit (D.drop 8)
    rw [hlength] at hcat
    rw [fetch_eq (by omega : 4 + 4 ≤ D.length), fetch_eq (by omega : 8 + (D.length - 8) ≤ D.length),
      List.take_of_length_le (Nat.le_of_eq hlength)]
    simp only [Option.map_some, Option.bind_eq_bind, Option.bind_some]
    by_cases hfits : Fits (D.length - 8)
    · rw [if_pos hfits] at hcat ⊢
      obtain ⟨buf, hrun, hhas, hmax⟩ := hcat
      rw [hrun]
      refine ⟨_, rfl, rfl, hhas.dataOf.trans hlength, ?_, hmax⟩
      have hbytes :=
        @cipherFrom_bytes buf [] (D.drop 8) hhas (teaDecryptData key) (teaData_length _ _) 0 rfl
      rwa [Nat.zero_add, hlength] at hbytes
    · rw [if_neg hfits] at hcat ⊢
      rw [hcat]
      rfl
  · rw [if_neg hmagic, if_neg hmagic]

/-- Data that are too short are copied. -/
theorem shdecodeCopy_short (key : ShKey) (hshort : D.length < 8) :
    ∃ h, shdecodeCopy D key = some (some h) ∧ h.bytes = D ∧ h.len = D.length ∧
      h.buff.dataOf = D.length ∧ h.len ≤ h.buff.dataMax := by
  have hcat := shbufInit_has.cat D
  rw [if_pos (Fits.mono (by decide : Fits 8) (by rw [List.length_nil]; omega))] at hcat
  obtain ⟨buf, hrun, hhas⟩ := hcat
  have hplain : fetch D 0 D.length = some D := by
    rw [fetch_eq (by omega), List.drop_zero, List.take_length]
  refine ⟨⟨buf, buf.dataOf⟩, ?_, hhas.1, hhas.dataOf, hhas.dataOf, hhas.2⟩
  rw [shdecodeCopy, Nat.mod_eq_of_lt (by omega), if_pos hshort]
  simp only [hplain, Option.bind_eq_bind, Option.bind_some, hrun]
  rfl

/-- `shencode` as a function of byte strings is what its buffer holds. -/
theorem shencodeCopy_bytes {h : Handed} (hlen : D.length < 2 ^ 32)
    (hrun : shencodeCopy D key = some (some h)) :
    shencode D key = some h.bytes := by
  unfold shencode
  by_cases hshort : D.length < 8
  · obtain ⟨h', hrun', hbytes⟩ := shencodeCopy_short key hshort
    obtain rfl : h = h' := Option.some.inj (Option.some.inj (hrun.symm.trans hrun'))
    rw [if_pos hshort, hbytes]
  rw [if_neg hshort]
  by_cases hmagic : isCryptMagic D = true
  · rw [shencodeCopy_magic key hshort hmagic] at hrun
    exact nomatch hrun
  rw [if_neg hmagic]
  rcases shencodeCopy_encoded key hlen hshort hmagic with ⟨-, h', hrun', hbytes⟩ | ⟨-, hnone⟩
  · obtain rfl : h = h' := Option.some.inj (Option.some.inj (hrun.symm.trans hrun'))
    rw [hbytes, cryptHeader]
  · exact nomatch hrun.symm.trans hnone

/-- Short data is given to the caller as it is. -/
theorem shdecode_short (key : ShKey) (hshort : D.length < 8) : shdecode D key = some (some D) := by
  obtain ⟨h, hrun, hbytes, -, -, hmax⟩ := shdecodeCopy_short key hshort
  rw [shdecode, hrun, Option.bind_some]
  dsimp only
  rw [if_pos hmax, hbytes]

/-- Longer data without the magic word is not decoded. -/
theorem shdecode_plain (key : ShKey) (hlen : D.length < 2 ^ 32) (hlong : ¬ D.length < 8)
    (hmagic : isCryptMagic D = false) : shdecode D key = some none := by
  have hrun := shdecodeCopy_eq key hlen hlong
  rw [if_neg (by rw [hmagic]; exact Bool.false_ne_true)] at hrun
  rw [shdecode, hrun]
  rfl

/-- The length in the header is within the block, if there is a header. -/
theorem shdecode_isSome_iff (key : ShKey) (hlen : D.length < 2 ^ 32) :
    (shdecode D key).isSome ↔ (8 ≤ D.length → isCryptMagic D = true →
      Fits (D.length - 8) ∧ cryptLength D ≤ shbufBlocks (D.length - 8 + 1)) := by
  by_cases hshort : D.length < 8
  · rw [shdecode_short key hshort]
    exact iff_of_true rfl fun hlong => absurd hlong (Nat.not_le.mpr hshort)
  by_cases hmagic : isCryptMagic D = true
  · have hrun := shdecodeCopy_eq key hlen hshort
    rw [if_pos hmagic] at hrun
    simp only [Nat.not_lt.mp hshort, hmagic, forall_const]
    split at hrun
    · next hfits =>
      obtain ⟨h, hrun, hsize, -, -, hmax⟩ := hrun
      rw [shdecode, hrun, Option.bind_some]
      dsimp only
      rw [hsize, hmax, and_iff_right hfits]
      split
      · next hle => exact iff_of_true rfl hle
      · next hle => exact iff_of_false Bool.false_ne_true hle
    · next hfits =>
      rw [shdecode, hrun]
      exact iff_of_false Bool.false_ne_true fun h => hfits h.1
  · rw [shdecode_plain key hlen hshort (by simpa using hmagic)]
    exact iff_of_true rfl fun _ hyes => absurd hyes hmagic

/-- What `shencode` produces, `shdecode` reads back. -/
theorem shdecode_shencode {enc : Bytes} (hfits : EncodeFits D.length)
    (h : shencode D key = some enc) :
    shdecode enc key = some (some D) := by
  unfold shencode at h
  split at h
  · next hshort =>
    obtain rfl := Option.some.inj h
    exact shdecode_short key hshort
  · split at h
    · cases h
    · obtain rfl := Option.some.inj h
      have henc : (teaEncryptData key D).length = D.length := teaData_length _ D
      have hbound : D.length < 2 ^ 31 - 8 := by
        have hblocks := shbufBlocks_le (8 + D.length + 32)
        unfold EncodeFits at hfits
        omega
      have hheader : leBytes32 cryptMagic ++ leBytes32 (UInt32.ofNat D.length) =
          cryptHeader D.length := rfl
      rw [hheader]
      have hlength : (cryptHeader D.length ++ teaEncryptData key D).length = D.length + 8 := by
        rw [List.length_append, length_cryptHeader, henc, Nat.add_comm]
      have hrun :=
        @shdecodeCopy_eq (cryptHeader D.length ++ teaEncryptData key D) key (by omega) (by omega)
      have hmagic : isCryptMagic (cryptHeader D.length ++ teaEncryptData key D) = true := rfl
      rw [if_pos hmagic, hlength, Nat.add_sub_cancel, if_pos (hfits.fits (by omega)),
        List.drop_left' (length_cryptHeader _), teaDecryptData_teaEncryptData,
        cryptLength_append _ (Nat.le_of_eq (length_cryptHeader _).symm),
          cryptLength_header (by omega)] at hrun
      obtain ⟨dec, hrun, hsize, -, hdata, hmax⟩ := hrun
      have hle : dec.len ≤ dec.buff.dataMax := by
        have hblocks := shbufBlocks_le (D.length + 1)
        omega
      rw [shdecode, hrun, Option.bind_some]
      dsimp only
      rw [if_pos hle, Handed.bytes, hsize, hdata]

/-- What is encoded into a buffer is decoded from it. -/
def BackFromBuffer (key : ShKey) (D : Bytes) : Prop :=
  ∃ enc dec, shencodeCopy D key = some (some enc) ∧ shdecodeCopy enc.bytes key = some (some dec) ∧
    dec.bytes = D

/-- By way of a buffer, data come back just when they are short, or not encoded yet and can be
allocated. -/
theorem shdecodeCopy_shencodeCopy_iff (key : ShKey) (hlen : D.length < 2 ^ 32) :
    BackFromBuffer key D ↔ D.length < 8 ∨ (isCryptMagic D = false ∧ EncodeFits D.length) := by
  unfold BackFromBuffer
  by_cases hshort : D.length < 8
  · obtain ⟨enc, hrun, hbytes⟩ := shencodeCopy_short key hshort
    obtain ⟨dec, hrun', hbytes', -⟩ := shdecodeCopy_short key hshort
    exact iff_of_true ⟨enc, dec, hrun, hbytes.symm ▸ hrun', hbytes'⟩ (Or.inl hshort)
  by_cases hmagic : isCryptMagic D = true
  · refine iff_of_false ?_ ?_
    · rintro ⟨enc, dec, hrun, -⟩
      rw [shencodeCopy_magic key hshort hmagic] at hrun
      exact nomatch hrun
    · rintro (hbad | ⟨hbad, -⟩)
      · exact hshort hbad
      · exact nomatch hmagic.symm.trans hbad
  rcases shencodeCopy_encoded key hlen hshort hmagic with ⟨hfits, enc, hrun, hbytes⟩ | ⟨hfits, hrun⟩
  · refine iff_of_true ?_ (Or.inr ⟨by simpa using hmagic, hfits⟩)
    have henc : (teaEncryptData key D).length = D.length := teaData_length _ D
    have hlength : enc.bytes.length = D.length + 8 := by
      rw [hbytes, List.length_append, length_cryptHeader, henc, Nat.add_comm]
    have hroom : D.length + 8 < 2 ^ 31 := by
      have hle : Fits (D.length + 8) := hfits.fits (by omega)
      have hblocks := shbufBlocks_le (D.length + 8 + 1)
      unfold Fits at hle
      omega
    have hdec := @shdecodeCopy_eq enc.bytes key (by omega) (by omega)
    have hfirst : isCryptMagic enc.bytes = true := by
      rw [hbytes]
      rfl
    rw [if_pos hfirst, hlength, Nat.add_sub_cancel, if_pos (hfits.fits (by omega))] at hdec
    obtain ⟨dec, hrun', hsize, -, hdata, -⟩ := hdec
    refine ⟨enc, dec, hrun, hrun', ?_⟩
    rw [hbytes, cryptLength_append _ (Nat.le_of_eq (length_cryptHeader _).symm),
      cryptLength_header hlen] at hsize
    rw [hbytes, List.drop_left' (length_cryptHeader _), teaDecryptData_teaEncryptData] at hdata
    rw [Handed.bytes, hsize, hdata]
  · refine iff_of_false ?_ ?_
    · rintro ⟨enc, dec, hrun', -⟩
      rw [hrun] at hrun'
      exact nomatch hrun'
    · rintro (hbad | ⟨-, hbad⟩)
      · exact hshort hbad
      · exact hfits hbad

/-- `shencode` returns without its output arguments for the magic word only. -/
theorem shencodeCopy_sets_iff (key : ShKey) (hlen : D.length < 2 ^ 32) :
    shencodeCopy D key ≠ some none ↔ D.length < 8 ∨ isCryptMagic D = false := by
  by_cases hshort : D.length < 8
  · obtain ⟨enc, hrun, -⟩ := shencodeCopy_short key hshort
    exact iff_of_true (by rw [hrun]; exact fun hbad => nomatch hbad) (Or.inl hshort)
  by_cases hmagic : isCryptMagic D = true
  · simp [shencodeCopy_magic key hshort hmagic, hshort, hmagic]
  · rcases shencodeCopy_encoded key hlen hshort hmagic with ⟨-, enc, hrun, -⟩ | ⟨-, hrun⟩
    · simp [hrun, hmagic]
    · simp [hrun, hmagic]

/-- `shdecode` returns without its output arguments for everything else. -/
theorem shdecodeCopy_sets_iff (key : ShKey) (hlen : D.length < 2 ^ 32) :
    shdecodeCopy D key ≠ some none ↔ D.length < 8 ∨ isCryptMagic D = true := by
  by_cases hshort : D.length < 8
  · obtain ⟨dec, hrun, -⟩ := shdecodeCopy_short key hshort
    exact iff_of_true (by rw [hrun]; exact fun hbad => nomatch hbad) (Or.inl hshort)
  have hrun := shdecodeCopy_eq key hlen hshort
  by_cases hmagic : isCryptMagic D = true
  · rw [if_pos hmagic] at hrun
    split at hrun
    · obtain ⟨dec, hrun, -⟩ := hrun
      simp [hrun, hmagic]
    · simp [hrun, hmagic]
  · rw [if_neg hmagic] at hrun
    simp [hrun, hshort, hmagic]

/-- When the codecs give a byte string back, in place and by copy, and when the copying calls set
their output arguments. -/
theorem codec_iff (key : ShKey) (D room : Bytes) (hlen : D.length < 2 ^ 32)
    (hroom : 8 ≤ room.length) :
    (BackInPlace key D room ↔ InPlace key D) ∧
    (shencodeCopy D key ≠ some none ↔ D.length < 8 ∨ isCryptMagic D = false) ∧
    (shdecodeCopy D key ≠ some none ↔ D.length < 8 ∨ isCryptMagic D = true) ∧
    (BackFromBuffer key D ↔ D.length < 8 ∨ (isCryptMagic D = false ∧ EncodeFits D.length)) :=
  ⟨ashdecode_ashencode_iff key hlen hroom, shencodeCopy_sets_iff key hlen,
    shdecodeCopy_sets_iff key hlen, shdecodeCopy_shencodeCopy_iff key hlen⟩

/-- Eight bytes that begin with the magic word. -/
def magicEight : Bytes := cryptHeader 0

/-- Nine bytes, one more than a block of the cipher has, come back from where they were encoded.
-/
theorem codec_iff_nine : BackInPlace ashkeyBlank [1, 2, 3, 4, 5, 6, 7, 8, 9] (List.replicate 8 0) :=
  (codec_iff ashkeyBlank [1, 2, 3, 4, 5, 6, 7, 8, 9] (List.replicate 8 0) (by decide)
    (by decide)).1.mpr
    (Or.inr (Or.inl ⟨rfl, by decide⟩))

/-- They are not encoded, but decoded, and not copied at all. -/
theorem magicEight_lost :
    ashencode (magicEight ++ List.replicate 8 0) 8 ashkeyBlank =
      some (magicEight ++ List.replicate 8 0, 8) ∧
    ashdecode (magicEight ++ List.replicate 8 0) 8 ashkeyBlank =
      some (magicEight ++ List.replicate 8 0, 0) ∧
    shencodeCopy magicEight ashkeyBlank = some none := by
  refine ⟨by decide, by decide, shencodeCopy_magic _ (by decide) rfl⟩

end LibShare.Mem
