import LibShare.Mem.Alg
import LibShare.Mem.Buf
import LibShare.Mem.Crypto

/-!
# libshare — encrypted segments

`shencrypt` and `shdecrypt` of `shmem_crypto.c`. There are two formats. The one of
algorithm zero is a header of eight bytes, a magic number and the length of the
data, before the data itself, whose whole blocks are encrypted. The format of the
other algorithms has a certificate before the encrypted data, which begins with a
magic number of eight bytes and is signed.

The magic number of the second format is twice that of the first. A segment of the
first format whose length is that number is taken for one of the second
(`shdecrypt_v0_iff`).

* The public-key algorithms, `sh_sha512`, the clock and the random numbers are
  parameters (`CryptEnv`).
* The buffers are those of `Mem/Buf`, and a segment is given by its address and
  its length.
-/

namespace LibShare.Mem

/-! ## Blocks -/

/-- The key words of TEA from an offset on. -/
def keyAt (k : List UInt32) (kOf : Nat) : Vector UInt32 7 := Vector.ofFn fun i => k.getD (kOf + i) 0

/-- A chunk of at most eight bytes, with zeros after its end, is encrypted. -/
def encChunk (k : List UInt32) (kLen j : Nat) (chunk : Bytes) : Bytes :=
  let v :=
    teaEncrypt (keyAt k (j % kLen * 4)) (leWord32 (chunk.take 4), leWord32 ((chunk.drop 4).take 4))
  leBytes32 v.1 ++ leBytes32 v.2

def decChunk (k : List UInt32) (kLen j : Nat) (chunk : Bytes) : Bytes :=
  let v :=
    teaDecrypt (keyAt k (j % kLen * 4)) (leWord32 (chunk.take 4), leWord32 ((chunk.drop 4).take 4))
  leBytes32 v.1 ++ leBytes32 v.2

/-- The number of blocks of a length. -/
def blockCount (len : Nat) : Nat := len / 8 + if len % 8 = 0 then 0 else 1

/-- The loop of `shencrypt_bin`, over the data from the current offset on. -/
def shencryptBinLoop (k : List UInt32) (kLen : Nat) : Nat → Nat → Bytes → Shbuf → Option Shbuf
  | 0, _, _, buff => some buff
  | n + 1, j, data, buff =>
    (shbufCat buff (encChunk k kLen j (data.take 8))).bind
      (shencryptBinLoop k kLen n (j + 1) (data.drop 8))

/-- `shencrypt_bin`. -/
def shencryptBin (buff : Shbuf) (k : List UInt32) (kLen : Nat) (data : Bytes) : Option Shbuf :=
  shencryptBinLoop k kLen (blockCount data.length) 0 data buff

/-- The loop of `shdecrypt_bin`, from the current address on. -/
def shdecryptBinLoop (k : List UInt32) (kLen : Nat) (d : Memory) :
    Nat → Nat → Nat → Nat → Shbuf → Option Shbuf
  | 0, _, _, _, buff => some buff
  | n + 1, j, a, len, buff =>
    (shbufCat buff ((decChunk k kLen j (slice d a 8)).take (min 8 len))).bind
      (shdecryptBinLoop k kLen d n (j + 1) (a + 8) (len - 8))

/-- `shdecrypt_bin`. -/
def shdecryptBin (buff : Shbuf) (k : List UInt32) (kLen : Nat) (d : Memory) (a len : Nat) :
    Option Shbuf :=
  shdecryptBinLoop k kLen d (blockCount len) 0 a len buff

/-! ## The two formats -/

/-- The bytes of a `shalg_t`. -/
abbrev AlgBytes := Vector UInt8 312

/-- What encryption takes from elsewhere. -/
structure CryptEnv where
  /-- `sh_sha512` -/
  sha512 : Bytes → Bytes
  algPriv : UInt32 → Bytes → Except Sherr AlgBytes
  algPub : UInt32 → AlgBytes → Except Sherr AlgBytes
  algSign : UInt32 → AlgBytes → Bytes → Except Sherr AlgBytes
  algVer : UInt32 → AlgBytes → AlgBytes → Bytes → Except Sherr Unit
  /-- `shtime` -/
  stamp : UInt64
  /-- `shtime_adj` of it by `SHARE_DEFAULT_EXPIRE_TIME` -/
  expire : UInt64
  /-- `shpam_euid` -/
  uid : UInt64
  /-- two random numbers -/
  ser : Vector UInt8 16

/-- `SHMEM32_MAGIC` in memory. -/
def magic32 : Bytes := leBytes32 0x22888822

/-- `SHMEM_MAGIC` in memory. -/
def magic64 : Bytes := leBytes64 0x2288882222888822

/-- `sizeof(shenc_hdr_t)`. -/
def hdrSize : Nat := 1344

/-- What happened to a buffer, with the status. -/
abbrev BufResult := Option (Except Sherr Unit × Shbuf)

/-- The remainder of a segment is appended, where there is one. -/
def catRemainder (buff : Shbuf) (tail : Bytes) : Option Shbuf :=
  if tail = [] then some buff else shbufCat buff tail

/-- `_shencrypt_v0`. -/
def shencryptV0 (outBuff : Shbuf) (data key : Bytes) : BufResult :=
  if key.length < 20 then some (.error .inval, outBuff)
  else do
    -- reserve space for header
    let outBuff ← shbufPadd outBuff 8
    let k := leWords ((key.drop 4).take 16)
    let l := data.length / 8 * 8 % 2 ^ 32
    let outBuff ← shencryptBin outBuff k 1 (data.take l)
    let outBuff ← catRemainder outBuff (data.drop l)
    -- add encryption identifier, and size
    let d := poke outBuff.data 0 magic32
    let d := poke d 4 (leBytes32 (UInt32.ofNat data.length))
    some (.ok (), { outBuff with data := d })

/-- `_shdecrypt_v0`. -/
def shdecryptV0 (outBuff : Shbuf) (d : Memory) (dataLen : Nat) (key : Bytes) : BufResult :=
  if key.length < 20 then some (.error .inval, outBuff)
  else if dataLen < 8 then some (.error .inval, outBuff)
  else if slice d 0 4 ≠ magic32 then some (.error .inval, outBuff)
  else
    let size := (leWord32 (slice d 4 4)).toNat
    if dataLen - 8 < size then some (.error .inval, outBuff)
    else do
      let k := leWords ((key.drop 4).take 16)
      let l := (dataLen - 8) / 8 * 8 % 2 ^ 32
      let outBuff ← shdecryptBin outBuff k 1 d 8 l
      let outBuff ← catRemainder outBuff (slice d (8 + l) (size - l))
      some (.ok (), outBuff)

/-- `_shencrypt_v1_key`. -/
def shencryptV1Key (env : CryptEnv) (key : Bytes) : List UInt32 := leWords (env.sha512 key)

/-- `shesig_id_gen`. -/
def shesigIdGen (d : Memory) : Bytes :=
  let ctx := shr224Write shr224Init (slice d 1056 16)
  let ctx := shr224Write ctx (slice d 1032 8)
  let ctx := shr224Write ctx (slice d 1048 8)
  let ctx := shr224Write ctx (slice d 632 (leWord32 (slice d 940 4)).toNat)
  shr224ResultKey ctx

/-- The fields of the certificate that do not depend on the keys. They are zero
when the space for the header has been reserved, so that every default is set. -/
def certFields (env : CryptEnv) (alg : UInt32) (len : Nat) (d : Memory) : Memory :=
  -- time
  let d := poke d 1024 (leBytes64 env.stamp)
  -- add encryption identifier
  let d := poke d 0 magic64
  -- add size
  let d := poke d 1040 (beBytes 8 len)
  -- algorithm
  let d := poke d 1008 (beBytes 4 alg.toNat)
  -- serial no
  let d := poke d 1056 env.ser.toList
  let d := poke d 1032 (leBytes64 env.expire)
  let d := poke d 1020 (beBytes 4 3)
  poke d 1048 (leBytes64 env.uid)

/-- The public key and the id of the certificate. -/
def certPub (pub : AlgBytes) (d : Memory) : Memory :=
  let d := poke d 632 pub.toList
  -- generate an unique id for the certificate
  poke d 944 (shesigIdGen d)

/-- `_shencrypt_v1`, into an empty buffer. -/
def shencryptV1 (env : CryptEnv) (alg : UInt32) (outBuff : Shbuf) (data key : Bytes) : BufResult :=
  if hdrSize < data.length ∧ data.take 8 = magic64 then some (.error .already, outBuff)
  else do
    -- reserve space for header
    let outBuff ← shbufPadd outBuff hdrSize
    let outBuff ← shencryptBin outBuff (shencryptV1Key env key) 4 data
    let d := certFields env alg data.length outBuff.data
    match env.algPriv alg key with
    | .error err => some (.error err, { outBuff with data := d })
    | .ok priv =>
      match env.algPub alg priv with
      | .error err => some (.error err, { outBuff with data := d })
      | .ok pub =>
        let d := certPub pub d
        -- sign unencrypted data payload
        match env.algSign alg priv data with
        | .error err => some (.error err, { outBuff with data := d })
        | .ok dataSig =>
          let d := poke d 320 dataSig.toList
          -- generate signature for encryption data
          match env.algSign alg priv (slice d 320 (outBuff.dataOf - 320)) with
          | .error err => some (.error err, { outBuff with data := d })
          | .ok sig => some (.ok (), { outBuff with data := poke d 8 sig.toList })

/-- `_shdecrypt_v1`. -/
def shdecryptV1 (env : CryptEnv) (outBuff : Shbuf) (d : Memory) (dataLen : Nat) (key : Bytes) :
    BufResult :=
  if dataLen < hdrSize then some (.error .inval, outBuff)
  else if slice d 0 8 ≠ magic64 then some (.error .inval, outBuff)
  else
    let size := beAt d 1040 8
    if dataLen - hdrSize < size then some (.error .inval, outBuff)
    else do
      let outBuff ← shdecryptBin outBuff (shencryptV1Key env key) 4 d hdrSize size
      some (.ok (), outBuff)

/-- A `shalg_t` in memory. -/
def algAt (d : Memory) (a : Nat) : AlgBytes := Vector.ofFn fun i => d (a + i)

/-- `shdecrypt_verify`. -/
def shdecryptVerify (env : CryptEnv) (d : Memory) (dataLen : Nat) : Except Sherr Unit :=
  if dataLen < 8 then .error .inval
  else if slice d 0 4 = magic32 ∧ slice d 0 8 ≠ magic64 then
    -- 32bit version
    .ok ()
  else if slice d 0 8 ≠ magic64 then .error .ilseq
  else if dataLen < hdrSize then .error .inval
  else env.algVer (UInt32.ofNat (beAt d 1008 4)) (algAt d 632) (algAt d 8)
    (slice d 320 (dataLen - 320))

/-- `shencrypt`. -/
def shencrypt (env : CryptEnv) (alg : UInt32) (outBuff : Shbuf) (data key : Bytes) : BufResult :=
  if alg = 0 then shencryptV0 outBuff data key else shencryptV1 env alg outBuff data key

/-- `shdecrypt`. -/
def shdecrypt (env : CryptEnv) (outBuff : Shbuf) (d : Memory) (dataLen : Nat) (key : Bytes) :
    BufResult :=
  match shdecryptVerify env d dataLen with
  | .error err => some (.error err, outBuff)
  | .ok _ =>
    if slice d 0 8 ≠ magic64 then shdecryptV0 outBuff d dataLen key
    else shdecryptV1 env outBuff d dataLen key

/-! ## Buffers -/

variable {buf buf' out out' : Shbuf} {k : List UInt32} {kLen j : Nat} {data key : Bytes}
  {d : Memory}

/-- A buffer after it has been extended. -/
structure Extended (buf buf' : Shbuf) (data : Bytes) : Prop where
  contents : buf'.contents = buf.contents ++ data
  within : buf'.dataOf ≤ buf'.dataMax
  fits : data ≠ [] → Fits buf'.dataOf

/-- The buffer is longer by what has been appended. -/
theorem Extended.dataOf (h : Extended buf buf' data) : buf'.dataOf = buf.dataOf + data.length := by
  have hlen := congrArg List.length h.contents
  rw [List.length_append, Shbuf.length_contents, Shbuf.length_contents] at hlen
  exact hlen

/-- Nothing has been appended. -/
theorem Extended.refl (h : buf.dataOf ≤ buf.dataMax) : Extended buf buf [] :=
  ⟨(List.append_nil _).symm, h, fun hne => absurd rfl hne⟩

/-- What is appended twice comes one behind the other. -/
theorem Extended.trans {buf'' : Shbuf} {data' : Bytes} (h : Extended buf buf' data)
    (h' : Extended buf' buf'' data') : Extended buf buf'' (data ++ data') where
  contents := by rw [h'.contents, h.contents, List.append_assoc]
  within := h'.within
  fits hne := by
    by_cases hnil : data' = []
    · subst hnil
      rw [List.append_nil] at hne
      have hof := h'.dataOf
      rw [List.length_nil] at hof
      rw [hof]
      exact h.fits hne
    · exact h'.fits hnil

/-- `shbuf_cat` appends its data. -/
theorem shbufCat_extended (hle : buf.dataOf ≤ buf.dataMax) (hcat : shbufCat buf data = some buf') :
    Extended buf buf' data := by
  have hspec := shbufCat_spec hle data
  split at hspec
  · next hfits =>
    obtain ⟨buf1, hrun, hcontents, hle1⟩ := hspec
    rw [hrun] at hcat
    cases hcat
    refine ⟨hcontents, hle1, ?_⟩
    intro _
    have hlen := congrArg List.length hcontents
    rw [List.length_append, Shbuf.length_contents, Shbuf.length_contents] at hlen
    rw [hlen]
    exact hfits
  · rw [hspec] at hcat
    cases hcat

/-- The rest of the data is appended. -/
theorem catRemainder_extended (hle : buf.dataOf ≤ buf.dataMax)
    (hrun : catRemainder buf data = some buf') : Extended buf buf' data := by
  unfold catRemainder at hrun
  split at hrun
  · next hnil =>
    cases hrun
    rw [hnil]
    exact Extended.refl hle
  · exact shbufCat_extended hle hrun

theorem catRemainder_fits (hle : buf.dataOf ≤ buf.dataMax)
    (hfits : Fits (buf.dataOf + data.length)) :
    ∃ buf', catRemainder buf data = some buf' := by
  unfold catRemainder
  split
  · exact ⟨buf, rfl⟩
  · have hspec := shbufCat_spec hle data
    rw [if_pos hfits] at hspec
    obtain ⟨buf', hrun, -⟩ := hspec
    exact ⟨buf', hrun⟩

/-- Padding appends zeros up to the length. -/
theorem shbufPadd_extended {len : Nat} (hle : buf.dataOf ≤ buf.dataMax)
    (hpadd : shbufPadd buf len = some buf') :
    Extended buf buf' (List.replicate (len - buf.dataOf) 0) := by
  have hspec := shbufPaddLoop_spec (len - buf.dataOf) hle
  unfold shbufPadd at hpadd
  split at hspec
  · next hfits =>
    obtain ⟨buf1, hrun, hcontents, hle1⟩ := hspec
    rw [hrun] at hpadd
    cases hpadd
    refine ⟨hcontents, hle1, ?_⟩
    intro hne
    have hlen := congrArg List.length hcontents
    rw [List.length_append, Shbuf.length_contents, Shbuf.length_contents,
      List.length_replicate] at hlen
    rw [hlen]
    rcases hfits with hzero | hfits
    · rw [hzero] at hne
      exact absurd rfl hne
    · exact hfits
  · rw [hspec] at hpadd
    cases hpadd

/-! ## Encryption undone, block by block -/

/-- One block less is eight bytes less. -/
theorem blockCount_succ {n len : Nat} (h : blockCount len = n + 1) :
    0 < len ∧ blockCount (len - 8) = n := by
  unfold blockCount at *
  split at h <;> split <;> omega

/-- No blocks are no bytes. -/
theorem blockCount_eq_zero {len : Nat} (h : blockCount len = 0) : len = 0 := by
  unfold blockCount at h
  split at h <;> omega

/-- The bytes that the loop of `shencrypt_bin` appends. -/
def encBytes (k : List UInt32) (kLen : Nat) : Nat → Nat → Bytes → Bytes
  | 0, _, _ => []
  | n + 1, j, data => encChunk k kLen j (data.take 8) ++ encBytes k kLen n (j + 1) (data.drop 8)

/-- The cipher has eight bytes for each block. -/
theorem length_encBytes :
    ∀ (n j : Nat) (data : Bytes), (encBytes k kLen n j data).length = 8 * n := by
  intro n
  induction n with
  | zero =>
    intro j data
    rfl
  | succ n ih =>
    intro j data
    rw [encBytes, List.length_append, ih]
    show 8 + 8 * n = 8 * (n + 1)
    omega

/-- The loop appends the blocks of the cipher. -/
theorem shencryptBinLoop_extended : ∀ (n : Nat) {j : Nat} {data : Bytes} {buf buf' : Shbuf},
    buf.dataOf ≤ buf.dataMax → shencryptBinLoop k kLen n j data buf = some buf' →
    Extended buf buf' (encBytes k kLen n j data) := by
  intro n
  induction n with
  | zero =>
    intro j data buf buf' hle hrun
    cases hrun
    exact Extended.refl hle
  | succ n ih =>
    intro j data buf buf' hle hrun
    rw [shencryptBinLoop] at hrun
    obtain ⟨buf1, hcat, hrest⟩ := Option.bind_eq_some_iff.mp hrun
    have hone := shbufCat_extended hle hcat
    exact hone.trans (ih hone.within hrest)

theorem leWord32_replicate (n : Nat) : leWord32 (List.replicate n 0) = 0 := by
  induction n with
  | zero => rfl
  | succ n ih =>
    rw [List.replicate_succ, leWord32, ih]
    rfl

/-- Zeros behind a word do not change it. -/
theorem leWord32_pad (n : Nat) (bs : Bytes) :
    leWord32 (bs ++ List.replicate n 0) = leWord32 bs := by
  induction bs with
  | nil => exact leWord32_replicate n
  | cons b bs ih => rw [List.cons_append, leWord32, leWord32, ih]

/-- The loop of `shencrypt_bin` ends where the allocation is possible. -/
theorem shencryptBinLoop_fits : ∀ (n : Nat) {j : Nat} {data : Bytes} {buf : Shbuf},
    buf.dataOf ≤ buf.dataMax → Fits (buf.dataOf + 8 * n) →
    ∃ buf', shencryptBinLoop k kLen n j data buf = some buf' := by
  intro n
  induction n with
  | zero =>
    intro j data buf _ _
    exact ⟨buf, rfl⟩
  | succ n ih =>
    intro j data buf hle hfits
    have hchunk : (encChunk k kLen j (data.take 8)).length = 8 := rfl
    have hcat := shbufCat_spec hle (encChunk k kLen j (data.take 8))
    rw [if_pos (hfits.mono (by rw [hchunk]; omega))] at hcat
    obtain ⟨buf1, hrun, -⟩ := hcat
    have hone := shbufCat_extended hle hrun
    have hof := hone.dataOf
    rw [shencryptBinLoop, hrun, Option.bind_some]
    exact ih hone.within (hfits.mono (by rw [hof, hchunk]; omega))

/-- Reading back a word of at most four bytes. -/
theorem take_leBytes32_leWord32 {bs : Bytes} (h : bs.length ≤ 4) :
    (leBytes32 (leWord32 bs)).take bs.length = bs := by
  obtain ⟨b0, b1, b2, b3, hfour⟩ : ∃ b0 b1 b2 b3, bs ++ List.replicate (4 - bs.length) 0 =
      [b0, b1, b2, b3] := by
    have hlen : (bs ++ List.replicate (4 - bs.length) 0).length = 4 := by
      rw [List.length_append, List.length_replicate]
      omega
    match bs ++ List.replicate (4 - bs.length) 0, hlen with
    | [b0, b1, b2, b3], _ => exact ⟨b0, b1, b2, b3, rfl⟩
  rw [← leWord32_pad (4 - bs.length) bs, hfour, leBytes32_leWord32, ← hfour, List.take_left]

/-- A chunk that is decrypted again. -/
theorem decChunk_encChunk (j : Nat) {chunk : Bytes} (h : chunk.length ≤ 8) :
    (decChunk k kLen j (encChunk k kLen j chunk)).take chunk.length = chunk := by
  have hread : ∀ w1 w2 : UInt32, leWord32 ((leBytes32 w1 ++ leBytes32 w2).take 4) = w1 ∧
      leWord32 (((leBytes32 w1 ++ leBytes32 w2).drop 4).take 4) = w2 := fun w1 w2 =>
    ⟨leWord32_leBytes32 w1, leWord32_leBytes32 w2⟩
  have hfirst : (leBytes32 (leWord32 (chunk.take 4))).take (chunk.take 4).length = chunk.take 4 :=
    take_leBytes32_leWord32 (by rw [List.length_take]; omega)
  have hfour : (leBytes32 (leWord32 (chunk.take 4))).length = 4 := rfl
  unfold decChunk encChunk
  dsimp only
  rw [(hread _ _).1, (hread _ _).2, teaDecrypt_teaEncrypt]
  dsimp only
  rw [List.take_append, hfour]
  by_cases hshort : chunk.length ≤ 4
  · rw [List.take_of_length_le hshort] at hfirst ⊢
    rw [hfirst, Nat.sub_eq_zero_of_le hshort, List.take_zero, List.append_nil]
  · have hsecond : (leBytes32 (leWord32 (chunk.drop 4))).take (chunk.drop 4).length =
        chunk.drop 4 :=
      take_leBytes32_leWord32 (by rw [List.length_drop]; omega)
    rw [List.length_take, Nat.min_eq_left (by omega), List.take_of_length_le (by omega)] at hfirst
    rw [List.length_drop] at hsecond
    have hdrop : (chunk.drop 4).take 4 = chunk.drop 4 :=
      List.take_of_length_le (by rw [List.length_drop]; omega)
    rw [List.take_of_length_le (by omega), hfirst, hdrop, hsecond, List.take_append_drop]

/-- The loop of `shdecrypt_bin` over what `shencrypt_bin` has written. -/
theorem shdecryptBinLoop_spec : ∀ (n : Nat) {j a : Nat} {data : Bytes} {buf : Shbuf},
    blockCount data.length = n → slice d a (8 * n) = encBytes k kLen n j data →
    buf.dataOf ≤ buf.dataMax → (data ≠ [] → Fits (buf.dataOf + data.length)) →
    ∃ buf', shdecryptBinLoop k kLen d n j a data.length buf = some buf' ∧
      Extended buf buf' data := by
  intro n
  induction n with
  | zero =>
    intro j a data buf hcount _ hle _
    obtain rfl : data = [] := List.length_eq_zero_iff.mp (blockCount_eq_zero hcount)
    exact ⟨buf, rfl, Extended.refl hle⟩
  | succ n ih =>
    intro j a data buf hcount hslice hle hfits
    obtain ⟨hpos, hcount'⟩ := blockCount_succ hcount
    have hne : data ≠ [] := List.length_pos_iff.mp hpos
    have hmul : 8 * (n + 1) = 8 + 8 * n := by omega
    rw [hmul, slice_append, encBytes] at hslice
    obtain ⟨hchunk, hrest⟩ := List.append_inj hslice (by rw [length_slice]; rfl)
    have hlen : (data.take 8).length = min 8 data.length := List.length_take
    have hdec : (decChunk k kLen j (slice d a 8)).take (min 8 data.length) = data.take 8 := by
      rw [hchunk, ← hlen]
      exact decChunk_encChunk j (by rw [hlen]; omega)
    rw [shdecryptBinLoop, hdec]
    have hcat := shbufCat_spec hle (data.take 8)
    rw [if_pos ((hfits hne).mono (by rw [hlen]; omega))] at hcat
    obtain ⟨buf1, hrun, -⟩ := hcat
    have hone := shbufCat_extended hle hrun
    have hof := hone.dataOf
    rw [hrun, Option.bind_some]
    have hdrop : (data.drop 8).length = data.length - 8 := List.length_drop
    rw [← hdrop]
    obtain ⟨buf', hloop, hext⟩ := ih (by rw [hdrop]; exact hcount') hrest hone.within (by
      intro _
      refine (hfits hne).mono ?_
      rw [hof, hlen, hdrop]
      omega)
    refine ⟨buf', hloop, ?_⟩
    have hboth := hone.trans hext
    rw [List.take_append_drop] at hboth
    exact hboth

/-- What is decrypted from anywhere has the length that is asked for. -/
theorem shdecryptBinLoop_length : ∀ (n : Nat) {j a len : Nat} {buf buf' : Shbuf},
    blockCount len = n → buf.dataOf ≤ buf.dataMax →
    shdecryptBinLoop k kLen d n j a len buf = some buf' → buf'.dataOf = buf.dataOf + len := by
  intro n
  induction n with
  | zero =>
    intro j a len buf buf' hcount _ hrun
    cases hrun
    rw [blockCount_eq_zero hcount]
    rfl
  | succ n ih =>
    intro j a len buf buf' hcount hle hrun
    obtain ⟨hpos, hcount'⟩ := blockCount_succ hcount
    rw [shdecryptBinLoop] at hrun
    obtain ⟨buf1, hcat, hrest⟩ := Option.bind_eq_some_iff.mp hrun
    have hone := shbufCat_extended hle hcat
    have hlen : ((decChunk k kLen j (slice d a 8)).take (min 8 len)).length = min 8 len := by
      rw [List.length_take]
      show min (min 8 len) 8 = min 8 len
      omega
    have hof := hone.dataOf
    have hend := ih hcount' hone.within hrest
    omega

/-! ## The format of algorithm zero -/

/-- A segment that `_shencrypt_v0` has written. -/
structure V0Segment (out : Shbuf) (data key : Bytes) : Prop where
  keyLen : 20 ≤ key.length
  dataOf : out.dataOf = 8 + data.length
  fits : Fits out.dataOf
  magic : slice out.data 0 4 = magic32
  size : slice out.data 4 4 = leBytes32 (UInt32.ofNat data.length)
  blocks : slice out.data 8 (data.length / 8 * 8) =
    encBytes (leWords ((key.drop 4).take 16)) 1 (data.length / 8) 0
      (data.take (data.length / 8 * 8))
  tail : slice out.data (8 + data.length / 8 * 8) (data.length - data.length / 8 * 8) =
    data.drop (data.length / 8 * 8)

/-- Whole blocks are counted. -/
theorem blockCount_mul (q : Nat) : blockCount (q * 8) = q := by
  unfold blockCount
  rw [Nat.mul_mod_left, if_pos rfl]
  omega

/-- What the first format writes is a segment of it. -/
theorem shencryptV0_segment (hout : out.dataOf = 0) (hlen : data.length < 2 ^ 32)
    (hrun : shencryptV0 out data key = some (.ok (), out')) : V0Segment out' data key := by
  have hsmall : data.length / 8 * 8 % 2 ^ 32 = data.length / 8 * 8 := by omega
  unfold shencryptV0 at hrun
  split at hrun
  · cases hrun
  · next hkey =>
    dsimp only at hrun
    rw [hsmall] at hrun
    obtain ⟨buf1, hpadd, hrun⟩ := Option.bind_eq_some_iff.mp hrun
    obtain ⟨buf2, henc, hrun⟩ := Option.bind_eq_some_iff.mp hrun
    obtain ⟨buf3, htail, hrun⟩ := Option.bind_eq_some_iff.mp hrun
    -- the header, the whole blocks and the rest are appended in turn
    have h1 := shbufPadd_extended (by omega) hpadd
    have h2 := shencryptBinLoop_extended _ h1.within henc
    have h3 := catRemainder_extended h2.within htail
    have hwhole := (h1.trans h2).trans h3
    have htake : (data.take (data.length / 8 * 8)).length = data.length / 8 * 8 := by
      rw [List.length_take]
      omega
    rw [htake, blockCount_mul, hout, Nat.sub_zero] at hwhole
    have hempty : out.contents = [] := List.length_eq_zero_iff.mp (by simp [hout])
    have hof : buf3.dataOf = 8 + data.length := by
      have hof := hwhole.dataOf
      rw [List.length_append, List.length_append, List.length_replicate, length_encBytes,
        List.length_drop, hout] at hof
      omega
    have hfits : Fits buf3.dataOf := hwhole.fits (by simp)
    have hcontents := hwhole.contents
    rw [hempty, List.nil_append, List.append_assoc] at hcontents
    unfold Shbuf.contents at hcontents
    have hsum : 8 + (data.length / 8 * 8 + (data.length - data.length / 8 * 8)) = 8 +
        data.length := by
      omega
    rw [hof, ← hsum, slice_append, slice_append, Nat.zero_add] at hcontents
    obtain ⟨-, hrest⟩ := List.append_inj hcontents (by rw [length_slice, List.length_replicate])
    obtain ⟨hblocks, htail⟩ := List.append_inj hrest (by rw [length_slice, length_encBytes]; omega)
    cases hrun
    exact {
      keyLen := by omega
      dataOf := hof
      fits := hfits
      magic := (slice_poke_ne (Or.inl (Nat.le_refl 4))).trans (slice_poke _ _ 0)
      size := slice_poke _ (leBytes32 _) 4
      blocks := by
        rw [← hblocks]
        exact (slice_poke_ne (Or.inr (Nat.le_refl 8))).trans (slice_poke_ne (Or.inr (by decide)))
      tail := by
        rw [← htail]
        refine (slice_poke_ne (Or.inr ?_)).trans (slice_poke_ne (Or.inr ?_))
        · exact Nat.le_add_right 8 _
        · exact Nat.le_trans (by decide) (Nat.le_add_right 8 _) }

/-- `_shencrypt_v0` succeeds where the allocation is possible. -/
theorem shencryptV0_succeeds (hout : out.dataOf = 0) (hlen : data.length < 2 ^ 32)
    (hkey : 20 ≤ key.length) (hfits : Fits (8 + data.length)) :
    ∃ out', shencryptV0 out data key = some (.ok (), out') := by
  have hsmall : data.length / 8 * 8 % 2 ^ 32 = data.length / 8 * 8 := by omega
  have htake : (data.take (data.length / 8 * 8)).length = data.length / 8 * 8 := by
    rw [List.length_take]
    omega
  have hpadd := shbufPaddLoop_spec (8 - out.dataOf) (by omega : out.dataOf ≤ out.dataMax)
  rw [if_pos (Or.inr (hfits.mono (by omega)))] at hpadd
  obtain ⟨buf1, hrun1, -⟩ := hpadd
  have h1 := shbufPadd_extended (by omega : out.dataOf ≤ out.dataMax) hrun1
  have hof1 := h1.dataOf
  rw [List.length_replicate, hout] at hof1
  obtain ⟨buf2, hrun2⟩ : ∃ buf2, shencryptBin buf1 (leWords ((key.drop 4).take 16)) 1
      (data.take (data.length / 8 * 8)) = some buf2 := by
    unfold shencryptBin
    rw [htake, blockCount_mul]
    exact shencryptBinLoop_fits _ h1.within (hfits.mono (by omega))
  have h2 := shencryptBinLoop_extended _ h1.within hrun2
  have hof2 := h2.dataOf
  rw [length_encBytes, htake, blockCount_mul] at hof2
  obtain ⟨buf3, hrun3⟩ : ∃ buf3,
      catRemainder buf2 (data.drop (data.length / 8 * 8)) = some buf3 := by
    refine catRemainder_fits h2.within (hfits.mono ?_)
    rw [List.length_drop]
    omega
  unfold shencryptV0
  rw [if_neg (by omega)]
  dsimp only
  rw [hsmall]
  exact ⟨_, Option.bind_eq_some_iff.mpr ⟨buf1, hrun1, Option.bind_eq_some_iff.mpr ⟨buf2, hrun2,
    Option.bind_eq_some_iff.mpr ⟨buf3, hrun3, rfl⟩⟩⟩⟩

/-- The length that makes the header of the first format look like the second. -/
def clashLen : Nat := 0x22888822

/-- The header of a segment is the magic number of the other format just when the
length of the data is half of that number. -/
theorem V0Segment.clash_iff (h : V0Segment out data key) (hlen : data.length < 2 ^ 32) :
    slice out.data 0 8 = magic64 ↔ data.length = clashLen := by
  have hsplit := slice_append out.data 4 4 0
  rw [Nat.zero_add, h.magic, h.size] at hsplit
  have hmagic : magic64 = magic32 ++ leBytes32 0x22888822 := by decide
  show slice out.data 0 (4 + 4) = magic64 ↔ _
  rw [hsplit, hmagic]
  constructor
  · intro heq
    have hword := congrArg leWord32 (List.append_cancel_left heq)
    rw [leWord32_leBytes32, leWord32_leBytes32] at hword
    have hnat := congrArg UInt32.toNat hword
    rw [UInt32.toNat_ofNat_of_lt' hlen] at hnat
    exact hnat
  · intro heq
    rw [heq]
    rfl

/-- A segment of the first format is not verified. -/
theorem shdecryptVerify_v0 {env : CryptEnv} {n : Nat} (hn : 8 ≤ n) (hmagic : slice d 0 4 = magic32)
    (hne : slice d 0 8 ≠ magic64) : shdecryptVerify env d n = .ok () := by
  unfold shdecryptVerify
  rw [if_neg (by omega), if_pos ⟨hmagic, hne⟩]

/-- A segment whose header is not taken for the other format is decrypted. -/
theorem V0Segment.decrypted {env : CryptEnv} {dec : Shbuf} (h : V0Segment out data key)
    (hlen : data.length < 2 ^ 32) (hdec : dec.dataOf = 0) (hne : data.length ≠ clashLen) :
    ∃ dec', shdecrypt env dec out.data out.dataOf key = some (.ok (), dec') ∧
      dec'.contents = data := by
  have hof := h.dataOf
  have hclash : slice out.data 0 8 ≠ magic64 := fun heq => hne ((h.clash_iff hlen).mp heq)
  have hsize : (leWord32 (slice out.data 4 4)).toNat = data.length := by
    rw [h.size, leWord32_leBytes32]
    exact UInt32.toNat_ofNat_of_lt' hlen
  have hl : (out.dataOf - 8) / 8 * 8 % 2 ^ 32 = data.length / 8 * 8 := by
    rw [hof]
    omega
  have htake : (data.take (data.length / 8 * 8)).length = data.length / 8 * 8 := by
    rw [List.length_take]
    omega
  have hblocks : slice out.data 8 (8 * (data.length / 8)) =
      encBytes (leWords ((key.drop 4).take 16)) 1 (data.length / 8) 0
        (data.take (data.length / 8 * 8)) := by
    rw [Nat.mul_comm]
    exact h.blocks
  -- the whole blocks, and then what is not encrypted
  obtain ⟨buf1, hrun1, hext1⟩ := shdecryptBinLoop_spec (data.length / 8)
    (by rw [htake, blockCount_mul]) hblocks (by omega : dec.dataOf ≤ dec.dataMax) (by
      intro _
      refine h.fits.mono ?_
      rw [hof, hdec, htake]
      omega)
  obtain ⟨buf2, hrun2⟩ : ∃ buf2,
      catRemainder buf1 (data.drop (data.length / 8 * 8)) = some buf2 := by
    refine catRemainder_fits hext1.within (h.fits.mono ?_)
    rw [hext1.dataOf, hof, hdec, htake, List.length_drop]
    omega
  have hext2 := hext1.trans (catRemainder_extended hext1.within hrun2)
  rw [List.take_append_drop] at hext2
  refine ⟨buf2, ?_, ?_⟩
  · rw [htake] at hrun1
    unfold shdecrypt
    rw [shdecryptVerify_v0 (by omega) h.magic hclash]
    dsimp only
    rw [if_pos hclash]
    unfold shdecryptV0
    rw [if_neg (by have := h.keyLen; omega), if_neg (by omega), if_neg (not_not.mpr h.magic)]
    dsimp only
    rw [hsize, if_neg (by omega), hl]
    unfold shdecryptBin
    rw [blockCount_mul, hrun1]
    show (catRemainder buf1 (slice out.data (8 + data.length / 8 * 8) _)).bind _ = _
    rw [h.tail, hrun2]
    rfl
  · have hempty : dec.contents = [] := List.length_eq_zero_iff.mp (by simp [hdec])
    rw [hext2.contents, hempty, List.nil_append]

/-- `_shdecrypt_v1` gives less than the length of the segment. -/
theorem shdecryptV1_length {env : CryptEnv} {dec dec' : Shbuf} {n : Nat} (hdec : dec.dataOf = 0)
    (hrun : shdecryptV1 env dec d n key = some (.ok (), dec')) : dec'.dataOf + hdrSize ≤ n := by
  unfold shdecryptV1 at hrun
  split at hrun
  · cases hrun
  · next hhdr =>
    split at hrun
    · cases hrun
    · dsimp only at hrun
      split at hrun
      · cases hrun
      · next hsize =>
        obtain ⟨buf1, hbin, hend⟩ := Option.bind_eq_some_iff.mp hrun
        cases hend
        have hlen := shdecryptBinLoop_length _ rfl (by omega : dec.dataOf ≤ dec.dataMax) hbin
        omega

/-- A segment whose header is taken for the other format is not decrypted. -/
theorem V0Segment.not_decrypted {env : CryptEnv} {dec dec' : Shbuf} (h : V0Segment out data key)
    (hlen : data.length < 2 ^ 32) (hdec : dec.dataOf = 0) (heq : data.length = clashLen)
    (hrun : shdecrypt env dec out.data out.dataOf key = some (.ok (), dec')) :
    dec'.contents ≠ data := by
  intro hcontents
  have hof := h.dataOf
  have hmagic := (h.clash_iff hlen).mpr heq
  unfold shdecrypt at hrun
  split at hrun
  · cases hrun
  · rw [if_neg (not_not.mpr hmagic)] at hrun
    have hshort := shdecryptV1_length hdec hrun
    have hsame := congrArg List.length hcontents
    rw [Shbuf.length_contents] at hsame
    unfold hdrSize at hshort
    omega

/-! ## The format of the other algorithms -/

/-- Signatures that are made with the keys of an algorithm are accepted. -/
def CryptEnv.Agrees (env : CryptEnv) : Prop :=
  ∀ {alg seed priv pub msg sig}, env.algPriv alg seed = .ok priv → env.algPub alg priv = .ok pub →
    env.algSign alg priv msg = .ok sig → env.algVer alg pub sig msg = .ok ()

/-- A key that has been stored is read back. -/
theorem algAt_poke (v : AlgBytes) (a : Nat) : algAt (poke d a v.toList) a = v := by
  apply Vector.ext
  intro i hi
  unfold algAt poke
  rw [Vector.getElem_ofFn, if_pos ⟨Nat.le_add_right a i, by rw [Vector.length_toList]; omega⟩,
    Nat.add_sub_cancel_left, List.getD_eq_getElem?_getD, List.getElem?_eq_getElem (by simp [hi]),
    Option.getD_some, Vector.getElem_toList]

/-- A key outside of what is stored does not change. -/
theorem algAt_poke_ne {a b : Nat} {bs : Bytes} (h : a + 312 ≤ b ∨ b + bs.length ≤ a) :
    algAt (poke d b bs) a = algAt d a := by
  apply Vector.ext
  intro i hi
  unfold algAt
  rw [Vector.getElem_ofFn, Vector.getElem_ofFn, poke_of_not_mem (by omega)]

/-- A segment that `_shencrypt_v1` has written. -/
structure V1Segment (env : CryptEnv) (alg : UInt32) (out : Shbuf) (data key : Bytes) : Prop where
  dataOf : out.dataOf = hdrSize + 8 * blockCount data.length
  fits : Fits out.dataOf
  magic : slice out.data 0 8 = magic64
  size : beAt out.data 1040 8 = data.length
  blocks : slice out.data hdrSize (8 * blockCount data.length) =
    encBytes (shencryptV1Key env key) 4 (blockCount data.length) 0 data
  signed : env.algVer (UInt32.ofNat (beAt out.data 1008 4)) (algAt out.data 632) (algAt out.data 8)
    (slice out.data 320 (out.dataOf - 320)) = .ok ()

/-- The fields of the certificate that the decoder reads, in what is signed. -/
theorem certFields_reads (env : CryptEnv) (alg : UInt32) {len : Nat} (hlen : len < 2 ^ 64) :
    slice (certFields env alg len d) 0 8 = magic64 ∧ beAt (certFields env alg len d) 1040 8 = len ∧
      beAt (certFields env alg len d) 1008 4 = alg.toNat := by
  have hstamp : ∀ w : UInt64, (leBytes64 w).length = 8 := fun _ => rfl
  have hmagic : magic64.length = 8 := rfl
  refine ⟨?_, ?_, ?_⟩
  · unfold certFields
    dsimp only
    iterate 6 rw [slice_poke_ne (by simp [hstamp])]
    exact slice_poke _ magic64 0
  · unfold certFields
    dsimp only
    iterate 5 rw [beAt_poke_ne (by simp [hstamp])]
    exact beAt_poke _ _ _ _ hlen
  · unfold certFields
    dsimp only
    iterate 4 rw [beAt_poke_ne (by simp [hstamp])]
    exact beAt_poke _ _ _ _ alg.toNat_lt

/-- The header of a segment does not reach the encrypted data. -/
theorem certFields_after (env : CryptEnv) (alg : UInt32) (len : Nat) {n : Nat} :
    slice (certFields env alg len d) hdrSize n = slice d hdrSize n := by
  have hstamp : ∀ w : UInt64, (leBytes64 w).length = 8 := fun _ => rfl
  have hmagic : magic64.length = 8 := rfl
  unfold certFields hdrSize
  dsimp only
  iterate 8 rw [slice_poke_ne (by simp [hstamp, hmagic])]

/-- The id of a certificate has 32 bytes. -/
theorem length_shesigIdGen (d : Memory) : (shesigIdGen d).length = 32 := by
  unfold shesigIdGen shr224ResultKey
  dsimp only
  rw [List.length_append, length_shr224Result]
  rfl

/-- What the keys put into the certificate leaves alone. -/
theorem certPub_slice (pub : AlgBytes) {a n : Nat} (h : a + n ≤ 632 ∨ 976 ≤ a) :
    slice (certPub pub d) a n = slice d a n := by
  unfold certPub
  dsimp only
  rw [slice_poke_ne (by rw [length_shesigIdGen]; omega),
    slice_poke_ne (by rw [Vector.length_toList]; omega)]

theorem algAt_certPub (pub : AlgBytes) : algAt (certPub pub d) 632 = pub := by
  unfold certPub
  dsimp only
  rw [algAt_poke_ne (Or.inl (by decide)), algAt_poke]

/-- What the second format writes is a segment of it, signed. -/
theorem shencryptV1_segment {env : CryptEnv} {alg : UInt32} (hagree : env.Agrees)
    (hout : out.dataOf = 0)
    (hlen : data.length < 2 ^ 32) (hrun : shencryptV1 env alg out data key = some (.ok (), out')) :
    V1Segment env alg out' data key := by
  -- the steps of the code in their order, each of which may fail
  unfold shencryptV1 at hrun
  split at hrun
  · cases hrun
  · obtain ⟨buf1, hpadd, hrun⟩ := Option.bind_eq_some_iff.mp hrun
    obtain ⟨buf2, henc, hrun⟩ := Option.bind_eq_some_iff.mp hrun
    dsimp only at hrun
    split at hrun
    · cases hrun
    · next priv hpriv =>
      split at hrun
      · cases hrun
      · next pub hpub =>
        split at hrun
        · cases hrun
        · next dataSig hdataSig =>
          split at hrun
          · cases hrun
          · next sig hsig =>
            -- room for the header and the blocks are appended; the header is poked in afterwards
            have h1 := shbufPadd_extended (by omega) hpadd
            have hwhole := h1.trans (shencryptBinLoop_extended _ h1.within henc)
            rw [hout, Nat.sub_zero] at hwhole
            have hof : buf2.dataOf = hdrSize + 8 * blockCount data.length := by
              have hof := hwhole.dataOf
              rw [List.length_append, List.length_replicate, length_encBytes, hout] at hof
              omega
            have hempty : out.contents = [] := List.length_eq_zero_iff.mp (by simp [hout])
            have hcontents := hwhole.contents
            rw [hempty, List.nil_append] at hcontents
            unfold Shbuf.contents at hcontents
            rw [hof, slice_append, Nat.zero_add] at hcontents
            obtain ⟨-, hblocks⟩ := List.append_inj hcontents
              (by rw [length_slice, List.length_replicate])
            obtain ⟨hmagic, hsize, halg⟩ := certFields_reads (d := buf2.data) env alg
              (Nat.lt_trans hlen (by decide))
            have hsig' : sig.toList.length = 312 := Vector.length_toList
            have hdataSig' : dataSig.toList.length = 312 := Vector.length_toList
            cases hrun
            refine ⟨hof, hwhole.fits ?_, ?_, ?_, ?_, ?_⟩
            · intro hnil
              have hzero := congrArg List.length hnil
              rw [List.length_append, List.length_replicate, List.length_nil] at hzero
              unfold hdrSize at hzero
              omega
            · show slice (poke (poke _ 320 _) 8 _) 0 8 = magic64
              rw [slice_poke_ne (by omega), slice_poke_ne (by omega), certPub_slice pub (by omega)]
              exact hmagic
            · show beVal (slice (poke (poke _ 320 _) 8 _) 1040 8) = data.length
              rw [slice_poke_ne (by omega), slice_poke_ne (by omega), certPub_slice pub (by omega)]
              exact hsize
            · show slice (poke (poke _ 320 _) 8 _) hdrSize _ = _
              unfold hdrSize at hblocks ⊢
              rw [slice_poke_ne (by omega), slice_poke_ne (by omega), certPub_slice pub (by omega)]
              exact (certFields_after env alg data.length).trans hblocks
            · -- the signature is not part of what it signs
              show env.algVer (UInt32.ofNat (beVal (slice (poke (poke _ 320 _) 8 _) 1008 4)))
                (algAt (poke (poke _ 320 _) 8 _) 632) (algAt (poke (poke _ 320 _) 8 _) 8)
                (slice (poke (poke _ 320 _) 8 _) 320 (buf2.dataOf - 320)) = .ok ()
              have hfield : UInt32.ofNat
                  (beVal (slice (certFields env alg data.length buf2.data) 1008 4)) =
                  alg := by
                rw [← beAt, halg]
                exact UInt32.ofNat_toNat
              rw [algAt_poke, algAt_poke_ne (by omega), algAt_poke_ne (by omega), algAt_certPub,
                slice_poke_ne (by omega), slice_poke_ne (by omega),
                  certPub_slice pub (by omega), hfield,
                slice_poke_ne (by omega)]
              exact hagree hpriv hpub hsig

/-- A segment of the second format is decrypted to its data. -/
theorem V1Segment.decrypted {env : CryptEnv} {alg : UInt32} {dec : Shbuf}
    (h : V1Segment env alg out data key)
    (hdec : dec.dataOf = 0) :
    ∃ dec', shdecrypt env dec out.data out.dataOf key = some (.ok (), dec') ∧
      dec'.contents = data := by
  have hof := h.dataOf
  have hcount : data.length ≤ 8 * blockCount data.length := by
    unfold blockCount
    split <;> omega
  obtain ⟨dec', hrun, hext⟩ := shdecryptBinLoop_spec (blockCount data.length) rfl h.blocks
    (by omega : dec.dataOf ≤ dec.dataMax) (fun _ => h.fits.mono (by omega))
  refine ⟨dec', ?_, ?_⟩
  · have hverify : shdecryptVerify env out.data out.dataOf = .ok () := by
      unfold shdecryptVerify
      rw [if_neg (by unfold hdrSize at hof; omega), if_neg (fun hc => hc.2 h.magic),
        if_neg (not_not.mpr h.magic), if_neg (by omega)]
      exact h.signed
    unfold shdecrypt
    rw [hverify]
    dsimp only
    rw [if_neg (not_not.mpr h.magic)]
    unfold shdecryptV1
    rw [if_neg (by omega), if_neg (not_not.mpr h.magic)]
    dsimp only
    rw [h.size, if_neg (by omega)]
    unfold shdecryptBin
    rw [hrun]
    rfl
  · have hempty : dec.contents = [] := List.length_eq_zero_iff.mp (by simp [hdec])
    rw [hext.contents, hempty, List.nil_append]

/-! ## Both formats -/

/-- What `shencrypt` writes into an empty buffer, `shdecrypt` reads back into an
empty buffer, except for data of algorithm zero with the length that makes its
header look like the other format. -/
theorem shdecrypt_shencrypt_iff (env : CryptEnv) (hagree : env.Agrees) (alg : UInt32)
    (out dec : Shbuf)
    (hout : out.dataOf = 0) (hdec : dec.dataOf = 0) (data key : Bytes) (hlen : data.length < 2 ^ 32)
    (out' : Shbuf) (henc : shencrypt env alg out data key = some (.ok (), out')) :
    (∃ dec', shdecrypt env dec out'.data out'.dataOf key = some (.ok (), dec') ∧
      dec'.contents = data) ↔ (alg = 0 → data.length ≠ 0x22888822) := by
  unfold shencrypt at henc
  split at henc
  · next halg =>
    have hseg := shencryptV0_segment hout hlen henc
    constructor
    · rintro ⟨dec', hrun, hcontents⟩ - hclash
      exact hseg.not_decrypted hlen hdec hclash hrun hcontents
    · intro hne
      exact hseg.decrypted hlen hdec (hne halg)
  · next halg =>
    have hseg := shencryptV1_segment hagree hout hlen henc
    exact iff_of_true (hseg.decrypted hdec) (fun hzero => absurd hzero halg)

/-- An algorithm whose signatures are all accepted, for runs on fixed inputs. -/
def CryptEnv.trusting : CryptEnv :=
  { sha512 := fun _ => List.replicate 64 0
    algPriv := fun _ _ => .ok (Vector.replicate 312 0)
    algPub := fun _ _ => .ok (Vector.replicate 312 0)
    algSign := fun _ _ _ => .ok (Vector.replicate 312 0)
    algVer := fun _ _ _ _ => .ok ()
    stamp := 1
    expire := 2
    uid := 3
    ser := Vector.replicate 16 1 }

theorem shencrypt_zero (env : CryptEnv) : shencrypt env 0 out data key = shencryptV0 out data key :=
  if_pos rfl

/-- Nine bytes are encrypted under the first method and decrypted again, where every signature
is accepted. -/
theorem shdecrypt_shencrypt_iff_nine : ∃ out',
    shencrypt .trusting 0 shbufInit [1, 2, 3, 4, 5, 6, 7, 8, 9] (List.replicate 20 0) =
      some (.ok (), out') ∧
    ∃ dec', shdecrypt .trusting shbufInit out'.data out'.dataOf (List.replicate 20 0) =
      some (.ok (), dec') ∧ dec'.contents = [1, 2, 3, 4, 5, 6, 7, 8, 9] := by
  obtain ⟨out', hrun⟩ : ∃ out', shencryptV0 shbufInit [1, 2, 3, 4, 5, 6, 7, 8, 9]
      (List.replicate 20 0) = some (.ok (), out') :=
    shencryptV0_succeeds rfl (by decide) (by decide) (by decide)
  rw [← shencrypt_zero .trusting] at hrun
  refine ⟨out', hrun, (shdecrypt_shencrypt_iff .trusting (fun _ _ _ =>
    rfl) 0 shbufInit shbufInit rfl rfl
    _ _ (by decide) out' hrun).mpr ?_⟩
  intro _ hlen
  revert hlen
  decide

/-- Data of the clashing length is encrypted, and not read back. -/
theorem shencrypt_clash (env : CryptEnv) (hkey : 20 ≤ key.length) (hlen : data.length = clashLen) :
    ∃ out', shencrypt env 0 shbufInit data key = some (.ok (), out') ∧
      ¬ ∃ dec', shdecrypt env shbufInit out'.data out'.dataOf key = some (.ok (), dec') ∧
        dec'.contents = data := by
  have hsmall : data.length < 2 ^ 32 := by
    rw [hlen]
    decide
  have hfits : Fits (8 + data.length) := by
    rw [hlen]
    decide
  rw [shencrypt_zero]
  obtain ⟨out', hrun⟩ := shencryptV0_succeeds (rfl : shbufInit.dataOf = 0) hsmall hkey hfits
  refine ⟨out', hrun, ?_⟩
  rintro ⟨dec', hdec, hcontents⟩
  exact (shencryptV0_segment rfl hsmall hrun).not_decrypted hsmall rfl hlen hdec hcontents

/-- Data of 0x22888822 bytes is not read back. -/
theorem shdecrypt_takes_other_format : ∃ out',
    shencrypt .trusting 0 shbufInit (List.replicate 0x22888822 0) (List.replicate 20 0) =
      some (.ok (), out') ∧
    ¬ ∃ dec', shdecrypt .trusting shbufInit out'.data out'.dataOf (List.replicate 20 0) =
      some (.ok (), dec') ∧ dec'.contents = List.replicate 0x22888822 0 :=
  shencrypt_clash .trusting (by decide) List.length_replicate

end LibShare.Mem
