import LibShare.Lib.Memory
import LibShare.Mem.Shr

/-!
# libshare — SHR224 signatures

Keys and signatures of the algorithm SHR224 (`shmem_alg.c`), with the HMAC of
`shmem_alg_shr.c`. A private key signs with the HMAC of its bytes. Its public key
holds the two pads of the HMAC, from which a signature is made once more to be
compared.

Both sides cut a key of more than 28 bytes down to that length: the signer with
`shr224_shrink`, the public key with `shr224`, which do not agree. Of a shorter
key the public key uses 28 bytes nevertheless, and so the bytes after its end
(`shalgVer_shalgSign`).
-/

namespace LibShare.Mem

/-! ## HMAC -/

/-- `SHR224_IPAD_MAGIC`. -/
def ipadMagic : UInt8 := 0x88

/-- `SHR224_OPAD_MAGIC`. -/
def opadMagic : UInt8 := 0x77

/-- A pad of the HMAC: the key, and the magic number where the key has ended. -/
def hmacPad (magic : UInt8) (kHash : Bytes) : Bytes :=
  kHash.map (· ^^^ magic) ++ List.replicate (28 - kHash.length) magic

/-- `shr224_hmac_init`. -/
def shr224HmacInit (key : Bytes) : Shr224 :=
  let kHash := if 28 < key.length then shr224Shrink 0 key else key
  shr224Write { shr224Init with suff := hmacPad opadMagic kHash } (hmacPad ipadMagic kHash)

/-- `shr224_hmac_write`. -/
def shr224HmacWrite (ctx : Shr224) (data : Bytes) : Shr224 := shr224Write ctx data

/-- `shr224_hmac_result`. -/
def shr224HmacResult (ctx : Shr224) : Bytes :=
  let midDigest := shr224Result ctx
  shr224Result (shr224Write (shr224Write shr224Init ctx.suff) midDigest)

/-- `shr224_hmac`. -/
def shr224Hmac (key data : Bytes) : Bytes :=
  shr224HmacResult (shr224HmacWrite (shr224HmacInit key) data)

/-! ## Keys -/

/-- `shalg_t`: 78 words, of which the last one is the size of the others' content
in bytes. -/
abbrev Shalg := Memory

/-- The bytes before the size. -/
def maxAlgSize : Nat := 308

/-- `shalg_size`. -/
def shalgSize (key : Shalg) : Nat := (leWord32 (slice key maxAlgSize 4)).toNat

/-- Content and its size. -/
def shalgSet (key : Shalg) (content : Bytes) : Shalg :=
  poke (poke key 0 content) maxAlgSize (leBytes32 (UInt32.ofNat content.length))

/-- `shalg_priv`. -/
def shalgPriv (data : Bytes) : Shalg := shalgSet (fun _ => 0) (shr224 data)

def hexDigit (c : UInt8) : Option Nat :=
  if 48 ≤ c ∧ c ≤ 57 then some (c.toNat - 48)
  else if 97 ≤ c ∧ c ≤ 102 then some (c.toNat - 87)
  else if 65 ≤ c ∧ c ≤ 70 then some (c.toNat - 55)
  else none

/-- The hexadecimal digits that a text begins with. -/
def hexDigits (acc : Nat) : Bytes → Nat
  | [] => acc
  | c :: rest =>
    match hexDigit c with
    | some d => hexDigits (16 * acc + d) rest
    | none => acc

/-- `strtol` of at most two characters, to the base 16. -/
def strtol16 (buf : Bytes) : Int :=
  -- the characters of `isspace`
  match buf.dropWhile fun c => c = 32 || (9 ≤ c && c ≤ 13) with
  | 45 :: rest => - (hexDigits 0 rest : Int)
  | 43 :: rest => hexDigits 0 rest
  | buf => hexDigits 0 buf

/-- `_shalg_decode_hex`. -/
def shalgDecodeHex : Bytes → Bytes
  | c0 :: c1 :: rest => UInt8.ofInt (strtol16 [c0, c1]) :: shalgDecodeHex rest
  | [c0] => [UInt8.ofInt (strtol16 [c0])]
  | [] => []

/-- `shalg_gen` of a text in hexadecimal; nothing where it does not fit the key. -/
def shalgGenHex (inData : Bytes) : Option Shalg :=
  let content := shalgDecodeHex inData
  if content.length ≤ maxAlgSize + 4 then some (shalgSet (fun _ => 0) content) else none

/-- `shalg_pub`, over what the key's memory held before. -/
def shalgPub (privKey retKey : Shalg) : Shalg :=
  let privRaw :=
    if 28 < shalgSize privKey then shr224 (slice privKey 0 (shalgSize privKey))
    else slice privKey 0 28
  -- store key into the pads
  shalgSet retKey (privRaw.map (· ^^^ ipadMagic) ++ privRaw.map (· ^^^ opadMagic))

/-- `shalg_sign`. -/
def shalgSign (privKey : Shalg) (data : Bytes) (retSig : Shalg) : Shalg :=
  shalgSet retSig (shr224Hmac (slice privKey 0 (shalgSize privKey)) data)

/-- `shalg_ver`. -/
def shalgVer (pubKey sigKey : Shalg) (data : Bytes) : Except Sherr Unit :=
  if shalgSize pubKey ≠ 56 then .error .ilseq
  else if shalgSize sigKey ≠ 28 then .error .ilseq
  else
    let kIpad := slice pubKey 0 28
    let kOpad := slice pubKey 28 28
    -- first pass
    let midBuf := shr224Result (shr224Write (shr224Write shr224Init kIpad) data)
    -- second pass
    let cmpSig := shr224Result (shr224Write (shr224Write shr224Init kOpad) midBuf)
    if slice sigKey 0 28 ≠ cmpSig then .error .access else .ok ()

/-! ## Lengths -/

theorem length_shrinkLoop : ∀ (words : List UInt32) (i : Nat) (a : UInt32) (digest : List UInt32),
    (shrinkLoop words i a digest).length = digest.length := by
  intro words
  induction words with
  | nil =>
    intro i a digest
    rfl
  | cons val words ih =>
    intro i a digest
    rw [shrinkLoop, ih, List.length_modify]

/-- A digest has 28 bytes. -/
theorem length_shr224Result (ctx : Shr224) : (shr224Result ctx).length = 28 := by
  unfold shr224Result shr224Shrink
  rw [length_flatMap_leBytes32, length_shrinkLoop]
  rfl

/-! ## Content of keys -/

variable {key : Shalg} {content : Bytes}

theorem shalgSize_shalgSet (h : content.length ≤ maxAlgSize) :
    shalgSize (shalgSet key content) = content.length := by
  have hread := slice_poke (poke key 0 content) (leBytes32 (UInt32.ofNat content.length)) maxAlgSize
  have hsmall : content.length < 2 ^ 32 := by
    unfold maxAlgSize at h
    omega
  unfold shalgSize shalgSet
  rw [show (4 : Nat) = (leBytes32 (UInt32.ofNat content.length)).length from rfl, hread,
    leWord32_leBytes32]
  exact UInt32.toNat_ofNat_of_lt' hsmall

theorem slice_shalgSet (h : content.length ≤ maxAlgSize) :
    slice (shalgSet key content) 0 content.length = content := by
  unfold shalgSet
  rw [slice_poke_ne (by omega), slice_poke]

/-! ## Signing and verifying -/

/-- The two passes over data, from the two pads. -/
def twoPasses (kIpad kOpad data : Bytes) : Bytes :=
  shr224Result (shr224Write (shr224Write shr224Init kOpad)
    (shr224Result (shr224Write (shr224Write shr224Init kIpad) data)))

/-- The HMAC of a key that is not cut down. -/
theorem shr224Hmac_short {k : Bytes} (h : k.length ≤ 28) (data : Bytes) :
    shr224Hmac k data = twoPasses (hmacPad ipadMagic k) (hmacPad opadMagic k) data := by
  -- the suffix plays no part in the digest
  have hfirst : shr224Result (shr224HmacWrite (shr224HmacInit k) data) =
      shr224Result (shr224Write (shr224Write shr224Init (hmacPad ipadMagic k)) data) := by
    unfold shr224HmacWrite shr224HmacInit shr224Result
    rw [if_neg (by omega)]
    rw [((shr224Write_shows { shr224Init with suff := hmacPad opadMagic k }
      (hmacPad ipadMagic k)).write data).handed
        ((shr224Write_shows shr224Init (hmacPad ipadMagic k)).write data)]
  have hsuff : (shr224HmacWrite (shr224HmacInit k) data).suff = hmacPad opadMagic k := by
    unfold shr224HmacWrite shr224HmacInit
    rw [if_neg (by omega), shr224Write_suff, shr224Write_suff]
  unfold shr224Hmac shr224HmacResult twoPasses
  rw [hfirst, hsuff]

/-- The pads of a key of at most 28 bytes, with zeros after its end. -/
theorem hmacPad_slice (magic : UInt8) (hsize : shalgSize key ≤ 28)
    (hzero : ∀ i, shalgSize key ≤ i → i < 28 → key i = 0) :
    hmacPad magic (slice key 0 (shalgSize key)) = (slice key 0 28).map (· ^^^ magic) := by
  have hsplit := slice_append key (28 - shalgSize key) (shalgSize key) 0
  rw [Nat.add_sub_cancel' hsize, Nat.zero_add] at hsplit
  have hrest : slice key (shalgSize key) (28 - shalgSize key) =
      List.replicate (28 - shalgSize key) 0 := by
    refine List.eq_replicate_iff.mpr ⟨length_slice _ _ _, ?_⟩
    exact slice_zero fun i hi hlt => hzero i hi (by omega)
  unfold hmacPad
  rw [hsplit, hrest, List.map_append, List.map_replicate, length_slice, UInt8.zero_xor]

/-- `shalg_ver` accepts the two passes from the pads of the public key. -/
theorem shalgVer_shalgSet {kIpad kOpad : Bytes} (hi : kIpad.length = 28) (ho : kOpad.length = 28)
    (old : Shalg) {sig : Shalg} (hsig : shalgSize sig = 28) (data : Bytes) :
    shalgVer (shalgSet old (kIpad ++ kOpad)) sig data =
      if slice sig 0 28 ≠ twoPasses kIpad kOpad data then .error .access else .ok () := by
  have hlen : (kIpad ++ kOpad).length = 56 := by
    rw [List.length_append, hi, ho]
  have hmax : (kIpad ++ kOpad).length ≤ maxAlgSize := by
    rw [hlen]
    decide
  have hboth : slice (shalgSet old (kIpad ++ kOpad)) 0 (kIpad ++ kOpad).length = kIpad ++ kOpad :=
    slice_shalgSet hmax
  have hsplit := slice_append (shalgSet old (kIpad ++ kOpad)) 28 28 0
  rw [hlen] at hboth
  rw [hboth] at hsplit
  obtain ⟨hip, hop⟩ := List.append_inj hsplit (by rw [hi, length_slice])
  unfold shalgVer
  rw [if_neg (by rw [shalgSize_shalgSet hmax, hlen]; decide), if_neg (by rw [hsig]; decide), ← hip]
  rw [Nat.zero_add] at hop
  rw [← hop]
  rfl

/-- With a private key of at most 28 bytes and zeros after its end, the signature
is accepted under the public key, and another one is not. -/
theorem shalgVer_shalgSign (key : Shalg) (hsize : shalgSize key ≤ 28)
    (hzero : ∀ i, shalgSize key ≤ i → i < 28 → key i = 0) (data : Bytes) (old old' : Shalg) :
    shalgVer (shalgPub key old) (shalgSign key data old') data = .ok () ∧
      ∀ sig, shalgSize sig = 28 → slice sig 0 28 ≠ slice (shalgSign key data old') 0 28 →
        shalgVer (shalgPub key old) sig data = .error .access := by
  have hlen : (shr224Hmac (slice key 0 (shalgSize key)) data).length = 28 := length_shr224Result _
  have hmax : (shr224Hmac (slice key 0 (shalgSize key)) data).length ≤ maxAlgSize := by
    rw [hlen]
    decide
  -- the key fills the pads of both, as they are cut to the size of a signature
  have hsig : slice (shalgSign key data old') 0 28 =
      twoPasses ((slice key 0 28).map (· ^^^ ipadMagic))
        ((slice key 0 28).map (· ^^^ opadMagic)) data := by
    have hread : slice (shalgSign key data old') 0
        (shr224Hmac (slice key 0 (shalgSize key)) data).length =
        shr224Hmac (slice key 0 (shalgSize key)) data := slice_shalgSet hmax
    rw [hlen] at hread
    rw [hread, shr224Hmac_short (by rw [length_slice]; exact hsize), hmacPad_slice _ hsize hzero,
      hmacPad_slice _ hsize hzero]
  have hsigSize : shalgSize (shalgSign key data old') = 28 := (shalgSize_shalgSet hmax).trans hlen
  have hpub : shalgPub key old = shalgSet old
      ((slice key 0 28).map (· ^^^ ipadMagic) ++ (slice key 0 28).map (· ^^^ opadMagic)) := by
    unfold shalgPub
    rw [if_neg (by omega)]
  have hpad : ∀ magic : UInt8, ((slice key 0 28).map (· ^^^ magic)).length = 28 := fun magic => by
    rw [List.length_map, length_slice]
  rw [hpub]
  refine ⟨?_, ?_⟩
  · rw [shalgVer_shalgSet (hpad _) (hpad _) old hsigSize, if_neg (not_not.mpr hsig)]
  · intro sig hsize' hne
    rw [shalgVer_shalgSet (hpad _) (hpad _) old hsize', if_pos (hsig ▸ hne)]

/-- A key that `shalg_priv` makes has 28 bytes. -/
theorem shalgSize_shalgPriv (data : Bytes) : shalgSize (shalgPriv data) = 28 := by
  have hlen : (shr224 data).length = 28 := length_shr224Result _
  exact (shalgSize_shalgSet (by rw [hlen]; decide)).trans hlen

/-- A key made of one byte is long enough: what it signs is verified. -/
theorem shalgVer_shalgSign_priv :
    shalgVer (shalgPub (shalgPriv [1]) fun _ => 0) (shalgSign (shalgPriv [1]) [2] fun _ => 0) [2] =
      .ok () :=
  (shalgVer_shalgSign (shalgPriv [1]) (Nat.le_of_eq (shalgSize_shalgPriv _))
    (fun i hi hlt => absurd hlt (by rw [shalgSize_shalgPriv] at hi; omega)) [2] _ _).1

/-- The signature of a key of 29 zero bytes is not accepted. -/
theorem shalgVer_rejects_signature : ∃ key, shalgGenHex (List.replicate 58 48) = some key ∧
    shalgVer (shalgPub key fun _ => 0) (shalgSign key [] fun _ => 0) [] = .error .access :=
  ⟨_, rfl, by decide +kernel⟩

end LibShare.Mem
