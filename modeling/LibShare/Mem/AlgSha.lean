import LibShare.Mem.Alg

/-!
# libshare — SHA signatures

Keys and signatures of the SHA algorithms (`shmem_alg.c`), with the HMAC of `shmem_alg_sha.c`. As
with SHR224 the public key holds the pads of the private key. The signer hashes a private key that
is longer than a block of the hash, the public key is made from the hash as soon as it is longer
than the hash itself. Between the two lengths they have different pads.

* A hash is any function from byte strings to byte strings of its size (`ShaHash`).
* `shalgVerSha_shalgSignSha` — keys of the other lengths verify what they sign, and nothing else.
* `not_shaAgrees` — for keys between there is a hash that tells the pads apart.
* `shaAgrees_iff` — both.
-/

namespace LibShare.Mem

/-! ## Hashes -/

/-- `SHAversion`. -/
inductive ShaVersion where
  | sha1
  | sha224
  | sha256
  | sha384
  | sha512
deriving DecidableEq

/-- `shsha_size`. -/
def shshaSize : ShaVersion → Nat
  | .sha1 => 20
  | .sha224 => 28
  | .sha256 => 32
  | .sha384 => 48
  | .sha512 => 64

/-- `shsha_blocksize`. -/
def shshaBlocksize : ShaVersion → Nat
  | .sha1 | .sha224 | .sha256 => 64
  | .sha384 | .sha512 => 128

/-- A hash of an algorithm's size. -/
structure ShaHash (alg : ShaVersion) where
  digest : Bytes → Bytes
  length_digest : ∀ data, (digest data).length = shshaSize alg

/-- `shsha_write`, to a context that is what has been written. The length of the data is cut to an
`unsigned int`. -/
def shshaWrite (ctx data : Bytes) : Bytes := ctx ++ data.take (data.length % 2 ^ 32)

/-! ## HMAC -/

/-- `HMAC_IPAD_MAGIC`. -/
def hmacIpadMagic : UInt8 := 0x36

/-- `HMAC_OPAD_MAGIC`. -/
def hmacOpadMagic : UInt8 := 0x5c

/-- `sh_hmac_t`. -/
structure ShHmac where
  shaContext : Bytes
  kOpad : Bytes

variable {alg : ShaVersion}

/-- The bytes of a key, and the magic number up to the end of a block. -/
def padBlock (alg : ShaVersion) (magic : UInt8) (key : Bytes) : Bytes :=
  key.map (· ^^^ magic) ++ List.replicate (shshaBlocksize alg - key.length) magic

/-- `shhmac_init`. -/
def shhmacInit (H : ShaHash alg) (key : Bytes) : ShHmac :=
  let key := if shshaBlocksize alg < key.length then H.digest (shshaWrite [] key) else key
  { shaContext := shshaWrite [] (padBlock alg hmacIpadMagic key)
    kOpad := padBlock alg hmacOpadMagic key }

/-- `shhmac_write`. -/
def shhmacWrite (context : ShHmac) (text : Bytes) : ShHmac :=
  { context with shaContext := shshaWrite context.shaContext text }

/-- `shhmac_result`. -/
def shhmacResult (H : ShaHash alg) (context : ShHmac) : Bytes :=
  let digest := H.digest context.shaContext
  H.digest (shshaWrite (shshaWrite [] context.kOpad) digest)

/-- `shhmac`. -/
def shhmac (H : ShaHash alg) (key data : Bytes) : Bytes :=
  shhmacResult H (shhmacWrite (shhmacInit H key) data)

/-! ## Keys -/

/-- `_shalg_pub_sha`, over what the key's memory held before. -/
def shalgPubSha (H : ShaHash alg) (privKey retKey : Shalg) : Shalg :=
  let keyLen := shshaSize alg
  let privRaw :=
    -- standard is block-size and not hash-size
    if keyLen < shalgSize privKey then
      H.digest (shshaWrite [] (slice privKey 0 (shalgSize privKey)))
    else slice privKey 0 keyLen
  shalgSet retKey (privRaw.map (· ^^^ hmacIpadMagic) ++ privRaw.map (· ^^^ hmacOpadMagic))

/-- `_shalg_sign_sha`. -/
def shalgSignSha (H : ShaHash alg) (privKey : Shalg) (data : Bytes) (retSig : Shalg) : Shalg :=
  shalgSet retSig (shhmac H (slice privKey 0 (shalgSize privKey)) data)

/-- `_shalg_ver_sha`. -/
def shalgVerSha (H : ShaHash alg) (pubKey sigKey : Shalg) (data : Bytes) : Except Sherr Unit :=
  let keyLen := shshaSize alg
  if shalgSize pubKey ≠ keyLen * 2 then .error .ilseq
  else if shalgSize sigKey ≠ keyLen then .error .ilseq
  else
    let blockLen := shshaBlocksize alg
    let kIpad := slice pubKey 0 keyLen ++ List.replicate (blockLen - keyLen) hmacIpadMagic
    let kOpad := slice pubKey keyLen keyLen ++ List.replicate (blockLen - keyLen) hmacOpadMagic
    -- first pass
    let midBuf := H.digest (shshaWrite (shshaWrite [] kIpad) data)
    -- second pass
    let cmpSig := H.digest (shshaWrite (shshaWrite [] kOpad) midBuf)
    if slice sigKey 0 keyLen ≠ cmpSig then .error .access else .ok ()

/-! ## Passes -/

variable {H : ShaHash alg} {key : Shalg}

/-- The two passes over data, from the two pads. -/
def shaPasses (H : ShaHash alg) (kIpad kOpad data : Bytes) : Bytes :=
  H.digest (shshaWrite (shshaWrite [] kOpad) (H.digest (shshaWrite (shshaWrite [] kIpad) data)))

/-- The HMAC is the two passes from the pads of the key, or of its hash. -/
theorem shhmac_eq (H : ShaHash alg) (k data : Bytes) : shhmac H k data =
    let k := if shshaBlocksize alg < k.length then H.digest (shshaWrite [] k) else k
    shaPasses H (padBlock alg hmacIpadMagic k) (padBlock alg hmacOpadMagic k) data := rfl

/-- The sizes are those of a key with two pads. -/
theorem shshaSize_le (alg : ShaVersion) : 0 < shshaSize alg ∧ shshaSize alg ≤ shshaBlocksize alg ∧
    shshaSize alg * 2 ≤ maxAlgSize ∧ shshaBlocksize alg ≤ 128 := by
  cases alg <;> decide

/-- `_shalg_ver_sha` accepts the two passes from the key that the pads are made of. -/
theorem shalgVerSha_pads {raw : Bytes} (hraw : raw.length = shshaSize alg) (old : Shalg)
    {sig : Shalg}
    (hsig : shalgSize sig = shshaSize alg) (data : Bytes) :
    shalgVerSha H (shalgSet old (raw.map (· ^^^ hmacIpadMagic) ++
      raw.map (· ^^^ hmacOpadMagic))) sig data =
      if slice sig 0 (shshaSize alg) ≠ shaPasses H (padBlock alg hmacIpadMagic raw)
        (padBlock alg hmacOpadMagic raw) data
      then .error .access else .ok () := by
  obtain ⟨-, -, hmax, -⟩ := shshaSize_le alg
  have hlen : (raw.map (· ^^^ hmacIpadMagic) ++ raw.map (· ^^^ hmacOpadMagic)).length =
      shshaSize alg + shshaSize alg := by
    rw [List.length_append, List.length_map, List.length_map, hraw]
  generalize hpads : raw.map (· ^^^ hmacIpadMagic) ++ raw.map (· ^^^ hmacOpadMagic) = pads at hlen
  have hfits : pads.length ≤ maxAlgSize := by omega
  have hboth : slice (shalgSet old pads) 0 pads.length = pads := slice_shalgSet hfits
  have hsplit := slice_append (shalgSet old pads) (shshaSize alg) (shshaSize alg) 0
  rw [hlen] at hboth
  rw [hboth, ← hpads] at hsplit
  obtain ⟨hip, hop⟩ := List.append_inj hsplit (by rw [List.length_map, hraw, length_slice])
  rw [Nat.zero_add, hpads] at hop
  rw [hpads] at hip
  unfold shalgVerSha
  dsimp only
  rw [if_neg (by rw [shalgSize_shalgSet hfits, hlen]; omega), if_neg (not_not.mpr hsig), ← hip,
    ← hop, ← hraw]
  rfl

/-! ## Signing and verifying -/

/-- The bytes that the pads of the public key are made of. -/
def pubRaw (H : ShaHash alg) (key : Shalg) : Bytes :=
  if shshaSize alg < shalgSize key then H.digest (shshaWrite [] (slice key 0 (shalgSize key)))
  else slice key 0 (shshaSize alg)

theorem length_pubRaw (H : ShaHash alg) (key : Shalg) : (pubRaw H key).length = shshaSize alg := by
  unfold pubRaw
  split
  · exact H.length_digest _
  · exact length_slice _ _ _

theorem length_shhmac (H : ShaHash alg) (k data : Bytes) :
    (shhmac H k data).length = shshaSize alg :=
  H.length_digest _

/-- What is signed has the size of the hash, and the HMAC is its content. -/
theorem signSha_content (H : ShaHash alg) (key : Shalg) (data : Bytes) (old : Shalg) :
    shalgSize (shalgSignSha H key data old) = shshaSize alg ∧
      slice (shalgSignSha H key data old) 0 (shshaSize alg) =
        shhmac H (slice key 0 (shalgSize key)) data := by
  obtain ⟨-, -, hmax, -⟩ := shshaSize_le alg
  have hlen := length_shhmac H (slice key 0 (shalgSize key)) data
  have hfits : (shhmac H (slice key 0 (shalgSize key)) data).length ≤ maxAlgSize := by omega
  have hread : slice (shalgSignSha H key data old) 0
      (shhmac H (slice key 0 (shalgSize key)) data).length = _ :=
    slice_shalgSet hfits
  rw [hlen] at hread
  exact ⟨(shalgSize_shalgSet hfits).trans hlen, hread⟩

/-- A signature under a public key is compared with the passes from the pads of that key. -/
theorem shalgVerSha_pub (H : ShaHash alg) (key old : Shalg) {sig : Shalg}
    (hsig : shalgSize sig = shshaSize alg)
    (data : Bytes) : shalgVerSha H (shalgPubSha H key old) sig data =
      if slice sig 0 (shshaSize alg) ≠
        shaPasses H (padBlock alg hmacIpadMagic (pubRaw H key))
          (padBlock alg hmacOpadMagic (pubRaw H key)) data
      then .error .access else .ok () :=
  shalgVerSha_pads (length_pubRaw H key) old hsig data

/-- A key's signatures are accepted under its public key, and no others of the hash's size are,
whatever the hash is. -/
def ShaAgrees (alg : ShaVersion) (key : Shalg) : Prop :=
  ∀ (H : ShaHash alg) (data : Bytes) (old old' : Shalg),
    shalgVerSha H (shalgPubSha H key old) (shalgSignSha H key data old') data = .ok () ∧
      ∀ sig, shalgSize sig = shshaSize alg →
        slice sig 0 (shshaSize alg) ≠ slice (shalgSignSha H key data old') 0 (shshaSize alg) →
        shalgVerSha H (shalgPubSha H key old) sig data = .error .access

/-- A key that is not hashed has zeros up to the size of the hash, which do not change its pads. -/
theorem padBlock_slice (magic : UInt8) (hsize : shalgSize key ≤ shshaSize alg)
    (hzero : ∀ i, shalgSize key ≤ i → i < shshaSize alg → key i = 0) :
    padBlock alg magic (slice key 0 (shalgSize key)) =
      padBlock alg magic (slice key 0 (shshaSize alg)) := by
  obtain ⟨-, hblock, -⟩ := shshaSize_le alg
  have hsplit := slice_append key (shshaSize alg - shalgSize key) (shalgSize key) 0
  rw [Nat.add_sub_cancel' hsize, Nat.zero_add] at hsplit
  have hrest : slice key (shalgSize key) (shshaSize alg - shalgSize key) =
      List.replicate (shshaSize alg - shalgSize key) 0 := by
    refine List.eq_replicate_iff.mpr ⟨length_slice _ _ _, ?_⟩
    exact slice_zero fun i hi hlt => hzero i hi (by omega)
  have hcount : shshaBlocksize alg - shalgSize key =
      shshaSize alg - shalgSize key + (shshaBlocksize alg - shshaSize alg) := by omega
  unfold padBlock
  rw [length_slice, length_slice, hsplit, hrest, List.map_append, List.map_replicate,
    UInt8.zero_xor, hcount, ← List.replicate_append_replicate, List.append_assoc]

/-- A key of at most the size of the hash, or of more than a block, has the same pads on both
sides. -/
theorem shalgVerSha_shalgSignSha
    (hsize : shalgSize key ≤ shshaSize alg ∨ shshaBlocksize alg < shalgSize key)
    (hzero : ∀ i, shalgSize key ≤ i → i < shshaSize alg → key i = 0) : ShaAgrees alg key := by
  intro H data old old'
  obtain ⟨hlen, hread⟩ := signSha_content H key data old'
  have hsame : shhmac H (slice key 0 (shalgSize key)) data =
      shaPasses H (padBlock alg hmacIpadMagic (pubRaw H key))
        (padBlock alg hmacOpadMagic (pubRaw H key)) data := by
    obtain ⟨-, hblock, -⟩ := shshaSize_le alg
    rw [shhmac_eq, length_slice]
    dsimp only
    rcases hsize with hshort | hlong
    · rw [if_neg (by omega), pubRaw, if_neg (by omega), padBlock_slice _ hshort hzero,
        padBlock_slice _ hshort hzero]
    · rw [if_pos hlong, pubRaw, if_pos (by omega)]
  refine ⟨?_, fun sig hsig hne => ?_⟩
  · rw [shalgVerSha_pub H key old hlen, if_neg (not_not.mpr (hread.trans hsame))]
  · rw [hread, hsame] at hne
    rw [shalgVerSha_pub H key old hsig, if_pos hne]

/-! ## Keys between the two sizes -/

theorem shshaWrite_short {ctx data : Bytes} (h : data.length < 2 ^ 32) :
    shshaWrite ctx data = ctx ++ data := by
  rw [shshaWrite, Nat.mod_eq_of_lt h, List.take_of_length_le (Nat.le_refl _)]

/-- A hash whose digests are one of two, by the first byte of the data. -/
def firstByteHash (alg : ShaVersion) (c yes no : UInt8) : ShaHash alg where
  digest data := List.replicate (shshaSize alg) (if data.head? = some c then yes else no)
  length_digest _ := List.length_replicate

theorem length_padBlock {magic : UInt8} {k : Bytes} (h : k.length ≤ shshaBlocksize alg) :
    (padBlock alg magic k).length = shshaBlocksize alg := by
  rw [padBlock, List.length_append, List.length_map, List.length_replicate]
  omega

/-- The second pass of such a hash looks at the first byte of the key only. -/
theorem shaPasses_firstByte {c yes no b magic : UInt8} {rest kIpad data : Bytes}
    (h : (b :: rest).length ≤ shshaBlocksize alg) :
    shaPasses (firstByteHash alg c yes no) kIpad (padBlock alg magic (b :: rest)) data =
      List.replicate (shshaSize alg) (if b ^^^ magic = c then yes else no) := by
  obtain ⟨-, -, -, hblock⟩ := shshaSize_le alg
  have hwrite : shshaWrite [] (padBlock alg magic (b :: rest)) = (b ^^^ magic) ::
      (rest.map (· ^^^ magic) ++ List.replicate (shshaBlocksize alg - (b :: rest).length) magic) :=
    shshaWrite_short (by rw [length_padBlock h]; omega)
  rw [shaPasses, hwrite]
  show List.replicate _ (if some (b ^^^ magic) = some c then yes else no) = _
  simp only [Option.some.injEq]

theorem xor_magic_inj {a b magic : UInt8} (h : a ^^^ magic = b ^^^ magic) : a = b := by
  have hback := congrArg (· ^^^ magic) h
  simpa only [UInt8.xor_assoc, UInt8.xor_self, UInt8.xor_zero] using hback

/-- A key between the two sizes has another pad on the other side, which a hash can tell. -/
theorem not_shaAgrees (hlow : shshaSize alg < shalgSize key)
    (hhigh : shalgSize key ≤ shshaBlocksize alg) :
    ¬ ShaAgrees alg key := by
  intro hagrees
  obtain ⟨hpos, hblock, -, hsmall⟩ := shshaSize_le alg
  obtain ⟨hlen, hread⟩ :=
    signSha_content (firstByteHash alg (key 0 ^^^ hmacOpadMagic) (key 0) (key 0 + 1)) key []
    fun _ => 0
  obtain ⟨n, hn⟩ : ∃ n, shalgSize key = n + 1 := ⟨shalgSize key - 1, by omega⟩
  obtain ⟨m, hm⟩ : ∃ m, shshaSize alg = m + 1 := ⟨shshaSize alg - 1, by omega⟩
  have hkey : slice key 0 (shalgSize key) = key 0 :: slice key 1 n := by rw [hn, slice]
  -- the signer's pad begins with the byte that the hash looks for
  have hsign : shhmac (firstByteHash alg (key 0 ^^^ hmacOpadMagic) (key 0) (key 0 + 1))
      (slice key 0 (shalgSize key)) [] = List.replicate (shshaSize alg) (key 0) := by
    rw [shhmac_eq]
    dsimp only
    rw [length_slice, if_neg (Nat.not_lt.mpr hhigh), hkey,
      shaPasses_firstByte (by rw [List.length_cons, length_slice]; omega), if_pos rfl]
  -- the hash of the key does not begin with the byte of the key
  have hraw : pubRaw (firstByteHash alg (key 0 ^^^ hmacOpadMagic) (key 0) (key 0 + 1)) key =
      (key 0 + 1) :: List.replicate m (key 0 + 1) := by
    have hne : key 0 ≠ key 0 ^^^ hmacOpadMagic := by
      intro h
      have hzero : key 0 ^^^ key 0 = key 0 ^^^ (key 0 ^^^ hmacOpadMagic) := congrArg (key 0 ^^^ ·) h
      rw [← UInt8.xor_assoc, UInt8.xor_self, UInt8.zero_xor] at hzero
      exact absurd hzero (by decide)
    rw [pubRaw, if_pos hlow, shshaWrite_short (by rw [length_slice]; omega), List.nil_append, hkey]
    show List.replicate _ (if some (key 0) = some (key 0 ^^^ hmacOpadMagic) then _ else _) = _
    rw [if_neg fun h => hne (Option.some.inj h), hm, List.replicate_succ]
  have hnext : key 0 + 1 ≠ key 0 := by
    intro h
    exact absurd (UInt8.add_eq_left.mp h) (by decide)
  have hver : shaPasses (firstByteHash alg (key 0 ^^^ hmacOpadMagic) (key 0) (key 0 + 1))
      (padBlock alg hmacIpadMagic ((key 0 + 1) :: List.replicate m (key 0 + 1)))
      (padBlock alg hmacOpadMagic ((key 0 + 1) :: List.replicate m (key 0 + 1))) [] =
        List.replicate (shshaSize alg) (key 0 + 1) := by
    rw [shaPasses_firstByte (by rw [List.length_cons, List.length_replicate]; omega),
      if_neg fun h => hnext (xor_magic_inj h)]
  have hother : List.replicate (shshaSize alg) (key 0) ≠
      List.replicate (shshaSize alg) (key 0 + 1) := by
    rw [hm, List.replicate_succ, List.replicate_succ]
    exact fun h => hnext (List.cons.inj h).1.symm
  have hok :=
    (hagrees (firstByteHash alg (key 0 ^^^ hmacOpadMagic) (key 0) (key 0 + 1)) [] (fun _ =>
      0) fun _ => 0).1
  rw [shalgVerSha_pub _ key _ hlen, hread, hsign, hraw, hver, if_pos hother] at hok
  cases hok

/-- A key's signatures are accepted under its public key, and no others, if and only if the key is
at most as long as the hash, or longer than a block. -/
theorem shaAgrees_iff (alg : ShaVersion) (key : Shalg)
    (hzero : ∀ i, shalgSize key ≤ i → i < shshaSize alg → key i = 0) :
    ShaAgrees alg key ↔ shalgSize key ≤ shshaSize alg ∨ shshaBlocksize alg < shalgSize key := by
  constructor
  · intro hagrees
    by_contra hbetween
    exact not_shaAgrees (by omega) (by omega) hagrees
  · intro hsize
    exact shalgVerSha_shalgSignSha hsize hzero

/-- A key of twenty bytes agrees with SHA1. -/
theorem shaAgrees_twenty : ShaAgrees .sha1 (shalgSet (fun _ => 0) (List.replicate 20 1)) ↔
    shalgSize (shalgSet (fun _ => 0) (List.replicate 20 1)) ≤ 20 ∨
      64 < shalgSize (shalgSet (fun _ => 0) (List.replicate 20 1)) := by
  have hsize : shalgSize (shalgSet (fun _ => 0) (List.replicate 20 1)) = 20 :=
    shalgSize_shalgSet (by decide)
  refine shaAgrees_iff .sha1 _ fun i hi hlt => ?_
  rw [hsize] at hi
  exact absurd hi (Nat.not_le.mpr hlt)

/-- The signature of a key of 21 bytes is not one for SHA1. -/
theorem sha1_rejects_signature :
    ¬ ShaAgrees .sha1 (shalgSet (fun _ => 0) (List.replicate 21 1)) := by
  have hsize : shalgSize (shalgSet (fun _ => 0) (List.replicate 21 1)) = 21 :=
    shalgSize_shalgSet (by decide)
  exact not_shaAgrees (by rw [hsize]; decide) (by rw [hsize]; decide)

end LibShare.Mem
