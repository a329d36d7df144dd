import LibShare.Base

/-!
# libshare — TEA encoding

The encoding layer of `shmem_crypto.c`: the TEA block cipher, its application
to the whole blocks of a segment, and the framing that `shencode` puts around
an encrypted segment (a magic word and the length of the plain data).

Segments of fewer than eight bytes are passed through. `shencode` takes a
segment that begins with the magic word for one that is encrypted already: it
reports success and leaves its output arguments alone.

* `teaDecrypt_teaEncrypt` — decryption undoes encryption, for every key.
* `shencode_eq_none` — when `shencode` leaves its output arguments alone.
-/

namespace LibShare.Mem

/-! ## The block cipher -/

/-- The loop variables of `TEA_encrypt` and `TEA_decrypt`. -/
structure TeaState where
  v0 : UInt32
  v1 : UInt32
  sum : UInt32

/-- The key schedule constant. -/
def teaDelta : UInt32 := 0x9e3779b9

/-- `((v<<4) + ka) ^ (v + sum) ^ ((v>>5) + kb)`. -/
def teaMix (v sum ka kb : UInt32) : UInt32 :=
  ((v <<< 4) + ka) ^^^ (v + sum) ^^^ ((v >>> 5) + kb)

/-- One cycle of `TEA_encrypt`. -/
def teaEncryptCycle (k : Vector UInt32 7) (s : TeaState) : TeaState :=
  let sum := s.sum + teaDelta
  let v0 := s.v0 + teaMix s.v1 sum k[0] k[1]
  let v1 := s.v1 + teaMix v0 sum k[2] k[3]
  { v0 := v0, v1 := v1, sum := sum }

/-- One cycle of `TEA_decrypt`. -/
def teaDecryptCycle (k : Vector UInt32 7) (s : TeaState) : TeaState :=
  let v1 := s.v1 - teaMix s.v0 s.sum k[2] k[3]
  let v0 := s.v0 - teaMix v1 s.sum k[0] k[1]
  { v0 := v0, v1 := v1, sum := s.sum - teaDelta }

/-- `TEA_encrypt`. -/
def teaEncrypt (k : Vector UInt32 7) (v : UInt32 × UInt32) : UInt32 × UInt32 :=
  let s := (teaEncryptCycle k)^[32] { v0 := v.1, v1 := v.2, sum := 0 }
  (s.v0, s.v1)

/-- `TEA_decrypt`. -/
def teaDecrypt (k : Vector UInt32 7) (v : UInt32 × UInt32) : UInt32 × UInt32 :=
  let s := (teaDecryptCycle k)^[32] { v0 := v.1, v1 := v.2, sum := 0xC6EF3720 }
  (s.v0, s.v1)

theorem teaDecryptCycle_teaEncryptCycle (k : Vector UInt32 7) (s : TeaState) :
    teaDecryptCycle k (teaEncryptCycle k s) = s := by
  simp only [teaDecryptCycle, teaEncryptCycle, UInt32.add_sub_cancel]

-- The running sum depends on the number of cycles only.
theorem teaEncryptCycle_sum (k : Vector UInt32 7) (s : TeaState) (n : Nat) :
    ((teaEncryptCycle k)^[n] s).sum = (· + teaDelta)^[n] s.sum := by
  induction n generalizing s with
  | zero => rfl
  | succ n ih =>
    rw [Function.iterate_succ_apply, Function.iterate_succ_apply, ih]
    rfl

theorem teaDecrypt_teaEncrypt (k : Vector UInt32 7) (v : UInt32 × UInt32) :
    teaDecrypt k (teaEncrypt k v) = v := by
  unfold teaDecrypt teaEncrypt
  set s : TeaState := { v0 := v.1, v1 := v.2, sum := 0 } with hs
  set t := (teaEncryptCycle k)^[32] s with ht
  -- decryption starts from the sum at which encryption ended
  have hsum : t.sum = 0xC6EF3720 := by
    rw [ht, teaEncryptCycle_sum]
    show (· + teaDelta)^[32] (0 : UInt32) = 0xC6EF3720
    decide
  have hstart : ({ v0 := t.v0, v1 := t.v1, sum := 0xC6EF3720 } : TeaState) = t := by
    rw [← hsum]
  have hback : (teaDecryptCycle k)^[32] t = s :=
    (Function.LeftInverse.iterate (teaDecryptCycle_teaEncryptCycle k) 32) s
  simp only [hstart, hback, hs]

/-! ## Whole blocks of a segment -/

/-- `TEA_encrypt_data` and `TEA_decrypt_data`: apply a block function to every
eight bytes of the segment and leave the rest of it. -/
def teaData (f : UInt32 × UInt32 → UInt32 × UInt32) : Bytes → Bytes
  | b0 :: b1 :: b2 :: b3 :: b4 :: b5 :: b6 :: b7 :: rest =>
    let v := f (leWord32 [b0, b1, b2, b3], leWord32 [b4, b5, b6, b7])
    leBytes32 v.1 ++ leBytes32 v.2 ++ teaData f rest
  | tail => tail

/-- `TEA_encrypt_data`. -/
def teaEncryptData (key : ShKey) : Bytes → Bytes := teaData (teaEncrypt key.code)

/-- `TEA_decrypt_data`. -/
def teaDecryptData (key : ShKey) : Bytes → Bytes := teaData (teaDecrypt key.code)

theorem teaData_length (f : UInt32 × UInt32 → UInt32 × UInt32) (data : Bytes) :
    (teaData f data).length = data.length := by
  fun_induction teaData f data with
  | case1 b0 b1 b2 b3 b4 b5 b6 b7 rest v ih =>
    simp [leBytes32, ih]
  | case2 => rfl

-- Reading back the two words that were just written.
theorem teaData_words (g : UInt32 × UInt32 → UInt32 × UInt32) (w : UInt32 × UInt32) (l : Bytes) :
    teaData g (leBytes32 w.1 ++ leBytes32 w.2 ++ l) =
      leBytes32 (g w).1 ++ leBytes32 (g w).2 ++ teaData g l := by
  have h1 := leWord32_leBytes32 w.1
  have h2 := leWord32_leBytes32 w.2
  unfold leBytes32 at h1 h2
  simp only [leBytes32, List.cons_append, List.nil_append, teaData, h1, h2]

theorem teaData_inverse {f g : UInt32 × UInt32 → UInt32 × UInt32} (h : ∀ v, g (f v) = v)
    (data : Bytes) : teaData g (teaData f data) = data := by
  fun_induction teaData f data with
  | case1 b0 b1 b2 b3 b4 b5 b6 b7 rest v ih =>
    rw [teaData_words, ih, h, leBytes32_leWord32, leBytes32_leWord32]
    rfl
  | case2 tail htail =>
    -- fewer than eight bytes: neither direction touches them
    unfold teaData
    split
    · exact absurd rfl (htail _ _ _ _ _ _ _ _ _)
    · rfl

theorem teaDecryptData_teaEncryptData (key : ShKey) (data : Bytes) :
    teaDecryptData key (teaEncryptData key data) = data :=
  teaData_inverse (teaDecrypt_teaEncrypt key.code) data

/-! ## Encoded segments -/

/-- `SHMEM32_MAGIC`, the `_crypt_magic` word. -/
def cryptMagic : UInt32 := 0x22888822

/-- `IS_CRYPT_MAGIC`, of a segment of at least four bytes. -/
def isCryptMagic (data : Bytes) : Bool := data.take 4 == leBytes32 cryptMagic

/-- `shencode`. Without a value the call has returned success with its output
arguments as they were. -/
def shencode (data : Bytes) (key : ShKey) : Option Bytes :=
  if data.length < 8 then some data
  else if isCryptMagic data then none
  else some (leBytes32 cryptMagic ++ leBytes32 (UInt32.ofNat data.length) ++
    teaEncryptData key data)

theorem length_shencode {data enc : Bytes} {key : ShKey} (h : shencode data key = some enc) :
    enc.length ≤ data.length + 8 ∧ (data ≠ [] → enc ≠ []) := by
  unfold shencode at h
  split at h
  · cases h
    exact ⟨Nat.le_add_right _ _, id⟩
  · split at h
    · cases h
    · cases h
      simp [leBytes32, teaEncryptData, teaData_length]

/-- `shencode` leaves its output alone on segments that begin with the magic
word, and on these only. -/
theorem shencode_eq_none {data : Bytes} (key : ShKey) :
    shencode data key = none ↔ 8 ≤ data.length ∧ isCryptMagic data = true := by
  unfold shencode
  split
  · simp
    omega
  · split
    · simp_all
    · simp_all

end LibShare.Mem
