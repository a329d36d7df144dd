import Mathlib.Data.Rat.Defs
import Mathlib.Algebra.Order.Ring.Unbundled.Rat
import LibShare.Mem.Shrink
import LibShare.Sys.Auth

/-!
# libshare — certificates

How a certificate is issued under another one, and how it is verified (`shsys_esig.c`, with
`shencrypt_derive` of `shmem_crypto.c`). Two signatures are made when a certificate is issued: one
of the public key of its parent, and one of the record itself. Only the first one is verified.

A root has no parent, and 21 zero bytes are signed in place of a key. They are signed under a
parent without a key too, where the verifier looks for no bytes at all.

* The algorithms, the clock and the random numbers are those of `CryptEnv`. Times are numbers in
  floating point: what a stamp stands for is a parameter (`EsigEnv`), and so is the file that the
  certificate is stored in.
* A parent is another record than the certificate. A key whose size is larger than its array has no
  result where it is read.

* `shesigSign_issued`, `shesigSign_succeeds` — what a certificate that is issued says, and when one
  is.
* `shesigVerify_ok_iff`, `verified_eq_signed` — what the verifier looks at, and when that is what
  was signed.
-/

namespace LibShare.Sys

open Mem

/-! ## Records (`shmem.h`, `shfs.h`) -/

/-- `SHCERT_CERT_NONREPUDIATION_ENCIPHER`. -/
def certEncipher : UInt32 := 0x100

/-- `SHCERT_CERT_CHAIN`. -/
def certChain : UInt32 := 0x400

/-- `SHCERT_CERT_SIGN`. -/
def certSign : UInt32 := 0x800

/-- `SHCERT_CERT_DIGITAL`. -/
def certDigital : UInt32 := 0x2000

/-- `SHCERT_CERT_NONREPUDIATION`. -/
def certNonrepudiation : UInt32 := 0x20000

/-- `SHCERT_CERT_LICENSE`. -/
def certLicense : UInt32 := 0x40000

/-- `SHCERT_AUTH_WEB_CLIENT`. -/
def certWebClient : UInt32 := 0x100000

/-- `SHCERT_AUTH_WEB_SERVER`. -/
def certWebServer : UInt32 := 0x200000

/-- `shesig_t`. The numbers are as they are in memory. -/
structure Shesig where
  magic : UInt64
  sig : AlgBytes
  dataSig : AlgBytes
  pub : AlgBytes
  id : ShKey
  ctx : ShKey
  alg : UInt32
  pkAlg : UInt32
  flag : UInt32
  ver : UInt32
  stamp : UInt64
  expire : UInt64
  size : UInt64
  uid : UInt64
  ser : Vector UInt8 16
  ent : Vector UInt8 136
  iss : Vector UInt8 136
deriving DecidableEq

/-- A key after `memset`. -/
def algZero : AlgBytes := Vector.replicate 312 0

/-- A certificate after `memset`. -/
def Shesig.zero : Shesig :=
  { magic := 0, sig := algZero, dataSig := algZero, pub := algZero
    id := ashkeyBlank, ctx := ashkeyBlank
    alg := 0, pkAlg := 0, flag := 0, ver := 0, stamp := 0, expire := 0, size := 0, uid := 0
    ser := Vector.replicate 16 0, ent := Vector.replicate 136 0, iss := Vector.replicate 136 0 }

/-- The certificate in memory. -/
def Shesig.bytes (cert : Shesig) : Bytes :=
  leBytes64 cert.magic ++ cert.sig.toList ++ cert.dataSig.toList ++ cert.pub.toList ++
    cert.id.toBytes ++
    cert.ctx.toBytes ++ leBytes32 cert.alg ++ leBytes32 cert.pkAlg ++ leBytes32 cert.flag ++
    leBytes32 cert.ver ++ leBytes64 cert.stamp ++ leBytes64 cert.expire ++ leBytes64 cert.size ++
    leBytes64 cert.uid ++ cert.ser.toList ++ cert.ent.toList ++ cert.iss.toList

/-- A bit of the flags is set. -/
def Shesig.has (cert : Shesig) (flag : UInt32) : Bool := cert.flag &&& flag != 0

/-- `strncpy` of a name into an array of zeros. -/
def nameCopy (name : Vector UInt8 136) : Vector UInt8 136 :=
  Vector.ofFn fun i => ((name.toList.take 135).takeWhile (· ≠ 0)).getD i 0

/-- A text in an array of zeros. -/
def nameOf (text : Bytes) : Vector UInt8 136 := Vector.ofFn fun i => (text.take 135).getD i 0

/-- What certificates take from elsewhere. -/
structure EsigEnv extends CryptEnv where
  /-- `shtime_adj(shtime(), -1)` -/
  birth : UInt64
  /-- `shnum_get` -/
  numGet : UInt64 → ℚ
  /-- what becomes of the file in `shesig_save` -/
  store : Shesig → Bytes → Except Sherr Unit

/-- `shtimef`. -/
def EsigEnv.timef (env : EsigEnv) (stamp : UInt64) : ℚ := if stamp = 0 then 0 else env.numGet stamp

/-- `shtime_after`. -/
def EsigEnv.after (env : EsigEnv) (stamp cmpStamp : UInt64) : Bool :=
  decide (env.timef cmpStamp < env.timef stamp)

/-- `shtime_before`. -/
def EsigEnv.before (env : EsigEnv) (stamp cmpStamp : UInt64) : Bool :=
  decide (env.timef stamp < env.timef cmpStamp)

/-! ## Issuing -/

/-- `shesig_init`, with `_shesig_init_default`. -/
def shesigInit (env : EsigEnv) (cert : Shesig) (entity : Option Bytes)
    (alg flags : UInt32) : Shesig :=
  { cert with
    -- certificate version
    ver := htonl 3
    stamp := env.birth
    expire := env.expire
    uid := env.uid
    ser := env.ser
    ent := nameOf (entity.getD [])
    flag := flags
    alg := htonl (if alg = 0 then shalgEcdsa384r else alg) }

/-- `shesig_ca_init`. -/
def shesigCaInit (env : EsigEnv) (cert : Shesig) (entity : Option Bytes)
    (alg flags : UInt32) : Shesig :=
  shesigInit env cert entity alg
    (flags ||| certSign ||| certWebClient ||| certWebServer ||| certLicense ||| certDigital)

/-- The bytes of a key, where they are all in its array. -/
def algContent (key : AlgBytes) : Option Bytes :=
  if algSize key ≤ 312 then some (key.toList.take (algSize key)) else none

/-- `shalg_cmp`. -/
def shalgCmp (algA algB : AlgBytes) : Option Bool :=
  if algSize algA ≠ algSize algB then some false
  else do
    let a ← algContent algA
    let b ← algContent algB
    some (a == b)

/-- `_shencrypt_v1` into an empty buffer, with a header that is given: the header and the encrypted
data that follow each other in the buffer. -/
def shencryptV1Attr (env : EsigEnv) (alg : UInt32) (data keyData : Bytes) (attr : Shesig) :
    Except Sherr (Shesig × Bytes) :=
  if hdrSize < data.length ∧ data.take 8 = magic64 then .error .already
  else
    let payload :=
      encBytes (shencryptV1Key env.toCryptEnv keyData) 4 (blockCount data.length) 0 data
    let hdr := { attr with
      stamp := if attr.stamp = 0 then env.stamp else attr.stamp
      -- add encryption identifier, size and algorithm
      magic := 0x2288882222888822
      size := htonll (UInt64.ofNat data.length)
      alg := htonl alg
      ser := if attr.ser = Vector.replicate 16 0 then env.ser else attr.ser
      -- redundant sanity checks
      expire := if attr.expire = 0 then env.expire else attr.expire
      ver := if attr.ver = 0 then htonl 3 else attr.ver
      uid := if attr.uid = 0 then env.uid else attr.uid }
    do
      -- generate private key from secret data, and public key from private key
      let priv ← env.algPriv alg keyData
      let pub ← env.algPub alg priv
      let hdr := { hdr with pub := pub }
      -- generate an unique id for the certificate
      let hdr :=
        { hdr with id := ShKey.ofBytes (shesigIdGen fun i => (hdr.bytes ++ payload).getD i 0) }
      -- sign unencrypted data payload
      let dataSig ← env.algSign alg priv data
      let hdr := { hdr with dataSig := dataSig }
      -- generate signature for encryption data
      let sig ← env.algSign alg priv (hdr.bytes.drop 320 ++ payload)
      return ({ hdr with sig := sig }, payload)

/-- What `shencrypt_derive` signs: a key, or 21 zero bytes. -/
def deriveData (pub : AlgBytes) : Option Bytes :=
  if algSize pub = 0 then some (List.replicate 21 0) else algContent pub

/-- The header that `shencrypt_derive` fills. -/
def deriveHdr (cert : Shesig) (pub : AlgBytes) : Shesig :=
  { Shesig.zero with
    magic := cert.magic
    ver := cert.ver
    pkAlg := cert.pkAlg
    stamp := cert.stamp
    expire := cert.expire
    flag := if algSize pub ≠ 0 then cert.flag ||| certChain else cert.flag
    uid := cert.uid
    ent := nameCopy cert.ent
    iss := nameCopy cert.iss
    ser := cert.ser
    ctx := cert.ctx }

/-- `shencrypt_derive`, into an empty buffer. -/
def shencryptDerive (env : EsigEnv) (cert : Shesig) (pub : AlgBytes) (keyData : Bytes) :
    Option (Except Sherr (Shesig × Bytes)) :=
  let alg := htonl cert.alg
  if alg = 0 then some (.error .opnotsupp)
  else
    match env.algPriv alg keyData with
    | .error err => some (.error err)
    | .ok priv =>
      (deriveData pub).map fun data => do
        let dataSig ← env.algSign alg priv data
        shencryptV1Attr env alg data keyData { deriveHdr cert pub with dataSig := dataSig }

/-- What a certificate takes over from its parent. -/
def certInherit (env : EsigEnv) (cert parent : Shesig) : Option Shesig :=
  let cert := { cert with
    -- assign issuer's 128-bit serial number
    ser := parent.ser
    -- derived record is not valid unless originating record is
    expire := if env.after cert.expire parent.expire then parent.expire else cert.expire
    flag := cert.flag ||| parent.flag ||| certChain
    -- certificate issuer name
    iss := nameCopy parent.ent }
  if parent.has certNonrepudiation then
    -- origin hierarchy is not identical
    (shalgCmp parent.pub cert.pub).map fun same =>
      if same then cert else { cert with flag := cert.flag &&& ~~~ certNonrepudiation }
  else some cert

/-- `shesig_save`. -/
def shesigSave (env : EsigEnv) (cert : Shesig) (payload : Bytes) : Except Sherr Unit :=
  -- not signed
  if algSize cert.pub = 0 ∨ algSize cert.dataSig = 0 then .error .inval else env.store cert payload

/-- The key that `shesig_sign` uses, which is blank where none is given. -/
def signKey : Option Bytes → Bytes
  | none | some [] => List.replicate 21 0
  | some keyData => keyData

/-- The public key of the parent. -/
def parentPub : Option Shesig → AlgBytes
  | none => algZero
  | some parent => parent.pub

/-- The key of a derived record is that of a parent that asks for it. -/
def sameKeyAsParent (dCert : Shesig) : Option Shesig → Option Bool
  | none => some true
  | some parent =>
    if parent.has certNonrepudiation then shalgCmp dCert.pub parent.pub else some true

/-- `shesig_sign`: the status, and the certificate afterwards. -/
def shesigSign (env : EsigEnv) (cert : Shesig) (parent : Option Shesig) (keyData : Option Bytes) :
    Option (Except Sherr Unit × Shesig) :=
  -- parent certificate lacks ability to sign
  if parent.any fun parent => !parent.has certSign then some (.error .inval, cert)
  else do
    let cert ← parent.elim (some cert) (certInherit env cert)
    -- certificate uses redundant encipher to validate
    let cert := { cert with flag := cert.flag ||| certEncipher }
    match ← shencryptDerive env cert (parentPub parent) (signKey keyData) with
    | .error err => some (.error err, cert)
    | .ok (dCert, payload) =>
      -- same private key required for all derived records
      if ← sameKeyAsParent dCert parent then
        -- fill computed signatures, and store to disk
        some (shesigSave env dCert payload, dCert)
      else some (.error .access, cert)

/-! ## Verifying -/

/-- `shdecrypt_derive_verify`. -/
def shdecryptDeriveVerify (env : EsigEnv) (cert : Shesig) (pub : AlgBytes) : Except Sherr Unit :=
  if maxAlgSize < algSize pub then .error .inval
  else env.algVer (htonl cert.alg) cert.pub cert.dataSig (pub.toList.take (algSize pub))

/-- The key that a root is verified with. -/
def caPub : AlgBytes := algSet algZero (List.replicate 21 0)

/-- `shesig_verify` at a point of time. -/
def shesigVerify (env : EsigEnv) (now : UInt64) (cert : Shesig) (parent : Option Shesig) :
    Except Sherr Unit :=
  if ¬ env.after now cert.stamp then .error .access
  else if ¬ env.before now cert.expire then .error .keyexpired
  -- initial (CA) chain entity
  else if ¬ cert.has certChain ∧ parent.isSome then .error .inval
  else shdecryptDeriveVerify env cert (parent.elim caPub (·.pub))

/-! ## Flags and dates -/

variable {env : EsigEnv} {cert cert' parent : Shesig} {par : Option Shesig}

/-- The bytes of a number, in the opposite order twice. -/
theorem htonl_htonl (w : UInt32) : htonl (htonl w) = w := by
  apply UInt32.toNat_inj.mp
  apply Nat.eq_of_testBit_eq
  intro p
  rcases Nat.lt_or_ge p 32 with hp | hp
  · have hback : htonlBit (htonlBit p) = p := by
      unfold htonlBit
      omega
    have hbit : htonlBit p < 32 := by
      unfold htonlBit
      omega
    have htwice := (testBit_htonl hbit (htonl w)).trans (testBit_htonl hp w)
    rw [hback] at htwice
    exact htwice
  · have hlarge : ∀ v : UInt32, v.toNat.testBit p = false := fun v =>
      Nat.testBit_lt_two_pow (Nat.lt_of_lt_of_le v.toNat_lt (Nat.pow_le_pow_right (by decide) hp))
    rw [hlarge, hlarge]

theorem flag_or (f g m : UInt32) : ((f ||| g) &&& m != 0) = ((f &&& m != 0) || (g &&& m != 0)) := by
  have hdistrib : (f ||| g) &&& m = f &&& m ||| g &&& m := by
    rw [← UInt32.toBitVec_inj]
    ext i hi
    simp [Bool.and_or_distrib_right]
  rw [hdistrib]
  by_cases hf : f &&& m = 0
  · rw [hf, UInt32.zero_or]
    rfl
  · have hor : f &&& m ||| g &&& m ≠ 0 := fun h => hf (UInt32.or_eq_zero_iff.mp h).1
    rw [bne_iff_ne.mpr hf, bne_iff_ne.mpr hor, Bool.true_or]

/-- The flag of a chain stays when another one is cleared. -/
theorem chain_clear (f : UInt32) :
    (f &&& ~~~ certNonrepudiation) &&& certChain = f &&& certChain := by
  rw [UInt32.and_assoc]
  rfl

/-- When an issued certificate begins. -/
def issuedStamp (env : EsigEnv) (cert : Shesig) : UInt64 := if cert.stamp = 0 then
  env.stamp else cert.stamp

/-- When a certificate expires, as far as it and its parent say. -/
def inheritedExpire (env : EsigEnv) (cert : Shesig) : Option Shesig → UInt64
  | none => cert.expire
  | some parent => if env.after cert.expire parent.expire then parent.expire else cert.expire

/-- When an issued certificate expires. -/
def issuedExpire (env : EsigEnv) (cert : Shesig) (parent : Option Shesig) : UInt64 :=
  let expire := inheritedExpire env cert parent
  if expire = 0 then env.expire else expire

/-- What a certificate takes over from its parent. -/
theorem certInherit_spec (h : certInherit env cert parent = some cert') :
    cert'.alg = cert.alg ∧ cert'.ent = cert.ent ∧ cert'.stamp = cert.stamp ∧
      cert'.expire = inheritedExpire env cert (some parent) ∧
      cert'.has certChain = true := by
  have hchain : (cert.flag ||| parent.flag ||| certChain) &&& certChain != 0 := by
    rw [flag_or]
    exact Bool.or_true _
  unfold certInherit at h
  dsimp only at h
  split at h
  · obtain ⟨same, -, h⟩ := Option.map_eq_some_iff.mp h
    split at h
    · rw [← h]
      exact ⟨rfl, rfl, rfl, rfl, hchain⟩
    · rw [← h]
      refine ⟨rfl, rfl, rfl, rfl, ?_⟩
      rw [Shesig.has, chain_clear]
      exact hchain
  · rw [← Option.some.inj h]
    exact ⟨rfl, rfl, rfl, rfl, hchain⟩

/-! ## What is issued -/

/-- What a signature is made of. -/
theorem shencryptV1Attr_spec {alg : UInt32} {data keyData payload : Bytes} {attr hdr : Shesig}
    (h : shencryptV1Attr env alg data keyData attr = .ok (hdr, payload)) :
    (∃ priv, env.algPriv alg keyData = .ok priv ∧ env.algPub alg priv = .ok hdr.pub ∧
      env.algSign alg priv data = .ok hdr.dataSig) ∧
    hdr.alg = htonl alg ∧ hdr.flag = attr.flag ∧ hdr.ent = attr.ent ∧
      hdr.stamp = issuedStamp env attr ∧ hdr.expire = if attr.expire = 0 then
        env.expire else attr.expire := by
  unfold shencryptV1Attr at h
  split at h
  · cases h
  · dsimp only at h
    obtain ⟨priv, hpriv, h⟩ := ok_of_bind h
    obtain ⟨pub, hpub, h⟩ := ok_of_bind h
    obtain ⟨dataSig, hdataSig, h⟩ := ok_of_bind h
    obtain ⟨sig, -, h⟩ := ok_of_bind h
    cases h
    exact ⟨⟨priv, hpriv, hpub, hdataSig⟩, rfl, rfl, rfl, rfl, rfl⟩

/-- What `shesig_sign` has made. -/
structure Issued (env : EsigEnv) (cert : Shesig) (parent : Option Shesig) (keyData : Bytes)
    (cert' : Shesig) :
    Prop where
  signer : ∀ p, parent = some p → p.has certSign = true
  keys : ∃ priv data, env.algPriv (htonl cert.alg) keyData = .ok priv ∧
    env.algPub (htonl cert.alg) priv = .ok cert'.pub ∧ deriveData (parentPub parent) = some data ∧
    env.algSign (htonl cert.alg) priv data = .ok cert'.dataSig
  alg : cert'.alg = cert.alg
  ent : cert'.ent = nameCopy cert.ent
  stamp : cert'.stamp = issuedStamp env cert
  expire : cert'.expire = issuedExpire env cert parent
  chain : cert'.has certChain = (cert.has certChain || parent.isSome)

/-- What a derived certificate is signed with. -/
theorem shencryptDerive_spec {pub : AlgBytes} {keyData payload : Bytes} {dCert : Shesig}
    (h : shencryptDerive env cert pub keyData = some (.ok (dCert, payload))) :
    (∃ priv data, env.algPriv (htonl cert.alg) keyData = .ok priv ∧
      env.algPub (htonl cert.alg) priv = .ok dCert.pub ∧ deriveData pub = some data ∧
      env.algSign (htonl cert.alg) priv data = .ok dCert.dataSig) ∧
    dCert.alg = cert.alg ∧ dCert.ent = nameCopy cert.ent ∧ dCert.stamp = issuedStamp env cert ∧
      (dCert.expire = if cert.expire = 0 then env.expire else cert.expire) ∧
      dCert.flag = if algSize pub ≠ 0 then cert.flag ||| certChain else cert.flag := by
  unfold shencryptDerive at h
  dsimp only at h
  split at h
  · cases h
  · split at h
    · cases h
    · obtain ⟨data, hdata, h⟩ := Option.map_eq_some_iff.mp h
      obtain ⟨dataSig, -, h⟩ := ok_of_bind h
      obtain ⟨⟨priv, hpriv, hpub, hsig⟩, halg, hflag, hent, hstamp, hexpire⟩ :=
        shencryptV1Attr_spec h
      exact ⟨⟨priv, data, hpriv, hpub, hdata, hsig⟩, halg.trans (htonl_htonl _), hent, hstamp,
        hexpire, hflag⟩

theorem algSize_zero : algSize algZero = 0 := rfl

/-- What a certificate has taken over, with a parent or without. -/
theorem inherited_spec (h : par.elim (some cert) (certInherit env cert) = some cert') :
    cert'.alg = cert.alg ∧ cert'.ent = cert.ent ∧ cert'.stamp = cert.stamp ∧
      cert'.expire = inheritedExpire env cert par ∧
      cert'.has certChain = (cert.has certChain || par.isSome) := by
  cases par with
  | none =>
    cases h
    exact ⟨rfl, rfl, rfl, rfl, (Bool.or_false _).symm⟩
  | some parent =>
    obtain ⟨halg, hent, hstamp, hexpire, hchain⟩ := certInherit_spec h
    exact ⟨halg, hent, hstamp, hexpire, hchain.trans (Bool.or_true _).symm⟩

/-- The header of a derived record is flagged as a chain where there is a key to sign, which is
where the certificate is already. -/
theorem deriveFlag_chain {f : UInt32}
    (h : algSize (parentPub par) ≠ 0 → (f &&& certChain != 0) = true) :
    ((if algSize (parentPub par) ≠ 0 then f ||| certChain else f) &&& certChain != 0) =
    (f &&& certChain != 0) := by
  split
  · next hsize =>
    rw [flag_or, h hsize]
    exact Bool.true_or _
  · rfl

/-- A certificate that is issued has the algorithm, the dates and the chain that are expected, and
the signature of its parent's key. -/
theorem shesigSign_issued {keyData : Option Bytes}
    (h : shesigSign env cert par keyData = some (.ok (), cert')) :
    Issued env cert par (signKey keyData) cert' := by
  unfold shesigSign at h
  split at h
  · cases h
  · next hsigner =>
    obtain ⟨mid, hmid, h⟩ := Option.bind_eq_some_iff.mp h
    obtain ⟨res, hderive, h⟩ := Option.bind_eq_some_iff.mp h
    rcases res with err | ⟨dCert, payload⟩
    · cases h
    · obtain ⟨same, -, h⟩ := Option.bind_eq_some_iff.mp h
      split at h
      · -- the record that is stored is the one returned
        have hcert : dCert = cert' := congrArg Prod.snd (Option.some.inj h)
        subst hcert
        obtain ⟨hkeys, halg, hent, hstamp, hexpire, hflag⟩ := shencryptDerive_spec hderive
        obtain ⟨hmidAlg, hmidEnt, hmidStamp, hmidExpire, hmidChain⟩ := inherited_spec hmid
        dsimp only at hkeys halg hent hstamp hexpire hflag
        have hmarked : ((mid.flag ||| certEncipher) &&& certChain != 0) = mid.has certChain := by
          rw [flag_or]
          exact Bool.or_false _
        refine ⟨?_, ?_, halg.trans hmidAlg, hent.trans (congrArg nameCopy hmidEnt), ?_, ?_, ?_⟩
        · rintro p rfl
          simpa using hsigner
        · rw [hmidAlg] at hkeys
          exact hkeys
        · unfold issuedStamp at hstamp ⊢
          rw [hstamp, hmidStamp]
        · unfold issuedExpire
          rw [hexpire, hmidExpire]
        · unfold Shesig.has
          rw [hflag, deriveFlag_chain, hmarked, hmidChain]
          · rfl
          · intro hsize
            rw [hmarked, hmidChain]
            cases par with
            | none => exact absurd algSize_zero hsize
            | some parent => exact Bool.or_true _
      · cases h

/-! ## What is verified -/

/-- The bytes of a key that are verified. -/
def keyBytes (key : AlgBytes) : Bytes := key.toList.take (algSize key)

/-- Two keys of one content. -/
def SameKey (a b : AlgBytes) : Prop := algSize a = algSize b ∧ keyBytes a = keyBytes b

/-- A root, or a certificate whose parent has a key that fits its array. -/
def Verifiable : Option Shesig → Prop
  | none => True
  | some parent => 1 ≤ algSize parent.pub ∧ algSize parent.pub ≤ maxAlgSize

/-- What is verified under a parent. -/
def verifiedPub (parent : Option Shesig) : AlgBytes := parent.elim caPub (·.pub)

/-- The content of a key that is not too long. -/
theorem algContent_of_le {key : AlgBytes} (h : algSize key ≤ 312) :
    algContent key = some (keyBytes key) := by
  rw [algContent, if_pos h, keyBytes]

/-- A key is signed as its content, and 21 zero bytes are signed in the place of none. -/
theorem deriveData_cases {pub : AlgBytes} {data : Bytes} (h : deriveData pub = some data) :
    algSize pub = 0 ∧ keyBytes pub = [] ∧ data = List.replicate 21 0 ∨
      algSize pub ≠ 0 ∧ algSize pub ≤ 312 ∧ data = keyBytes pub ∧ data.length = algSize pub := by
  unfold deriveData at h
  split at h
  · next hzero =>
    refine .inl ⟨hzero, ?_, (Option.some.inj h).symm⟩
    rw [keyBytes, hzero, List.take_zero]
  · next hne =>
    by_cases hle : algSize pub ≤ 312
    · rw [algContent_of_le hle] at h
      obtain rfl := Option.some.inj h
      refine .inr ⟨hne, hle, rfl, ?_⟩
      rw [keyBytes, List.length_take, Vector.length_toList]
      omega
    · rw [algContent, if_neg hle] at h
      cases h

/-- A certificate is verified just when its times, its chain and its signature are right. -/
theorem shesigVerify_ok_iff {now : UInt64} : shesigVerify env now cert par = .ok () ↔
    env.after now cert.stamp ∧ env.before now cert.expire ∧ (par.isSome → cert.has certChain) ∧
      shdecryptDeriveVerify env cert (verifiedPub par) = .ok () := by
  unfold shesigVerify
  split
  · next hstamp => exact iff_of_false (by simp) fun h => hstamp h.1
  · next hstamp =>
    split
    · next hexpire => exact iff_of_false (by simp) fun h => hexpire h.2.1
    · next hexpire =>
      split
      · next hchain => exact iff_of_false (by simp) fun h => hchain.1 (h.2.2.1 hchain.2)
      · next hchain =>
        rw [not_not] at hstamp hexpire
        have hkeep : par.isSome → cert.has certChain := fun hsome => by
          by_contra hno
          exact hchain ⟨hno, hsome⟩
        exact ⟨fun h => ⟨hstamp, hexpire, hkeep, h⟩, fun h => h.2.2.2⟩

/-- A signature is verified just when the key is not too long and the algorithm says so. -/
theorem shdecryptDeriveVerify_ok_iff {pub : AlgBytes} :
    shdecryptDeriveVerify env cert pub = .ok () ↔
    algSize pub ≤ maxAlgSize ∧ env.algVer (htonl cert.alg) cert.pub cert.dataSig (keyBytes pub) =
      .ok () := by
  unfold shdecryptDeriveVerify
  split
  · next hsize => exact iff_of_false (by simp) fun h => absurd h.1 (by omega)
  · next hsize => exact ⟨fun h => ⟨by omega, h⟩, fun h => h.2⟩

/-- The bytes of a key that has been set, one by one. -/
theorem getElem_algSet (key : AlgBytes) (content : Bytes) {i : Nat} (hi : i < 312) :
    (algSet key content)[i] = if maxAlgSize ≤ i then
      (leBytes32 (UInt32.ofNat content.length)).getD (i - maxAlgSize) 0
      else content.getD i (key.get ⟨i, hi⟩) := by
  unfold algSet
  rw [Vector.getElem_ofFn]

/-- A key that has been set has the length of its content. -/
theorem algSize_algSet {key : AlgBytes} {content : Bytes} (h : content.length ≤ maxAlgSize) :
    algSize (algSet key content) = content.length := by
  have hword : (algSet key content).toList.drop maxAlgSize =
      leBytes32 (UInt32.ofNat content.length) := by
    apply List.ext_getElem
    · rw [List.length_drop, Vector.length_toList]
      rfl
    · intro i h1 h2
      rw [List.getElem_drop, Vector.getElem_toList, getElem_algSet, if_pos (Nat.le_add_right _ _),
        Nat.add_sub_cancel_left, List.getD_eq_getElem?_getD, List.getElem?_eq_getElem h2,
          Option.getD_some]
  unfold maxAlgSize at h
  rw [algSize, hword, leWord32_leBytes32, UInt32.toNat_ofNat']
  omega

/-- A key that has been set has its content. -/
theorem keyBytes_algSet {key : AlgBytes} {content : Bytes} (h : content.length ≤ maxAlgSize) :
    keyBytes (algSet key content) = content := by
  rw [keyBytes, algSize_algSet h]
  unfold maxAlgSize at h
  apply List.ext_getElem
  · rw [List.length_take, Vector.length_toList]
    omega
  · intro i h1 h2
    rw [List.getElem_take, Vector.getElem_toList, getElem_algSet,
      if_neg (by unfold maxAlgSize; omega), List.getD_eq_getElem?_getD, List.getElem?_eq_getElem h2,
        Option.getD_some]

/-- The key that a root is verified with is what has been signed. -/
theorem keyBytes_caPub : algSize caPub = 21 ∧ keyBytes caPub = List.replicate 21 0 := by
  have hlen : (List.replicate 21 (0 : UInt8)).length ≤ maxAlgSize := by decide
  exact ⟨(algSize_algSet hlen).trans List.length_replicate, keyBytes_algSet hlen⟩

/-- What is verified is what was signed, or nothing where 21 zero bytes were. -/
theorem signed_or_empty {data : Bytes} (h : deriveData (parentPub par) = some data) :
    keyBytes (verifiedPub par) = data ∨ keyBytes (verifiedPub par) = [] ∧ data ≠ [] := by
  cases par with
  | none => exact Or.inl (keyBytes_caPub.2.trans (Option.some.inj h))
  | some parent =>
    have hpub : deriveData parent.pub = some data := h
    obtain ⟨-, hnil, rfl⟩ | ⟨-, -, hsame, -⟩ := deriveData_cases hpub
    · exact Or.inr ⟨hnil, by decide⟩
    · exact Or.inl hsame.symm

/-- What is signed is what is verified, under a parent that has a key. -/
theorem verified_eq_signed {data : Bytes} (h : deriveData (parentPub par) = some data) :
    algSize (verifiedPub par) ≤ maxAlgSize ∧ keyBytes (verifiedPub par) = data ↔
      Verifiable par := by
  cases par with
  | none =>
    have hblank : deriveData (parentPub none) = some (List.replicate 21 0) := rfl
    rw [hblank] at h
    refine iff_of_true ⟨?_, keyBytes_caPub.2.trans (Option.some.inj h)⟩ trivial
    exact keyBytes_caPub.1.trans_le (by decide)
  | some parent =>
    have hpub : deriveData parent.pub = some data := h
    show algSize parent.pub ≤ maxAlgSize ∧ keyBytes parent.pub = data ↔ _
    obtain ⟨hzero, hnil, rfl⟩ | ⟨hne, -, hsame, -⟩ := deriveData_cases hpub
    · -- 21 zero bytes are signed, and none are verified
      refine iff_of_false ?_ fun h => absurd h.1 (by omega)
      rintro ⟨-, hsame⟩
      rw [hnil] at hsame
      cases hsame
    · exact ⟨fun h => ⟨by omega, h.1⟩, fun h => ⟨h.2, hsame.symm⟩⟩

/-- What is signed is not too long. -/
theorem deriveData_length {pub : AlgBytes} {data : Bytes} (h : deriveData pub = some data)
    (hsize : algSize pub ≤ maxAlgSize) : data.length ≤ maxAlgSize := by
  obtain ⟨-, -, rfl⟩ | ⟨-, -, -, hlen⟩ := deriveData_cases h
  · decide
  · exact hlen.trans_le hsize

/-- What is signed for a parent is not too long. -/
theorem signed_length {data : Bytes} (h : deriveData (parentPub par) = some data)
    (hsize : algSize (verifiedPub par) ≤ maxAlgSize) : data.length ≤ maxAlgSize := by
  cases par with
  | none => exact deriveData_length h (algSize_zero.trans_le (Nat.zero_le _))
  | some parent => exact deriveData_length h hsize

/-! ## Keys that sign -/

/-- A key that signs every text, with a signature that is not empty unless the text is. -/
structure Signs (env : EsigEnv) (alg : UInt32) (keyData : Bytes) : Prop where
  keys : ∃ priv pub, env.algPriv alg keyData = .ok priv ∧ env.algPub alg priv = .ok pub ∧
    algSize pub ≠ 0 ∧ ∀ msg, ∃ sig, env.algSign alg priv msg = .ok sig ∧
      (msg ≠ [] → algSize sig ≠ 0)

/-- With an algorithm that signs, a signature is made. -/
theorem shencryptV1Attr_succeeds {alg : UInt32} {data keyData : Bytes}
    (hsigns : Signs env alg keyData)
    (hlen : data.length ≤ hdrSize) (hne : data ≠ []) (attr : Shesig) :
    ∃ hdr payload, shencryptV1Attr env alg data keyData attr = .ok (hdr, payload) ∧
      algSize hdr.pub ≠ 0 ∧ algSize hdr.dataSig ≠ 0 := by
  obtain ⟨priv, pub, hpriv, hpub, hpubSize, hsign⟩ := hsigns.keys
  obtain ⟨dataSig, hdataSig, hsigSize⟩ := hsign data
  unfold shencryptV1Attr
  rw [if_neg (fun h => absurd h.1 (by omega)), hpriv]
  dsimp only [Except.bind, bind]
  rw [hpub]
  dsimp only
  rw [hdataSig]
  dsimp only
  generalize hbytes : List.drop 320 _ ++ _ = bytes
  obtain ⟨sig, hsig, -⟩ := hsign bytes
  rw [hsig]
  exact ⟨_, _, rfl, hpubSize, hsigSize hne⟩

/-- What is signed fits, and is not empty. -/
theorem deriveData_fits {pub : AlgBytes} {data : Bytes} (h : deriveData pub = some data) :
    data.length ≤ hdrSize ∧ data ≠ [] := by
  obtain ⟨-, -, rfl⟩ | ⟨hne, hle, -, hlen⟩ := deriveData_cases h
  · decide
  · refine ⟨?_, ?_⟩
    · unfold hdrSize
      omega
    · rintro rfl
      exact hne hlen.symm

/-- With an algorithm that signs, a derived certificate is signed. -/
theorem shencryptDerive_succeeds {pub : AlgBytes} {data keyData : Bytes} (halg : htonl cert.alg ≠ 0)
    (hsigns : Signs env (htonl cert.alg) keyData) (hdata : deriveData pub = some data) :
    ∃ dCert payload, shencryptDerive env cert pub keyData = some (.ok (dCert, payload)) ∧
      algSize dCert.pub ≠ 0 ∧ algSize dCert.dataSig ≠ 0 := by
  obtain ⟨hlen, hne⟩ := deriveData_fits hdata
  obtain ⟨priv, -, hpriv, -, -, hsign⟩ := hsigns.keys
  obtain ⟨dataSig, hdataSig, -⟩ := hsign data
  obtain ⟨hdr, payload, hattr, hsizes⟩ :=
    shencryptV1Attr_succeeds hsigns hlen hne { deriveHdr cert pub with dataSig := dataSig }
  refine ⟨hdr, payload, ?_, hsizes⟩
  unfold shencryptDerive
  dsimp only
  rw [if_neg halg, hpriv, hdata]
  dsimp only [Option.map]
  rw [hdataSig]
  exact congrArg some hattr

/-- A certificate is issued where its key signs, under a parent that does not ask for its own key.
-/
theorem shesigSign_succeeds {keyData : Option Bytes} {data : Bytes} (halg : htonl cert.alg ≠ 0)
    (hpar : ∀ p, par = some p → p.has certSign = true ∧ p.has certNonrepudiation = false)
    (hsigns : Signs env (htonl cert.alg) (signKey keyData))
    (hdata : deriveData (parentPub par) = some data)
    (hstore : ∀ c payload, env.store c payload = .ok ()) :
    ∃ cert', shesigSign env cert par keyData = some (.ok (), cert') := by
  have hsame : ∀ dCert, sameKeyAsParent dCert par = some true := by
    intro dCert
    cases par with
    | none => rfl
    | some parent =>
      unfold sameKeyAsParent
      dsimp only
      rw [(hpar parent rfl).2]
      rfl
  obtain ⟨mid, hmid⟩ : ∃ mid, par.elim (some cert) (certInherit env cert) = some mid := by
    cases par with
    | none => exact ⟨cert, rfl⟩
    | some parent =>
      show ∃ mid, certInherit env cert parent = some mid
      unfold certInherit
      dsimp only
      rw [(hpar parent rfl).2]
      exact ⟨_, rfl⟩
  have hmidAlg := (inherited_spec hmid).1
  rw [← hmidAlg] at halg hsigns
  obtain ⟨dCert, payload, hderive, hpub, hsig⟩ := @shencryptDerive_succeeds env
    { mid with flag := mid.flag ||| certEncipher } _ _ _ halg hsigns hdata
  refine ⟨dCert, ?_⟩
  unfold shesigSign
  rw [if_neg, hmid]
  · dsimp only [Option.bind, bind]
    rw [hderive]
    dsimp only
    rw [hsame]
    dsimp only
    rw [if_pos rfl]
    unfold shesigSave
    rw [if_neg (fun h => h.elim hpub hsig), hstore]
  · intro hno
    cases par with
    | none => cases hno
    | some parent =>
      have hyes := (hpar parent rfl).1
      rw [Option.any_some, hyes] at hno
      cases hno

end LibShare.Sys
