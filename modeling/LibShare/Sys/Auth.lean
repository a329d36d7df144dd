import LibShare.Mem.Encrypt
import LibShare.Mem.KeyNum

/-!
# libshare — authorization methods

The seeds of accounts and the methods that authorize them (`shsys_pam_auth.c`):
passwords are signed, and a secondary method may ask for a code that depends on
the time. The digests and the signature algorithms are a parameter (`PamLib`).

`Moment` is what a function takes from the system around it at one point of its
run: whether the file layer fails there, the clock, random numbers and the
password database of the operating system.
-/

namespace LibShare.Sys

open Mem

/-! ## Records (`shsys.h`) -/

/-- `SHAUTH_PRIMARY`. -/
def shauthPrimary : UInt32 := 1

/-- `SHAUTH_SECONDARY`. -/
def shauthSecondary : UInt32 := 2

/-- `SHAUTH_SECRET`. -/
def shauthSecret : UInt32 := 4

/-- `SHAUTH_EXTERNAL`. -/
def shauthExternal : UInt32 := 8

/-- `SHAUTH_TIME`. -/
def shauthTime : UInt32 := 16

/-- `shauth_t`. -/
structure Shauth where
  alg : UInt32
  flag : UInt32
  salt : UInt64
  stamp : UInt64
  expire : UInt64
  pub : AlgBytes
  sig : AlgBytes
deriving DecidableEq

/-- A method after `memset`. -/
def Shauth.zero : Shauth :=
  { alg := 0, flag := 0, salt := 0, stamp := 0, expire := 0,
    pub := Vector.replicate 312 0, sig := Vector.replicate 312 0 }

/-- A bit of the flags is set. -/
def Shauth.has (auth : Shauth) (flag : UInt32) : Bool := auth.flag &&& flag != 0

/-- `shseed_t`. -/
structure Shseed where
  perm : UInt32
  uid : UInt64
  stamp : UInt64
  expire : UInt64
  secret : Vector UInt64 8
  auth : Vector Shauth 4
deriving DecidableEq

/-- The secret in memory. -/
def Shseed.secretBytes (seed : Shseed) : Bytes := seed.secret.toList.flatMap leBytes64

/-! ## What is taken from elsewhere -/

/-- Digests and signatures. -/
structure PamLib where
  /-- `sh_sha256` -/
  sha256 : Bytes → Bytes
  /-- `shhmac`, with the memory after the digest -/
  hmac : UInt32 → Bytes → Bytes → Bytes
  /-- `shhkdf_expand` of `SHALG_SHA512` -/
  hkdfExpand : Bytes → Bytes → Nat → Except Sherr Bytes
  algPriv : UInt32 → Bytes → Except Sherr AlgBytes
  algPub : UInt32 → AlgBytes → Except Sherr AlgBytes
  algSign : UInt32 → AlgBytes → Bytes → Except Sherr AlgBytes
  algVer : UInt32 → AlgBytes → AlgBytes → Bytes → Except Sherr Unit
  /-- `PIN_2FA_MODULO`, a power of ten in floating point -/
  pinModulo : Nat → UInt32

/-- One point of a run. -/
structure Moment where
  /-- a failure of the file layer -/
  fault : Option Sherr
  /-- `shtime` -/
  stamp : UInt64
  /-- `shtime_after(shtime(), stamp)`, which compares floating-point numbers -/
  after : UInt64 → Bool
  /-- `time` -/
  time : UInt64
  /-- `shrand`, the first call and the later ones -/
  rand : Nat → UInt64
  /-- `shpam_auth_sys_verify` -/
  sysVerify : Option Bytes → Bytes → Bool

/-! ## Identifiers and keys -/

/-- `shpam_uid`. -/
def shpamUid : Option Bytes → UInt64
  | none => 0x2288882222888822
  | some username => shcrc username

/-- `shkey_bin_r`. -/
def shkeyBin (lib : PamLib) (data : Bytes) : ShKey := Mem.shkeyBinR lib.sha256 data

/-- `shsha_2fa_bin`. -/
def shsha2faBin (lib : PamLib) (m : Moment) (alg : UInt32) (secret : Bytes)
    (freq : UInt64) : UInt32 :=
  let hash := lib.hmac alg secret (leBytes64 (htonll (m.time / freq)))
  let pos := (hash.getD 19 0 &&& 0xf).toNat
  let hash32 := htonl (leWord32 ((hash.drop pos).take 4))
  if secret.length ≤ 16 then hash32 % lib.pinModulo secret.length else hash32

/-! ## Algorithms -/

/-- `SHALG_SHCR224`. -/
def shalgShcr224 : UInt32 := 0x1104

/-- `SHALG_ECDSA384R`. -/
def shalgEcdsa384r : UInt32 := 0x8810

/-- `SHALG_SHA1`. -/
def shalgSha1 : UInt32 := 0x201

/-- `SHALG_SHA256`. -/
def shalgSha256 : UInt32 := 0x208

/-- `shalg_size`. -/
def algSize (key : AlgBytes) : Nat := (leWord32 (key.toList.drop maxAlgSize)).toNat

/-- Content at the beginning of a key, and its size. -/
def algSet (key : AlgBytes) (content : Bytes) : AlgBytes :=
  Vector.ofFn fun i =>
    if maxAlgSize ≤ i then (leBytes32 (UInt32.ofNat content.length)).getD (i - maxAlgSize) 0
    else content.getD i (key.get i)

/-! ## Passwords -/

/-- What a password is signed with. -/
def passPayload (auth : Shauth) (uid : UInt64) (passData : Bytes) : Bytes :=
  leBytes64 auth.stamp ++ leBytes64 uid ++ passData

/-- `shpam_auth_pass_set`. -/
def shpamAuthPassSet (lib : PamLib) (m : Moment) (auth : Shauth) (uid : UInt64) (privKey : AlgBytes)
    (passData : Bytes) : Except Sherr Shauth := do
  let sig ← lib.algSign auth.alg privKey (passPayload auth uid passData)
  -- retain the public key for verification
  let pub ← lib.algPub auth.alg privKey
  return { auth with
    sig := sig
    pub := pub
    stamp := if auth.stamp = 0 then m.stamp else auth.stamp
    flag := auth.flag ||| shauthPrimary ||| shauthSecret }

/-- A pass of the loop in `shpam_auth_set`. -/
def shpamAuthSetMethod (lib : PamLib) (m : Moment) (seed : Shseed) (uid : UInt64) (passData : Bytes)
    (idx : Fin 4) (alg : UInt32) : Except Sherr Shauth := do
  let old := seed.auth.get idx
  let auth := { old with
    salt := if old.salt = 0 then m.rand idx else old.salt
    stamp := if old.stamp = 0 then m.stamp else old.stamp }
  let _ ← lib.hkdfExpand seed.secretBytes (leBytes64 auth.salt) 256
  -- what has been derived from the secret is cleared before it is used
  let privKey ← lib.algPriv alg (List.replicate 256 0)
  shpamAuthPassSet lib m { auth with alg := alg } uid privKey passData

/-- `shpam_auth_set`. -/
def shpamAuthSet (lib : PamLib) (m : Moment) (seed : Shseed) (username : Option Bytes)
    (passData : Bytes) : Except Sherr Shseed := do
  let uid := shpamUid username
  let localAuth ← shpamAuthSetMethod lib m seed uid passData 0 shalgShcr224
  let remoteAuth ← shpamAuthSetMethod lib m seed uid passData 1 shalgEcdsa384r
  return { seed with uid := uid, auth := (seed.auth.set 0 localAuth).set 1 remoteAuth }

/-- `shpam_auth_remote_set`. -/
def shpamAuthRemoteSet (seed : Shseed) (remAuth : Option Shauth) : Except Sherr Shseed :=
  match remAuth with
  | none => .error .inval
  | some remAuth =>
    let auth := seed.auth.get 1
    if remAuth.stamp = 0 then .error .inval
    else if remAuth.salt = 0 then .error .inval
    else if auth.salt ≠ 0 ∧ auth.salt ≠ remAuth.salt then .error .remote
    else if auth.stamp ≠ 0 ∧ auth.stamp ≠ remAuth.stamp then .error .remote
    else if algSize auth.pub ≠ 0 ∧ (algSize auth.pub ≠ algSize remAuth.pub ∨
        auth.pub.toList.take (algSize auth.pub) ≠ remAuth.pub.toList.take (algSize auth.pub)) then
      .error .remote
    else
      let flag := (remAuth.flag ||| shauthPrimary ||| shauthExternal) &&& ~~~ shauthSecret
      .ok { seed with auth := seed.auth.set 1 { remAuth with flag := flag } }

/-- `shpam_auth_pass_verify`. -/
def shpamAuthPassVerify (lib : PamLib) (m : Moment) (auth : Shauth) (username : Option Bytes)
    (passData : Bytes) : Except Sherr Unit :=
  if auth.expire ≠ 0 ∧ m.after auth.expire then .error .keyexpired
  else if auth.has shauthTime then
    if passData.length ≠ 4 then .error .inval
    else
      -- time based payload
      let secret := auth.pub.toList.take (algSize auth.pub)
      if shsha2faBin lib m auth.alg secret 30 ≠ leWord32 passData then .error .access else .ok ()
  else lib.algVer auth.alg auth.pub auth.sig (passPayload auth (shpamUid username) passData)

/-- One of the methods with the flag accepts, or none has the flag. -/
def authorizes (lib : PamLib) (m : Moment) (flag : UInt32) (seed : Shseed) (username : Option Bytes)
    (passData : Bytes) : Bool :=
  let methods := seed.auth.toList.filter fun auth => auth.has flag
  methods.isEmpty ||
    methods.any fun auth => (shpamAuthPassVerify lib m auth username passData).toBool

/-- `shpam_auth_verify`. A seed without primary methods has a public login. -/
def shpamAuthVerify (lib : PamLib) (m : Moment) (seed : Shseed) (username : Option Bytes)
    (passData : Bytes) : Except Sherr Unit :=
  if authorizes lib m shauthPrimary seed username passData then .ok ()
  -- attempt against system (OS)
  else if m.sysVerify username passData then .ok ()
  else .error .access

/-- `shpam_auth_2fa_verify`. -/
def shpamAuth2faVerify (lib : PamLib) (m : Moment) (seed : Shseed) (username : Option Bytes)
    (code2fa : UInt32) : Except Sherr Unit :=
  if authorizes lib m shauthSecondary seed username (leBytes32 code2fa) then .ok ()
  else .error .access

/-- `shpam_auth_init`, with the method of `shpam_auth_2fa_init`. -/
def shpamAuthInit (m : Moment) (uid : UInt64) : Shseed :=
  let secret := Vector.ofFn fun i : Fin 8 => m.rand i
  let pub := (leBytes64 (secret.get 1)).take 5 ++ (leBytes64 (secret.get 3)).take 5
  { perm := 0
    uid := uid
    stamp := m.stamp
    expire := 0
    secret := secret
    auth := (Vector.replicate 4 Shauth.zero).set 2
      { Shauth.zero with
        alg := shalgSha1, flag := shauthTime, stamp := m.stamp
        pub := algSet Shauth.zero.pub pub } }

end LibShare.Sys
