import LibShare.Lib.Prog
import LibShare.Sys.Auth

/-!
# libshare — shadow database

Accounts, their logins and their updates (`shsys_pam_shadow.c`). The content of the
shadow file is the list of accounts. The seed of an account is kept apart from it,
as credential data of the file under a key made of the account's number
(`shfs_cred_store`, `shfs_cred_load`). A file operation that fails leaves the file as it
was.

A function meets the system around it at several points of its run, which are
the moments of a `Call`. The allocation of the session that a function returns
does not fail.
-/

namespace LibShare.Sys

open Mem

/-! ## Records (`shsys.h`) -/

/-- `SHPERM_READ`. -/
def shpermRead : UInt32 := 1

/-- `SHPERM_WRITE`. -/
def shpermWrite : UInt32 := 2

/-- `SHPERM_CREATE`. -/
def shpermCreate : UInt32 := 4

/-- `SHPERM_VERIFY`. -/
def shpermVerify : UInt32 := 8

/-- `SHPERM_DELETE`. -/
def shpermDelete : UInt32 := 16

/-- `SHPERM_ADMIN`. -/
def shpermAdmin : UInt32 :=
  shpermRead ||| shpermWrite ||| shpermCreate ||| shpermVerify ||| shpermDelete

/-- `shadow_t`. -/
structure Shadow where
  uid : UInt64
  geo : Bytes
  /-- an account name alias -/
  name : Bytes
  /-- a person name or organization -/
  realname : Bytes
  sharecoin : Bytes
deriving DecidableEq

/-- `shpriv_t`. -/
structure Shpriv where
  uid : UInt64
  sess : ShKey
deriving DecidableEq

/-- `SHUSER_REALNAME` and the other subjects of `shpam_shadow_set`. -/
inductive ShuserCmd
  | realname
  | coinaddr
  | geo
  | ctime
  | other
deriving DecidableEq

/-- The shadow file. -/
structure ShadowFile where
  /-- `file->tree` is there -/
  tree : Bool
  /-- the content, unless nothing has been written yet -/
  accs : Option (List Shadow)
  /-- the attribute `SHATTR_CRED` -/
  attrCred : Bool
  /-- the credential data -/
  creds : ShKey → Option Shseed

/-- What one call of a function meets. -/
structure Call where
  /-- `shpam_euid` -/
  euid : UInt64
  moments : Nat → Moment

/-- A function over the shadow file. -/
abbrev Pam := Prog ShadowFile Sherr

/-! ## The list of accounts -/

/-- `shfs_read` of the shadow file. -/
def shadowRead (m : Moment) : Pam (List Shadow) :=
  match m.fault with
  | some err => Prog.fail err
  | none => do
    match ← Prog.read ShadowFile.accs with
    | none => Prog.fail .noent
    | some accs => return accs

/-- `shfs_write` of the shadow file. -/
def shadowWrite (m : Moment) (accs : List Shadow) : Pam Unit :=
  match m.fault with
  | some err => Prog.fail err
  | none => Prog.modify fun file => { file with accs := some accs }

/-- The list of accounts, where a status is as good as no account. -/
def shadowList (m : Moment) : Pam (List Shadow) := do
  match ← (shadowRead m).attempt with
  | .error _ => return []
  | .ok accs => return accs

/-- `_shpam_shadow_account_load`. -/
def shpamShadowAccountLoad (m : Moment) (uid : UInt64) : Pam Shadow := do
  match (← shadowList m).find? fun acc => acc.uid = uid with
  | none => Prog.fail .noent
  | some acc => return acc

/-- The account takes the place of one with its number, or the last place. -/
def putAccount (acc : Shadow) : List Shadow → List Shadow
  | [] => [acc]
  | other :: rest => if other.uid = acc.uid then acc :: rest else other :: putAccount acc rest

/-- `_shpam_shadow_account_store`, which reads and then writes. -/
def shpamShadowAccountStore (m m' : Moment) (acc : Shadow) : Pam Unit := do
  let accs ← shadowList m
  shadowWrite m' (putAccount acc accs)

/-- `_shpam_shadow_account_remove`. -/
def shpamShadowAccountRemove (m m' : Moment) (remUid : UInt64) : Pam Unit := do
  let accs ← shadowList m
  shadowWrite m' (accs.filter fun acc => acc.uid ≠ remUid)

/-! ## Seeds -/

variable (lib : PamLib)

/-- The key of an account's credential data. -/
def credKey (uid : UInt64) : ShKey := shkeyBin lib (leBytes64 uid)

/-- The credential data of an account, as far as the file has any. -/
def ShadowFile.record (file : ShadowFile) (uid : UInt64) : Option Shseed :=
  if file.attrCred then file.creds (credKey lib uid) else none

/-- `_shpam_pshadow_load`. -/
def shpamPshadowLoad (m : Moment) (uid : UInt64) : Pam Shseed := do
  if (← Prog.read ShadowFile.attrCred) = false then Prog.fail .noent
  else
    match m.fault with
    | some err => Prog.fail err
    | none =>
      match ← Prog.read fun file => file.creds (credKey lib uid) with
      | none => Prog.fail .noent
      | some seed =>
        if seed.expire ≠ 0 ∧ m.after seed.expire then Prog.fail .keyexpired else return seed

/-- `_shpam_pshadow_store`. -/
def shpamPshadowStore (m : Moment) (uid : UInt64) (seed : Shseed) : Pam Unit :=
  match m.fault with
  | some err => Prog.fail err
  | none => Prog.modify fun file =>
      { file with
        attrCred := true
        creds := Function.update file.creds (credKey lib uid) (some seed) }

/-- `_shpam_pshadow_remove`, whose body is not compiled. -/
def shpamPshadowRemove : Pam Unit := return ()

/-! ## Sessions -/

/-- `_shpam_shadow_master_key`. -/
def shpamShadowMasterKey (seed : Shseed) : ShKey := shkeyBin lib seed.secretBytes

/-- The session key that a seed has at a moment. -/
def sessionKey (m : Moment) (seed : Shseed) : ShKey :=
  -- TIME_24_MIN
  Mem.ashkeyNum lib.sha256 (shsha2faBin lib m shalgSha256
    (shpamShadowMasterKey lib seed).toBytes 1440).toUInt64

/-- `_shpam_shadow_session`. -/
def shpamShadowSession (m : Moment) (uid : UInt64) : Pam Shpriv := do
  let seed ← shpamPshadowLoad lib m uid
  return { uid := uid, sess := sessionKey lib m seed }

/-- `shpam_shadow_priv_verify`. -/
def shpamShadowPrivVerify (m : Moment) (priv : Option Shpriv) : Pam Unit := do
  match priv with
  | none => Prog.fail .inval
  | some priv =>
    let seed ← shpamPshadowLoad lib m priv.uid
    if sessionKey lib m seed ≠ priv.sess then Prog.fail .keyrejected else return ()

/-- The user that a permission is asked for: `priv_uid` in `_shpam_shadow_perm`. -/
def permUser (euid : UInt64) (m : Moment) (priv : Option Shpriv) : Pam UInt64 :=
  match priv with
  | none => return euid
  | some priv => do
    shpamShadowPrivVerify lib m (some priv)
    return priv.uid

/-- The permissions that a seed grants, in `_shpam_shadow_perm`. -/
def permSeed (m : Moment) (uid : UInt64) (perm : UInt32) : Pam Unit := do
  match ← (shpamPshadowLoad lib m uid).attempt with
  -- no permissions granted when account does not exist
  | .error .noent => Prog.fail .access
  | .error err => Prog.fail err
  | .ok seed => if seed.perm &&& perm = 0 then Prog.fail .access else return ()

/-- `_shpam_shadow_perm`. -/
def shpamShadowPerm (euid : UInt64) (m m' : Moment) (priv : Option Shpriv) (perm : UInt32) :
    Pam Unit := do
  let privUid ← permUser lib euid m priv
  -- read and write of own account is guaranteed
  if euid = privUid ∧ perm &&& (shpermRead ||| shpermWrite) ≠ 0 then return ()
  else permSeed lib m' privUid perm

/-! ## Operations on accounts -/

/-- `shpam_shadow_uid_verify`. -/
def shpamShadowUidVerify (m m' : Moment) (uid : UInt64) : Pam Unit := do
  let _ ← shpamShadowAccountLoad m uid
  let _ ← shpamPshadowLoad lib m' uid
  return ()

/-- `_shpam_pshadow_create`. -/
def shpamPshadowCreate (m : Moment) (uid : UInt64) : Pam Unit :=
  let perm := if uid = shpamUid none then shpermAdmin else shpermRead ||| shpermVerify
  shpamPshadowStore lib m uid { shpamAuthInit m uid with perm := perm }

/-- `strncpy` into a cleared array of 136 characters. -/
def strncpyName (raw : Bytes) : Bytes := (raw.takeWhile (· ≠ 0)).take 135

/-- `_shpam_shadow_account_create`. -/
def shpamShadowAccountCreate (m m' : Moment) (accName : Option Bytes) : Pam Unit :=
  shpamShadowAccountStore m m'
    { uid := shpamUid accName, geo := List.replicate 32 0, name := strncpyName (accName.getD []),
      realname := [], sharecoin := [] }

/-- Who may create an account, in `shpam_shadow_create`. -/
def mayCreate (c : Call) (uid : UInt64) (priv : Option Shpriv) : Pam Unit :=
  if uid = shpamUid none then return ()
  else
    match priv with
    | none => if c.euid ≠ uid then Prog.fail .access else return ()
    | some priv => shpamShadowPerm lib c.euid (c.moments 0) (c.moments 1) (some priv) shpermCreate

/-- `shpam_shadow_create`, with the session it returns if it has one. -/
def shpamShadowCreate (c : Call) (accName : Option Bytes) (priv : Option Shpriv) :
    Pam (Option Shpriv) := do
  let uid := shpamUid accName
  mayCreate lib c uid priv
  match ← (shpamShadowUidVerify lib (c.moments 2) (c.moments 3) uid).attempt with
  | .ok _ => Prog.fail .notuniq
  | .error .noent =>
    shpamPshadowCreate lib (c.moments 4) uid
    shpamShadowAccountCreate (c.moments 5) (c.moments 6) accName
    -- the status of the session is not looked at
    match ← (shpamShadowSession lib (c.moments 7) uid).attempt with
    | .error _ => return none
    | .ok sess => return some sess
  | .error err => Prog.fail err

/-- A user other than the account's own needs permission to log in to it. The
session is not initialized when it could not be made. -/
def mayLogin (c : Call) (uid : UInt64) (sess : Except Sherr Shpriv) : Pam Unit :=
  if c.euid = uid then return ()
  else
    match sess with
    | .error _ => Prog.undef
    | .ok sess => shpamShadowPerm lib c.euid (c.moments 4) (c.moments 5) (some sess) shpermVerify

/-- A status that does not depend on the file. -/
def check {α : Type} : Except Sherr α → Pam α
  | .error err => Prog.fail err
  | .ok a => return a

/-- `shpam_shadow_login`, with the session it returns if it has one. -/
def shpamShadowLogin (c : Call) (accName : Option Bytes) (code2fa : UInt32) (passData : Bytes) :
    Pam (Option Shpriv) := do
  if (← Prog.read ShadowFile.tree) = false then Prog.fail .inval
  else
    let uid := shpamUid accName
    let seed ← shpamPshadowLoad lib (c.moments 0) uid
    check (shpamAuthVerify lib (c.moments 1) seed accName passData)
    check (shpamAuth2faVerify lib (c.moments 2) seed accName code2fa)
    let sess ← (shpamShadowSession lib (c.moments 3) uid).attempt
    mayLogin lib c uid sess
    return sess.toOption

/-- `shpam_shadow_pass_set`. -/
def shpamShadowPassSet (c : Call) (accName : Option Bytes) (priv : Option Shpriv)
    (passData : Bytes) :
    Pam Unit := do
  let uid := shpamUid accName
  shpamShadowPrivVerify lib (c.moments 0) priv
  let seed ← shpamPshadowLoad lib (c.moments 1) uid
  let seed ← check (shpamAuthSet lib (c.moments 2) seed accName passData)
  shpamPshadowStore lib (c.moments 3) uid seed

/-- `shpam_shadow_remove`. -/
def shpamShadowRemove (c : Call) (uid : UInt64) (priv : Option Shpriv) : Pam Unit := do
  shpamShadowPerm lib c.euid (c.moments 0) (c.moments 1) priv shpermDelete
  let _ ← shpamPshadowLoad lib (c.moments 2) uid
  shpamPshadowRemove
  shpamShadowAccountRemove (c.moments 3) (c.moments 4) uid

/-- The account with a field changed, in `shpam_shadow_set`. Text is read up to its
end, whatever the length that is given for it. -/
def setField (acc : Shadow) (cmd : ShuserCmd) (raw : Option Bytes) (rawLen : Nat) :
    Except Sherr Shadow :=
  match cmd with
  | .realname =>
    match raw with
    | some raw => .ok (if rawLen ≠ 0 then { acc with name := strncpyName raw } else acc)
    | none => .ok acc
  | .coinaddr =>
    match raw with
    | some raw => .ok (if rawLen ≠ 0 then { acc with sharecoin := strncpyName raw } else acc)
    | none => .ok acc
  | .geo =>
    -- a location is taken with the size of its record
    if rawLen ≠ 32 then .error .inval
    else
      match raw with
      | some raw => .ok { acc with geo := raw.take 32 }
      | none => .ok acc
  | .ctime => .error .opnotsupp
  | .other => .error .inval

/-- Who may change an account, in `shpam_shadow_set`. -/
def maySet (c : Call) (uid : UInt64) (priv : Option Shpriv) : Pam Unit :=
  match priv with
  | none => if c.euid ≠ uid then Prog.fail .access else return ()
  | some priv => shpamShadowPerm lib c.euid (c.moments 0) (c.moments 1) (some priv) shpermWrite

/-- `shpam_shadow_set`. -/
def shpamShadowSet (c : Call) (uid : UInt64) (priv : Option Shpriv) (cmd : ShuserCmd)
    (raw : Option Bytes) (rawLen : Nat) : Pam Unit := do
  maySet lib c uid priv
  let acc ← shpamShadowAccountLoad (c.moments 2) uid
  let acc ← check (setField acc cmd raw rawLen)
  shpamShadowAccountStore (c.moments 3) (c.moments 4) acc

/-- `strncpy` into a buffer of `len` bytes. -/
def strncpyTo (text : Bytes) (len : Nat) : Bytes :=
  (text.takeWhile (· ≠ 0)).take len ++ List.replicate (len - (text.takeWhile (· ≠ 0)).length) 0

/-- `shpam_shadow_ctime`; zero is `SHTIME_UNDEFINED`. `before` is `shtime_before`, which
compares floating-point numbers. -/
def shpamShadowCtime (before : UInt64 → UInt64 → Bool) (m : Moment) (uid : UInt64) :
    Pam UInt64 := do
  match ← (shpamPshadowLoad lib m uid).attempt with
  | .error _ => return 0
  | .ok seed =>
    return seed.auth.toList.foldl
      (fun stamp auth => if auth.stamp ≠ 0 ∧ before auth.stamp stamp then auth.stamp else stamp)
      seed.stamp

/-- The text of an account and the memory it takes, in `shpam_shadow_get`. -/
def getText (text : Bytes) (len : Nat) : Bytes × Nat :=
  (strncpyTo text len, (text.takeWhile (· ≠ 0)).length + 1)

/-- `shpam_shadow_get` with a buffer of `len` bytes: what is copied to it, and its length. -/
def shpamShadowGet (before : UInt64 → UInt64 → Bool) (m m' : Moment) (uid : UInt64)
    (cmd : ShuserCmd) (len : Nat) : Pam (Bytes × Nat) := do
  let acc ← shpamShadowAccountLoad m uid
  match cmd with
  | .realname => return getText acc.name len
  | .coinaddr => return getText acc.sharecoin len
  | .geo => if len < 32 then Prog.fail .inval else return (acc.geo, 32)
  | .ctime =>
    let stamp ← shpamShadowCtime lib before m' uid
    if stamp = 0 then Prog.fail .access else return (leBytes64 stamp, 8)
  | .other => Prog.fail .inval

/-- The JSON object of an account, less the text of its coordinates. -/
structure ShadowJson where
  id : Bytes
  uid : UInt64
  name : Option Bytes
  sharecoin : Option Bytes
deriving DecidableEq

/-- A text that is added unless it is empty. -/
def addText (text : Bytes) : Option Bytes := if text = [] then none else some text

/-- `shpam_shadow_json`; no object where it returns `NULL`. -/
def shpamShadowJson (m : Moment) (uid : UInt64) : Pam (Option ShadowJson) := do
  match ← (shpamShadowAccountLoad m uid).attempt with
  | .error _ => return none
  | .ok acc =>
    return some
      { id := acc.name, uid := acc.uid, name := addText acc.realname,
        sharecoin := addText acc.sharecoin }

/-- `shpam_shadow_remote_set`. -/
def shpamShadowRemoteSet (c : Call) (uid : UInt64) (auth : Option Shauth) : Pam Unit := do
  let seed ← shpamPshadowLoad lib (c.moments 0) uid
  let seed ← check (shpamAuthRemoteSet seed auth)
  shpamPshadowStore lib (c.moments 1) uid seed

end LibShare.Sys
