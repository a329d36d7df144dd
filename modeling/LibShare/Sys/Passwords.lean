import LibShare.Sys.Accounts

/-!
# libshare — passwords of a seed

What `shpam_auth_set` stores in a seed, and what `shpam_auth_verify` makes of it.

* `password_accepted`: a password that has been set is accepted, also when the seed has been
  stored and other accounts have been worked on before it is loaded again. One of the two
  methods that have the password must not be marked as a time based code
  (`timed_seed_refuses`), and in the seeds that the library makes the local one never is
  (`Made.local_untimed`).
* `keys_are_constant`: the bytes from which the keys are made are all zero, for every
  secret and salt, so that all accounts have the same keys.
-/

namespace LibShare.Sys

open Mem

variable {lib : PamLib} {m : Moment} {seed seed' : Shseed} {username : Option Bytes}
  {passData : Bytes}

/-! ## What is set -/

/-- The buffer `raw` of `shpam_auth_set` at the call of `shalg_priv`. -/
def keyMaterial (lib : PamLib) (seed : Shseed) (salt : UInt64) : Except Sherr Bytes := do
  let _ ← lib.hkdfExpand seed.secretBytes (leBytes64 salt) 256
  -- `memset(raw, 0, sizeof(raw))`
  return List.replicate 256 0

/-- The method before its keys are made. -/
def Shauth.prepared (old : Shauth) (m : Moment) (idx : Fin 4) (alg : UInt32) : Shauth :=
  { old with
    alg := alg
    salt := if old.salt = 0 then m.rand idx else old.salt
    stamp := if old.stamp = 0 then m.stamp else old.stamp }

/-- A pass of the loop: the private key is made of the key material. -/
theorem shpamAuthSetMethod_eq (lib : PamLib) (m : Moment) (seed : Shseed) (uid : UInt64)
    (passData : Bytes) (idx : Fin 4) (alg : UInt32) :
    shpamAuthSetMethod lib m seed uid passData idx alg =
      ((keyMaterial lib seed ((seed.auth.get idx).prepared m idx alg).salt) >>= lib.algPriv alg >>=
        fun privKey =>
          shpamAuthPassSet lib m ((seed.auth.get idx).prepared m idx alg) uid privKey
            passData) := by
  rw [shpamAuthSetMethod, keyMaterial, Shauth.prepared]
  dsimp only
  cases lib.hkdfExpand seed.secretBytes _ 256 <;> rfl

/-- The method that a pass of the loop makes. -/
structure MethodSet (lib : PamLib) (old : Shauth) (alg : UInt32) (uid : UInt64) (passData : Bytes)
    (privKey : AlgBytes) (auth : Shauth) : Prop where
  key : lib.algPriv alg (List.replicate 256 0) = .ok privKey
  sig : lib.algSign alg privKey (passPayload auth uid passData) = .ok auth.sig
  pub : lib.algPub alg privKey = .ok auth.pub
  alg : auth.alg = alg
  flag : auth.flag = old.flag ||| shauthPrimary ||| shauthSecret
  expire : auth.expire = old.expire

theorem keyMaterial_ok {salt : UInt64} {raw : Bytes} (h : keyMaterial lib seed salt = .ok raw) :
    raw = List.replicate 256 0 := by
  obtain ⟨_, -, hraw⟩ := ok_of_bind h
  exact (Except.ok.inj hraw).symm

theorem method_set {uid : UInt64} {idx : Fin 4} {alg : UInt32} {auth : Shauth}
    (h : shpamAuthSetMethod lib m seed uid passData idx alg = .ok auth) :
    ∃ privKey, MethodSet lib (seed.auth.get idx) alg uid passData privKey auth := by
  rw [shpamAuthSetMethod_eq] at h
  obtain ⟨privKey, hpriv, hpass⟩ := ok_of_bind h
  obtain ⟨raw, hraw, hpriv⟩ := ok_of_bind hpriv
  rw [keyMaterial_ok hraw] at hpriv
  obtain ⟨sig, hsig, hrest⟩ := ok_of_bind hpass
  obtain ⟨pub, hpub, hauth⟩ := ok_of_bind hrest
  cases hauth
  -- the stamp is there before the payload is signed
  have hstamp : (if ((seed.auth.get idx).prepared m idx alg).stamp = 0 then m.stamp
      else ((seed.auth.get idx).prepared m idx alg).stamp) =
        ((seed.auth.get idx).prepared m idx alg).stamp := by
    rw [Shauth.prepared]
    dsimp only
    split_ifs <;> rfl
  refine ⟨privKey, hpriv, ?_, hpub, rfl, rfl, rfl⟩
  rw [← hsig, passPayload, passPayload]
  dsimp only
  rw [hstamp]
  rfl

theorem get_set_set (methods : Vector Shauth 4) (localAuth remoteAuth : Shauth) (h₀ : 0 < 4)
    (h₁ : 1 < 4) :
    ((methods.set 0 localAuth h₀).set 1 remoteAuth h₁).get 0 = localAuth ∧
      ((methods.set 0 localAuth h₀).set 1 remoteAuth h₁).get 1 = remoteAuth := by
  have hget : ∀ (w : Vector Shauth 4) (i : Fin 4), w.get i = w[i.val] := fun _ _ => rfl
  rw [hget, hget]
  constructor
  · rw [Vector.getElem_set_ne _ _ (by decide)]
    exact Vector.getElem_set_self _
  · exact Vector.getElem_set_self _

/-- The two methods of the seed that `shpam_auth_set` makes. -/
theorem auth_set (h : shpamAuthSet lib m seed username passData = .ok seed') :
    ∃ localKey remoteKey,
      MethodSet lib (seed.auth.get 0) shalgShcr224 (shpamUid username) passData localKey
        (seed'.auth.get 0) ∧
      MethodSet lib (seed.auth.get 1) shalgEcdsa384r (shpamUid username) passData remoteKey
        (seed'.auth.get 1) ∧ seed'.expire = seed.expire := by
  obtain ⟨localAuth, hlocal, hrest⟩ := ok_of_bind h
  obtain ⟨remoteAuth, hremote, hseed⟩ := ok_of_bind hrest
  obtain ⟨localKey, hlocal⟩ := method_set hlocal
  obtain ⟨remoteKey, hremote⟩ := method_set hremote
  cases hseed
  obtain ⟨hget₀, hget₁⟩ := get_set_set seed.auth localAuth remoteAuth (by decide) (by decide)
  exact ⟨localKey, remoteKey, hget₀.symm ▸ hlocal, hget₁.symm ▸ hremote, rfl⟩

/-! ## Flags -/

theorem or_and_flag (a b flag : UInt32) : (a ||| b) &&& flag = (a &&& flag) ||| (b &&& flag) := by
  apply UInt32.toBitVec_inj.mp
  rw [UInt32.toBitVec_and, UInt32.toBitVec_or, UInt32.toBitVec_or, UInt32.toBitVec_and,
    UInt32.toBitVec_and, BitVec.and_or_distrib_right]

theorem set_flag_primary (flag : UInt32) :
    (flag ||| shauthPrimary ||| shauthSecret) &&& shauthPrimary ≠ 0 := by
  rw [or_and_flag, or_and_flag, show shauthSecret &&& shauthPrimary = 0 by decide, UInt32.or_zero,
    UInt32.and_self]
  intro h
  exact absurd (UInt32.or_eq_zero_iff.mp h).2 (by decide)

theorem set_flag_time (flag : UInt32) :
    (flag ||| shauthPrimary ||| shauthSecret) &&& shauthTime = flag &&& shauthTime := by
  rw [or_and_flag, or_and_flag, show shauthSecret &&& shauthTime = 0 by decide,
    show shauthPrimary &&& shauthTime = 0 by decide, UInt32.or_zero, UInt32.or_zero]

/-! ## What is accepted -/

/-- Signatures of the two algorithms verify with the public key. -/
def SignsAgree (lib : PamLib) : Prop :=
  ∀ alg ∈ [shalgShcr224, shalgEcdsa384r], ∀ raw privKey pub sig data,
    lib.algPriv alg raw = .ok privKey →
    lib.algPub alg privKey = .ok pub → lib.algSign alg privKey data = .ok sig →
    lib.algVer alg pub sig data = .ok ()

/-- Neither the seed nor a method of it has expired. -/
structure Unexpired (m : Moment) (seed : Shseed) : Prop where
  whole : ¬ (seed.expire ≠ 0 ∧ m.after seed.expire)
  auth : ∀ i : Fin 4, ¬ ((seed.auth.get i).expire ≠ 0 ∧ m.after (seed.auth.get i).expire)

/-- A method that was set accepts its password, unless it is a time based code. -/
theorem MethodSet.accepts (hagree : SignsAgree lib) {old auth : Shauth} {alg : UInt32}
    {privKey : AlgBytes} (halg : alg ∈ [shalgShcr224, shalgEcdsa384r])
    (h : MethodSet lib old alg (shpamUid username) passData privKey auth)
    (htime : old.has shauthTime = false) (hlive : ¬ (old.expire ≠ 0 ∧ m.after old.expire)) :
    shpamAuthPassVerify lib m auth username passData = .ok () := by
  have hsame : auth.has shauthTime = false := by
    rw [Shauth.has, h.flag, set_flag_time]
    exact htime
  rw [shpamAuthPassVerify, h.expire, if_neg hlive, hsame, if_neg (by decide), h.alg]
  exact hagree alg halg _ privKey auth.pub auth.sig _ h.key h.pub h.sig

theorem verify_of_method {auth : Shauth} (hmem : auth ∈ seed.auth.toList)
    (hprimary : auth.has shauthPrimary = true)
    (hverify : shpamAuthPassVerify lib m auth username passData = .ok ()) :
    shpamAuthVerify lib m seed username passData = .ok () := by
  have hauth : authorizes lib m shauthPrimary seed username passData = true := by
    rw [authorizes, Bool.or_eq_true]
    refine .inr (List.any_eq_true.mpr ⟨auth, List.mem_filter.mpr ⟨hmem, hprimary⟩, ?_⟩)
    rw [hverify]
    rfl
  rw [shpamAuthVerify, if_pos hauth]

theorem get_mem (methods : Vector Shauth 4) (i : Fin 4) : methods.get i ∈ methods.toList :=
  Vector.mem_toList_iff.mpr (Vector.getElem_mem i.isLt)

/-- The seed with the new password accepts it. -/
theorem set_verifies (hagree : SignsAgree lib)
    (hset : shpamAuthSet lib m seed username passData = .ok seed')
    (htime : (seed.auth.get 0).has shauthTime = false ∨ (seed.auth.get 1).has shauthTime = false)
    {m' : Moment} (hlive : Unexpired m' seed) :
    shpamAuthVerify lib m' seed' username passData = .ok () := by
  obtain ⟨localKey, remoteKey, hlocal, hremote, -⟩ := auth_set hset
  have hprimary : ∀ {old auth : Shauth} {alg : UInt32} {privKey : AlgBytes},
      MethodSet lib old alg (shpamUid username) passData privKey auth →
      auth.has shauthPrimary = true := by
    intro old auth alg privKey h
    rw [Shauth.has, h.flag, bne_iff_ne]
    exact set_flag_primary old.flag
  obtain htime | htime := htime
  · exact verify_of_method (get_mem seed'.auth 0) (hprimary hlocal)
      (hlocal.accepts hagree (by decide) htime (hlive.auth 0))
  · exact verify_of_method (get_mem seed'.auth 1) (hprimary hremote)
      (hremote.accepts hagree (by decide) htime (hlive.auth 1))

theorem store_record {m : Moment} {uid : UInt64} {file file' : ShadowFile}
    (h : shpamPshadowStore lib m uid seed file = some (.ok (), file')) :
    file'.record lib uid = some seed := by
  unfold shpamPshadowStore at h
  rcases hfault : m.fault with _ | err
  · rw [hfault] at h
    cases h
    exact Function.update_self (credKey lib uid) (some seed) file.creds
  · rw [hfault] at h
    cases h

/-- **Passwords.** A password that has been set is accepted as long as the seed has not expired.
So it is by the seed that is loaded after it has been stored, and after any operations on
other accounts. -/
theorem password_accepted (lib : PamLib) (hagree : SignsAgree lib) (m : Moment)
    (seed seed' : Shseed) (username : Option Bytes) (passData : Bytes)
    (htime : (seed.auth.get 0).has shauthTime = false ∨ (seed.auth.get 1).has shauthTime = false)
    (hset : shpamAuthSet lib m seed username passData = .ok seed') :
    (∀ m', Unexpired m' seed → shpamAuthVerify lib m' seed' username passData = .ok ()) ∧
    ∀ (file file₁ file₂ : ShadowFile) (uid : UInt64) (m₁ m₂ m' : Moment) (evs : List AccountEvent),
      shpamPshadowStore lib m₁ uid seed' file = some (.ok (), file₁) →
      (∀ ev ∈ evs, ev.Quiet lib uid) → Runs lib file₁ evs file₂ →
      m₂.fault = none → Unexpired m₂ seed → Unexpired m' seed →
      ∃ seed₂, shpamPshadowLoad lib m₂ uid file₂ = some (.ok seed₂, file₂) ∧
        shpamAuthVerify lib m' seed₂ username passData = .ok () := by
  refine ⟨fun m' hlive => set_verifies hagree hset htime hlive, ?_⟩
  intro file file₁ file₂ uid m₁ m₂ m' evs hstore hquiet hruns hfault hlive₂ hlive
  have hrec : file₂.record lib uid = some seed' :=
    (hruns.same hquiet).record seed' (store_record hstore)
  obtain ⟨_, _, -, -, hexpire⟩ := auth_set hset
  have huse : Usable m₂ seed' := ⟨hfault, by rw [hexpire]; exact hlive₂.whole⟩
  exact ⟨seed', load_ok_iff.mpr ⟨rfl, hrec, huse⟩, set_verifies hagree hset htime hlive⟩

/-- A signature holds what was signed, and a key what it was made of. -/
def PamLib.signing : PamLib :=
  { PamLib.plain with
    hkdfExpand := fun secret salt len => .ok ((secret ++ salt ++ List.replicate len 0).take len)
    algPriv := fun _ raw => .ok (Vector.ofFn fun i => raw.getD i 0)
    algPub := fun _ privKey => .ok privKey
    algSign := fun _ _ data => .ok (Vector.ofFn fun i => data.getD i 0)
    algVer := fun _ _ sig data =>
      if sig = Vector.ofFn fun i => data.getD i 0 then .ok () else .error .access }

theorem signing_agrees : SignsAgree .signing := by
  intro alg _ raw privKey pub sig data _ _ hsig
  have hsame : (Vector.ofFn fun i => data.getD i 0) = sig := Except.ok.inj hsig
  exact if_pos hsame.symm

theorem unexpired_calm (seed : Shseed) : Unexpired .calm seed where
  whole h := Bool.noConfusion h.2
  auth _ h := Bool.noConfusion h.2

/-- The user "test" sets a password, and it is accepted. -/
theorem password_accepted_test :
    ∃ seed', shpamAuthSet .signing .calm testSeed testName [1, 2] = .ok seed' ∧
      shpamAuthVerify .signing .calm seed' testName [1, 2] = .ok () := by
  have hset : (shpamAuthSet .signing .calm testSeed testName [1, 2]).toOption.isSome := by
    decide +kernel
  obtain ⟨seed', hseed⟩ := Option.isSome_iff_exists.mp hset
  have hok := ok_of_toOption hseed
  exact ⟨seed', hok, (password_accepted .signing signing_agrees .calm testSeed seed' testName [1, 2]
    (.inl (by decide +kernel)) hok).1 .calm (unexpired_calm testSeed)⟩

/-- A seed whose methods are all marked as time based codes. -/
def timedSeed : Shseed :=
  { testSeed with auth := Vector.replicate 4 { Shauth.zero with flag := shauthTime } }

/-- It refuses the password that has been set. -/
theorem timed_seed_refuses :
    ¬ ∀ (lib : PamLib), SignsAgree lib → ∀ (m m' : Moment) (seed seed' : Shseed)
    (username : Option Bytes) (passData : Bytes), Unexpired m' seed →
    shpamAuthSet lib m seed username passData = .ok seed' →
    shpamAuthVerify lib m' seed' username passData = .ok () := by
  intro hall
  have hset : ((shpamAuthSet .signing .calm timedSeed testName [1, 2]).toOption.map fun seed' =>
      (shpamAuthVerify .signing .calm seed' testName [1, 2]).toOption) =
        some none := by decide +kernel
  obtain ⟨seed', hseed, hverify⟩ := Option.map_eq_some_iff.mp hset
  rw [hall .signing signing_agrees .calm .calm timedSeed seed' testName [1, 2]
    (unexpired_calm timedSeed)
    (ok_of_toOption hseed)] at hverify
  cases hverify

/-! ## Seeds that the library makes -/

/-- The seeds that come of the functions for seeds. -/
inductive Made (lib : PamLib) : Shseed → Prop
  | init (m : Moment) (uid : UInt64) (perm : UInt32) :
      Made lib { shpamAuthInit m uid with perm := perm }
  | set {seed seed' : Shseed} (m : Moment) (username : Option Bytes)
      (passData : Bytes) : Made lib seed →
      shpamAuthSet lib m seed username passData = .ok seed' → Made lib seed'
  | remoteSet {seed seed' : Shseed} (auth : Option Shauth) : Made lib seed →
      shpamAuthRemoteSet seed auth = .ok seed' → Made lib seed'

theorem remoteSet_local {auth : Option Shauth} (h : shpamAuthRemoteSet seed auth = .ok seed') :
    seed'.auth.get 0 = seed.auth.get 0 := by
  rcases auth with _ | remAuth
  · cases h
  · unfold shpamAuthRemoteSet at h
    dsimp only at h
    split_ifs at h
    cases h
    exact Vector.getElem_set_ne (by decide) (by decide) (by decide)

/-- The local method of such a seed takes a password. -/
theorem Made.local_untimed (h : Made lib seed) : (seed.auth.get 0).has shauthTime = false := by
  induction h with
  | init m uid perm =>
    have hzero : (shpamAuthInit m uid).auth.get 0 = Shauth.zero := by
      rw [shpamAuthInit]
      exact (Vector.getElem_set_ne (by decide) (by decide) (by decide)).trans
        (Vector.getElem_replicate (by decide))
    show ((shpamAuthInit m uid).auth.get 0).has shauthTime = false
    rw [hzero]
    decide
  | set m username passData _ hset ih =>
    obtain ⟨_, _, hlocal, -, -⟩ := auth_set hset
    rw [Shauth.has, hlocal.flag, set_flag_time]
    exact ih
  | remoteSet auth _ hset ih => rw [remoteSet_local hset, ih]

/-! ## Keys -/

/-- **Keys.** Whatever is derived from the secrets and salts of two seeds, the bytes that their
keys are made of are the same, and so are the public keys that are stored. -/
theorem keys_are_constant (lib : PamLib) (seed₁ seed₂ : Shseed) (salt₁ salt₂ : UInt64)
    (derived₁ derived₂ : Bytes)
    (h₁ : lib.hkdfExpand seed₁.secretBytes (leBytes64 salt₁) 256 = .ok derived₁)
    (h₂ : lib.hkdfExpand seed₂.secretBytes (leBytes64 salt₂) 256 = .ok derived₂) :
    ((derived₁ ≠ derived₂ → keyMaterial lib seed₁ salt₁ ≠ keyMaterial lib seed₂ salt₂) ↔
      derived₁ = derived₂) ∧
    ∀ (m₁ m₂ : Moment) (user₁ user₂ : Option Bytes) (pass₁ pass₂ : Bytes) (seed₁' seed₂' : Shseed),
      shpamAuthSet lib m₁ seed₁ user₁ pass₁ = .ok seed₁' →
      shpamAuthSet lib m₂ seed₂ user₂ pass₂ = .ok seed₂' →
      (seed₁'.auth.get 0).pub = (seed₂'.auth.get 0).pub ∧
        (seed₁'.auth.get 1).pub = (seed₂'.auth.get 1).pub := by
  -- the derived key is not looked at
  have hsame : keyMaterial lib seed₁ salt₁ = keyMaterial lib seed₂ salt₂ := by
    rw [keyMaterial, keyMaterial, h₁, h₂]
    rfl
  refine ⟨⟨fun h => ?_, fun heq hne => absurd heq hne⟩, ?_⟩
  · by_contra hne
    exact h hne hsame
  · intro m₁ m₂ user₁ user₂ pass₁ pass₂ seed₁' seed₂' hset₁ hset₂
    obtain ⟨local₁, remote₁, hlocal₁, hremote₁, -⟩ := auth_set hset₁
    obtain ⟨local₂, remote₂, hlocal₂, hremote₂, -⟩ := auth_set hset₂
    cases hlocal₁.key.symm.trans hlocal₂.key
    cases hremote₁.key.symm.trans hremote₂.key
    exact ⟨Except.ok.inj (hlocal₁.pub.symm.trans hlocal₂.pub),
      Except.ok.inj (hremote₁.pub.symm.trans hremote₂.pub)⟩

/-- The seeds of two accounts derive different bytes, and make the same keys. -/
theorem keys_are_constant_two :
    ((PamLib.signing.hkdfExpand adminSeed.secretBytes (leBytes64 1) 256).toOption ≠
      (PamLib.signing.hkdfExpand testSeed.secretBytes (leBytes64 1) 256).toOption) ∧
    ∀ (m₁ m₂ : Moment) (user₁ user₂ : Option Bytes) (pass₁ pass₂ : Bytes) (seed₁' seed₂' : Shseed),
      shpamAuthSet .signing m₁ adminSeed user₁ pass₁ = .ok seed₁' →
      shpamAuthSet .signing m₂ testSeed user₂ pass₂ = .ok seed₂' →
      (seed₁'.auth.get 0).pub = (seed₂'.auth.get 0).pub ∧
        (seed₁'.auth.get 1).pub = (seed₂'.auth.get 1).pub :=
  ⟨by decide +kernel, (keys_are_constant .signing adminSeed testSeed 1 1 _ _ rfl rfl).2⟩

/-- What is derived differs, and the key material does not. -/
theorem derived_is_lost : ¬ ∀ (lib : PamLib) (seed₁ seed₂ : Shseed) (salt₁ salt₂ : UInt64),
    lib.hkdfExpand seed₁.secretBytes (leBytes64 salt₁) 256 ≠
      lib.hkdfExpand seed₂.secretBytes (leBytes64 salt₂) 256 →
    keyMaterial lib seed₁ salt₁ ≠ keyMaterial lib seed₂ salt₂ := by
  intro hall
  exact hall .signing adminSeed testSeed 1 1 (by decide +kernel) (by decide +kernel)

end LibShare.Sys
