import LibShare.Sys.EsigVerify

/-!
# libshare — certificates that are not signed

What `shesig_sign` leaves of a certificate when it fails (`shsys_esig.c`). Only a parent that
cannot sign is refused before anything is written. What the certificate takes over from its parent,
and the flag for the encipherment, are in the caller's record by the time the keys are derived and
compared.

* `failed_sign_iff` — the certificates that a failed call leaves alone.
-/

namespace LibShare.Sys

open Mem

variable {env : EsigEnv} {cert cert' mid p : Shesig} {par : Option Shesig} {keyData : Option Bytes}

/-! ## Failures -/

/-- The caller's record when the keys are derived. -/
def shesigPrepared (env : EsigEnv) (cert : Shesig) (parent : Option Shesig) : Option Shesig :=
  (parent.elim (some cert) (certInherit env cert)).map fun cert =>
    { cert with flag := cert.flag ||| certEncipher }

/-- Every parent that there is can sign. -/
def CanSign (parent : Option Shesig) : Prop := ∀ p, parent = some p → p.has certSign = true

/-- The ways for `shesig_sign` to fail before the certificate is stored. -/
inductive SignFails (env : EsigEnv) (cert : Shesig) (keyData : Option Bytes) : Option Shesig → Prop
  | unable {p : Shesig} (hsign : p.has certSign = false) : SignFails env cert keyData (some p)
  | derivation {parent : Option Shesig} {mid : Shesig} {err : Sherr} (hsign : CanSign parent)
      (hmid : shesigPrepared env cert parent = some mid)
      (hderive : shencryptDerive env mid (parentPub parent) (signKey keyData) = some (.error err)) :
      SignFails env cert keyData parent
  | otherKey {parent : Option Shesig} {mid dCert : Shesig} {payload : Bytes}
      (hsign : CanSign parent)
      (hmid : shesigPrepared env cert parent = some mid)
      (hderive : shencryptDerive env mid (parentPub parent) (signKey keyData) =
        some (.ok (dCert, payload)))
      (hkey : sameKeyAsParent dCert parent = some false) : SignFails env cert keyData parent

/-- The flags that a certificate takes over. -/
def inheritedFlag (cert parent : Shesig) : UInt32 :=
  let flag := cert.flag ||| parent.flag ||| certChain
  if parent.has certNonrepudiation ∧ shalgCmp parent.pub cert.pub = some false then
    flag &&& ~~~ certNonrepudiation
  else flag

/-- A certificate that has all that it would take over, or whose parent cannot sign. -/
def Settled (env : EsigEnv) (cert : Shesig) : Option Shesig → Prop
  | none => cert.flag ||| certEncipher = cert.flag
  | some parent => parent.has certSign = false ∨
    (parent.ser = cert.ser ∧ inheritedExpire env cert (some parent) = cert.expire ∧
      nameCopy parent.ent = cert.iss ∧ inheritedFlag cert parent ||| certEncipher = cert.flag)

/-! ## What is left -/

theorem certInherit_eq (h : certInherit env cert p = some mid) :
    mid = { cert with
      ser := p.ser
      expire := inheritedExpire env cert (some p)
      flag := inheritedFlag cert p
      iss := nameCopy p.ent } := by
  unfold certInherit at h
  dsimp only at h
  split at h
  · next hnon =>
    obtain ⟨same, hcmp, h⟩ := Option.map_eq_some_iff.mp h
    cases same with
    | true =>
      have hflag : inheritedFlag cert p = cert.flag ||| p.flag ||| certChain := by
        refine if_neg fun hand => ?_
        rw [hcmp] at hand
        cases hand.2
      rw [hflag, ← h]
      rfl
    | false =>
      have hflag : inheritedFlag cert p =
          (cert.flag ||| p.flag ||| certChain) &&& ~~~ certNonrepudiation :=
        if_pos ⟨hnon, hcmp⟩
      rw [hflag, ← h]
      rfl
  · next hnon =>
    have hflag : inheritedFlag cert p = cert.flag ||| p.flag ||| certChain :=
      if_neg fun hand => hnon hand.1
    rw [hflag, ← Option.some.inj h]
    rfl

/-- The caller's record is changed unless it has all that it takes over. -/
theorem prepared_eq_iff (hsign : CanSign par) (hmid : shesigPrepared env cert par = some mid) :
    mid = cert ↔ Settled env cert par := by
  obtain ⟨inherited, hin, hmid⟩ := Option.map_eq_some_iff.mp hmid
  cases par with
  | none =>
    cases hin
    rw [← hmid]
    exact ⟨fun h => congrArg Shesig.flag h, fun h =>
      congrArg (fun flag => { cert with flag := flag }) h⟩
  | some p =>
    have hfields := certInherit_eq hin
    subst hfields
    rw [← hmid]
    constructor
    · intro h
      have hser := congrArg Shesig.ser h
      have hexpire := congrArg Shesig.expire h
      have hiss := congrArg Shesig.iss h
      have hflag := congrArg Shesig.flag h
      exact Or.inr ⟨hser, hexpire, hiss, hflag⟩
    · rintro (hunable | ⟨hser, hexpire, hiss, hflag⟩)
      · rw [hsign p rfl] at hunable
        cases hunable
      · rw [hser, hexpire, hiss, hflag]

theorem CanSign.any_false (hsign : CanSign par) : ¬ (par.any fun p => !p.has certSign) = true := by
  cases par with
  | none => exact Bool.false_ne_true
  | some p =>
    rw [Option.any_some, hsign p rfl]
    exact Bool.false_ne_true

/-- Past the first check, the caller's record is prepared when the keys are not derived. -/
theorem shesigSign_underived {err : Sherr} (hsign : CanSign par)
    (hmid : shesigPrepared env cert par = some mid)
    (hderive : shencryptDerive env mid (parentPub par) (signKey keyData) = some (.error err)) :
    shesigSign env cert par keyData = some (.error err, mid) := by
  obtain ⟨inherited, hin, rfl⟩ := Option.map_eq_some_iff.mp hmid
  unfold shesigSign
  rw [if_neg hsign.any_false, hin]
  dsimp only [Option.bind, bind]
  rw [hderive]

/-- The same when they are not those of the parent. -/
theorem shesigSign_other_key {dCert : Shesig} {payload : Bytes} (hsign : CanSign par)
    (hmid : shesigPrepared env cert par = some mid)
    (hderive : shencryptDerive env mid (parentPub par) (signKey keyData) =
      some (.ok (dCert, payload)))
    (hkey : sameKeyAsParent dCert par = some false) :
    shesigSign env cert par keyData = some (.error .access, mid) := by
  obtain ⟨inherited, hin, rfl⟩ := Option.map_eq_some_iff.mp hmid
  unfold shesigSign
  rw [if_neg hsign.any_false, hin]
  dsimp only [Option.bind, bind]
  rw [hderive]
  dsimp only
  rw [hkey]
  dsimp only
  rw [if_neg Bool.false_ne_true]

/-- A call fails in one of these ways, or by the file that the certificate is stored in. -/
theorem shesigSign_fails {err : Sherr}
    (h : shesigSign env cert par keyData = some (.error err, cert')) :
    SignFails env cert keyData par ∨ ∃ mid payload, shesigPrepared env cert par = some mid ∧
      shencryptDerive env mid (parentPub par) (signKey keyData) = some (.ok (cert', payload)) ∧
      shesigSave env cert' payload = .error err := by
  unfold shesigSign at h
  split at h
  · next hunable =>
    cases par with
    | none => cases hunable
    | some p =>
      rw [Option.any_some, Bool.not_eq_true'] at hunable
      exact Or.inl (.unable hunable)
  · next hable =>
    have hsign : CanSign par := by
      rintro p rfl
      rwa [Option.any_some, Bool.not_eq_true, Bool.not_eq_false'] at hable
    obtain ⟨inherited, hin, h⟩ := Option.bind_eq_some_iff.mp h
    have hmid : shesigPrepared env cert par =
        some { inherited with flag := inherited.flag ||| certEncipher } := by
      rw [shesigPrepared, hin, Option.map_some]
    obtain ⟨derived, hderive, h⟩ := Option.bind_eq_some_iff.mp h
    match derived with
    | .error err => exact Or.inl (.derivation hsign hmid hderive)
    | .ok (dCert, payload) =>
      obtain ⟨same, hkey, h⟩ := Option.bind_eq_some_iff.mp h
      cases same with
      | false => exact Or.inl (.otherKey hsign hmid hderive hkey)
      | true =>
        -- the keys are filled in, and only the file is left to fail
        have hsaved := Option.some.inj h
        have hcert : dCert = cert' := congrArg Prod.snd hsaved
        have hsave : shesigSave env dCert payload = .error err := congrArg Prod.fst hsaved
        subst hcert
        exact Or.inr ⟨_, payload, hmid, hderive, hsave⟩

/-- A call that fails before the certificate is stored leaves the certificate alone in two cases:
its parent cannot sign, or there is nothing that it does not have yet of what it would take over.
-/
theorem failed_sign_iff (env : EsigEnv) (cert : Shesig) (parent : Option Shesig)
    (keyData : Option Bytes)
    (hfails : SignFails env cert keyData parent) :
    ∃ err cert', shesigSign env cert parent keyData = some (.error err, cert') ∧
      (cert' = cert ↔ Settled env cert parent) := by
  cases hfails with
  | unable hsign =>
    refine ⟨.inval, cert, if_pos ?_, iff_of_true rfl (Or.inl hsign)⟩
    rw [Option.any_some, hsign]
    rfl
  | derivation hsign hmid hderive =>
    exact ⟨_, _, shesigSign_underived hsign hmid hderive, prepared_eq_iff hsign hmid⟩
  | otherKey hsign hmid hderive hkey =>
    exact ⟨_, _, shesigSign_other_key hsign hmid hderive hkey, prepared_eq_iff hsign hmid⟩

/-! ## A parent that asks for its own key -/

/-- The authority with another key, which all that it signs has to have. -/
def guardedParent : Shesig :=
  { sampleCa with flag := sampleCa.flag ||| certNonrepudiation, pub := algSet algZero [2] }

theorem guarded_canSign : CanSign (some guardedParent) := fun p hp => by
  rw [← Option.some.inj hp]
  rfl

theorem guarded_nonrepudiation : guardedParent.has certNonrepudiation = true := rfl

theorem guarded_cmp : shalgCmp guardedParent.pub sampleCert.pub = some false ∧
    shalgCmp tagPub guardedParent.pub = some false := by
  have hpub : guardedParent.pub = algSet algZero [2] := rfl
  have htag : tagPub = algSet algZero [1] := rfl
  have hzero : sampleCert.pub = algZero := rfl
  have hlen : ∀ b : UInt8, [b].length ≤ maxAlgSize := fun b => by
    rw [List.length_singleton]
    decide
  have hsize : ∀ b : UInt8, algSize (algSet algZero [b]) = 1 := fun b => algSize_algSet (hlen b)
  have hcontent : ∀ b : UInt8, algContent (algSet algZero [b]) = some [b] := by
    intro b
    rw [algContent_of_le (by rw [hsize]; decide), keyBytes_algSet (hlen b)]
  constructor
  · -- one byte against none
    rw [hpub, hzero]
    exact if_pos fun h => absurd ((hsize 2).symm.trans (h.trans algSize_zero)) (by decide)
  · -- one byte against another
    rw [hpub, htag, shalgCmp, hsize, hsize, if_neg (not_not.mpr rfl), hcontent, hcontent]
    rfl

/-- The certificate that is to be signed does not get the key that it should have. -/
theorem guarded_other_key :
    ∃ mid, shesigPrepared .tagging sampleCert (some guardedParent) = some mid ∧
      mid.has certChain = true ∧ ∃ dCert payload,
        shencryptDerive .tagging mid (parentPub (some guardedParent)) (signKey (some [1])) =
        some (.ok (dCert, payload)) ∧ sameKeyAsParent dCert (some guardedParent) = some false := by
  obtain ⟨inherited, hin⟩ : ∃ c, certInherit .tagging sampleCert guardedParent = some c := by
    unfold certInherit
    dsimp only
    rw [if_pos guarded_nonrepudiation, guarded_cmp.1]
    exact ⟨_, rfl⟩
  obtain ⟨halg, -, -, -, hchain⟩ := certInherit_spec hin
  refine ⟨{ inherited with flag := inherited.flag ||| certEncipher }, ?_, ?_, ?_⟩
  · rw [shesigPrepared, Option.elim_some, hin, Option.map_some]
  · unfold Shesig.has at hchain ⊢
    rw [flag_or, hchain]
    rfl
  · have hdata : deriveData (parentPub (some guardedParent)) =
        some (keyBytes guardedParent.pub) := by
      have hsize : algSize guardedParent.pub = 1 := algSize_algSet (by decide)
      show deriveData guardedParent.pub = _
      rw [deriveData, if_neg (by rw [hsize]; decide), algContent_of_le (by rw [hsize]; decide)]
    have hne : htonl inherited.alg ≠ 0 := by
      rw [halg]
      decide
    obtain ⟨dCert, payload, hderive, -⟩ := @shencryptDerive_succeeds .tagging
      { inherited with flag := inherited.flag ||| certEncipher } _ _ (signKey (some [1])) hne
      (tagging_signs _ _) hdata
    obtain ⟨⟨priv, data, -, hpub, -⟩, -⟩ := shencryptDerive_spec hderive
    have hkey : tagPub = dCert.pub := Except.ok.inj hpub
    refine ⟨dCert, payload, hderive, ?_⟩
    unfold sameKeyAsParent
    dsimp only
    rw [if_pos guarded_nonrepudiation, ← hkey]
    exact guarded_cmp.2

theorem guarded_fails : SignFails .tagging sampleCert (some [1]) (some guardedParent) := by
  obtain ⟨mid, hmid, -, dCert, payload, hderive, hkey⟩ := guarded_other_key
  exact .otherKey guarded_canSign hmid hderive hkey

/-- A certificate below a parent with a signature of its own, and the attempt to sign it fails.
-/
theorem failed_sign_sample : ∃ err cert',
    shesigSign .tagging sampleCert (some guardedParent) (some [1]) = some (.error err, cert') ∧
      (cert' = sampleCert ↔ Settled .tagging sampleCert (some guardedParent)) :=
  failed_sign_iff .tagging sampleCert (some guardedParent) (some [1]) guarded_fails

/-- The certificate is refused, and has become a chain. -/
theorem failed_sign_changes : SignFails .tagging sampleCert (some [1]) (some guardedParent) ∧
    ∃ cert', shesigSign .tagging sampleCert (some guardedParent)
      (some [1]) = some (.error .access, cert') ∧ cert'.has certChain = true ∧
      sampleCert.has certChain = false ∧ cert' ≠ sampleCert := by
  obtain ⟨mid, hmid, hchain, dCert, payload, hderive, hkey⟩ := guarded_other_key
  have hbefore : sampleCert.has certChain = false := rfl
  refine ⟨guarded_fails, mid, shesigSign_other_key guarded_canSign hmid hderive hkey, hchain,
    hbefore, ?_⟩
  rintro rfl
  rw [hbefore] at hchain
  cases hchain

end LibShare.Sys
