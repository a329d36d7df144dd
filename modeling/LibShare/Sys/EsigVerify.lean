import LibShare.Sys.Esig

/-!
# libshare — what certificates say

Which changes to a certificate `shesig_verify` finds, and which certificates that `shesig_sign` has
issued it accepts (`shsys_esig.c`).

The signature that is verified is the one of the parent's public key. It says nothing about the
names, the serial number or the dates of a certificate, and the verifier looks at nothing of the
parent but the key.

* What an algorithm is relied on for is assumed of its keys: that signatures cannot be forged
  (`Unforgeable`), or that they are accepted (`AgreesFor`), and not for an empty text
  (`RejectsEmpty`).

* `altered_certificate_iff` — the changes to an issued certificate that are found.
* `well_issued_iff` — the certificates that are verified for all of their time, and expire with
  their parents.
-/

namespace LibShare.Sys

open Mem

variable {env : EsigEnv} {cert cert' parent : Shesig} {par : Option Shesig}

/-! ## Signatures -/

/-- Signatures of an algorithm cannot be forged: the one of a text that a key can hold is accepted
for that text only, and under the public key of its signer only. -/
def Unforgeable (env : EsigEnv) (alg : UInt32) : Prop :=
  ∀ {seed priv pub msg sig}, env.algPriv alg seed = .ok priv → env.algPub alg priv = .ok pub →
    env.algSign alg priv msg = .ok sig → msg.length ≤ maxAlgSize →
    ∀ pub' msg', env.algVer alg pub' sig msg' = .ok () ↔ SameKey pub' pub ∧ msg' = msg

/-- Signatures that are made with the keys of an algorithm are accepted. -/
def AgreesFor (env : EsigEnv) (alg : UInt32) : Prop :=
  ∀ {seed priv pub msg sig}, env.algPriv alg seed = .ok priv → env.algPub alg priv = .ok pub →
    env.algSign alg priv msg = .ok sig → env.algVer alg pub sig msg = .ok ()

/-- The signature of a text is not accepted where there is none. -/
def RejectsEmpty (env : EsigEnv) (alg : UInt32) : Prop :=
  ∀ {seed priv pub msg sig}, env.algPriv alg seed = .ok priv → env.algPub alg priv = .ok pub →
    env.algSign alg priv msg = .ok sig → msg ≠ [] → env.algVer alg pub sig [] ≠ .ok ()

/-! ## An algorithm for fixed inputs -/

/-- What a text is signed with, under the one key of the algorithm below. -/
def tagOf (msg : Bytes) : AlgBytes :=
  if msg.length ≤ maxAlgSize then algSet algZero msg else Vector.replicate 312 1

/-- The key of the algorithm below. -/
def tagPub : AlgBytes := algSet algZero [1]

instance (a b : AlgBytes) : Decidable (SameKey a b) := inferInstanceAs (Decidable (_ ∧ _))

/-- An algorithm that signs a text with itself, for runs on fixed inputs, between the seconds 100
and 200. -/
def EsigEnv.tagging : EsigEnv :=
  { sha512 := fun _ => List.replicate 64 0
    algPriv := fun _ _ => .ok algZero
    algPub := fun _ _ => .ok tagPub
    algSign := fun _ _ msg => .ok (tagOf msg)
    algVer := fun _ pub sig msg => if SameKey pub tagPub ∧ sig = tagOf msg then
      .ok () else .error .access
    stamp := htonll 100
    expire := htonll 200
    uid := 3
    ser := Vector.replicate 16 1
    birth := htonll 99
    numGet := fun v => (htonll v).toNat
    store := fun _ _ => .ok () }

theorem tagOf_size {msg : Bytes} (h : msg ≠ []) : algSize (tagOf msg) ≠ 0 := by
  unfold tagOf
  split
  · next hle =>
    rw [algSize_algSet hle]
    exact fun h0 => h (List.length_eq_zero_iff.mp h0)
  · decide

theorem tagOf_inj {msg msg' : Bytes} (hle : msg.length ≤ maxAlgSize) :
    tagOf msg = tagOf msg' ↔ msg' = msg := by
  refine ⟨?_, fun h => h ▸ rfl⟩
  intro htag
  rw [tagOf, if_pos hle] at htag
  unfold tagOf at htag
  split at htag
  · next hle' =>
    have hbytes := congrArg keyBytes htag
    rw [keyBytes_algSet hle, keyBytes_algSet hle'] at hbytes
    exact hbytes.symm
  · -- the tag of long texts has a size that no key has
    have hsize := congrArg algSize htag
    rw [algSize_algSet hle] at hsize
    have hlarge : algSize (Vector.replicate 312 1) = 0x01010101 := by decide
    unfold maxAlgSize at hle
    omega

theorem algSize_tagPub : algSize tagPub ≠ 0 := by
  rw [tagPub, algSize_algSet (by decide)]
  decide

theorem tagging_signs (alg : UInt32) (keyData : Bytes) : Signs .tagging alg keyData :=
  ⟨⟨algZero, tagPub, rfl, rfl, algSize_tagPub, fun msg => ⟨tagOf msg, rfl, tagOf_size⟩⟩⟩

theorem tagging_ver {alg : UInt32} {pub sig : AlgBytes} {msg : Bytes} :
    EsigEnv.tagging.algVer alg pub sig msg = .ok () ↔ SameKey pub tagPub ∧ sig = tagOf msg := by
  show (if SameKey pub tagPub ∧
      sig = tagOf msg then (.ok () : Except Sherr Unit) else .error .access) = .ok () ↔ _
  split
  · next h => exact iff_of_true rfl h
  · next h => exact iff_of_false (by simp) h

theorem tagging_unforgeable (alg : UInt32) : Unforgeable .tagging alg := by
  intro seed priv pub msg sig _ hpub hsig hle pub' msg'
  obtain rfl : tagPub = pub := Except.ok.inj hpub
  obtain rfl : tagOf msg = sig := Except.ok.inj hsig
  rw [tagging_ver, tagOf_inj hle]

theorem tagging_agrees (alg : UInt32) : AgreesFor .tagging alg := by
  intro seed priv pub msg sig _ hpub hsig
  obtain rfl : tagPub = pub := Except.ok.inj hpub
  obtain rfl : tagOf msg = sig := Except.ok.inj hsig
  exact tagging_ver.mpr ⟨⟨rfl, rfl⟩, rfl⟩

theorem tagging_rejectsEmpty (alg : UInt32) : RejectsEmpty .tagging alg := by
  intro seed priv pub msg sig _ hpub hsig hne hver
  obtain rfl : tagPub = pub := Except.ok.inj hpub
  obtain rfl : tagOf msg = sig := Except.ok.inj hsig
  have htag := (tagging_ver.mp hver).2
  have hnil : ([] : Bytes).length ≤ maxAlgSize := Nat.zero_le _
  exact hne ((tagOf_inj hnil).mp htag.symm)

/-- A certificate authority on a record of zeros. -/
def sampleCa : Shesig := shesigCaInit .tagging .zero (some [67, 65]) 0 0

/-- The authority with a key. -/
def sampleParent : Shesig := { sampleCa with pub := tagPub }

/-- A certificate to be issued, on a record of zeros. -/
def sampleCert : Shesig := shesigInit .tagging .zero (some [76]) 0 0

theorem sample_issued {cert : Shesig} {parent : Option Shesig} {data : Bytes}
    (halg : htonl cert.alg ≠ 0)
    (hpar : ∀ p, parent = some p → p.has certSign = true ∧ p.has certNonrepudiation = false)
    (hdata : deriveData (parentPub parent) = some data) :
    ∃ cert', shesigSign .tagging cert parent (some [1]) = some (.ok (), cert') :=
  shesigSign_succeeds halg hpar (tagging_signs _ _) hdata fun _ _ => rfl

theorem sampleParent_pub : algSize tagPub = 1 ∧ deriveData tagPub = some (keyBytes tagPub) := by
  have hlen : ([1] : Bytes).length ≤ maxAlgSize := by decide
  have hsize : algSize tagPub = 1 := algSize_algSet hlen
  refine ⟨hsize, ?_⟩
  rw [deriveData, if_neg (by rw [hsize]; decide), algContent_of_le (by rw [hsize]; decide)]

theorem sample_issued_under_parent :
    ∃ cert', shesigSign .tagging sampleCert (some sampleParent)
      (some [1]) = some (.ok (), cert') := by
  have hflags : sampleParent.has certSign = true ∧
      sampleParent.has certNonrepudiation = false := ⟨rfl, rfl⟩
  refine sample_issued (by decide) ?_ sampleParent_pub.2
  intro p hp
  rw [← Option.some.inj hp]
  exact hflags

/-! ## Changes to a certificate -/

/-- The names, the serial number, the flags, the dates, the user and the public key of a
certificate are others. -/
def Altered (cert fake : Shesig) : Prop :=
  fake = { cert with
    ent := fake.ent, iss := fake.iss, ser := fake.ser, flag := fake.flag
    stamp := fake.stamp, expire := fake.expire, uid := fake.uid, pub := fake.pub }

/-- The changes that the verifier finds at a point of time. -/
def Found (env : EsigEnv) (now : UInt64) (cert fake : Shesig) (parent : Option Shesig) : Prop :=
  ¬ env.after now fake.stamp ∨ ¬ env.before now fake.expire ∨
    (parent.isSome ∧ ¬ fake.has certChain) ∨
    ¬ SameKey fake.pub cert.pub

/-- The signature of the parent's key in an altered certificate. -/
theorem altered_verifies_iff {keyData : Bytes} {fake : Shesig}
    (hforge : Unforgeable env (htonl cert.alg))
    (hissued : Issued env cert par keyData cert') (hfake : Altered cert' fake) :
    shdecryptDeriveVerify env fake (verifiedPub par) = .ok () ↔ SameKey fake.pub cert'.pub ∧
      Verifiable par := by
  obtain ⟨priv, data, hpriv, hpub, hdata, hsig⟩ := hissued.keys
  have halg : fake.alg = cert.alg := (congrArg Shesig.alg hfake).trans hissued.alg
  have hdataSig : fake.dataSig = cert'.dataSig := (congrArg Shesig.dataSig hfake).trans rfl
  rw [shdecryptDeriveVerify_ok_iff, halg, hdataSig, ← verified_eq_signed hdata]
  constructor
  · rintro ⟨hsize, hver⟩
    obtain ⟨hkey, hsame⟩ := (hforge hpriv hpub hsig (signed_length hdata hsize) _ _).mp hver
    exact ⟨hkey, hsize, hsame⟩
  · rintro ⟨hkey, hsize, hsame⟩
    exact ⟨hsize, (hforge hpriv hpub hsig (signed_length hdata hsize) _ _).mpr ⟨hkey, hsame⟩⟩

/-- What a certificate takes over does not expire after its parent. -/
theorem inheritedExpire_not_after :
    env.after (inheritedExpire env cert (some parent)) parent.expire = false := by
  unfold inheritedExpire
  dsimp only
  split
  · exact decide_eq_false (lt_irrefl _)
  · next hnot => exact Bool.not_eq_true _ ▸ hnot

/-- Under the key that an issued certificate has been signed for, the changes that the verifier
finds are those of the dates, of the flag of a chain and of the public key: the names, the serial
number, the user and the other flags may be any. A certificate is issued under a parent that is
flagged to sign, and verified under the parent's key only. -/
theorem altered_certificate_iff (env : EsigEnv) (cert : Shesig) (parent : Option Shesig)
    (keyData : Option Bytes)
    (cert' : Shesig) (hforge : Unforgeable env (htonl cert.alg))
    (hsign : shesigSign env cert parent keyData = some (.ok (), cert')) :
    (∀ fake now, Altered cert' fake →
      (shesigVerify env now fake parent ≠ .ok () ↔ Found env now cert' fake parent ∨
        ¬ Verifiable parent)) ∧
    ∀ p, parent = some p → p.has certSign = true ∧
      (inheritedExpire env cert parent ≠ 0 → env.after cert'.expire p.expire = false) ∧
      ∀ q now, algSize p.pub ≤ maxAlgSize → shesigVerify env now cert' (some q) = .ok () →
        deriveData p.pub = some (keyBytes q.pub) := by
  have hissued := shesigSign_issued hsign
  refine ⟨?_, ?_⟩
  · intro fake now hfake
    rw [Ne, shesigVerify_ok_iff, altered_verifies_iff hforge hissued hfake]
    unfold Found
    tauto
  · rintro p rfl
    refine ⟨hissued.signer p rfl, ?_, ?_⟩
    · intro hdefined
      rw [hissued.expire, issuedExpire, if_neg hdefined]
      exact inheritedExpire_not_after
    · intro q now hsize hver
      -- the parent's key signs, and only that key derives what has been signed
      obtain ⟨priv, data, hpriv, hpub, hdata, hsig⟩ := hissued.keys
      obtain ⟨-, -, -, hderive⟩ := shesigVerify_ok_iff.mp hver
      obtain ⟨-, hver⟩ := shdecryptDeriveVerify_ok_iff.mp hderive
      rw [hissued.alg] at hver
      obtain ⟨-, hsame⟩ := (hforge hpriv hpub hsig (deriveData_length hdata hsize) _ _).mp hver
      exact hdata.trans (congrArg some hsame.symm)

/-- A certificate that has been signed below a parent, for every change to it and every time. -/
theorem altered_certificate_sample :
    ∃ cert', shesigSign .tagging sampleCert (some sampleParent) (some [1]) = some (.ok (), cert') ∧
      ∀ fake now, Altered cert' fake → (shesigVerify .tagging now fake
        (some sampleParent) ≠ .ok () ↔
        Found .tagging now cert' fake (some sampleParent) ∨ ¬ Verifiable (some sampleParent)) := by
  obtain ⟨cert', hsign⟩ := sample_issued_under_parent
  exact ⟨cert', hsign, (altered_certificate_iff .tagging sampleCert (some sampleParent)
    (some [1]) cert'
    (tagging_unforgeable _) hsign).1⟩

/-- The name with another first letter. -/
def otherName (name : Vector UInt8 136) : Vector UInt8 136 := name.set 0 (name[0] + 1)

theorem otherName_ne (name : Vector UInt8 136) : otherName name ≠ name := by
  intro heq
  have hletter := congrArg (fun v : Vector UInt8 136 => v[0]) heq
  simp [otherName] at hletter

/-- An issued root is verified under another name. An issued certificate is verified under a parent
without the flag to sign, which expires before it. -/
theorem renamed_certificate_verifies : Unforgeable .tagging shalgEcdsa384r ∧
    (∃ cert', shesigSign .tagging sampleCa none (some [1]) = some (.ok (), cert') ∧
      ∃ fake, Altered cert' fake ∧ fake.ent ≠ cert'.ent ∧
        shesigVerify .tagging (htonll 150) fake none = .ok ()) ∧
    ∃ cert', shesigSign .tagging sampleCert (some sampleParent) (some [1]) = some (.ok (), cert') ∧
      ∃ parent, parent.has certSign = false ∧ EsigEnv.tagging.after cert'.expire
        parent.expire = true ∧ shesigVerify .tagging (htonll 150) cert' (some parent) = .ok () := by
  have hafter : EsigEnv.tagging.after (htonll 150) (htonll 99) = true := by decide
  have hbefore : EsigEnv.tagging.before (htonll 150) (htonll 200) = true := by decide
  refine ⟨tagging_unforgeable _, ?_, ?_⟩
  · obtain ⟨cert', hsign⟩ := @sample_issued sampleCa none _ (by decide) (fun p hp => nomatch hp) rfl
    have hissued := shesigSign_issued hsign
    have haltered : Altered cert' { cert' with ent := otherName cert'.ent } := rfl
    refine ⟨cert', hsign, _, haltered, otherName_ne _, ?_⟩
    refine shesigVerify_ok_iff.mpr ⟨?_, ?_, nofun, ?_⟩
    · exact (congrArg (EsigEnv.tagging.after _) hissued.stamp).trans hafter
    · exact (congrArg (EsigEnv.tagging.before _) hissued.expire).trans hbefore
    · exact (altered_verifies_iff (tagging_unforgeable _) hissued haltered).mpr
        ⟨⟨rfl, rfl⟩, trivial⟩
  · obtain ⟨cert', hsign⟩ := sample_issued_under_parent
    have hissued := shesigSign_issued hsign
    refine ⟨cert', hsign, { sampleParent with flag := 0, expire := htonll 120 }, rfl, ?_, ?_⟩
    · rw [hissued.expire]
      decide
    · refine shesigVerify_ok_iff.mpr ⟨?_, ?_, fun _ => hissued.chain.trans rfl, ?_⟩
      · rw [hissued.stamp]
        exact hafter
      · rw [hissued.expire]
        exact hbefore
      · -- the key of the parent is all that is verified of it
        have hsame : Altered cert' cert' := rfl
        have hkey : Verifiable (some sampleParent) :=
          ⟨sampleParent_pub.1.symm.le, sampleParent_pub.1.trans_le (by decide)⟩
        exact (altered_verifies_iff (tagging_unforgeable _) hissued hsame).mpr ⟨⟨rfl, rfl⟩, hkey⟩

/-! ## Certificates as issued -/

/-- A root that is not flagged as a chain. Under a parent, a certificate for which one of the two
has said when it expires, unless the default is early enough, and whose parent has a key, unless
there is no time to verify it in. -/
def Regular (env : EsigEnv) (cert : Shesig) : Option Shesig → Prop
  | none => cert.has certChain = false
  | some parent =>
    (inheritedExpire env cert (some parent) = 0 → env.after env.expire parent.expire = false) ∧
      ((∃ now, env.after now (issuedStamp env cert) ∧
        env.before now (issuedExpire env cert (some parent))) →
        1 ≤ algSize parent.pub ∧ algSize parent.pub ≤ maxAlgSize)

/-- A certificate that is verified for all of its time, does not expire after its parent, and is a
chain where it has one. -/
structure WellIssued (env : EsigEnv) (cert : Shesig) (parent : Option Shesig) : Prop where
  verifies : ∀ now, env.after now cert.stamp → env.before now cert.expire →
    shesigVerify env now cert parent = .ok ()
  expires : ∀ p, parent = some p → env.after cert.expire p.expire = false
  chain : cert.has certChain ↔ parent.isSome

/-- The signature of the parent's key is accepted, where the parent has one. -/
theorem issued_verifies {keyData : Bytes} (hagree : AgreesFor env (htonl cert.alg))
    (hissued : Issued env cert par keyData cert') (hkey : Verifiable par) :
    shdecryptDeriveVerify env cert' (verifiedPub par) = .ok () := by
  obtain ⟨priv, data, hpriv, hpub, hdata, hsig⟩ := hissued.keys
  obtain ⟨hsize, hsame⟩ := (verified_eq_signed hdata).mpr hkey
  rw [shdecryptDeriveVerify_ok_iff, hissued.alg, hsame]
  exact ⟨hsize, hagree hpriv hpub hsig⟩

/-- Where the parent has no key, 21 zero bytes are signed and none are verified. -/
theorem issued_not_verifies {keyData : Bytes} (hreject : RejectsEmpty env (htonl cert.alg))
    (hissued : Issued env cert par keyData cert') (hkey : ¬ Verifiable par) :
    shdecryptDeriveVerify env cert' (verifiedPub par) ≠ .ok () := by
  intro hok
  obtain ⟨priv, data, hpriv, hpub, hdata, hsig⟩ := hissued.keys
  obtain ⟨hsize, hver⟩ := shdecryptDeriveVerify_ok_iff.mp hok
  rcases signed_or_empty hdata with hsame | ⟨hnil, hne⟩
  · exact hkey ((verified_eq_signed hdata).mp ⟨hsize, hsame⟩)
  · rw [hissued.alg, hnil] at hver
    exact hreject hpriv hpub hsig hne hver

/-- An issued certificate expires when the default does, where nothing is said about it, and not
after its parent otherwise. -/
theorem issuedExpire_after_iff :
    env.after (issuedExpire env cert (some parent)) parent.expire = false ↔
    (inheritedExpire env cert (some parent) = 0 → env.after env.expire parent.expire = false) := by
  unfold issuedExpire
  dsimp only
  split
  · next hzero => exact ⟨fun h _ => h, fun h => h hzero⟩
  · next hdefined => exact iff_of_true inheritedExpire_not_after fun h => absurd h hdefined

/-- Where signatures are accepted, the certificates that are regular are issued well, and no other
is where signatures are not accepted for an empty text. -/
theorem well_issued_iff (env : EsigEnv) (cert : Shesig) (parent : Option Shesig)
    (keyData : Option Bytes)
    (cert' : Shesig) (hagree : AgreesFor env (htonl cert.alg))
    (hsign : shesigSign env cert parent keyData = some (.ok (), cert')) :
    (Regular env cert parent → WellIssued env cert' parent) ∧
      (RejectsEmpty env (htonl cert.alg) → WellIssued env cert' parent →
        Regular env cert parent) := by
  have hissued := shesigSign_issued hsign
  have hchain : parent.isSome → cert'.has certChain := fun hsome => by
    rw [hissued.chain, hsome]
    exact Bool.or_true _
  have hverify : Verifiable parent → ∀ now, env.after now cert'.stamp →
      env.before now cert'.expire →
      shesigVerify env now cert' parent = .ok () := fun hkey now hafter hbefore =>
    shesigVerify_ok_iff.mpr ⟨hafter, hbefore, hchain, issued_verifies hagree hissued hkey⟩
  refine ⟨?_, ?_⟩
  · -- the condition is enough
    intro hregular
    cases parent with
    | none =>
      have hroot : cert.has certChain = false := hregular
      refine ⟨hverify trivial, ?_, ?_⟩
      · intro p hp
        cases hp
      · rw [hissued.chain, hroot]
        rfl
    | some p =>
      obtain ⟨hdefault, hkey⟩ := hregular
      rw [← hissued.stamp, ← hissued.expire] at hkey
      refine ⟨?_, ?_, ?_⟩
      · exact fun now hafter hbefore => hverify (hkey ⟨now, hafter, hbefore⟩) now hafter hbefore
      · intro q hq
        rw [← Option.some.inj hq, hissued.expire]
        exact issuedExpire_after_iff.mpr hdefault
      · exact iff_of_true (hchain rfl) rfl
  · -- the condition is necessary
    intro hreject hwell
    cases parent with
    | none =>
      have hroot := hwell.chain
      rw [hissued.chain] at hroot
      show cert.has certChain = false
      simpa using hroot
    | some p =>
      refine ⟨?_, ?_⟩
      · have hexpires := hwell.expires p rfl
        rw [hissued.expire] at hexpires
        exact issuedExpire_after_iff.mp hexpires
      · -- at a time between the two dates the signature has been accepted
        rw [← hissued.stamp, ← hissued.expire]
        rintro ⟨now, hafter, hbefore⟩
        have hok := (shesigVerify_ok_iff.mp (hwell.verifies now hafter hbefore)).2.2.2
        by_contra hkey
        exact issued_not_verifies hreject hissued hkey hok

/-- The sample is signed below its parent, and it is well issued. -/
theorem well_issued_sample :
    ∃ cert', shesigSign .tagging sampleCert (some sampleParent) (some [1]) = some (.ok (), cert') ∧
      WellIssued .tagging cert' (some sampleParent) ∧
      Regular .tagging sampleCert (some sampleParent) := by
  obtain ⟨cert', hsign⟩ := sample_issued_under_parent
  have hdate : inheritedExpire .tagging sampleCert (some sampleParent) ≠ 0 := by decide
  have hkey : 1 ≤ algSize tagPub ∧ algSize tagPub ≤ maxAlgSize :=
    ⟨sampleParent_pub.1.symm.le, sampleParent_pub.1.trans_le (by decide)⟩
  obtain ⟨hwell, hregular⟩ :=
    well_issued_iff .tagging sampleCert (some sampleParent) (some [1]) cert'
    (tagging_agrees _) hsign
  have hall := hwell ⟨fun h => absurd h hdate, fun _ => hkey⟩
  exact ⟨cert', hsign, hall, hregular (tagging_rejectsEmpty _) hall⟩

/-- A certificate without a date outlives its parent, and one under a parent without a key is not
verified. -/
theorem issued_not_well : AgreesFor .tagging shalgEcdsa384r ∧
    (∃ cert', shesigSign .tagging { sampleCert with expire := 0 }
        (some { sampleParent with expire := htonll 180 }) (some [1]) = some (.ok (), cert') ∧
      EsigEnv.tagging.after cert'.expire (htonll 180) = true) ∧
    ∃ cert', shesigSign .tagging sampleCert (some sampleCa) (some [1]) = some (.ok (), cert') ∧
      ∃ now, EsigEnv.tagging.after now cert'.stamp = true ∧
        EsigEnv.tagging.before now cert'.expire = true ∧
          shesigVerify .tagging now cert' (some sampleCa) ≠ .ok () := by
  refine ⟨tagging_agrees _, ?_, ?_⟩
  · obtain ⟨cert', hsign⟩ := @sample_issued { sampleCert with expire := 0 }
      (some { sampleParent with expire := htonll 180 }) _ (by decide) (by
        intro p hp
        rw [← Option.some.inj hp]
        exact ⟨rfl, rfl⟩) sampleParent_pub.2
    refine ⟨cert', hsign, ?_⟩
    rw [(shesigSign_issued hsign).expire]
    decide
  · obtain ⟨cert', hsign⟩ := @sample_issued sampleCert (some sampleCa) _ (by decide) (by
      intro p hp
      rw [← Option.some.inj hp]
      exact ⟨rfl, rfl⟩) rfl
    have hissued := shesigSign_issued hsign
    have hkey : ¬ Verifiable (some sampleCa) :=
      fun h => absurd (h.1.trans_eq algSize_zero) (by decide)
    refine ⟨cert', hsign, htonll 150, ?_, ?_, ?_⟩
    · rw [hissued.stamp]
      decide
    · rw [hissued.expire]
      decide
    · intro hok
      exact issued_not_verifies (tagging_rejectsEmpty _) hissued hkey
        (shesigVerify_ok_iff.mp hok).2.2.2

end LibShare.Sys
