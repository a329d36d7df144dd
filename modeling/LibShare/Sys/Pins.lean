import LibShare.Mem.Base64
import LibShare.Mem.Codec
import LibShare.Sys.Auth

/-!
# libshare — codes that depend on the time

The secrets that such codes are made of, and the two sides that verify a code (`shmem_alg_sha.c`,
`shsys_pam_auth.c`).

The loop that fills a secret divides its length by eight, and then takes the quotient for the
number of bytes that are left. Of ten bytes one is random.

A code belongs to a window of the time. The library accepts it one window before and after its own,
the login in the same window only. In the first window of all the library's loop ends before it
begins.

* `secretBin_inside`, `secretBin_random_iff` — the loop stays inside, and leaves zeros in every
  secret.
* `pin_verifiers_agree_iff` — the codes on which both sides agree.
-/

namespace LibShare.Sys

open Mem

/-! ## Secrets -/

/-- The bytes that a pass of the loop copies, where so many words are counted. -/
def secretCopy (words i : Nat) : Nat := min 8 (cSize ((words : Int) - 8 * i))

/-- The loop of `shsha_2fa_secret_bin`, from number `i` on. -/
def secretLoop (rand : Nat → UInt64) (words : Nat) : Nat → Nat → Bytes → Option Bytes
  | 0, _, secret => some secret
  | n + 1, i, secret =>
    (store secret (8 * i) ((leBytes64 (rand i)).take (secretCopy words i))).bind
    (secretLoop rand words n (i + 1))

/-- `shsha_2fa_secret_bin`. The number of a pass is an `int`. -/
def shsha2faSecretBin (rand : Nat → UInt64) (secretLen : Nat) : Option Bytes :=
  let words := secretLen / 8
  secretLoop rand words (min words (2 ^ 31)) 0 (List.replicate secretLen 0)

theorem secretLoop_inside {rand : Nat → UInt64} {words : Nat} : ∀ (n i : Nat) (secret : Bytes),
    8 * (i + n) ≤ secret.length → ∃ out, secretLoop rand words n i secret = some out ∧
      out.length = secret.length := by
  intro n
  induction n with
  | zero => exact fun i secret _ => ⟨secret, rfl, rfl⟩
  | succ n ih =>
    intro i secret hroom
    rw [secretLoop]
    generalize hbs : (leBytes64 (rand i)).take (secretCopy words i) = bs
    have hlen : bs.length ≤ 8 := by
      rw [← hbs]
      exact List.length_take_le' _ _
    obtain ⟨next, hnext⟩ : ∃ next, store secret (8 * i) bs = some next := ⟨_, if_pos (by omega)⟩
    have hsame : next.length = secret.length := by
      rw [store, if_pos (by omega), Option.some.injEq] at hnext
      rw [← hnext, List.length_append, List.length_append, List.length_take, List.length_drop]
      omega
    rw [hnext, Option.bind_some]
    obtain ⟨out, hout, hlast⟩ := ih (i + 1) next (by omega)
    exact ⟨out, hout, hlast.trans hsame⟩

/-- The loop stays inside the secret. -/
theorem secretBin_inside (rand : Nat → UInt64) (secretLen : Nat) :
    ∃ secret, shsha2faSecretBin rand secretLen = some secret ∧ secret.length = secretLen := by
  have hroom : 8 * (0 + min (secretLen / 8) (2 ^ 31)) ≤
      (List.replicate secretLen (0 : UInt8)).length := by
    rw [List.length_replicate]
    omega
  obtain ⟨out, hout, hlen⟩ := @secretLoop_inside rand (secretLen / 8) _ _ _ hroom
  exact ⟨out, hout, hlen.trans List.length_replicate⟩

theorem getElem?_store_of_outside {buf bs next : Bytes} {a p : Nat} (h : store buf a bs = some next)
    (hout : p < a ∨ a + bs.length ≤ p) : next[p]? = buf[p]? := by
  unfold store at h
  split at h
  · next hroom =>
    rw [← Option.some.inj h]
    rcases hout with hlow | hhigh
    · rw [List.append_assoc, List.getElem?_append_left (by rw [List.length_take]; omega),
        List.getElem?_take, if_pos hlow]
    · rw [List.getElem?_append_right (by rw [List.length_append, List.length_take]; omega),
        List.getElem?_drop, List.length_append, List.length_take, Nat.min_eq_left (by omega),
          Nat.add_sub_cancel' hhigh]
  · cases h

/-- A byte that no pass copies is left. -/
theorem secretLoop_keeps {rand : Nat → UInt64} {words p : Nat}
    (hp : secretCopy words (p / 8) ≤ p % 8) :
    ∀ (n i : Nat) (secret out : Bytes), secretLoop rand words n i secret = some out →
      out[p]? = secret[p]? := by
  intro n
  induction n with
  | zero =>
    intro i secret out h
    rw [Option.some.inj h]
  | succ n ih =>
    intro i secret out h
    obtain ⟨next, hstore, hloop⟩ := Option.bind_eq_some_iff.mp h
    have hlen : ((leBytes64 (rand i)).take (secretCopy words i)).length ≤ secretCopy words i :=
      List.length_take_le _ _
    have hle : secretCopy words i ≤ 8 := Nat.min_le_left _ _
    refine (ih _ _ _ hloop).trans (getElem?_store_of_outside hstore ?_)
    -- the byte is in another word, or behind what is copied of its own
    by_cases hi : i = p / 8
    · subst hi
      omega
    · omega

/-- Every byte string of the length is a secret for some random numbers. -/
def SecretRandom (secretLen : Nat) : Prop :=
  (∀ rand, ∃ secret, shsha2faSecretBin rand secretLen = some secret ∧ secret.length = secretLen) ∧
    ∀ target : Bytes, target.length = secretLen →
      ∃ rand, shsha2faSecretBin rand secretLen = some target

/-- A secret is random if and only if it has no bytes. -/
theorem secretBin_random_iff (secretLen : Nat) : SecretRandom secretLen ↔ secretLen = 0 := by
  constructor
  · rintro ⟨-, hall⟩
    by_contra hne
    -- the last byte of the word that the quotient ends in
    obtain ⟨p, hp, hlast⟩ : ∃ p < secretLen, secretLen < 8 ∨
        secretCopy (secretLen / 8) (p / 8) ≤ p % 8 := by
      by_cases hshort : secretLen < 8
      · exact ⟨0, by omega, Or.inl hshort⟩
      · refine ⟨8 * (secretLen / 8 / 8) + 7, by omega, Or.inr ?_⟩
        have hword : (8 * (secretLen / 8 / 8) + 7) / 8 = secretLen / 8 / 8 := by omega
        rw [hword]
        unfold secretCopy cSize
        omega
    obtain ⟨rand, hrand⟩ := hall (List.replicate secretLen 1) List.length_replicate
    have hkeeps : (List.replicate secretLen (1 : UInt8))[p]? =
        (List.replicate secretLen (0 : UInt8))[p]? := by
      rcases hlast with hshort | hcopy
      · have hwords : secretLen / 8 = 0 := by omega
        rw [shsha2faSecretBin, hwords] at hrand
        rw [← Option.some.inj hrand]
      · exact secretLoop_keeps hcopy _ _ _ _ hrand
    rw [List.getElem?_replicate_of_lt hp, List.getElem?_replicate_of_lt hp] at hkeeps
    exact absurd hkeeps (by decide)
  · rintro rfl
    refine ⟨fun rand => secretBin_inside rand 0, fun target hlen => ⟨fun _ => 0, ?_⟩⟩
    rw [List.length_eq_zero_iff.mp hlen]
    rfl

/-- Of the ten bytes that the library makes one is random. -/
theorem secret_of_ten :
    (∀ rand, shsha2faSecretBin rand 10 = some ((rand 0).toUInt32.toUInt8 :: List.replicate 9 0)) ∧
    ¬ SecretRandom 10 := by
  have hten : ∀ rand, shsha2faSecretBin rand 10 =
      some ((rand 0).toUInt32.toUInt8 :: List.replicate 9 0) := by
    intro rand
    have hcopy : secretCopy 1 0 = 1 := by decide
    show secretLoop rand 1 1 0 (List.replicate 10 0) = _
    rw [secretLoop, hcopy]
    rfl
  refine ⟨hten, ?_⟩
  rintro ⟨-, hall⟩
  obtain ⟨rand, hrand⟩ := hall (List.replicate 10 1) List.length_replicate
  rw [hten] at hrand
  exact absurd (List.cons.inj (Option.some.inj hrand)).2 (by decide)

/-! ## Codes -/

/-- The code of a window. -/
def windowPin (lib : PamLib) (alg : UInt32) (secret : Bytes) (t : UInt64) : UInt32 :=
  let hash := lib.hmac alg secret (leBytes64 (htonll t))
  let pos := (hash.getD 19 0 &&& 0xf).toNat
  let hash32 := htonl (leWord32 ((hash.drop pos).take 4))
  if secret.length ≤ 16 then hash32 % lib.pinModulo secret.length else hash32

/-- What a method with the flag SHAUTH_TIME makes its codes of. -/
def Shauth.timeSecret (auth : Shauth) : Bytes := auth.pub.toList.take (algSize auth.pub)

/-- The loop of `shsha_2fa_bin_verify` over so many windows. -/
def verifyWindows (lib : PamLib) (alg : UInt32) (secret : Bytes) (pin : UInt32) :
    Nat → UInt64 → Except Sherr Unit
  | 0, _ => .error .access
  | n + 1, t =>
    if windowPin lib alg secret t = pin then .ok () else verifyWindows lib alg secret pin n (t + 1)

/-- `shsha_2fa_bin_verify`. -/
def shsha2faBinVerify (lib : PamLib) (m : Moment) (alg : UInt32) (secret : Bytes) (freq : UInt64)
    (pin : UInt32) :
    Except Sherr Unit :=
  let tSt := m.time / freq - 1
  let tEnd := tSt + 2
  verifyWindows lib alg secret pin (tEnd.toNat + 1 - tSt.toNat) tSt

/-- The generator's code is that of the current window. -/
theorem shsha2faBin_eq (lib : PamLib) (m : Moment) (alg : UInt32) (secret : Bytes) (freq : UInt64) :
    shsha2faBin lib m alg secret freq = windowPin lib alg secret (m.time / freq) := rfl

variable {lib : PamLib} {m : Moment} {alg : UInt32} {secret : Bytes} {pin : UInt32}

theorem verifyWindows_succ (n : Nat) (t : UInt64) :
    verifyWindows lib alg secret pin (n + 1) t = .ok () ↔
    windowPin lib alg secret t = pin ∨ verifyWindows lib alg secret pin n (t + 1) = .ok () := by
  rw [verifyWindows]
  by_cases hpin : windowPin lib alg secret t = pin
  · rw [if_pos hpin]
    exact iff_of_true rfl (Or.inl hpin)
  · rw [if_neg hpin, or_iff_right hpin]

/-- The library accepts the codes of three windows. In the first window of all it accepts none. -/
theorem binVerify_iff : shsha2faBinVerify lib m alg secret 30 pin = .ok () ↔ m.time / 30 ≠ 0 ∧
    (windowPin lib alg secret (m.time / 30 - 1) = pin ∨
      windowPin lib alg secret (m.time / 30) = pin ∨
      windowPin lib alg secret (m.time / 30 + 1) = pin) := by
  have htime := m.time.toNat_lt
  have hq : (m.time / 30).toNat = m.time.toNat / 30 := UInt64.toNat_div _ _
  unfold shsha2faBinVerify
  dsimp only
  generalize m.time / 30 = q at hq
  by_cases hfirst : q = 0
  · -- the first window is the last but one before it
    subst hfirst
    exact iff_of_false (fun h => by cases h) fun h => h.1 rfl
  · have hpos : 0 < q.toNat := Nat.pos_of_ne_zero fun h => hfirst (UInt64.toNat_inj.mp h)
    have hstart : (q - 1).toNat = q.toNat - 1 :=
      UInt64.toNat_sub_of_le _ _ (UInt64.le_iff_toNat_le.mpr hpos)
    have hend : (q - 1 + 2).toNat = q.toNat + 1 := by
      rw [UInt64.toNat_add, hstart]
      show (q.toNat - 1 + 2) % 2 ^ 64 = _
      omega
    have hthree : (q - 1 + 2).toNat + 1 - (q - 1).toNat = 3 := by omega
    rw [hthree, verifyWindows_succ, verifyWindows_succ, verifyWindows_succ, UInt64.sub_add_cancel,
      and_iff_right hfirst]
    refine or_congr_right (or_congr_right (or_iff_left fun h => by cases h))

/-- The login accepts the code of the current window. -/
theorem passVerify_iff {auth : Shauth} {username : Option Bytes}
    (hlive : ¬ (auth.expire ≠ 0 ∧ m.after auth.expire))
    (htime : auth.has shauthTime) :
    shpamAuthPassVerify lib m auth username (leBytes32 pin) = .ok () ↔
      windowPin lib auth.alg auth.timeSecret (m.time / 30) = pin := by
  unfold shpamAuthPassVerify
  rw [if_neg hlive, if_pos htime, if_neg (not_not.mpr (length_leBytes32 pin)), leWord32_leBytes32]
  dsimp only
  rw [shsha2faBin_eq]
  split
  · next hne => exact iff_of_false (fun h => by cases h) hne
  · next heq => exact iff_of_true rfl (not_not.mp heq)

/-- Both sides agree on a code if and only if it is that of the current window, or of neither
window beside it. In the first window of all they agree on the other codes only. -/
theorem pin_verifiers_agree_iff (lib : PamLib) (m : Moment) (auth : Shauth)
    (username : Option Bytes) (pin : UInt32)
    (hlive : ¬ (auth.expire ≠ 0 ∧ m.after auth.expire)) (htime : auth.has shauthTime) :
    (shpamAuthPassVerify lib m auth username (leBytes32 pin) = .ok () ↔
        shsha2faBinVerify lib m auth.alg auth.timeSecret 30 pin = .ok ()) ↔
      if m.time / 30 = 0 then windowPin lib auth.alg auth.timeSecret 0 ≠ pin
      else windowPin lib auth.alg auth.timeSecret (m.time / 30) = pin ∨
        (windowPin lib auth.alg auth.timeSecret (m.time / 30 - 1) ≠ pin ∧
          windowPin lib auth.alg auth.timeSecret (m.time / 30 + 1) ≠ pin) := by
  rw [passVerify_iff hlive htime, binVerify_iff]
  -- in the first window there is none before it
  by_cases hfirst : m.time / 30 = 0
  · rw [if_pos hfirst, hfirst]
    exact ⟨fun h hpin => (h.mp hpin).1 rfl, fun h => iff_of_false h fun hno => hno.1 rfl⟩
  · rw [if_neg hfirst, and_iff_right hfirst]
    constructor
    · intro hagree
      by_cases hpin : windowPin lib auth.alg auth.timeSecret (m.time / 30) = pin
      · exact Or.inl hpin
      · exact Or.inr ⟨fun hbefore => hpin (hagree.mpr (Or.inl hbefore)),
          fun hbehind => hpin (hagree.mpr (Or.inr (Or.inr hbehind)))⟩
    · rintro (hpin | ⟨hbefore, hbehind⟩)
      · exact iff_of_true hpin (Or.inr (Or.inl hpin))
      · rw [or_iff_right hbefore, or_iff_left hbehind]

/-- Digests that are the message itself, with which the code of a window is its number. -/
def numberLib : PamLib :=
  { sha256 := id
    hmac := fun _ _ msg => msg.drop 4 ++ List.replicate 16 0
    hkdfExpand := fun _ _ _ => .error .inval
    algPriv := fun _ _ => .error .inval
    algPub := fun _ _ => .error .inval
    algSign := fun _ _ _ => .error .inval
    algVer := fun _ _ _ _ => .error .access
    pinModulo := fun _ => 1000000 }

/-- A minute after the clock has begun. -/
def secondMinute : Moment :=
  { fault := none
    stamp := 0
    after := fun _ => false
    time := 60
    rand := fun _ => 0
    sysVerify := fun _ _ => false }

/-- A method for codes. -/
def timeAuth : Shauth := { Shauth.zero with alg := shalgSha1, flag := shauthTime }

/-- Both sides accept the code of the current window. -/
theorem pin_verifiers_agree_current :
    shpamAuthPassVerify numberLib secondMinute timeAuth none (leBytes32 2) = .ok () ↔
    shsha2faBinVerify numberLib secondMinute timeAuth.alg timeAuth.timeSecret 30 2 = .ok () :=
  (pin_verifiers_agree_iff numberLib secondMinute timeAuth none 2 (by decide)
    (by decide)).mpr (by decide)

/-- The code of the window before is accepted by the library, and not by the login. -/
theorem login_rejects_last_code :
    shpamAuthPassVerify numberLib secondMinute timeAuth none (leBytes32 1) ≠ .ok () ∧
      shsha2faBinVerify numberLib secondMinute timeAuth.alg timeAuth.timeSecret 30 1 = .ok () := by
  rw [Ne, passVerify_iff (by decide) (by decide), binVerify_iff]
  decide

end LibShare.Sys
