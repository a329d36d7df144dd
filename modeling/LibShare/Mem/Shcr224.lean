import LibShare.Mem.Encrypt
import LibShare.Mem.TextCodec
import Mathlib.Data.List.TakeWhile

/-!
# libshare — SHCR224

The password digest `shcr224` of `shmem_alg_shr.c` and its verification. A salt is a text in the
format SHR56: 28 bytes of which the digest is made, and the number of rounds behind them. Both
calls decode it, `shcr224` into 256 bytes and `shcr224_verify` into 96, so that a longer salt is
good for a digest that is never verified. A signature that is not decoded counts as zeros.

* The expanded salt has 96 bytes in an array of 64. What is read of the other 32 bytes in a round
  is up to the compiler. It is a parameter (`Behind`), which may depend on all inputs of
  `shcr224_bin`.
* `decodeShr56_larger` — what fits a buffer is decoded in the same way into a larger one.
* `shcr224_agrees_iff` — the salts and signatures for which the verification agrees.
-/

namespace LibShare.Mem

/-! ## The digest -/

/-- The loop of `shr224_expand`. -/
def expandLoop (val : List UInt32) : Nat → Nat → UInt32 → Bytes
  | 0, _, _ => []
  | n + 1, i, a =>
    let a := a + val.getD (i % 7) 0
    leBytes32 (htonl a) ++ expandLoop val n (i + 1) a

/-- `shr224_expand` of a digest of 28 bytes. -/
def shr224Expand (digest : Bytes) (dataLen : Nat) : Bytes :=
  expandLoop (leWords digest) (dataLen / 4) 0 1 ++ List.replicate (dataLen % 4) 0

/-- The loop of `shcr224_bin` that encrypts each two words that follow one another. -/
def teaRowLoop (salt : List UInt32) : Nat → UInt32 → List UInt32 → List UInt32
  | _, v0, [] => [v0]
  | i, v0, v1 :: rest =>
    let v := teaEncrypt (keyAt salt (i % 12)) (v0, v1)
    v.1 :: teaRowLoop salt (i + 1) v.2 rest

def teaRow (salt : List UInt32) : List UInt32 → List UInt32
  | [] => []
  | v0 :: rest => teaRowLoop salt 0 v0 rest

/-- What is read behind the array of the salt: for the bytes of the salt, the number of rounds and
the data, in each round. -/
abbrev Behind := Bytes → Nat → Bytes → Nat → Bytes

/-- One round of `shcr224_bin`. -/
def shcr224Round (salt encData : Bytes) (matrix : List UInt32) : List UInt32 :=
  let ctx := shr224Write shr224Init magic64
  let ctx := shr224Write ctx salt
  let ctx := shr224Write ctx (matrix.flatMap leBytes32)
  let ctx := shr224Write ctx encData
  List.zipWith (· + ·) matrix (leWords (shr224Result ctx))

/-- The rounds of `shcr224_bin`, from number `i` on. -/
def shcr224Rounds (salt : Nat → Bytes) (encData : Bytes) : Nat → Nat → List UInt32 → List UInt32
  | 0, _, matrix => matrix
  | n + 1, i, matrix => shcr224Rounds salt encData n (i + 1) (shcr224Round (salt i) encData matrix)

/-- `SHCR224_DEFAULT_ROUNDS`. -/
def shcr224DefaultRounds : UInt32 := 1000

/-- The number of rounds that are made. -/
def actualRounds (rounds : UInt32) : UInt32 :=
  if shcr224DefaultRounds < rounds then rounds else shcr224DefaultRounds

/-- `SHCR224_SIZE`. -/
def shcr224Size : Nat := 96

/-- `shcr224_bin`. -/
def shcr224Bin (behind : Behind) (saltKey : Bytes) (rounds : UInt32) (data : Bytes) : Bytes :=
  let salt := shr224Expand (saltKey.take 28) shcr224Size
  let encData :=
    (teaRow (leWords salt) (leWords (shr224Expand (shr224 data) 4096))).flatMap leBytes32
  let rounds := actualRounds rounds
  let matrix :=
    shcr224Rounds (fun i => salt.take 64 ++ behind (saltKey.take 28) rounds.toNat data i) encData
    rounds.toNat 0 (List.replicate 7 0)
  shr224Expand (matrix.flatMap leBytes32) shcr224Size

/-- The number of rounds behind a salt. -/
def saltRounds (saltKey : Bytes) : UInt32 := htonl (leWord32 ((saltKey.drop 28).take 4))

/-- A string up to its end. -/
def cText (str : Bytes) : Bytes := str.takeWhile (· ≠ 0)

/-- `shcr224`. The encoder's number is not initialized. -/
def shcr224 (behind : Behind) (val : UInt32) (salt data : Bytes) : Option (Except Sherr Bytes) :=
  (shalgDecode .shr56 salt 256).bind fun
    | .error err => some (.error err)
    | .ok (saltKey, _) =>
      let sigKey := shcr224Bin behind saltKey (saltRounds saltKey) (cText data)
      -- `strcpy` of the text, which there is always one of
      (shalgEncode .shr56 val sigKey).map fun text => .ok (cText (text.getD []))

/-- `shcr224_bin_verify`. -/
def shcr224BinVerify (behind : Behind) (saltKey sig : Bytes) (rounds : UInt32) (data : Bytes) :
    Except Sherr Unit :=
  let rounds := actualRounds rounds
  let cmpSig := shcr224Bin behind saltKey rounds data
  if cmpSig ≠ sig then .error .access else .ok ()

/-- The signature of a text, which is zeros if the text is not decoded. -/
def shcr224SigKey (sig : Bytes) : Option Bytes :=
  (shalgDecode .shr56 sig shcr224Size).map fun
    | .error _ => List.replicate shcr224Size 0
    | .ok (sigKey, _) => sigKey

/-- `shcr224_verify`. -/
def shcr224Verify (behind : Behind) (salt sig data : Bytes) : Option (Except Sherr Unit) :=
  (shalgDecode .shr56 salt shcr224Size).bind fun
    | .error err => some (.error err)
    | .ok (saltKey, _) => (shcr224SigKey sig).map fun sigKey =>
      shcr224BinVerify behind saltKey sigKey (saltRounds saltKey) (cText data)

theorem length_expandLoop (val : List UInt32) :
    ∀ (n i : Nat) (a : UInt32), (expandLoop val n i a).length = 4 * n := by
  intro n
  induction n with
  | zero => exact fun _ _ => rfl
  | succ n ih =>
    intro i a
    rw [expandLoop, List.length_append, ih, length_leBytes32]
    omega

theorem length_shcr224Bin (behind : Behind) (saltKey : Bytes) (rounds : UInt32) (data : Bytes) :
    (shcr224Bin behind saltKey rounds data).length = shcr224Size := by
  unfold shcr224Bin shr224Expand
  rw [List.length_append, length_expandLoop, List.length_replicate]
  rfl

/-- The digest depends on the first 28 bytes of a salt, and on no number of rounds below the
default. -/
theorem shcr224Bin_congr {behind : Behind} {saltKey saltKey' : Bytes}
    (h : saltKey.take 28 = saltKey'.take 28)
    (rounds : UInt32) (data : Bytes) :
    shcr224Bin behind saltKey' (actualRounds rounds) data =
      shcr224Bin behind saltKey rounds data := by
  have hsame : actualRounds (actualRounds rounds) = actualRounds rounds := by
    unfold actualRounds
    split <;> simp_all
  unfold shcr224Bin
  rw [h, hsame]

/-! ## Decoding into a larger buffer -/

theorem store_append_some {buf bs next : Bytes} {a : Nat} (h : store buf a bs = some next)
    (more : Bytes) :
    store (buf ++ more) a bs = some (next ++ more) := by
  unfold store at h ⊢
  split at h
  · next hroom =>
    rw [if_pos (by rw [List.length_append]; omega), ← Option.some.inj h,
      List.take_append_of_le_length (by omega), List.drop_append_of_le_length (by omega),
        List.append_assoc, List.append_assoc, List.append_assoc]
  · cases h

/-- The bytes behind the memory are left. -/
theorem decodeLoop_append {retLen : Int} (more : Bytes) :
    ∀ (blks retOf : Nat) (inText : List Char)
      (data out : Bytes), shr56DecodeLoop retLen blks retOf inText data = some out →
    shr56DecodeLoop retLen blks retOf inText (data ++ more) = some (out ++ more) ∧
      out.length = data.length := by
  intro blks
  induction blks with
  | zero =>
    intro retOf inText data out h
    rw [shr56DecodeLoop, Option.some.injEq] at h
    subst h
    exact ⟨rfl, rfl⟩
  | succ blks ih =>
    intro retOf inText data out h
    rw [shr56DecodeLoop] at h ⊢
    obtain ⟨next, hstore, hloop⟩ := Option.bind_eq_some_iff.mp h
    rw [store_append_some hstore, Option.bind_some]
    obtain ⟨hmore, hlen⟩ := ih _ _ _ _ hloop
    exact ⟨hmore, hlen.trans (length_store hstore)⟩

/-- What fits a buffer is decoded in the same way into a larger one. -/
theorem decodeShr56_larger {inText : List Char} {dataMax len : Nat} {out : Bytes}
    (h : shalgDecodeShr56 inText dataMax = some (.ok (out, len))) (more : Nat) :
    shalgDecodeShr56 inText (dataMax + more) = some (.ok (out ++ List.replicate more 0, len)) ∧
      out.length = dataMax := by
  unfold shalgDecodeShr56 at h ⊢
  dsimp only at h ⊢
  split at h
  · cases h
  · next hin =>
    obtain ⟨data, hloop, hret⟩ := Option.map_eq_some_iff.mp h
    rw [Except.ok.injEq, Prod.mk.injEq] at hret
    obtain ⟨hmore, hlen⟩ := decodeLoop_append (List.replicate more 0) _ _ _ _ _ hloop
    rw [if_neg (by omega), ← List.replicate_append_replicate, hmore, Option.map_some,
      hret.1, hret.2]
    rw [hret.1, List.length_replicate] at hlen
    exact ⟨rfl, hlen⟩

/-! ## Which texts are decoded -/

/-- The length that the decoder returns for a text of so many characters. -/
def shr56RetLen (n : Nat) : Int := (cInt n - (cInt n).tmod 6).tdiv 6 * 4 - (cInt n).tmod 6

/-- The lengths of texts that are decoded into a buffer without an error. -/
def Shr56Accepts (n dataMax : Nat) : Prop :=
  0 ≤ shr56RetLen n ∧ shr56RetLen n ≤ dataMax ∧ decodeFits .shr56 n dataMax

/-- A text has an error, or what its blocks leave in the memory. -/
theorem decode_cases (inData : Bytes) (dataMax : Nat) :
    (shr56RetLen (cText inData).length < 0 ∨ dataMax < shr56RetLen (cText inData).length) ∧
        shalgDecode .shr56 inData dataMax = some (.error .inval) ∨
      (0 ≤ shr56RetLen (cText inData).length ∧ shr56RetLen (cText inData).length ≤ dataMax) ∧
        (shalgDecode .shr56 inData dataMax = none ∨ ∃ out, shalgDecode .shr56 inData dataMax =
          some (.ok (out, (shr56RetLen (cText inData).length).toNat))) := by
  have hdec := shalgDecode_shr56 inData dataMax
  have hlen : (textChars (inData.takeWhile (· ≠ 0))).length = (cText inData).length :=
    List.length_map _
  unfold shalgDecodeShr56 at hdec
  rw [hlen] at hdec
  by_cases hbad : shr56RetLen (cText inData).length < 0 ∨
    dataMax < shr56RetLen (cText inData).length
  · exact Or.inl ⟨hbad, hdec.trans (if_pos hbad)⟩
  · refine Or.inr ⟨by omega, ?_⟩
    have hmap := hdec.trans (if_neg hbad)
    rw [hmap]
    rcases shr56DecodeLoop _ _ _ _ _ with _ | out
    · exact Or.inl rfl
    · exact Or.inr ⟨out, rfl⟩

theorem decode_some_iff (inData : Bytes) (dataMax : Nat) :
    shalgDecode .shr56 inData dataMax ≠ none ↔ decodeFits .shr56 (cText inData).length dataMax := by
  refine Iff.trans ?_ (shr56_decode_iff inData dataMax)
  rcases decode_cases inData dataMax with ⟨-, herr⟩ | ⟨hin, hnone | ⟨out, hok⟩⟩
  · exact iff_of_true (by rw [herr]; exact fun h => by cases h) (decodesInside_error herr)
  · exact iff_of_false (not_not.mpr hnone) (not_decodesInside hnone)
  · exact iff_of_true (by rw [hok]; exact fun h => by cases h)
      ((decodesInside_ok hok).mpr (by omega))

theorem decode_ok_iff (inData : Bytes) (dataMax : Nat) :
    (∃ out len, shalgDecode .shr56 inData dataMax = some (.ok (out, len))) ↔
      Shr56Accepts (cText inData).length dataMax := by
  have hsome := decode_some_iff inData dataMax
  unfold Shr56Accepts
  rw [← hsome]
  rcases decode_cases inData dataMax with ⟨hbad, herr⟩ | ⟨hin, hnone | ⟨out, hok⟩⟩
  · refine iff_of_false ?_ (by omega)
    rintro ⟨out, len, hok⟩
    rw [herr] at hok
    cases hok
  · refine iff_of_false ?_ fun h => h.2.2 hnone
    rintro ⟨out, len, hok⟩
    rw [hnone] at hok
    cases hok
  · exact iff_of_true ⟨out, _, hok⟩ ⟨hin.1, hin.2, by rw [hok]; exact fun h => by cases h⟩

/-! ## Digests and their verification -/

variable {behind : Behind} {val : UInt32} {salt sig data : Bytes}

theorem cText_cText (str : Bytes) : cText (cText str) = cText str := by
  exact List.takeWhile_idem

/-- The text of a digest is decoded to it. -/
theorem sigKey_text (val : UInt32) {key : Bytes} (hlen : key.length = shcr224Size) :
    ∃ text, shalgEncode .shr56 val key = some (some text) ∧
      shcr224SigKey (cText text) = some key := by
  have hfits : encodeFits .shr56 key.length := by
    rw [hlen]
    unfold encodeFits
    decide
  obtain ⟨ret, henc, hret⟩ := (shr56_encode_iff val key).mpr hfits
  -- this format always has a text
  obtain ⟨text, rfl⟩ : ∃ text, ret = some text := by
    obtain ⟨text, -, htext⟩ := Option.map_eq_some_iff.mp henc
    exact ⟨_, htext.symm⟩
  obtain ⟨plain, hdec, hplain⟩ := (hret text rfl).2 shcr224Size (Nat.le_of_eq hlen)
  have hsame : shalgDecode .shr56 (cText text) shcr224Size =
      shalgDecode .shr56 text shcr224Size := by
    rw [shalgDecode_shr56, shalgDecode_shr56]
    exact congrArg (fun t => shalgDecodeShr56 (textChars t) shcr224Size) (cText_cText text)
  have hwhole : plain.length = shcr224Size := by
    rw [shalgDecode_shr56] at hdec
    exact (decodeShr56_larger hdec 0).2
  rw [List.take_of_length_le (by omega)] at hplain
  refine ⟨text, henc, ?_⟩
  rw [shcr224SigKey, hsame, hdec, Option.map_some, hplain]

/-- A digest is made of a salt that is decoded into 256 bytes. -/
theorem shcr224_eq {saltKey : Bytes} {len : Nat}
    (hsalt : shalgDecode .shr56 salt 256 = some (.ok (saltKey, len)))
    (behind : Behind) (val : UInt32) (data : Bytes) :
    ∃ retStr, shcr224 behind val salt data = some (.ok retStr) ∧
      shcr224SigKey retStr = some (shcr224Bin behind saltKey (saltRounds saltKey)
        (cText data)) := by
  obtain ⟨text, henc, hkey⟩ :=
    sigKey_text val (length_shcr224Bin behind saltKey (saltRounds saltKey) (cText data))
  refine ⟨cText text, ?_, hkey⟩
  rw [shcr224, hsalt, Option.bind_some]
  dsimp only
  rw [henc, Option.map_some, Option.getD_some]

/-- A digest is verified with its salt, and a signature that is decoded to something else is not. -/
def Shcr224Agrees (behind : Behind) (val : UInt32) (salt sig data : Bytes) : Prop :=
  ∀ retStr, shcr224 behind val salt data = some (.ok retStr) →
    shcr224Verify behind salt retStr data = some (.ok ()) ∧
      (shcr224SigKey sig ≠ shcr224SigKey retStr →
        ∃ err, shcr224Verify behind salt sig data = some (.error err))

/-- The digest of a salt that is decoded into 96 bytes is verified. -/
theorem shcr224Verify_eq {saltKey : Bytes} {len : Nat}
    (hsalt : shalgDecode .shr56 salt shcr224Size = some (.ok (saltKey, len)))
    (behind : Behind) (val : UInt32) (data : Bytes) :
    ∃ retStr key, shcr224 behind val salt data = some (.ok retStr) ∧
      shcr224SigKey retStr = some key ∧ ∀ sig, shcr224Verify behind salt sig data =
        (shcr224SigKey sig).map fun sigKey => if key ≠ sigKey then .error .access else .ok () := by
  rw [shalgDecode_shr56] at hsalt
  obtain ⟨hlarger, hlen⟩ := decodeShr56_larger hsalt 160
  rw [← shalgDecode_shr56] at hsalt hlarger
  obtain ⟨retStr, hret, hkey⟩ := shcr224_eq hlarger behind val data
  refine ⟨retStr, _, hret, hkey, fun sig => ?_⟩
  have hsize : shcr224Size = 96 := rfl
  -- the salt and the rounds are in the first 32 bytes
  have hsame : saltKey.take 28 = (saltKey ++ List.replicate 160 0).take 28 :=
    (List.take_append_of_le_length (by omega)).symm
  have hrounds : saltRounds (saltKey ++ List.replicate 160 0) = saltRounds saltKey := by
    unfold saltRounds
    rw [List.drop_append_of_le_length (by omega),
      List.take_append_of_le_length (by rw [List.length_drop]; omega)]
  rw [shcr224Verify, hsalt, Option.bind_some]
  dsimp only
  unfold shcr224BinVerify
  dsimp only
  rw [shcr224Bin_congr hsame.symm, hrounds]

/-- A digest is verified, and a signature with another value is not, if and only if `shcr224`
rejects the salt, or the salt is decoded into 96 bytes as well, and the signature is not decoded
over their end. -/
theorem shcr224_agrees_iff (behind : Behind) (val : UInt32) (salt sig data : Bytes) :
    Shcr224Agrees behind val salt sig data ↔ (Shr56Accepts (cText salt).length 256 →
      Shr56Accepts (cText salt).length 96 ∧ decodeFits .shr56 (cText sig).length 96) := by
  constructor
  · intro hagrees haccepts
    obtain ⟨saltKey, len, hsalt⟩ := (decode_ok_iff salt 256).mpr haccepts
    obtain ⟨retStr, hret, hkey⟩ := shcr224_eq hsalt behind val data
    obtain ⟨hver, hother⟩ := hagrees retStr hret
    have hdec : ∃ out len, shalgDecode .shr56 salt shcr224Size = some (.ok (out, len)) := by
      unfold shcr224Verify at hver
      obtain ⟨ret, hdec, hret⟩ := Option.bind_eq_some_iff.mp hver
      rcases ret with err | ⟨out, len⟩
      · cases hret
      · exact ⟨out, len, hdec⟩
    refine ⟨(decode_ok_iff salt 96).mp hdec, (decode_some_iff sig 96).mp fun hnone => ?_⟩
    -- a signature that is decoded over the end is neither accepted nor rejected
    have hsig : shcr224SigKey sig = none := by
      rw [shcr224SigKey, show shcr224Size = 96 from rfl, hnone, Option.map_none]
    obtain ⟨err, herr⟩ := hother (by rw [hsig, hkey]; exact fun h => by cases h)
    obtain ⟨out, len', hdec⟩ := hdec
    rw [shcr224Verify, hdec, Option.bind_some] at herr
    dsimp only at herr
    rw [hsig, Option.map_none] at herr
    cases herr
  · intro hfits retStr hret
    have haccepts : Shr56Accepts (cText salt).length 256 := by
      refine (decode_ok_iff salt 256).mp ?_
      unfold shcr224 at hret
      obtain ⟨ret, hdec, hret⟩ := Option.bind_eq_some_iff.mp hret
      rcases ret with err | ⟨out, len⟩
      · cases hret
      · exact ⟨out, len, hdec⟩
    obtain ⟨hsalt, hsig⟩ := hfits haccepts
    obtain ⟨saltKey, len, hdec⟩ := (decode_ok_iff salt 96).mpr hsalt
    obtain ⟨retStr', key, hret', hkey, hver⟩ := shcr224Verify_eq hdec behind val data
    obtain rfl : retStr' = retStr := by
      rw [hret'] at hret
      exact Except.ok.inj (Option.some.inj hret)
    rw [hver, hver, hkey, Option.map_some, if_neg (not_not.mpr rfl)]
    refine ⟨rfl, fun hne => ⟨.access, ?_⟩⟩
    obtain ⟨sigKey, hsigKey⟩ : ∃ sigKey, shcr224SigKey sig = some sigKey := by
      have hsome := (decode_some_iff sig 96).mpr hsig
      unfold shcr224SigKey
      rcases hdec : shalgDecode .shr56 sig shcr224Size with _ | ret
      · exact absurd hdec hsome
      · exact ⟨_, rfl⟩
    rw [hsigKey] at hne ⊢
    rw [Option.map_some, if_pos fun h => hne (congrArg some h.symm)]

/-- A salt of 150 characters is decoded to 100 bytes. Its digest is made, but not verified. -/
theorem long_salt_unverified : ∃ retStr,
    shcr224 (fun _ _ _ _ => []) 0 (List.replicate 150 65) [] = some (.ok retStr) ∧
      shcr224Verify (fun _ _ _ _ => []) (List.replicate 150 65) retStr [] = some (.error .inval) ∧
      ¬ Shcr224Agrees (fun _ _ _ _ => []) 0 (List.replicate 150 65) [] [] := by
  have hchars : (cText (List.replicate 150 65)).length = 150 := by
    have hall : cText (List.replicate 150 65) = List.replicate 150 65 :=
      List.takeWhile_eq_self_iff.mpr fun c hc => by
        rw [List.eq_of_mem_replicate hc]
        rfl
    rw [hall, List.length_replicate]
  obtain ⟨saltKey, len, hsalt⟩ := (decode_ok_iff (List.replicate 150 65) 256).mpr (by
    rw [hchars]
    unfold Shr56Accepts decodeFits
    decide)
  obtain ⟨retStr, hret, -⟩ := shcr224_eq hsalt (fun _ _ _ _ => []) 0 []
  have hver : shcr224Verify (fun _ _ _ _ => []) (List.replicate 150 65) retStr [] =
      some (.error .inval) := by
    rcases decode_cases (List.replicate 150 65) shcr224Size with ⟨-, herr⟩ | ⟨hin, -⟩
    · rw [shcr224Verify, herr, Option.bind_some]
    · rw [hchars] at hin
      exact absurd hin.2 (by decide)
  refine ⟨retStr, hret, hver, fun hagrees => ?_⟩
  have hok := (hagrees retStr hret).1
  rw [hver] at hok
  cases hok

end LibShare.Mem
