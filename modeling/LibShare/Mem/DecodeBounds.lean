import LibShare.Mem.Codec
import LibShare.Mem.Encrypt

/-!
# libshare — the lengths that a decoder reads

Encoded data has its length in a field of its header, which may be anything. `ashdecode` and
`shdecode` deliver the field as it is. `shdecrypt` compares it with the size of its input, but
decrypts whole blocks, of which the last one may reach over the end.

Main results:

* `shdecryptIn_eq` — `shdecrypt` with its reads kept to its input is `shdecrypt` where no block
  reaches over the end.
* `ashdecode_delivers_iff`, `shdecode_delivers_iff`, `shdecrypt_delivers_iff` — when a call reads
  inside its input and delivers no more than it has decoded, or reports an error.
* `decode_bounds_iff` — all three for one input.
-/

namespace LibShare.Mem

/-! ## Reads of the input -/

/-- The input of a call as memory. -/
def inputMem (input : Bytes) : Memory := fun i => input.getD i 0

/-- What `fetch` reads is in the memory. -/
theorem slice_inputMem {input : Bytes} : ∀ {n a : Nat}, a + n ≤ input.length →
    slice (inputMem input) a n = (input.drop a).take n := by
  intro n
  induction n with
  | zero =>
    intro a _
    rfl
  | succ n ih =>
    intro a h
    have hdrop : input.drop a = inputMem input a :: input.drop (a + 1) := by
      have ha : a < input.length := by omega
      rw [List.drop_eq_getElem_cons ha, inputMem, List.getD_eq_getElem?_getD,
        List.getElem?_eq_getElem ha, Option.getD_some]
    rw [slice, ih (by omega), hdrop, List.take_succ_cons]

/-- Bytes of the input are those of the memory. -/
theorem fetch_inputMem {input : Bytes} {a n : Nat} (h : a + n ≤ input.length) :
    fetch input a n = some (slice (inputMem input) a n) := by
  rw [fetch_eq h, slice_inputMem h]

/-- The loop of `shdecrypt_bin`, which reads eight bytes in every pass. -/
def shdecryptBinLoopIn (k : List UInt32) (kLen : Nat) (input : Bytes) :
    Nat → Nat → Nat → Nat → Shbuf → Option Shbuf
  | 0, _, _, _, buff => some buff
  | n + 1, j, a, len, buff => do
    let v ← fetch input a 8
    (shbufCat buff ((decChunk k kLen j v).take (min 8 len))).bind
      (shdecryptBinLoopIn k kLen input n (j + 1) (a + 8) (len - 8))

/-- `shdecrypt_bin`. -/
def shdecryptBinIn (buff : Shbuf) (k : List UInt32) (kLen : Nat) (input : Bytes) (a len : Nat) :
    Option Shbuf :=
  shdecryptBinLoopIn k kLen input (blockCount len) 0 a len buff

/-- `_shdecrypt_v0`. -/
def shdecryptV0In (outBuff : Shbuf) (input key : Bytes) : BufResult :=
  if key.length < 20 then some (.error .inval, outBuff)
  else if input.length < 8 then some (.error .inval, outBuff)
  else do
    let magic ← fetch input 0 4
    if magic ≠ magic32 then some (.error .inval, outBuff)
    else
      let size ← (fetch input 4 4).map fun word => (leWord32 word).toNat
      if input.length - 8 < size then some (.error .inval, outBuff)
      else
        let k := leWords ((key.drop 4).take 16)
        -- the whole blocks of the input, which may be more than the size says
        let l := (input.length - 8) / 8 * 8 % 2 ^ 32
        let outBuff ← shdecryptBinIn outBuff k 1 input 8 l
        let tail ← fetch input (8 + l) (size - l)
        let outBuff ← catRemainder outBuff tail
        some (.ok (), outBuff)

/-- `_shdecrypt_v1`. The header is copied as a whole. -/
def shdecryptV1In (env : CryptEnv) (outBuff : Shbuf) (input key : Bytes) : BufResult :=
  if input.length < hdrSize then some (.error .inval, outBuff)
  else do
    let hdr ← fetch input 0 hdrSize
    if hdr.take 8 ≠ magic64 then some (.error .inval, outBuff)
    else
      let size := beAt (inputMem hdr) 1040 8
      if input.length - hdrSize < size then some (.error .inval, outBuff)
      else
        let outBuff ← shdecryptBinIn outBuff (shencryptV1Key env key) 4 input hdrSize size
        some (.ok (), outBuff)

/-- `shdecrypt_verify`. -/
def shdecryptVerifyIn (env : CryptEnv) (input : Bytes) : Option (Except Sherr Unit) :=
  if input.length < 8 then some (.error .inval)
  else do
    let first ← fetch input 0 8
    if first.take 4 = magic32 ∧ first ≠ magic64 then some (.ok ())
    else if first ≠ magic64 then some (.error .ilseq)
    else if input.length < hdrSize then some (.error .inval)
    else
      let hdr ← fetch input 0 hdrSize
      let signed ← fetch input 320 (input.length - 320)
      some (env.algVer (UInt32.ofNat (beAt (inputMem hdr) 1008 4)) (algAt (inputMem hdr) 632)
        (algAt (inputMem hdr) 8) signed)

/-- `shdecrypt`. -/
def shdecryptIn (env : CryptEnv) (outBuff : Shbuf) (input key : Bytes) : BufResult := do
  match ← shdecryptVerifyIn env input with
  | .error err => some (.error err, outBuff)
  | .ok _ =>
    let magic ← fetch input 0 8
    if magic ≠ magic64 then shdecryptV0In outBuff input key else shdecryptV1In env outBuff input key

variable {input key : Bytes} {env : CryptEnv} {out : Shbuf} {k : List UInt32} {kLen : Nat}

/-- The loop is that of `shdecrypt_bin` over the memory, where every block is inside. -/
theorem shdecryptBinLoopIn_eq : ∀ (n : Nat) {j a len : Nat} {buff : Shbuf},
    shdecryptBinLoopIn k kLen input n j a len buff =
      if n = 0 ∨ a + 8 * n ≤ input.length then
        shdecryptBinLoop k kLen (inputMem input) n j a len buff
      else none := by
  intro n
  induction n with
  | zero =>
    intro j a len buff
    rw [if_pos (Or.inl rfl)]
    rfl
  | succ n ih =>
    intro j a len buff
    rw [shdecryptBinLoopIn, shdecryptBinLoop]
    by_cases hin : a + 8 ≤ input.length
    · rw [fetch_inputMem hin, Option.bind_eq_bind, Option.bind_some]
      by_cases hall : a + 8 * (n + 1) ≤ input.length
      · rw [if_pos (Or.inr hall)]
        congr 1
        funext buff'
        rw [ih, if_pos (Or.inr (by omega))]
      · rw [if_neg (by omega)]
        -- a later block reaches over the end
        have hlater : (fun buff' =>
          shdecryptBinLoopIn k kLen input n (j + 1) (a + 8) (len - 8) buff') =
            fun _ => none := by
          funext buff'
          rw [ih, if_neg (by omega)]
        cases shbufCat buff _ with
        | none => rfl
        | some buff' => exact congrFun hlater buff'
    · rw [fetch, if_neg hin, if_neg (by omega)]
      rfl

/-- The loop of `shdecrypt_bin` ends where there can be a buffer for what it appends. -/
theorem shdecryptBinLoop_fits {d : Memory} :
    ∀ (n : Nat) {j a len : Nat} {buff : Shbuf}, blockCount len = n →
    buff.dataOf ≤ buff.dataMax →
    if len = 0 ∨ Fits (buff.dataOf + len) then
      ∃ buff', shdecryptBinLoop k kLen d n j a len buff = some buff' ∧
        buff'.dataOf = buff.dataOf + len ∧ buff'.dataOf ≤ buff'.dataMax
    else shdecryptBinLoop k kLen d n j a len buff = none := by
  intro n
  induction n with
  | zero =>
    intro j a len buff hcount hle
    rw [blockCount_eq_zero hcount, if_pos (Or.inl rfl)]
    exact ⟨buff, rfl, rfl, hle⟩
  | succ n ih =>
    intro j a len buff hcount hle
    obtain ⟨hpos, hcount'⟩ := blockCount_succ hcount
    have hlen : ((decChunk k kLen j (slice d a 8)).take (min 8 len)).length = min 8 len := by
      rw [List.length_take]
      exact Nat.min_eq_left (Nat.min_le_left 8 len)
    have hcat := shbufCat_spec hle ((decChunk k kLen j (slice d a 8)).take (min 8 len))
    rw [hlen] at hcat
    rw [shdecryptBinLoop]
    by_cases hone : Fits (buff.dataOf + min 8 len)
    · rw [if_pos hone] at hcat
      obtain ⟨buff₁, hrun, -⟩ := hcat
      have hext := shbufCat_extended hle hrun
      have hof := hext.dataOf
      rw [hlen] at hof
      rw [hrun, Option.bind_some]
      have hrest := @ih (j + 1) (a + 8) (len - 8) buff₁ hcount' hext.within
      -- what fits is the same, seen from the first block
      have hiff : (len - 8 = 0 ∨ Fits (buff₁.dataOf + (len - 8))) ↔
          (len = 0 ∨ Fits (buff.dataOf + len)) := by
        have hsum : min 8 len + (len - 8) = len := by omega
        rw [hof, Nat.add_assoc, hsum]
        constructor
        · rintro (hshort | hfits)
          · rw [show min 8 len = len by omega] at hone
            exact Or.inr hone
          · exact Or.inr hfits
        · rintro (hzero | hfits)
          · omega
          · exact Or.inr hfits
      simp only [hiff] at hrest
      split at hrest
      · next hfits =>
        obtain ⟨buff', hrun', hend, hwithin⟩ := hrest
        rw [if_pos hfits]
        exact ⟨buff', hrun', by omega, hwithin⟩
      · next hfits =>
        rw [if_neg hfits]
        exact hrest
    · rw [if_neg hone] at hcat
      rw [hcat, Option.bind_none, if_neg]
      rintro (hzero | hfits)
      · omega
      · exact hone (hfits.mono (Nat.add_le_add_left (Nat.min_le_right 8 len) _))

/-- What `shdecrypt_bin` appends, if its blocks are inside and there can be a buffer. -/
theorem shdecryptBinIn_spec (hle : out.dataOf ≤ out.dataMax) (a len : Nat) :
    if (len = 0 ∨ a + 8 * blockCount len ≤ input.length) ∧ (len = 0 ∨ Fits (out.dataOf + len)) then
      ∃ out', shdecryptBinIn out k kLen input a len = some out' ∧ out'.dataOf = out.dataOf + len ∧
        out'.dataOf ≤ out'.dataMax
    else shdecryptBinIn out k kLen input a len = none := by
  have hloop := @shdecryptBinLoop_fits k kLen (inputMem input) (blockCount len) 0 a len out rfl hle
  have hzero : blockCount len = 0 ↔ len = 0 := ⟨blockCount_eq_zero, fun h => by rw [h]; rfl⟩
  rw [shdecryptBinIn, shdecryptBinLoopIn_eq]
  simp only [hzero]
  by_cases hin : len = 0 ∨ a + 8 * blockCount len ≤ input.length
  · simp only [hin, true_and, if_true]
    exact hloop
  · simp only [hin, false_and, if_false]

/-! ## The two formats -/

/-- The size in the header of algorithm zero. -/
def v0Size (input : Bytes) : Nat := (leWord32 ((input.drop 4).take 4)).toNat

/-- The whole blocks that are decrypted of it, counted in 32 bits. -/
def v0Blocks (input : Bytes) : Nat := (input.length - 8) / 8 * 8 % 2 ^ 32

/-- The size in the header of the other algorithms. -/
def v1Size (input : Bytes) : Nat := beVal ((input.drop 1040).take 8)

/-- What `_shdecrypt_v0` delivers: the whole blocks, or the size where it is greater. -/
def v0Len (input : Bytes) : Nat := max (v0Blocks input) (v0Size input)

/-- The outcome of a call: an error, or so many bytes behind those that were in the buffer. -/
def Delivers (out : Shbuf) (r : BufResult) (len : Nat) : Prop :=
  ∃ out', r = some (.ok (), out') ∧ out'.dataOf = out.dataOf + len ∧ out'.dataOf ≤ out'.dataMax

/-- The blocks lie behind the header. -/
theorem v0Blocks_le (input : Bytes) : v0Blocks input ≤ input.length - 8 :=
  Nat.le_trans (Nat.mod_le _ _) (Nat.div_mul_le_self _ _)

/-- The blocks have eight bytes each. -/
theorem dvd_v0Blocks (input : Bytes) : v0Blocks input % 8 = 0 := by
  unfold v0Blocks
  omega

/-- `_shdecrypt_v0` finds no error. -/
def V0Accepts (input key : Bytes) : Prop :=
  20 ≤ key.length ∧ 8 ≤ input.length ∧ input.take 4 = magic32 ∧ v0Size input ≤ input.length - 8

/-- An input that is not accepted is refused, and nothing is delivered. -/
theorem shdecryptV0In_refused (out : Shbuf) (h : ¬ V0Accepts input key) :
    shdecryptV0In out input key = some (.error .inval, out) := by
  unfold shdecryptV0In
  by_cases hkey : key.length < 20
  · rw [if_pos hkey]
  by_cases hlen : input.length < 8
  · rw [if_neg hkey, if_pos hlen]
  rw [if_neg hkey, if_neg hlen, fetch_eq (by omega), List.drop_zero, Option.bind_eq_bind,
    Option.bind_some]
  by_cases hmagic : input.take 4 ≠ magic32
  · rw [if_pos hmagic]
  have hsize : input.length - 8 < v0Size input := by
    by_contra hle
    exact h ⟨Nat.not_lt.mp hkey, Nat.not_lt.mp hlen, not_not.mp hmagic, Nat.not_lt.mp hle⟩
  rw [if_neg hmagic, fetch_eq (by omega), Option.map_some, Option.bind_eq_bind, Option.bind_some]
  exact if_pos hsize

/-- An input that is accepted is decoded block by block, and its rest appended. -/
theorem shdecryptV0In_accepted (out : Shbuf) (h : V0Accepts input key) :
    shdecryptV0In out input key =
    (shdecryptBinIn out (leWords ((key.drop 4).take 16)) 1 input 8 (v0Blocks input)).bind fun out =>
      (fetch input (8 + v0Blocks input) (v0Size input - v0Blocks input)).bind fun tail =>
        (catRemainder out tail).bind fun out => some (.ok (), out) := by
  obtain ⟨hkey, hlen, hmagic, hsize⟩ := h
  unfold shdecryptV0In
  rw [if_neg (Nat.not_lt.mpr hkey), if_neg (Nat.not_lt.mpr hlen), fetch_eq (by omega),
    List.drop_zero, Option.bind_eq_bind, Option.bind_some, if_neg (not_not.mpr hmagic),
      fetch_eq (by omega), Option.map_some,
    Option.bind_eq_bind, Option.bind_some]
  exact if_neg (Nat.not_lt.mpr hsize)

/-- What is appended by `catRemainder`. -/
theorem catRemainder_spec (hle : out.dataOf ≤ out.dataMax) (tail : Bytes) :
    if tail.length = 0 ∨ Fits (out.dataOf + tail.length) then
      ∃ out', catRemainder out tail = some out' ∧ out'.dataOf = out.dataOf + tail.length ∧
        out'.dataOf ≤ out'.dataMax
    else catRemainder out tail = none := by
  by_cases hnil : tail = []
  · rw [hnil, List.length_nil, if_pos (Or.inl rfl)]
    exact ⟨out, if_pos rfl, rfl, hle⟩
  · have hne : ¬ tail.length = 0 := fun hzero => hnil (List.length_eq_zero_iff.mp hzero)
    have hcat := shbufCat_spec hle tail
    rw [catRemainder, if_neg hnil]
    simp only [hne, false_or]
    split at hcat
    · next hfits =>
      obtain ⟨out', hrun, -⟩ := hcat
      have hext := shbufCat_extended hle hrun
      rw [if_pos hfits]
      exact ⟨out', hrun, hext.dataOf, hext.within⟩
    · next hfits =>
      rw [if_neg hfits]
      exact hcat

/-- What `_shdecrypt_v0` takes it delivers, where there can be a buffer. -/
theorem shdecryptV0In_spec (hle : out.dataOf ≤ out.dataMax) (h : V0Accepts input key) :
    if v0Len input = 0 ∨ Fits (out.dataOf + v0Len input) then
      Delivers out (shdecryptV0In out input key) (v0Len input)
    else shdecryptV0In out input key = none := by
  rw [shdecryptV0In_accepted out h]
  obtain ⟨-, hlen, -, hsize⟩ := h
  have hblocks := v0Blocks_le input
  -- the blocks and the remainder are inside
  have hcount : 8 + 8 * blockCount (v0Blocks input) ≤ input.length := by
    have hwhole := dvd_v0Blocks input
    unfold blockCount
    rw [if_pos hwhole]
    omega
  have hbin :=
    @shdecryptBinIn_spec input out (leWords ((key.drop 4).take 16)) 1 hle 8 (v0Blocks input)
  simp only [hcount, or_true, true_and] at hbin
  have htail : fetch input (8 + v0Blocks input) (v0Size input - v0Blocks input) =
      some ((input.drop (8 + v0Blocks input)).take (v0Size input - v0Blocks input)) :=
        fetch_eq (by omega)
  have htailLen : ((input.drop (8 + v0Blocks input)).take (v0Size input - v0Blocks input)).length =
      v0Size input - v0Blocks input := by
    rw [List.length_take, List.length_drop]
    omega
  have hsum : v0Blocks input + (v0Size input - v0Blocks input) = v0Len input := by
    unfold v0Len
    omega
  by_cases hfirst : v0Blocks input = 0 ∨ Fits (out.dataOf + v0Blocks input)
  · rw [if_pos hfirst] at hbin
    obtain ⟨out₁, hrun, hof, hwithin⟩ := hbin
    have hrest := catRemainder_spec hwithin
      ((input.drop (8 + v0Blocks input)).take (v0Size input - v0Blocks input))
    rw [htailLen, hof, Nat.add_assoc, hsum] at hrest
    have hiff : (v0Size input - v0Blocks input = 0 ∨ Fits (out.dataOf + v0Len input)) ↔
        (v0Len input = 0 ∨ Fits (out.dataOf + v0Len input)) := by
      constructor
      · rintro (hzero | hfits)
        · rw [hzero, Nat.add_zero] at hsum
          rw [← hsum]
          exact hfirst
        · exact Or.inr hfits
      · exact fun hor => hor.imp_left fun hzero => by omega
    simp only [hiff] at hrest
    simp only [hrun, htail, Option.bind_some]
    split at hrest
    · next hfits =>
      obtain ⟨out', hrun', hof', hwithin'⟩ := hrest
      rw [if_pos hfits, hrun']
      exact ⟨out', rfl, hof', hwithin'⟩
    · next hfits =>
      rw [if_neg hfits, hrest]
      rfl
  · rw [if_neg hfirst] at hbin
    rw [if_neg, hbin]
    · rfl
    · rintro (hzero | hfits)
      · exact hfirst (Or.inl (by omega))
      · exact hfirst (Or.inr (hfits.mono (by omega)))

/-- `_shdecrypt_v1` finds no error. -/
def V1Accepts (input : Bytes) : Prop :=
  hdrSize ≤ input.length ∧ input.take 8 = magic64 ∧ v1Size input ≤ input.length - hdrSize

/-- The length is in the header. -/
theorem v1Size_hdr (h : hdrSize ≤ input.length) :
    beAt (inputMem (input.take hdrSize)) 1040 8 = v1Size input := by
  have hlen : (input.take hdrSize).length = hdrSize := by
    rw [List.length_take]
    exact Nat.min_eq_left h
  rw [beAt, slice_inputMem (by rw [hlen]; decide), List.drop_take, List.take_take]
  rfl

/-- An input of the second format that is not accepted is refused. -/
theorem shdecryptV1In_refused (out : Shbuf) (h : ¬ V1Accepts input) :
    shdecryptV1In env out input key = some (.error .inval, out) := by
  unfold shdecryptV1In
  by_cases hlen : input.length < hdrSize
  · rw [if_pos hlen]
  rw [if_neg hlen, fetch_eq (by omega), List.drop_zero, Option.bind_eq_bind, Option.bind_some]
  by_cases hmagic : (input.take hdrSize).take 8 ≠ magic64
  · rw [if_pos hmagic]
  rw [if_neg hmagic, v1Size_hdr (Nat.not_lt.mp hlen)]
  refine if_pos ?_
  by_contra hle
  refine h ⟨Nat.not_lt.mp hlen, ?_, Nat.not_lt.mp hle⟩
  rw [List.take_take] at hmagic
  exact not_not.mp hmagic

/-- What `_shdecrypt_v1` takes it delivers, where the last block is inside and there can be a
buffer. -/
theorem shdecryptV1In_spec (hle : out.dataOf ≤ out.dataMax) (h : V1Accepts input) :
    if (v1Size input = 0 ∨ hdrSize + 8 * blockCount (v1Size input) ≤ input.length) ∧
        (v1Size input = 0 ∨ Fits (out.dataOf + v1Size input)) then
      Delivers out (shdecryptV1In env out input key) (v1Size input)
    else shdecryptV1In env out input key = none := by
  obtain ⟨hlen, hmagic, hsize⟩ := h
  have hmagic' : ¬ (input.take hdrSize).take 8 ≠ magic64 := by
    rw [List.take_take]
    exact not_not.mpr hmagic
  have hrun : shdecryptV1In env out input key =
      (shdecryptBinIn out (shencryptV1Key env key) 4 input hdrSize (v1Size input)).bind fun out =>
        some (.ok (), out) := by
    unfold shdecryptV1In
    rw [if_neg (Nat.not_lt.mpr hlen), fetch_eq (by omega), List.drop_zero, Option.bind_eq_bind,
      Option.bind_some, if_neg hmagic', v1Size_hdr hlen]
    exact if_neg (Nat.not_lt.mpr hsize)
  have hbin := @shdecryptBinIn_spec input out (shencryptV1Key env key) 4 hle hdrSize (v1Size input)
  rw [hrun]
  split at hbin
  · next hgood =>
    obtain ⟨out', hbin, hof, hwithin⟩ := hbin
    rw [if_pos hgood, hbin]
    exact ⟨out', rfl, hof, hwithin⟩
  · next hbad =>
    rw [if_neg hbad, hbin]
    rfl

/-! ## Reads of memory -/

theorem take_slice {d : Memory} {a m n : Nat} (h : m ≤ n) : (slice d a n).take m = slice d a m := by
  have hsplit := slice_append d (n - m) m a
  rw [Nat.add_sub_cancel' h] at hsplit
  rw [hsplit, List.take_left' (length_slice _ _ _)]

/-- A header that is copied is read as it is in the input. -/
theorem inputMem_take {m i : Nat} (h : i < m) : inputMem (input.take m) i = inputMem input i := by
  rw [inputMem, inputMem, List.getD_eq_getElem?_getD, List.getD_eq_getElem?_getD,
    List.getElem?_take_of_lt h]

/-- A field at the front depends on the front only. -/
theorem beAt_take {m a w : Nat} (h : a + w ≤ m) :
    beAt (inputMem (input.take m)) a w = beAt (inputMem input) a w := by
  rw [beAt, beAt]
  exact congrArg beVal (slice_congr fun i _ hi => inputMem_take (by omega))

/-- A key at the front depends on the front only. -/
theorem algAt_take {m a : Nat} (h : a + 312 ≤ m) :
    algAt (inputMem (input.take m)) a = algAt (inputMem input) a := by
  unfold algAt
  congr 1
  funext i
  exact inputMem_take (by omega)

/-- The verification reads the header only. -/
theorem shdecryptVerifyIn_eq (env : CryptEnv) (input : Bytes) :
    shdecryptVerifyIn env input = some (shdecryptVerify env (inputMem input) input.length) := by
  unfold shdecryptVerifyIn shdecryptVerify
  by_cases hlen : input.length < 8
  · rw [if_pos hlen, if_pos hlen]
  rw [if_neg hlen, if_neg hlen, fetch_inputMem (by omega), Option.bind_eq_bind, Option.bind_some,
    take_slice (by decide)]
  split
  · rfl
  · split
    · rfl
    · split
      · rfl
      · next hhdr =>
        have hmore : 320 ≤ hdrSize := by decide
        rw [fetch_eq (by omega), fetch_inputMem (by omega), List.drop_zero, Option.bind_some,
          Option.bind_some, beAt_take (by decide), algAt_take (by decide), algAt_take (by decide)]

/-- Nothing of a segment of algorithm zero is read beyond its end. -/
theorem shdecryptV0In_eq (out : Shbuf) (input key : Bytes) :
    shdecryptV0In out input key = shdecryptV0 out (inputMem input) input.length key := by
  unfold shdecryptV0In shdecryptV0
  by_cases hkey : key.length < 20
  · rw [if_pos hkey, if_pos hkey]
  by_cases hlen : input.length < 8
  · rw [if_neg hkey, if_neg hkey, if_pos hlen, if_pos hlen]
  rw [if_neg hkey, if_neg hkey, if_neg hlen, if_neg hlen, fetch_inputMem (by omega),
    Option.bind_eq_bind, Option.bind_some]
  by_cases hmagic : slice (inputMem input) 0 4 ≠ magic32
  · rw [if_pos hmagic, if_pos hmagic]
  rw [if_neg hmagic, if_neg hmagic, fetch_inputMem (by omega), Option.map_some, Option.bind_eq_bind,
    Option.bind_some]
  dsimp only
  generalize (leWord32 (slice (inputMem input) 4 4)).toNat = size
  by_cases hsize : input.length - 8 < size
  · rw [if_pos hsize, if_pos hsize]
  rw [if_neg hsize, if_neg hsize]
  have hblocks := v0Blocks_le input
  have hwhole := dvd_v0Blocks input
  unfold v0Blocks at hblocks hwhole
  generalize (input.length - 8) / 8 * 8 % 2 ^ 32 = l at hblocks hwhole
  have hcount : 8 + 8 * blockCount l ≤ input.length := by
    unfold blockCount
    rw [if_pos hwhole]
    omega
  rw [shdecryptBinIn, shdecryptBinLoopIn_eq, if_pos (Or.inr hcount), fetch_inputMem (by omega)]
  rfl

/-- `shdecrypt` reads inside its input, if the last block of a segment is inside. -/
theorem shdecryptIn_eq (env : CryptEnv) (out : Shbuf) (input key : Bytes)
    (hin : V1Accepts input → v1Size input = 0 ∨
      hdrSize + 8 * blockCount (v1Size input) ≤ input.length) :
    shdecryptIn env out input key = shdecrypt env out (inputMem input) input.length key := by
  unfold shdecryptIn shdecrypt
  rw [shdecryptVerifyIn_eq, Option.bind_eq_bind, Option.bind_some]
  cases hverify : shdecryptVerify env (inputMem input) input.length with
  | error err => rfl
  | ok u =>
    have hlen : 8 ≤ input.length := by
      by_contra hshort
      rw [shdecryptVerify, if_pos (Nat.not_le.mp hshort)] at hverify
      exact nomatch hverify
    have hfirst : fetch input 0 8 = some (slice (inputMem input) 0 8) := fetch_inputMem (by omega)
    simp only [hfirst, Option.bind_eq_bind, Option.bind_some, shdecryptV0In_eq]
    split
    · rfl
    · next hmagic =>
      rw [not_not, slice_inputMem (by omega), List.drop_zero] at hmagic
      unfold shdecryptV1
      rw [slice_inputMem (by omega), List.drop_zero]
      by_cases haccepts : V1Accepts input
      · obtain ⟨hhdr, -, hsize⟩ := haccepts
        have hv1 : beAt (inputMem input) 1040 8 = v1Size input := by
          rw [← v1Size_hdr hhdr, beAt_take (by decide)]
        have hcopied : ¬ (input.take hdrSize).take 8 ≠ magic64 := by
          rw [List.take_take]
          exact not_not.mpr hmagic
        have hzero : blockCount (v1Size input) = 0 ↔ v1Size input = 0 :=
          ⟨blockCount_eq_zero, fun h => by rw [h]; rfl⟩
        rw [shdecryptV1In, if_neg (Nat.not_lt.mpr hhdr), if_neg (Nat.not_lt.mpr hhdr),
          fetch_eq (by omega), List.drop_zero, Option.bind_eq_bind, Option.bind_some,
            if_neg hcopied, if_neg (not_not.mpr hmagic),
          v1Size_hdr hhdr, hv1, if_neg (Nat.not_lt.mpr hsize), if_neg (Nat.not_lt.mpr hsize),
            shdecryptBinIn,
          shdecryptBinLoopIn_eq, if_pos (hin ⟨hhdr, hmagic, hsize⟩ |>.imp_left hzero.mpr)]
        rfl
      · rw [shdecryptV1In_refused out haccepts]
        by_cases hhdr : input.length < hdrSize
        · rw [if_pos hhdr]
        · have hv1 : beAt (inputMem input) 1040 8 = v1Size input := by
            rw [← v1Size_hdr (Nat.not_lt.mp hhdr), beAt_take (by decide)]
          have hsize : input.length - hdrSize < v1Size input := by
            by_contra hle
            exact haccepts ⟨Nat.not_lt.mp hhdr, hmagic, Nat.not_lt.mp hle⟩
          rw [if_neg hhdr, if_neg (not_not.mpr hmagic), hv1]
          exact (if_pos hsize).symm

/-! ## The decoders -/

/-- The verification reads inside the input. -/
theorem shdecryptVerifyIn_total (env : CryptEnv) (input : Bytes) :
    ∃ r, shdecryptVerifyIn env input = some r := by
  unfold shdecryptVerifyIn
  split
  · exact ⟨_, rfl⟩
  · rw [fetch_eq (by omega), Option.bind_eq_bind, Option.bind_some]
    split
    · exact ⟨_, rfl⟩
    · split
      · exact ⟨_, rfl⟩
      · split
        · exact ⟨_, rfl⟩
        · next hlen =>
          have hhdr : 320 ≤ hdrSize := by decide
          rw [fetch_eq (by omega), fetch_eq (by omega)]
          exact ⟨_, rfl⟩

/-- How many bytes `shdecrypt` can have decoded. -/
def decodedBytes (input : Bytes) : Nat :=
  input.length - if input.take 8 = magic64 then hdrSize else 8

/-- `shdecrypt` reports an error, or delivers what it has decoded. -/
def ShdecryptSound (env : CryptEnv) (out : Shbuf) (input key : Bytes) : Prop :=
  (∃ err out', shdecryptIn env out input key = some (.error err, out')) ∨
    ∃ len, Delivers out (shdecryptIn env out input key) len ∧ len ≤ decodedBytes input

/-- Segments whose last block is inside, with room for a buffer. -/
def ShdecryptBounded (env : CryptEnv) (out : Shbuf) (input key : Bytes) : Prop :=
  shdecryptVerifyIn env input = some (.ok ()) →
    (input.take 8 ≠ magic64 → V0Accepts input key →
      v0Len input = 0 ∨ Fits (out.dataOf + v0Len input)) ∧
    (input.take 8 = magic64 → V1Accepts input →
      (v1Size input = 0 ∨ hdrSize + 8 * blockCount (v1Size input) ≤ input.length) ∧
        (v1Size input = 0 ∨ Fits (out.dataOf + v1Size input)))

/-- An outcome that is either delivered as it should be or none at all. -/
theorem sound_of_spec {P : Prop} [Decidable P] {r : BufResult} {len bound : Nat}
    (hbound : len ≤ bound)
    (h : if P then Delivers out r len else r = none) :
    ((∃ err out', r = some (.error err, out')) ∨ ∃ n, Delivers out r n ∧ n ≤ bound) ↔ P := by
  split at h
  · next hp => exact iff_of_true (Or.inr ⟨len, h, hbound⟩) hp
  · next hp =>
    refine iff_of_false ?_ hp
    rintro (⟨err, out', hrun⟩ | ⟨n, ⟨out', hrun, -⟩, -⟩)
    · exact nomatch h.symm.trans hrun
    · exact nomatch h.symm.trans hrun

/-- `shdecrypt` delivers no more than its bound just when it delivers bytes of the input. -/
theorem shdecrypt_delivers_iff (env : CryptEnv) (hle : out.dataOf ≤ out.dataMax)
    (input key : Bytes) :
    ShdecryptSound env out input key ↔ ShdecryptBounded env out input key := by
  unfold ShdecryptSound ShdecryptBounded shdecryptIn
  obtain ⟨r, hverify⟩ := shdecryptVerifyIn_total env input
  rw [hverify, Option.bind_eq_bind, Option.bind_some]
  cases r with
  | error err => exact iff_of_true (Or.inl ⟨err, out, rfl⟩) fun hbad => nomatch hbad
  | ok u =>
    dsimp only
    -- what is verified has eight bytes
    have hlen : 8 ≤ input.length := by
      by_contra hshort
      rw [shdecryptVerifyIn, if_pos (Nat.not_le.mp hshort)] at hverify
      exact nomatch hverify
    rw [fetch_eq (by omega), List.drop_zero]
    simp only [Option.bind_eq_bind, Option.bind_some]
    by_cases hmagic : input.take 8 = magic64
    · rw [if_neg (not_not.mpr hmagic)]
      simp only [decodedBytes, hmagic, if_true, ne_eq, not_true_eq_false, false_imp_iff, true_and,
        forall_const]
      by_cases haccepts : V1Accepts input
      · rw [sound_of_spec haccepts.2.2 (shdecryptV1In_spec hle haccepts)]
        exact ⟨fun h _ => h, fun h => h haccepts⟩
      · rw [shdecryptV1In_refused out haccepts]
        exact iff_of_true (Or.inl ⟨_, _, rfl⟩) fun hbad => absurd hbad haccepts
    · rw [if_pos hmagic]
      simp only [decodedBytes, hmagic, if_false, ne_eq, not_false_eq_true, false_imp_iff, and_true,
        forall_const]
      by_cases haccepts : V0Accepts input key
      · have hbound : v0Len input ≤ input.length - 8 :=
          Nat.max_le.mpr ⟨v0Blocks_le input, haccepts.2.2.2⟩
        rw [sound_of_spec hbound (shdecryptV0In_spec hle haccepts)]
        exact ⟨fun h _ => h, fun h => h haccepts⟩
      · rw [shdecryptV0In_refused out haccepts]
        exact iff_of_true (Or.inl ⟨_, _, rfl⟩) fun hbad => absurd hbad haccepts

/-- How many bytes there are after `ashdecode`: a header less, where the input is taken for
encoded. -/
def presentInPlace (input : Bytes) : Nat :=
  if 8 ≤ input.length % 2 ^ 32 ∧ isCryptMagic input = true then
    input.length % 2 ^ 32 - 8 else input.length

/-- `ashdecode` delivers no more than there is. -/
def AshdecodeSound (input : Bytes) (key : ShKey) : Prop :=
  ∃ buf n, ashdecode input input.length key = some (buf, n) ∧ n ≤ presentInPlace input

/-- `ashdecode` is sound just when the length in the header is that of the input or less. -/
theorem ashdecode_delivers_iff (input : Bytes) (key : ShKey) : AshdecodeSound input key ↔
    (8 ≤ input.length % 2 ^ 32 → isCryptMagic input = true →
      cryptLength input ≤ input.length % 2 ^ 32 - 8) := by
  unfold AshdecodeSound presentInPlace
  rw [ashdecode_eq input key (Nat.mod_le _ _)]
  by_cases hencoded : 8 ≤ input.length % 2 ^ 32 ∧ isCryptMagic input = true
  · rw [if_neg (by
        rw [hencoded.2]
        exact fun hor => hor.elim (Nat.not_lt.mpr hencoded.1) fun hno => nomatch hno),
      if_pos hencoded]
    simp only [Option.some.injEq, Prod.mk.injEq]
    constructor
    · rintro ⟨buf, n, ⟨-, rfl⟩, hle⟩ _ _
      exact hle
    · exact fun h => ⟨_, _, ⟨rfl, rfl⟩, h hencoded.1 hencoded.2⟩
  · have hplain : input.length % 2 ^ 32 < 8 ∨ isCryptMagic input = false := by
      by_contra hboth
      rw [not_or, Nat.not_lt, Bool.not_eq_false] at hboth
      exact hencoded hboth
    rw [if_pos hplain, if_neg hencoded]
    exact iff_of_true ⟨_, _, rfl, Nat.le_refl _⟩ fun hlen hmagic => absurd ⟨hlen, hmagic⟩ hencoded

/-- `shdecode` sets its output arguments, and delivers no more than it has decoded. -/
def ShdecodeSound (input : Bytes) (key : ShKey) : Prop :=
  ∃ h, shdecodeCopy input key = some (some h) ∧ h.len ≤ h.buff.dataOf

/-- A fetch at the front depends on the front only. -/
theorem fetch_take {input : Bytes} {a n m : Nat} (h : a + n ≤ m) (hm : m ≤ input.length) :
    fetch (input.take m) a n = fetch input a n := by
  rw [fetch_eq (by rw [List.length_take]; omega), fetch_eq (by omega), List.drop_take,
    List.take_take, Nat.min_eq_left (by omega)]

/-- What is beyond a length of 32 bits is not seen. -/
theorem shdecodeCopy_take (input : Bytes) (key : ShKey) :
    shdecodeCopy (input.take (input.length % 2 ^ 32)) key = shdecodeCopy input key := by
  have hle : input.length % 2 ^ 32 ≤ input.length := Nat.mod_le _ _
  have hlength : (input.take (input.length % 2 ^ 32)).length % 2 ^ 32 = input.length % 2 ^ 32 := by
    rw [List.length_take, Nat.min_eq_left hle, Nat.mod_mod]
  unfold shdecodeCopy
  rw [hlength]
  generalize input.length % 2 ^ 32 = l at hle
  dsimp only
  by_cases hshort : l < 8
  · rw [if_pos hshort, if_pos hshort, fetch_take (by omega) hle]
  · rw [if_neg hshort, if_neg hshort, fetch_take (by omega) hle, fetch_take (by omega) hle,
      fetch_take (by omega) hle]

/-- `shdecode` is sound just when the input is short, or has the length that its header says. -/
theorem shdecode_delivers_iff (input : Bytes) (key : ShKey) : ShdecodeSound input key ↔
    input.length % 2 ^ 32 < 8 ∨ (isCryptMagic input = true ∧ Fits (input.length % 2 ^ 32 - 8) ∧
      cryptLength input ≤ input.length % 2 ^ 32 - 8) := by
  have hle : input.length % 2 ^ 32 ≤ input.length := Nat.mod_le _ _
  have hlength : (input.take (input.length % 2 ^ 32)).length = input.length % 2 ^ 32 := by
    rw [List.length_take, Nat.min_eq_left hle]
  have hlt : input.length % 2 ^ 32 < 2 ^ 32 := Nat.mod_lt _ (by decide)
  unfold ShdecodeSound
  rw [← shdecodeCopy_take]
  have hmagic (h : 8 ≤ input.length % 2 ^ 32) :
      isCryptMagic (input.take (input.length % 2 ^ 32)) = isCryptMagic input := by
    rw [isCryptMagic, isCryptMagic, List.take_take, Nat.min_eq_left (by omega)]
  have hfield (h : 8 ≤ input.length % 2 ^ 32) :
      cryptLength (input.take (input.length % 2 ^ 32)) = cryptLength input := by
    rw [cryptLength, cryptLength, List.drop_take, List.take_take, Nat.min_eq_left (by omega)]
  generalize input.take (input.length % 2 ^ 32) = I at hlength hmagic hfield
  rw [← hlength] at hlt hmagic hfield ⊢
  by_cases hshort : I.length < 8
  · obtain ⟨h, hrun, -, hlen, hof, -⟩ := shdecodeCopy_short key hshort
    exact iff_of_true ⟨h, hrun, by rw [hlen, hof]⟩ (Or.inl hshort)
  have hrun := shdecodeCopy_eq key hlt hshort
  rw [hmagic (Nat.not_lt.mp hshort), hfield (Nat.not_lt.mp hshort)] at hrun
  simp only [hshort, false_or]
  split at hrun
  · next hyes =>
    split at hrun
    · next hfits =>
      obtain ⟨h, hrun, hlen, hof, -⟩ := hrun
      simp only [hyes, hfits, true_and]
      constructor
      · rintro ⟨h', hrun', hbound⟩
        obtain rfl : h = h' := Option.some.inj (Option.some.inj (hrun.symm.trans hrun'))
        rwa [hlen, hof] at hbound
      · exact fun hbound => ⟨h, hrun, by rwa [hlen, hof]⟩
    · next hfits =>
      refine iff_of_false ?_ fun hright => hfits hright.2.1
      rintro ⟨h, hrun', -⟩
      cases hrun.symm.trans hrun'
  · next hno =>
    refine iff_of_false ?_ fun hright => hno hright.1
    rintro ⟨h, hrun', -⟩
    cases hrun.symm.trans hrun'

/-- When the decoders read inside their input and deliver no more than they have decoded, or report
an error. -/
theorem decode_bounds_iff (env : CryptEnv) (out : Shbuf) (hle : out.dataOf ≤ out.dataMax)
    (input keyData : Bytes) (key : ShKey) :
    (AshdecodeSound input key ↔ (8 ≤ input.length % 2 ^ 32 → isCryptMagic input = true →
      cryptLength input ≤ input.length % 2 ^ 32 - 8)) ∧
    (ShdecodeSound input key ↔ input.length % 2 ^ 32 < 8 ∨ (isCryptMagic input = true ∧
      Fits (input.length % 2 ^ 32 - 8) ∧ cryptLength input ≤ input.length % 2 ^ 32 - 8)) ∧
    (ShdecryptSound env out input keyData ↔ ShdecryptBounded env out input keyData) :=
  ⟨ashdecode_delivers_iff input key, shdecode_delivers_iff input key,
    shdecrypt_delivers_iff env hle input keyData⟩

/-- Sixteen bytes behind a header that claims thirteen. -/
def claimsThirteen : Bytes := cryptHeader 13 ++ List.replicate 16 9

/-- What all three decoders are given of it is inside. -/
theorem decode_bounds_thirteen : AshdecodeSound claimsThirteen ashkeyBlank ∧
    ShdecodeSound claimsThirteen ashkeyBlank ∧
    ShdecryptSound CryptEnv.trusting shbufInit claimsThirteen [1, 2, 3] := by
  obtain ⟨hinPlace, hcopied, hsegment⟩ :=
    decode_bounds_iff CryptEnv.trusting shbufInit (Nat.le_refl _) claimsThirteen [1, 2,
      3] ashkeyBlank
  refine ⟨hinPlace.mpr fun _ _ =>
    by decide, hcopied.mpr (.inr ⟨by decide, by decide, by decide⟩), hsegment.mpr fun _ => ?_⟩
  exact ⟨fun _ _ => .inr (by decide +kernel), fun hmagic => absurd hmagic (by decide)⟩

/-- Eight bytes behind a header that claims a thousand. -/
def claimsThousand : Bytes := cryptHeader 1000 ++ List.replicate 8 0

/-- Three bytes that claim to be a thousand are delivered as a thousand. -/
theorem thousand_delivered : ¬ AshdecodeSound claimsThousand ashkeyBlank := by
  rintro ⟨buf, n, hrun, hle⟩
  have hn : (ashdecode claimsThousand claimsThousand.length ashkeyBlank).map Prod.snd =
      some 1000 := by
    decide +kernel
  rw [hrun, Option.map_some, Option.some.injEq] at hn
  have hpresent : presentInPlace claimsThousand = 8 := by decide
  dsimp only at hn
  omega

end LibShare.Mem
