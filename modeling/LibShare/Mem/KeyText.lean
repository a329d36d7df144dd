import LibShare.Base

/-!
# libshare — checksums and keys as texts

A number is written in the 64 characters of `_crc_str_map`, its lowest digit first and without
zeros at its end (`shcrcstr` and `shcrcgen` of `share.c`). A key is the texts of its seven code
words, one behind the other (`shmem_key.c`). Each is filled up to six characters on the left,
with a character that is no digit.

* `shcrcgen_shcrcstr` — a number is read as it was written.
* `key_text` — so are the code words of a key.
-/

namespace LibShare.Mem

/-! ## Numbers -/

/-- `_crc_str_map`. -/
def crcStrMap : List Char :=
  "-ABCDEFGHIJKLMNOPQRSTUVWXYZabcdefghijklmnopqrstuvwxyz0123456789+".toList

/-- The character of a digit. -/
def crcChar (d : Nat) : Char := crcStrMap.getD d '-'

/-- The loop of `shcrcstr`, with the number of characters that there is room for. -/
def shcrcstrLoop : Nat → UInt64 → List Char
  | 0, _ => []
  | room + 1, tcrc =>
    if tcrc = 0 then [] else crcChar (tcrc % 64).toNat :: shcrcstrLoop room (tcrc >>> 6)

/-- `shcrcstr`. -/
def shcrcstr (crc : UInt64) : List Char := shcrcstrLoop 65 crc

/-- `stridx`. -/
def stridx (str : List Char) (ch : Char) : Option Nat := str.findIdx? (· = ch)

/-- The loop of `shcrcgen`, over the characters from the last one on. -/
def shcrcgenLoop : List Char → UInt64 → Option UInt64
  | [], crc => some crc
  | ch :: rest, crc =>
    (stridx crcStrMap ch).bind fun idx =>
      let crc := crc + UInt64.ofNat idx
      shcrcgenLoop rest (if rest = [] then crc else crc <<< 6)

/-- `shcrcgen`. -/
def shcrcgen (str : List Char) : UInt64 := (shcrcgenLoop str.reverse 0).getD 0

/-! ## Keys -/

/-- `sprintf` of a text with `%6.6s`. -/
def printWord (str : List Char) : List Char :=
  List.replicate (6 - (str.take 6).length) ' ' ++ str.take 6

/-- `shkey_print`. -/
def shkeyPrint (key : ShKey) : List Char :=
  (key.code.toList.flatMap fun w => printWord (shcrcstr w.toUInt64)).map fun ch =>
    if ch = ' ' then '.' else ch

/-- One code word of `shkey_gen`. -/
def genWord (str : List Char) : UInt32 := (shcrcgen (str.dropWhile (· = '.'))).toUInt32

/-- `shkey_gen`. -/
def shkeyGen (str : List Char) : Option ShKey :=
  if str.length ≠ 42 then none
  else
    some { ashkeyBlank with
      code := Vector.ofFn fun i : Fin 7 => genWord ((str.drop (i * 6)).take 6) }

/-! ## Digits -/

theorem crcStrMap_eq :
    crcStrMap = ['-', 'A', 'B', 'C', 'D', 'E', 'F', 'G', 'H', 'I', 'J', 'K', 'L', 'M', 'N', 'O',
      'P', 'Q', 'R', 'S', 'T', 'U', 'V', 'W', 'X', 'Y', 'Z', 'a', 'b', 'c', 'd', 'e', 'f', 'g', 'h',
        'i', 'j', 'k',
    'l', 'm', 'n', 'o', 'p', 'q', 'r', 's', 't', 'u', 'v', 'w', 'x', 'y', 'z', '0', '1', '2', '3',
      '4', '5', '6',
    '7', '8', '9', '+'] := String.toList_ofList

set_option maxRecDepth 20000 in
theorem stridx_crcChar : ∀ d < 64, stridx crcStrMap (crcChar d) = some d := by
  unfold crcChar
  rw [crcStrMap_eq]
  decide

/-- The digits are single bytes that are no filling. -/
theorem crcChar_ne : ∀ d < 64, crcChar d ≠ ' ' ∧ crcChar d ≠ '.' ∧ 0 < (crcChar d).toNat ∧
    (crcChar d).toNat < 128 := by
  unfold crcChar
  rw [crcStrMap_eq]
  decide

theorem digit_lt (v : UInt64) : (v % 64).toNat < 64 := by
  rw [UInt64.toNat_mod]
  exact Nat.mod_lt _ (by decide)

/-- The digit that was cut off. -/
theorem shift_add_digit (v : UInt64) : (v >>> 6) <<< 6 + UInt64.ofNat (v % 64).toNat = v := by
  rw [UInt64.ofNat_toNat, ← UInt64.toNat_inj]
  have hv := v.toNat_lt
  simp only [UInt64.toNat_add, UInt64.toNat_shiftLeft, UInt64.toNat_shiftRight, UInt64.toNat_mod]
  have h6 : (6 : UInt64).toNat % 64 = 6 := by decide
  have h64 : (64 : UInt64).toNat = 64 := by decide
  rw [h6, h64, Nat.shiftLeft_eq, Nat.shiftRight_eq_div_pow]
  omega

/-- Reading a text and shifting once more. -/
def genShift (str : List Char) (crc : UInt64) : Option UInt64 :=
  str.foldlM (fun crc ch => (stridx crcStrMap ch).map fun idx => (crc + UInt64.ofNat idx) <<< 6) crc

/-- The last character of the loop is not shifted. -/
theorem shcrcgenLoop_snoc (ch : Char) : ∀ (str : List Char) (crc : UInt64),
    shcrcgenLoop (str ++ [ch]) crc =
      (genShift str crc).bind fun crc => (stridx crcStrMap ch).map fun idx =>
        crc + UInt64.ofNat idx := by
  intro str
  induction str with
  | nil =>
    intro crc
    simp [shcrcgenLoop, genShift, Option.map_eq_bind]
  | cons c str ih =>
    intro crc
    rw [List.cons_append, shcrcgenLoop]
    cases hidx : stridx crcStrMap c with
    | none => simp [genShift, hidx]
    | some idx =>
      simp [genShift, hidx, ih]

/-- What is read with a shift after every character is the number, shifted. -/
theorem genShift_text : ∀ (room : Nat) (v : UInt64), v.toNat < 64 ^ room →
    genShift (shcrcstrLoop room v).reverse 0 = some (v <<< 6) := by
  intro room
  induction room with
  | zero =>
    intro v hv
    have hzero : v = 0 := UInt64.toNat_inj.mp (Nat.lt_one_iff.mp hv)
    rw [hzero]
    rfl
  | succ room ih =>
    intro v hv
    rw [shcrcstrLoop]
    split
    · next hzero =>
      rw [hzero]
      rfl
    · have hrest : (v >>> 6).toNat < 64 ^ room := by
        have h6 : (6 : UInt64).toNat % 64 = 6 := by decide
        rw [UInt64.toNat_shiftRight, h6, Nat.shiftRight_eq_div_pow,
          Nat.div_lt_iff_lt_mul (by decide)]
        rwa [Nat.pow_succ] at hv
      have hfold := ih _ hrest
      unfold genShift at hfold ⊢
      rw [List.reverse_cons, List.foldlM_append, hfold]
      simp only [Option.bind_eq_bind, Option.bind_some, List.foldlM_cons, List.foldlM_nil,
        stridx_crcChar _ (digit_lt v), Option.map_some, shift_add_digit]
      rfl

/-- A number is read as it was written. -/
theorem shcrcgen_shcrcstr (v : UInt64) : shcrcgen (shcrcstr v) = v := by
  have hv := v.toNat_lt
  unfold shcrcgen shcrcstr
  rw [shcrcstrLoop]
  split
  · next hzero =>
    rw [hzero]
    rfl
  · have hrest : (v >>> 6).toNat < 64 ^ 64 := by
      have hle : (v >>> 6).toNat < 2 ^ 64 := (v >>> 6).toNat_lt
      exact Nat.lt_trans hle (by decide)
    rw [List.reverse_cons, shcrcgenLoop_snoc, genShift_text 64 _ hrest, Option.bind_some,
      stridx_crcChar _ (digit_lt v), Option.map_some, Option.getD_some, shift_add_digit]

/-! ## Words -/

theorem mem_shcrcstrLoop {ch : Char} : ∀ (room : Nat) {v : UInt64}, ch ∈ shcrcstrLoop room v →
    ch ≠ ' ' ∧ ch ≠ '.' ∧ 0 < ch.toNat ∧ ch.toNat < 128 := by
  intro room
  induction room with
  | zero =>
    intro v hmem
    cases hmem
  | succ room ih =>
    intro v hmem
    rw [shcrcstrLoop] at hmem
    split at hmem
    · cases hmem
    · rcases List.mem_cons.mp hmem with rfl | hrest
      · exact crcChar_ne _ (digit_lt v)
      · exact ih hrest

/-- The number of digits. -/
theorem length_shcrcstrLoop : ∀ (room k : Nat) {v : UInt64}, v.toNat < 64 ^ k →
    (shcrcstrLoop room v).length ≤ k := by
  intro room
  induction room with
  | zero =>
    intro k v _
    exact Nat.zero_le k
  | succ room ih =>
    intro k v hv
    rw [shcrcstrLoop]
    split
    · exact Nat.zero_le k
    · next hne =>
      rcases k with _ | k
      · -- below one there is no digit
        exact absurd (UInt64.toNat_inj.mp (Nat.lt_one_iff.mp hv)) hne
      · have hrest : (v >>> 6).toNat < 64 ^ k := by
          have h6 : (6 : UInt64).toNat % 64 = 6 := by decide
          rw [UInt64.toNat_shiftRight, h6, Nat.shiftRight_eq_div_pow,
            Nat.div_lt_iff_lt_mul (by decide)]
          rwa [Nat.pow_succ] at hv
        rw [List.length_cons]
        exact Nat.succ_le_succ (ih k hrest)

/-- A code word has at most six digits. -/
theorem length_shcrcstr (w : UInt32) : (shcrcstr w.toUInt64).length ≤ 6 := by
  refine length_shcrcstrLoop 65 6 ?_
  rw [UInt32.toNat_toUInt64]
  exact Nat.lt_trans w.toNat_lt (by decide)

/-- A code word in a key's text. -/
def wordText (w : UInt32) : List Char :=
  List.replicate (6 - (shcrcstr w.toUInt64).length) '.' ++ shcrcstr w.toUInt64

theorem length_wordText (w : UInt32) : (wordText w).length = 6 := by
  have hlen := length_shcrcstr w
  rw [wordText, List.length_append, List.length_replicate]
  omega

theorem printWord_dots (w : UInt32) :
    (printWord (shcrcstr w.toUInt64)).map (fun ch => if ch = ' ' then '.' else ch) =
    wordText w := by
  have hall : (shcrcstr w.toUInt64).take 6 = shcrcstr w.toUInt64 :=
    List.take_of_length_le (length_shcrcstr w)
  have hsame : (shcrcstr w.toUInt64).map (fun ch => if ch = ' ' then '.' else ch) =
      shcrcstr w.toUInt64 := by
    conv_rhs => rw [← List.map_id (shcrcstr w.toUInt64)]
    refine List.map_congr_left fun ch hch => ?_
    rw [if_neg (mem_shcrcstrLoop 65 hch).1, id]
  rw [printWord, hall, List.map_append, List.map_replicate, if_pos rfl, hsame, wordText]

theorem shkeyPrint_eq (key : ShKey) : shkeyPrint key = key.code.toList.flatMap wordText := by
  rw [shkeyPrint, List.map_flatMap]
  exact List.flatMap_congr fun w _ => printWord_dots w

/-- The filling is no part of the number. -/
theorem genWord_wordText (w : UInt32) : genWord (wordText w) = w := by
  have hdrop : (wordText w).dropWhile (· = '.') = shcrcstr w.toUInt64 := by
    rw [wordText, List.dropWhile_append_of_pos]
    · cases htext : shcrcstr w.toUInt64 with
      | nil => rfl
      | cons ch rest =>
        have hmem : ch ∈ shcrcstr w.toUInt64 := by
          rw [htext]
          exact List.mem_cons_self
        rw [List.dropWhile_cons_of_neg (by simpa using (mem_shcrcstrLoop 65 hmem).2.1)]
    · intro ch hch
      rw [List.eq_of_mem_replicate hch]
      rfl
  rw [genWord, hdrop, shcrcgen_shcrcstr, UInt32.toUInt32_toUInt64]

/-- The text at its place in a row of texts. -/
theorem text_in_row (rest : List Char) : ∀ (ws : List UInt32) (i : Nat) (hi : i < ws.length),
    ((ws.flatMap wordText ++ rest).drop (i * 6)).take 6 = wordText (ws.get ⟨i, hi⟩) := by
  intro ws
  induction ws with
  | nil =>
    intro i hi
    exact absurd hi (Nat.not_lt_zero i)
  | cons w ws ih =>
    intro i hi
    have hlen := length_wordText w
    rw [List.flatMap_cons, List.append_assoc]
    cases i with
    | zero =>
      rw [Nat.zero_mul, List.drop_zero, ← hlen, List.take_left]
      rfl
    | succ i =>
      have hdrop : (i + 1) * 6 = (wordText w).length + i * 6 := by
        rw [hlen]
        omega
      rw [hdrop, ← List.drop_drop, List.drop_left]
      exact ih i (Nat.lt_of_succ_lt_succ hi)

theorem length_row (ws : List UInt32) : (ws.flatMap wordText).length = 6 * ws.length := by
  induction ws with
  | nil => rfl
  | cons w ws ih =>
    rw [List.flatMap_cons, List.length_append, ih, length_wordText, List.length_cons]
    omega

/-- A text that has the words of a key in its rows is read as the key's words. -/
theorem shkeyGen_row {ws : List UInt32} (hlen : ws.length = 7) :
    shkeyGen (ws.flatMap wordText) = some { ashkeyBlank with code := ⟨ws.toArray, hlen⟩ } := by
  have h42 : (ws.flatMap wordText).length = 42 := by rw [length_row, hlen]
  have hcode : (Vector.ofFn fun i : Fin 7 =>
    genWord (((ws.flatMap wordText).drop (i * 6)).take 6)) =
      ⟨ws.toArray, hlen⟩ := by
    apply Vector.ext
    intro i hi
    have hrow := text_in_row [] ws i (by rwa [hlen])
    rw [List.append_nil] at hrow
    rw [Vector.getElem_ofFn, hrow, genWord_wordText]
    simp
  rw [shkeyGen, if_neg (not_not.mpr h42), hcode]

theorem shkeyGen_shkeyPrint (key : ShKey) :
    shkeyGen (shkeyPrint key) = some { ashkeyBlank with code := key.code } := by
  rw [shkeyPrint_eq, shkeyGen_row (Vector.length_toList ..)]
  congr

/-- A number and the code words of a key are read as they were written, and so keys with different
code words have different texts. -/
theorem key_text : (∀ v : UInt64, shcrcgen (shcrcstr v) = v) ∧
    (∀ key : ShKey, ∃ key', shkeyGen (shkeyPrint key) = some key' ∧ key'.code = key.code) ∧
    ∀ key key' : ShKey, key.code ≠ key'.code → shkeyPrint key ≠ shkeyPrint key' := by
  refine ⟨shcrcgen_shcrcstr, fun key =>
    ⟨_, shkeyGen_shkeyPrint key, rfl⟩, fun key key' hne heq => ?_⟩
  have hgen := congrArg shkeyGen heq
  rw [shkeyGen_shkeyPrint, shkeyGen_shkeyPrint] at hgen
  have hcode := congrArg ShKey.code (Option.some.inj hgen)
  exact hne hcode

end LibShare.Mem
