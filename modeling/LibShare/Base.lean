import Mathlib.Data.UInt
import Mathlib.Data.List.Basic
import Mathlib.Tactic.DeriveFintype
import Mathlib.Tactic.IntervalCases

/-!
# libshare — common definitions

The pieces of libshare that every subsystem below uses: byte strings, the
status codes of `sherr.h`, the share key of `shmem.h` and the `shcrc`
checksum of `share.c`.

Integers of fixed width are Lean's own `UIntN`. The library runs on a
little-endian host, so a `memcpy` of a word writes its low byte first
(`leBytes32`), and `htons`, `htonl`, `htonll` reverse the bytes.
-/

namespace LibShare

/-- A byte string: the contents of a memory segment. -/
abbrev Bytes := List UInt8

/-! ## Status codes (`sherr.h`) -/

/-- The negative status codes that the modelled functions return. A status of
zero is the success case of the `Except` each function returns. -/
inductive Sherr
  | perm
  | noent
  | io
  | badf
  | again
  | nomem
  | access
  | exist
  | notdir
  | isdir
  | inval
  | nospc
  | nomsg
  | ilseq
  | connreset
  | nobufs
  | opnotsupp
  | already
  | notuniq
  | remote
  | keyexpired
  | keyrejected
  | toomanyrefs
deriving DecidableEq, Repr

/-- A result without its status. -/
theorem ok_of_toOption {α : Type} {r : Except Sherr α} {a : α} (h : r.toOption = some a) :
    r = .ok a := by
  cases r with
  | error err => cases h
  | ok u =>
    cases h
    rfl

/-- A bind that succeeds has a value in between. -/
theorem ok_of_bind {α β : Type} {x : Except Sherr α} {f : α → Except Sherr β} {b : β}
    (h : x >>= f = .ok b) : ∃ a, x = .ok a ∧ f a = .ok b := by
  rcases x with err | a
  · cases h
  · exact ⟨a, rfl, h⟩

/-! ## Words in memory -/

/-- The bytes of a 16-bit word on a little-endian host. -/
def leBytes16 (w : UInt16) : Bytes :=
  [w.toUInt8, (w >>> 8).toUInt8]

/-- The bytes of a 32-bit word on a little-endian host. -/
def leBytes32 (w : UInt32) : Bytes :=
  [w.toUInt8, (w >>> 8).toUInt8, (w >>> 16).toUInt8, (w >>> 24).toUInt8]

/-- The word that a little-endian host reads from a byte string, missing bytes
being zero (`memset` followed by a `memcpy` of what there is). -/
def leWord32 : Bytes → UInt32
  | [] => 0
  | b :: rest => b.toUInt32 ||| (leWord32 rest <<< 8)

/-- The 16-bit word that a little-endian host reads from two bytes. -/
def leWord16 (b0 b1 : UInt8) : UInt16 := b0.toUInt16 ||| (b1.toUInt16 <<< 8)

/-- The bytes of a 64-bit word on a little-endian host. -/
def leBytes64 (w : UInt64) : Bytes := leBytes32 w.toUInt32 ++ leBytes32 (w >>> 32).toUInt32

/-- The number that a byte string stands for, its low byte first. -/
def leVal : Bytes → Nat
  | [] => 0
  | b :: rest => b.toNat + 256 * leVal rest

/-- The 64-bit word that a little-endian host reads from eight bytes. -/
def leWord64 (bs : Bytes) : UInt64 := UInt64.ofNat (leVal bs)

/-- `htons`, and `ntohs`: the two bytes in the opposite order. -/
def htons (w : UInt16) : UInt16 := (w <<< 8) ||| (w >>> 8)

/-- `htonl`, and `ntohl`: the four bytes in the opposite order. -/
def htonl (w : UInt32) : UInt32 :=
  (w <<< 24) ||| ((w &&& (0xFF00 : UInt32)) <<< 8) |||
    ((w >>> 8) &&& (0xFF00 : UInt32)) ||| (w >>> 24)

/-- `htonll`: the same eight bytes in the opposite order. -/
def htonll (w : UInt64) : UInt64 :=
  (w <<< 56) |||
  ((w &&& (0xFF00 : UInt64)) <<< 40) |||
  ((w &&& (0xFF0000 : UInt64)) <<< 24) |||
  ((w &&& (0xFF000000 : UInt64)) <<< 8) |||
  ((w >>> 8) &&& (0xFF000000 : UInt64)) |||
  ((w >>> 24) &&& (0xFF0000 : UInt64)) |||
  ((w >>> 40) &&& (0xFF00 : UInt64)) |||
  (w >>> 56)

/-- What holds of every byte, as a check of 256 numbers. -/
theorem forall_byte {P : UInt8 → Prop} (h : ∀ n < 256, P (UInt8.ofNat n)) (b : UInt8) : P b := by
  have hb := h b.toNat b.toNat_lt
  rwa [UInt8.ofNat_toNat] at hb

-- What is written to memory is what is read back. The words are compared bit
-- by bit.

/-- Two bytes of a word are read as the word. -/
theorem leWord16_leBytes16 (w : UInt16) : leWord16 w.toUInt8 (w >>> 8).toUInt8 = w := by
  rw [← UInt16.toBitVec_inj]
  simp only [leWord16, UInt16.toBitVec_or, UInt16.toBitVec_shiftLeft, UInt8.toBitVec_toUInt16,
    UInt16.toBitVec_toUInt8, UInt16.toBitVec_shiftRight]
  ext i hi
  simp
  interval_cases i <;> simp

/-- A word is read as it was written. -/
theorem leWord32_leBytes32 (w : UInt32) : leWord32 (leBytes32 w) = w := by
  rw [← UInt32.toBitVec_inj]
  simp only [leWord32, leBytes32, UInt32.toBitVec_or, UInt32.toBitVec_shiftLeft,
    UInt8.toBitVec_toUInt32, UInt32.toBitVec_toUInt8, UInt32.toBitVec_shiftRight]
  ext i hi
  simp
  interval_cases i <;> simp

/-- Four bytes are written as they were read. -/
theorem leBytes32_leWord32 (b0 b1 b2 b3 : UInt8) :
    leBytes32 (leWord32 [b0, b1, b2, b3]) = [b0, b1, b2, b3] := by
  simp only [leWord32, leBytes32, List.cons.injEq, and_true]
  refine ⟨?_, ?_, ?_, ?_⟩ <;> rw [← UInt8.toBitVec_inj] <;> simp <;> ext i hi <;> simp <;>
    interval_cases i <;> simp

theorem leVal_lt : ∀ bs : Bytes, leVal bs < 256 ^ bs.length := by
  intro bs
  induction bs with
  | nil => exact Nat.one_pos
  | cons b rest ih =>
    have hb := b.toNat_lt
    rw [leVal, List.length_cons, Nat.pow_succ]
    omega

/-- Byte strings of one length are told apart by their numbers. -/
theorem leVal_inj :
    ∀ {bs bs' : Bytes}, bs.length = bs'.length → leVal bs = leVal bs' → bs = bs' := by
  intro bs
  induction bs with
  | nil =>
    intro bs' hlen _
    exact (List.length_eq_zero_iff.mp hlen.symm).symm
  | cons b rest ih =>
    intro bs' hlen hval
    rcases bs' with _ | ⟨b', rest'⟩
    · cases hlen
    · have hb := b.toNat_lt
      have hb' := b'.toNat_lt
      rw [leVal, leVal] at hval
      have hhead : b.toNat = b'.toNat := by omega
      have htail : leVal rest = leVal rest' := by omega
      rw [UInt8.toNat_inj.mp hhead, ih (Nat.succ.inj hlen) htail]

/-- The number of two byte strings, the first one with the low bytes. -/
theorem leVal_append (a b : Bytes) : leVal (a ++ b) = leVal a + 256 ^ a.length * leVal b := by
  induction a with
  | nil => simp [leVal]
  | cons x a ih =>
    rw [List.cons_append, leVal, ih, leVal, List.length_cons, Nat.pow_succ, Nat.mul_comm _ 256,
      Nat.mul_assoc]
    omega

/-- A word takes the low four bytes. -/
theorem toNat_leWord32 : ∀ bs : Bytes, (leWord32 bs).toNat = leVal bs % 2 ^ 32 := by
  intro bs
  induction bs with
  | nil => rfl
  | cons b rest ih =>
    have hb := b.toNat_lt
    have hor := Nat.shiftLeft_add_eq_or_of_lt (show b.toNat < 2 ^ 8 from hb) (leVal rest % 2 ^ 24)
    rw [Nat.shiftLeft_eq] at hor
    have hfits : leVal rest % 2 ^ 32 * 2 ^ 8 % 2 ^ 32 = leVal rest % 2 ^ 24 * 2 ^ 8 := by omega
    simp only [leWord32, leVal, UInt32.toNat_or, UInt8.toNat_toUInt32, UInt32.toNat_shiftLeft, ih,
      UInt32.reduceToNat, Nat.reduceMod, Nat.shiftLeft_eq]
    rw [hfits, Nat.or_comm, ← hor]
    omega

/-- Up to four bytes are told apart by their words. -/
theorem leWord32_inj {bs bs' : Bytes} (hlen : bs.length = bs'.length) (hfour : bs.length ≤ 4)
    (h : leWord32 bs = leWord32 bs') : bs = bs' := by
  have hpow : 256 ^ bs.length ≤ 2 ^ 32 := Nat.pow_le_pow_right (by decide) hfour
  have hval := congrArg UInt32.toNat h
  have hlt := leVal_lt bs
  have hlt' := leVal_lt bs'
  rw [← hlen] at hlt'
  rw [toNat_leWord32, toNat_leWord32, Nat.mod_eq_of_lt (by omega),
    Nat.mod_eq_of_lt (by omega)] at hval
  exact leVal_inj hlen hval

theorem leVal_leBytes32 (w : UInt32) : leVal (leBytes32 w) = w.toNat := by
  have hw := w.toNat_lt
  simp only [leBytes32, leVal, UInt32.toNat_toUInt8, UInt32.toNat_shiftRight,
    Nat.shiftRight_eq_div_pow]
  simp only [UInt32.reduceToNat, Nat.reduceMod, Nat.reducePow]
  omega

/-- A word of eight bytes is read as it was written. -/
theorem leWord64_leBytes64 (w : UInt64) : leWord64 (leBytes64 w) = w := by
  have hw := w.toNat_lt
  rw [leWord64, leBytes64, leVal_append, leVal_leBytes32, leVal_leBytes32]
  apply UInt64.toNat_inj.mp
  simp only [UInt64.toNat_ofNat', UInt64.toNat_toUInt32, UInt64.toNat_shiftRight,
    Nat.shiftRight_eq_div_pow]
  simp only [leBytes32, List.length_cons, List.length_nil, UInt64.reduceToNat, Nat.reduceMod,
    Nat.reducePow, Nat.reduceAdd]
  omega

/-- Different blocks of eight bytes are different words. -/
theorem leWord64_inj {bs bs' : Bytes} (h : bs.length = 8) (h' : bs'.length = 8)
    (hword : leWord64 bs = leWord64 bs') : bs = bs' := by
  have hlt := leVal_lt bs
  have hlt' := leVal_lt bs'
  rw [h] at hlt
  rw [h'] at hlt'
  have hval := congrArg UInt64.toNat hword
  unfold leWord64 at hval
  rw [UInt64.toNat_ofNat_of_lt' hlt, UInt64.toNat_ofNat_of_lt' hlt'] at hval
  exact leVal_inj (h.trans h'.symm) hval

-- Rows of words.

theorem length_flatMap_leBytes32 (ws : List UInt32) :
    (ws.flatMap leBytes32).length = 4 * ws.length := by
  induction ws with
  | nil => rfl
  | cons w ws ih =>
    rw [List.flatMap_cons, List.length_append, ih, List.length_cons]
    simp only [leBytes32, List.length_cons, List.length_nil]
    omega

/-- The word at its place in a row of words. -/
theorem word_in_row (rest : Bytes) : ∀ (ws : List UInt32) (i : Nat) (hi : i < ws.length),
    (((ws.flatMap leBytes32) ++ rest).drop (4 * i)).take 4 = leBytes32 (ws.get ⟨i, hi⟩) := by
  intro ws
  induction ws with
  | nil =>
    intro i hi
    exact absurd hi (Nat.not_lt_zero i)
  | cons w ws ih =>
    intro i hi
    have hlen : (leBytes32 w).length = 4 := rfl
    cases i with
    | zero =>
      rw [List.flatMap_cons, List.append_assoc, Nat.mul_zero, List.drop_zero, ← hlen,
        List.take_left]
      rfl
    | succ i =>
      have hdrop : 4 * (i + 1) = (leBytes32 w).length + 4 * i := by
        rw [hlen]
        omega
      rw [List.flatMap_cons, List.append_assoc, hdrop, ← List.drop_drop, List.drop_left]
      exact ih i (Nat.lt_of_succ_lt_succ hi)

/-- The bytes are back in their order. -/
theorem htons_htons (w : UInt16) : htons (htons w) = w := by
  rw [← UInt16.toBitVec_inj]
  simp [htons]
  ext i hi
  simp
  interval_cases i <;> simp

theorem htons_inj {w w' : UInt16} (h : htons w = htons w') : w = w' := by
  rw [← htons_htons w, h, htons_htons]

/-! ## Share keys (`shmem_key.c`) -/

/-- `shkey_t`: an algorithm, an optional checksum and seven code words. -/
structure ShKey where
  alg : UInt16
  crc : UInt16
  code : Vector UInt32 7
deriving DecidableEq, Repr

/-- `ashkey_blank`: the key of all zero bytes. -/
def ashkeyBlank : ShKey :=
  { alg := 0, crc := 0, code := Vector.replicate 7 0 }

/-- The 32 bytes of a key as `memcpy` sees them. -/
def ShKey.toBytes (key : ShKey) : Bytes :=
  leBytes16 key.alg ++ leBytes16 key.crc ++ key.code.toList.flatMap leBytes32

/-- A key has 32 bytes. -/
theorem length_toBytes (key : ShKey) : key.toBytes.length = 32 := by
  simp only [ShKey.toBytes, List.length_append, length_flatMap_leBytes32, Vector.length_toList]
  rfl

/-- The key that 32 bytes stand for. -/
def ShKey.ofBytes (bs : Bytes) : ShKey :=
  { alg := leWord16 (bs.getD 0 0) (bs.getD 1 0)
    crc := leWord16 (bs.getD 2 0) (bs.getD 3 0)
    code := Vector.ofFn fun i : Fin 7 => leWord32 ((bs.drop (4 + 4 * i.val)).take 4) }

/-- A key is read as it was written. -/
theorem ofBytes_toBytes (key : ShKey) : ShKey.ofBytes key.toBytes = key := by
  rcases key with ⟨alg, crc, code⟩
  have hcode : (Vector.ofFn fun i : Fin 7 =>
      leWord32 (((leBytes16 alg ++ leBytes16 crc ++ code.toList.flatMap leBytes32).drop
        (4 + 4 * i.val)).take 4)) =
      code := by
    apply Vector.ext
    intro i hi
    have hrow := word_in_row [] code.toList i (by rwa [Vector.length_toList])
    rw [List.append_nil] at hrow
    rw [Vector.getElem_ofFn, ← List.drop_drop,
      show (4 : Nat) = (leBytes16 alg ++ leBytes16 crc).length from rfl, List.drop_left,
          show (leBytes16 alg ++ leBytes16 crc).length = 4 from rfl, hrow, leWord32_leBytes32]
    simp
  unfold ShKey.ofBytes ShKey.toBytes
  dsimp only
  rw [hcode]
  congr 1
  · exact leWord16_leBytes16 alg
  · exact leWord16_leBytes16 crc

/-! ## Checksum (`shcrc` of `share.c`) -/

/-- The running values `a`, `b`, `c`, `d` of `shcrc`. -/
structure ShcrcAcc where
  a : UInt32
  b : UInt64
  c : UInt32
  d : UInt64

/-- One round of `shcrc` over the next (at most) four bytes. -/
def shcrcStep (acc : ShcrcAcc) (word : Bytes) : ShcrcAcc :=
  let a := acc.a + leWord32 word
  let c := (acc.c + (word.headD 0).toUInt32) % 65521
  { a := a
    b := acc.b + a.toUInt64
    c := c
    d := (acc.d + c.toUInt64) % 65521 }

/-- The loop of `shcrc`, four bytes at a time. -/
def shcrcLoop (acc : ShcrcAcc) : Bytes → ShcrcAcc
  | b0 :: b1 :: b2 :: b3 :: rest => shcrcLoop (shcrcStep acc [b0, b1, b2, b3]) rest
  | [] => acc
  | tail => shcrcStep acc tail

/-- `shcrc`: the 64-bit checksum of a memory segment. -/
def shcrc (data : Bytes) : UInt64 :=
  let acc := shcrcLoop { a := 1, b := 0, c := 1, d := 0 } data
  htonll (((acc.d <<< 16) ||| acc.c.toUInt64) + ((acc.b <<< 32) ||| acc.a.toUInt64))

/-- `shcrc32`: the low half of `shcrc`. -/
def shcrc32 (data : Bytes) : UInt32 := (shcrc data).toUInt32

/-- `shkey_crc`: the checksum of the key's own bytes. -/
def shkeyCrc (key : ShKey) : UInt64 := shcrc key.toBytes

end LibShare
