import LibShare.Mem.KeyText
import Mathlib.Data.Nat.ModEq

/-!
# libshare — keys of 160 bits

The keys of the algorithm SHR160 (`shmem_alg_shr.c`). A key holds 160 bits in five of its code
words. Its text is that of these words alone, and its checksum is the low half of a word of
`shkey_crc`, which `shcrc` has turned around: the bits from 16 on of the sum of the running sums.
A change below them shows only where it carries over.

* `shr160_text` — a key verifies, and gives back what it was made from. So does its text. It also
  says which bytes can be changed without notice.
-/

namespace LibShare.Mem

/-! ## Keys -/

/-- `SHALG_SHR160`. -/
def shalgShr160 : UInt16 := 0x0102

/-- `shkey_alg`. -/
def shkeyAlg (key : ShKey) : UInt16 := htons key.alg

/-- `shkey_alg_set`. -/
def shkeyAlgSet (key : ShKey) (alg : UInt16) : ShKey := { key with alg := htons alg }

/-- `sh160_t`. -/
abbrev Sh160 := Vector UInt32 5

/-- `key->crc = 0; key->crc = (uint16_t)(shkey_crc(key) & 0xFFFF)`. -/
def crcSet (key : ShKey) : ShKey :=
  let key := { key with crc := 0 }
  { key with crc := (shkeyCrc key &&& 0xFFFF).toUInt16 }

/-- `shkey_shr160`. -/
def shkeyShr160 (raw : Sh160) : ShKey :=
  let key := shkeyAlgSet ashkeyBlank shalgShr160
  crcSet { key with code := Vector.ofFn fun i : Fin 7 => if h : i.val < 5 then raw[i.val] else 0 }

/-- `sh160_key`, over what the memory held before. The size of a size is cleared. -/
def sh160Key (inKey : ShKey) (u160 : Sh160) : Sh160 :=
  if shkeyAlg inKey ≠ shalgShr160 then Vector.ofFn fun i : Fin 5 => if i.val < 2 then 0 else u160[i]
  else Vector.ofFn fun i : Fin 5 => inKey.code[i.val]

/-- `shkey_shr160_ver`. -/
def shkeyShr160Ver (key : ShKey) : Except Sherr Unit :=
  if shkeyAlg key ≠ shalgShr160 then .error .inval
  else if (shkeyCrc { key with crc := 0 } &&& 0xFFFF).toUInt16 ≠ key.crc then .error .ilseq
  else .ok ()

/-- `strncpy` of at most 30 characters over the 42 dots of `shkey_shr160_gen`. A text that is
shorter ends there. -/
def padDots : Option (List Char) → List Char
  | none => List.replicate 42 '.'
  | some keyStr => if keyStr.length < 30 then keyStr else keyStr.take 30 ++ List.replicate 12 '.'

/-- `shkey_shr160_gen`. -/
def shkeyShr160Gen (keyStr : Option (List Char)) : Option ShKey :=
  (shkeyGen (padDots keyStr)).map fun key => crcSet (shkeyAlgSet key shalgShr160)

/-- `shkey_shr160_print`. -/
def shkeyShr160Print (key : ShKey) : List Char := (shkeyPrint key).take 30

/-! ## The round trip -/

variable {raw : Sh160}

theorem shkeyAlg_shr160 (raw : Sh160) : shkeyAlg (shkeyShr160 raw) = shalgShr160 := htons_htons _

/-- A key that has been made is verified. -/
theorem shkeyShr160Ver_ok (raw : Sh160) : shkeyShr160Ver (shkeyShr160 raw) = .ok () := by
  rw [shkeyShr160Ver, if_neg (not_not.mpr (shkeyAlg_shr160 raw)), if_neg]
  exact not_not.mpr rfl

/-- The digest of a key is the one it was made of. -/
theorem sh160Key_shkeyShr160 (raw u160 : Sh160) : sh160Key (shkeyShr160 raw) u160 = raw := by
  rw [sh160Key, if_neg (not_not.mpr (shkeyAlg_shr160 raw))]
  apply Vector.ext
  intro i hi
  simp [shkeyShr160, crcSet]

/-- The code words of a key: the five, and none. -/
theorem code_shr160 (raw : Sh160) : (shkeyShr160 raw).code.toList = raw.toList ++ [0, 0] := by
  apply List.ext_getElem
  · simp
  · intro i h1 h2
    rw [Vector.length_toList] at h1
    by_cases hi : i < 5
    · simp [shkeyShr160, crcSet, hi]
    · -- the words that no bits are kept in
      have hlast : i = 5 ∨ i = 6 := by omega
      rcases hlast with rfl | rfl
      · simp [shkeyShr160, crcSet]
      · simp [shkeyShr160, crcSet]

/-- The dots are the text of the words that are left out. -/
theorem padDots_print (raw : Sh160) :
    padDots (some (shkeyShr160Print (shkeyShr160 raw))) =
      (shkeyShr160 raw).code.toList.flatMap wordText := by
  have hlen : (raw.toList.flatMap wordText).length = 30 := by
    rw [length_row, Vector.length_toList]
  have hprint : shkeyShr160Print (shkeyShr160 raw) = raw.toList.flatMap wordText := by
    rw [shkeyShr160Print, shkeyPrint_eq, code_shr160, List.flatMap_append, ← hlen, List.take_left]
  have hdots : List.replicate 12 '.' = [0, 0].flatMap wordText := rfl
  rw [hprint, padDots, if_neg (by omega), List.take_of_length_le (Nat.le_of_eq hlen), code_shr160,
    List.flatMap_append, hdots]

/-- A key that is printed is read back. -/
theorem shkeyShr160Gen_print (raw : Sh160) :
    shkeyShr160Gen (some (shkeyShr160Print (shkeyShr160 raw))) = some (shkeyShr160 raw) := by
  rw [shkeyShr160Gen, padDots_print, ← shkeyPrint_eq, shkeyGen_shkeyPrint, Option.map_some]
  rfl

/-! ## One byte changed -/

/-- One byte of a word is another. -/
def putByte (w : UInt32) (k : Fin 4) (x : UInt8) : UInt32 := leWord32 ((leBytes32 w).set k x)

/-- The byte of a word at its place in memory. -/
def byteAt (w : UInt32) (k : Fin 4) : UInt8 := (leBytes32 w).get k

/-- One byte of a key's code words is another; the checksum is kept. -/
def setByte (key : ShKey) (j : Fin 7) (k : Fin 4) (x : UInt8) : ShKey :=
  { key with code := key.code.set j (putByte key.code[j] k x) }

/-- A word with another byte, as a number. -/
theorem toNat_putByte (w : UInt32) (k : Fin 4) (x : UInt8) :
    (putByte w k x).toNat + (byteAt w k).toNat * 256 ^ k.val = w.toNat + x.toNat * 256 ^ k.val := by
  have hback : leBytes32 (putByte w k x) = (leBytes32 w).set k x := by
    obtain ⟨k, hk⟩ := k
    interval_cases k <;> exact leBytes32_leWord32 _ _ _ _
  have hput : (putByte w k x).toNat = leVal ((leBytes32 w).set k x) := by
    rw [← leVal_leBytes32, hback]
  have hw : w.toNat = leVal (leBytes32 w) := (leVal_leBytes32 w).symm
  rw [hput, hw, byteAt]
  obtain ⟨k, hk⟩ := k
  interval_cases k <;> simp [leBytes32, leVal] <;> omega

/-! ## The checksum -/

/-- The loop of `shcrc` over whole words. -/
def wordLoop (acc : ShcrcAcc) (ws : List UInt32) : ShcrcAcc :=
  ws.foldl (fun acc w => shcrcStep acc (leBytes32 w)) acc

/-- The checksum of words goes word by word. -/
theorem shcrcLoop_words : ∀ (ws : List UInt32) (acc : ShcrcAcc),
    shcrcLoop acc (ws.flatMap leBytes32) = wordLoop acc ws := by
  intro ws
  induction ws with
  | nil =>
    intro acc
    rfl
  | cons w ws ih =>
    intro acc
    have hstep : shcrcLoop acc (leBytes32 w ++ ws.flatMap leBytes32) =
        shcrcLoop (shcrcStep acc (leBytes32 w)) (ws.flatMap leBytes32) := rfl
    rw [List.flatMap_cons, hstep, ih]
    rfl

/-- What `shcrc` makes of its running values, before it turns the bytes around. -/
def total (acc : ShcrcAcc) : UInt64 :=
  ((acc.d <<< 16) ||| acc.c.toUInt64) + ((acc.b <<< 32) ||| acc.a.toUInt64)

/-- The values after a number of words: two of them are remainders. -/
def Reduced (acc : ShcrcAcc) : Prop := acc.c.toNat < 65521 ∧ acc.d.toNat < 65521

/-- A step leaves the sums reduced. -/
theorem reduced_step (acc : ShcrcAcc) (word : Bytes) : Reduced (shcrcStep acc word) := by
  refine ⟨?_, ?_⟩
  · show ((acc.c + (word.headD 0).toUInt32) % 65521).toNat < 65521
    rw [UInt32.toNat_mod]
    exact Nat.mod_lt _ (by decide)
  · show ((acc.d + _) % 65521 : UInt64).toNat < 65521
    rw [UInt64.toNat_mod]
    exact Nat.mod_lt _ (by decide)

/-- The loop leaves the sums reduced. -/
theorem reduced_wordLoop :
    ∀ (ws : List UInt32) {acc : ShcrcAcc}, Reduced acc → Reduced (wordLoop acc ws) := by
  intro ws
  induction ws with
  | nil => exact fun h => h
  | cons w ws ih => exact fun _ => ih (reduced_step _ _)

/-- The low half of a word of the turned bytes is the high half of the last one. -/
theorem htonll_low (v : UInt64) : (htonll v &&& 0xFFFF).toUInt16 = htons (v >>> 48).toUInt16 := by
  rw [← UInt16.toBitVec_inj]
  simp [htonll, htons]
  ext i hi
  simp
  interval_cases i <;> simp

/-- The two remainders, one above the other. -/
theorem Reduced.remainders {acc : ShcrcAcc} (h : Reduced acc) :
    ((acc.d <<< 16) ||| acc.c.toUInt64).toNat = acc.d.toNat * 65536 + acc.c.toNat := by
  obtain ⟨hc, hd⟩ := h
  have hor := Nat.shiftLeft_add_eq_or_of_lt (show acc.c.toNat < 2 ^ 16 by omega) acc.d.toNat
  rw [Nat.shiftLeft_eq] at hor
  have hfits : acc.d.toNat * 2 ^ 16 % 2 ^ 64 = acc.d.toNat * 2 ^ 16 := Nat.mod_eq_of_lt (by omega)
  simp only [UInt64.toNat_or, UInt64.toNat_shiftLeft, UInt32.toNat_toUInt64, UInt64.reduceToNat,
    Nat.reduceMod, Nat.shiftLeft_eq]
  rw [hfits, ← hor]

/-- The two sums, one above the other. -/
theorem toNat_sums (acc : ShcrcAcc) :
    ((acc.b <<< 32) ||| acc.a.toUInt64).toNat = acc.b.toNat % 2 ^ 32 * 2 ^ 32 + acc.a.toNat := by
  have hor := Nat.shiftLeft_add_eq_or_of_lt acc.a.toNat_lt (acc.b.toNat % 2 ^ 32)
  rw [Nat.shiftLeft_eq] at hor
  have hfits : acc.b.toNat * 2 ^ 32 % 2 ^ 64 = acc.b.toNat % 2 ^ 32 * 2 ^ 32 := by omega
  simp only [UInt64.toNat_or, UInt64.toNat_shiftLeft, UInt32.toNat_toUInt64, UInt64.reduceToNat,
    Nat.reduceMod, Nat.shiftLeft_eq]
  rw [hfits, ← hor]

/-- The upper half of the sum, with what is carried over to it. -/
theorem Reduced.top {acc : ShcrcAcc} (h : Reduced acc) : ∃ carry ≤ 1,
    (total acc >>> 48).toNat = (acc.b.toNat + carry) % 2 ^ 32 / 65536 := by
  have hsmall := h.remainders
  obtain ⟨hc, hd⟩ := h
  have ha := acc.a.toNat_lt
  refine ⟨(acc.d.toNat * 65536 + acc.c.toNat + acc.a.toNat) / 2 ^ 32, by omega, ?_⟩
  have h48 : (48 : UInt64).toNat % 64 = 48 := by decide
  rw [UInt64.toNat_shiftRight, h48, Nat.shiftRight_eq_div_pow, total, UInt64.toNat_add,
    hsmall, toNat_sums]
  omega

/-- The lower half of the sum. -/
theorem Reduced.total_low {acc : ShcrcAcc} (h : Reduced acc) :
    (total acc).toNat % 2 ^ 32 = (acc.d.toNat * 65536 + acc.c.toNat + acc.a.toNat) % 2 ^ 32 := by
  rw [total, UInt64.toNat_add, h.remainders, toNat_sums]
  omega

/-- Two states of the loop: what the totals and, modulo a word, the sums of the totals differ by. -/
structure Apart (diff sum : UInt32) (acc acc' : ShcrcAcc) : Prop where
  a : acc'.a = acc.a + diff
  b : acc'.b.toUInt32 = acc.b.toUInt32 + sum

/-- Two checksums stay apart when a word is added to both. -/
theorem Apart.step {diff sum : UInt32} {acc acc' : ShcrcAcc} (h : Apart diff sum acc acc')
    (w : UInt32) :
    Apart diff (sum + diff) (shcrcStep acc (leBytes32 w)) (shcrcStep acc' (leBytes32 w)) := by
  have ha : acc'.a + leWord32 (leBytes32 w) = acc.a + leWord32 (leBytes32 w) + diff := by
    rw [h.a, UInt32.add_assoc, UInt32.add_comm diff, ← UInt32.add_assoc]
  refine ⟨ha, ?_⟩
  show (acc'.b + (acc'.a + leWord32 (leBytes32 w)).toUInt64).toUInt32 =
    (acc.b + (acc.a + leWord32 (leBytes32 w)).toUInt64).toUInt32 + (sum + diff)
  rw [ha, UInt64.toUInt32_add, UInt64.toUInt32_add, h.b, UInt32.toUInt32_toUInt64,
    UInt32.toUInt32_toUInt64]
  generalize acc.a + leWord32 (leBytes32 w) = t
  rw [UInt32.add_assoc, UInt32.add_assoc, ← UInt32.add_assoc sum, UInt32.add_comm sum,
    UInt32.add_assoc t]

/-- The difference is added once for every word from the changed one on. -/
theorem Apart.steps :
    ∀ (ws : List UInt32) {diff sum : UInt32} {acc acc' : ShcrcAcc}, Apart diff sum acc acc' →
    Apart diff (sum + UInt32.ofNat ws.length * diff) (wordLoop acc ws) (wordLoop acc' ws) := by
  intro ws
  induction ws with
  | nil =>
    intro diff sum acc acc' h
    simpa [wordLoop] using h
  | cons w ws ih =>
    intro diff sum acc acc' h
    have hrest := ih (h.step w)
    have hsum : sum + diff + UInt32.ofNat ws.length * diff = sum +
        UInt32.ofNat (w :: ws).length * diff := by
      rw [List.length_cons, UInt32.ofNat_add, UInt32.add_mul, UInt32.add_assoc,
        UInt32.add_comm diff]
      simp
    rw [hsum] at hrest
    exact hrest

/-! ## What is noticed -/

/-- The running values of `shcrc` behind the first word of a key without a checksum. -/
def headAcc (alg : UInt16) : ShcrcAcc :=
  shcrcStep { a := 1, b := 0, c := 1, d := 0 } (leBytes16 alg ++ leBytes16 0)

/-- The checksum of a key, by its code words. -/
theorem crc_words (key : ShKey) : (shkeyCrc { key with crc := 0 } &&& 0xFFFF).toUInt16 =
    htons (total (wordLoop (headAcc key.alg) key.code.toList) >>> 48).toUInt16 := by
  have hloop : shcrcLoop { a := 1, b := 0, c := 1, d := 0 } (leBytes16 key.alg ++ leBytes16 0 ++
      key.code.toList.flatMap leBytes32) = wordLoop (headAcc key.alg) key.code.toList := by
    rw [← shcrcLoop_words]
    rfl
  show (htonll (total (shcrcLoop _
      (leBytes16 key.alg ++ leBytes16 0 ++ key.code.toList.flatMap leBytes32))) &&&
    0xFFFF).toUInt16 = _
  rw [hloop, htonll_low]

/-- A key is verified just when it has the algorithm and its checksum. -/
theorem shkeyShr160Ver_iff {key : ShKey} : shkeyShr160Ver key = .ok () ↔
    shkeyAlg key = shalgShr160 ∧ (shkeyCrc { key with crc := 0 } &&& 0xFFFF).toUInt16 =
      key.crc := by
  unfold shkeyShr160Ver
  split_ifs with halg hcrc
  · exact iff_of_false (fun h => nomatch h) fun h => halg h.1
  · exact iff_of_false (fun h => nomatch h) fun h => hcrc h.2
  · simp only [ne_eq, not_not] at halg hcrc
    exact iff_of_true rfl ⟨halg, hcrc⟩

theorem sum_mod (b n d N : Nat) :
    (b % N + (d % N + n % N * (d % N) % N) % N) % N = (b + (n * d + d)) % N := by
  rw [Nat.add_comm (d % N)]
  simp only [Nat.mod_add_mod, Nat.add_mod_mod]
  have hmul : n % N * (d % N) ≡ n * d [MOD N] := (Nat.mod_modEq n N).mul (Nat.mod_modEq d N)
  exact (hmul.add_right d).add_left b

/-- The sums of the running totals of two keys that differ in one word, modulo a word. -/
theorem wordLoop_set (acc : ShcrcAcc) {ws : List UInt32} {j : Nat} (hj : j < ws.length)
    (w' : UInt32) :
    ((wordLoop acc (ws.set j w')).b.toNat % 2 ^ 32 = ((wordLoop acc ws).b.toNat +
      (ws.length - j) * (2 ^ 32 - (ws.get ⟨j, hj⟩).toNat + w'.toNat)) % 2 ^ 32) := by
  have hsplit : ws = ws.take j ++ ws.get ⟨j, hj⟩ :: ws.drop (j + 1) := by
    rw [List.get_eq_getElem, List.cons_getElem_drop_succ, List.take_append_drop]
  have hset : ws.set j w' = ws.take j ++ w' :: ws.drop (j + 1) :=
    List.set_eq_take_append_cons_drop.trans (if_pos hj)
  have hrest : (ws.drop (j + 1)).length = ws.length - (j + 1) := List.length_drop
  generalize ws.get ⟨j, hj⟩ = w at hsplit ⊢
  rw [hset]
  have hthis : wordLoop acc ws = wordLoop acc (ws.take j ++ w :: ws.drop (j + 1)) :=
    congrArg (wordLoop acc) hsplit
  rw [hthis]
  simp only [wordLoop, List.foldl_append, List.foldl_cons]
  generalize (ws.take j).foldl (fun acc w => shcrcStep acc (leBytes32 w)) acc = mid
  have happart : Apart (w' - w) (w' - w) (shcrcStep mid (leBytes32 w))
      (shcrcStep mid (leBytes32 w')) := by
    have ha : mid.a + leWord32 (leBytes32 w') = mid.a + leWord32 (leBytes32 w) + (w' - w) := by
      rw [leWord32_leBytes32, leWord32_leBytes32, UInt32.add_assoc, UInt32.add_comm w,
        UInt32.sub_add_cancel]
    refine ⟨ha, ?_⟩
    show (mid.b + (mid.a + leWord32 (leBytes32 w')).toUInt64).toUInt32 =
      (mid.b + (mid.a + leWord32 (leBytes32 w)).toUInt64).toUInt32 + (w' - w)
    rw [ha, UInt64.toUInt32_add, UInt64.toUInt32_add, UInt32.toUInt32_toUInt64,
      UInt32.toUInt32_toUInt64, UInt32.add_assoc, UInt32.add_assoc, UInt32.add_assoc]
  have hsum := congrArg UInt32.toNat (happart.steps (ws.drop (j + 1))).b
  simp only [wordLoop, hrest, UInt32.toNat_add, UInt32.toNat_mul, UInt32.toNat_sub,
    UInt64.toNat_toUInt32, UInt32.toNat_ofNat'] at hsum
  rw [hsum]
  have hcount : ws.length - j = (ws.length - (j + 1)) + 1 := by omega
  rw [hcount, Nat.add_mul, Nat.one_mul, sum_mod]

/-- The bytes of which every change is noticed: the third one of each of the first six code words,
and the fourth one of every other word. -/
def Noticed (j : Fin 7) (k : Fin 4) : Prop := k.val = 2 ∧ j.val < 6 ∨ k.val = 3 ∧ j.val % 2 = 0

instance (j : Fin 7) (k : Fin 4) : Decidable (Noticed j k) := inferInstanceAs (Decidable (_ ∨ _))

/-- Two keys that differ in a word and verify with the same checksum: the upper halves of their
sums are the same. -/
theorem ver_setByte {key : ShKey} {j : Fin 7} {k : Fin 4} {x : UInt8}
    (hver : shkeyShr160Ver key = .ok ())
    (hver' : shkeyShr160Ver (setByte key j k x) = .ok ()) :
    ∃ sum carry carry', carry ≤ 1 ∧ carry' ≤ 1 ∧ (sum + carry) % 2 ^ 32 / 65536 =
      (sum + (7 - j.val) * (2 ^ 32 - key.code[j].toNat +
        (putByte key.code[j] k x).toNat) + carry') %
        2 ^ 32 / 65536 := by
  obtain ⟨-, hcrc⟩ := shkeyShr160Ver_iff.mp hver
  obtain ⟨-, hcrc'⟩ := shkeyShr160Ver_iff.mp hver'
  rw [crc_words] at hcrc hcrc'
  have hred : Reduced (headAcc key.alg) := reduced_step _ _
  have hlen : j.val < key.code.toList.length := by
    rw [Vector.length_toList]
    exact j.isLt
  have hset : (setByte key j k x).code.toList = key.code.toList.set j (putByte key.code[j] k x) :=
    Vector.toList_set j.isLt
  have hget : key.code.toList.get ⟨j.val, hlen⟩ = key.code[j] := by simp
  obtain ⟨carry, hle, htop⟩ := (reduced_wordLoop key.code.toList hred).top
  obtain ⟨carry', hle', htop'⟩ := (reduced_wordLoop (setByte key j k x).code.toList hred).top
  have heq : (total (wordLoop (headAcc key.alg) key.code.toList) >>> 48).toUInt16 =
      (total (wordLoop (headAcc key.alg) (setByte key j k x).code.toList) >>> 48).toUInt16 :=
    htons_inj (hcrc.trans hcrc'.symm)
  have hnat := congrArg UInt16.toNat heq
  rw [UInt64.toNat_toUInt16, UInt64.toNat_toUInt16, htop, htop'] at hnat
  have hsum := wordLoop_set (headAcc key.alg) hlen (putByte key.code[j] k x)
  rw [← hset, hget, Vector.length_toList] at hsum
  have hcut : ∀ {b' b m : Nat}, b' % 2 ^ 32 = (b + m) % 2 ^ 32 →
      (b' + carry') % 2 ^ 32 = (b + m + carry') % 2 ^ 32 := by
    omega
  rw [hcut hsum] at hnat
  refine ⟨(wordLoop (headAcc key.alg) key.code.toList).b.toNat, carry, carry', hle, hle', ?_⟩
  omega

/-- Where the upper halves agree, the difference is a carry at most. -/
theorem top_shift {sum e carry carry' : Nat} (hle : carry ≤ 1) (hle' : carry' ≤ 1)
    (heq : (sum + carry) % 2 ^ 32 / 65536 = (sum + 65536 * e + carry') % 2 ^ 32 / 65536) :
    e % 65536 = 0 ∨ e % 65536 = 1 ∨ e % 65536 = 65535 := by
  omega

/-- A small number is added or taken away, and more than a carry. -/
theorem not_carry {d : Nat} (hd : 2 ≤ d ∧ d < 65535) (m : Nat) :
    ¬ ((m * 65536 + d) % 65536 = 0 ∨ (m * 65536 + d) % 65536 = 1 ∨
      (m * 65536 + d) % 65536 = 65535) := by
  rw [Nat.mul_comm, Nat.mul_add_mod, Nat.mod_eq_of_lt (Nat.lt_succ_of_lt hd.2)]
  omega

/-- A third byte, in a word that is added twice at least. -/
theorem third_ne {m new old : Nat} (hm : 2 ≤ m ∧ m ≤ 7) (hnew : new < 256) (hold : old < 256)
    (hne : new ≠ old) :
    ¬ (m * (65536 + new - old) % 65536 = 0 ∨ m * (65536 + new - old) % 65536 = 1 ∨
      m * (65536 + new - old) % 65536 = 65535) := by
  rcases Nat.lt_or_gt_of_ne hne with hlt | hgt
  · -- the byte has become smaller
    obtain ⟨d, rfl⟩ := Nat.exists_eq_add_of_lt hlt
    have hdown : m * (65536 + new - (new + d + 1)) = (m - 1) * 65536 + (65536 - m * (d + 1)) := by
      obtain ⟨m, rfl⟩ := Nat.exists_eq_add_of_lt hm.1
      have hle : (1 + m + 1) * (d + 1) ≤ 7 * 256 := Nat.mul_le_mul (by omega) (by omega)
      have hsub : 65536 + new - (new + d + 1) = 65536 - (d + 1) := by omega
      rw [hsub, Nat.mul_sub]
      omega
    have hlow : 2 * 1 ≤ m * (d + 1) := Nat.mul_le_mul hm.1 (by omega)
    have hhigh : m * (d + 1) ≤ 7 * 256 := Nat.mul_le_mul hm.2 (by omega)
    rw [hdown]
    exact not_carry (by omega) (m - 1)
  · obtain ⟨d, rfl⟩ := Nat.exists_eq_add_of_lt hgt
    have hup : m * (65536 + (old + d + 1) - old) = m * 65536 + m * (d + 1) := by
      rw [← Nat.mul_add]
      congr 1
      omega
    have hlow : 2 * 1 ≤ m * (d + 1) := Nat.mul_le_mul hm.1 (by omega)
    have hhigh : m * (d + 1) ≤ 7 * 256 := Nat.mul_le_mul hm.2 (by omega)
    rw [hup]
    exact not_carry (by omega) m

/-- A fourth byte, in a word that is added an odd number of times. -/
theorem fourth_ne {m new old : Nat} (hm : m ≤ 7 ∧ m % 2 = 1) (hnew : new < 256) (hold : old < 256)
    (hne : new ≠ old) : ¬ (m * (65536 + 256 * new - 256 * old) % 65536 = 0 ∨
      m * (65536 + 256 * new - 256 * old) % 65536 = 1 ∨
        m * (65536 + 256 * new - 256 * old) % 65536 = 65535) := by
  have hfactor : m * (65536 + 256 * new - 256 * old) = 256 * (m * (256 + new - old)) := by
    rw [Nat.mul_left_comm]
    congr 1
    omega
  -- an odd number has no factor in common with 256
  have hcut : m * (256 + new - old) % 256 ≠ 0 := by
    obtain ⟨h7, hodd⟩ := hm
    obtain ⟨d, hd⟩ : ∃ d, 256 + new - old = d := ⟨_, rfl⟩
    have hrange : 0 < d ∧ d < 512 ∧ d ≠ 256 := by omega
    rw [hd]
    clear hd hfactor
    interval_cases m <;> omega
  rw [hfactor]
  omega

/-- A change of a byte that is noticed is refused. -/
theorem noticed_ver {key : ShKey} (hver : shkeyShr160Ver key = .ok ()) {j : Fin 7} {k : Fin 4}
    (h : Noticed j k)
    {x : UInt8} (hx : x ≠ byteAt key.code[j] k) : shkeyShr160Ver (setByte key j k x) ≠ .ok () := by
  intro hver'
  obtain ⟨sum, carry, carry', hle, hle', heq⟩ := ver_setByte hver hver'
  have hput := toNat_putByte key.code[j] k x
  have hne : x.toNat ≠ (byteAt key.code[j] k).toNat := fun h => hx (UInt8.toNat_inj.mp h)
  have hnew := x.toNat_lt
  have hold := (byteAt key.code[j] k).toNat_lt
  have hword := key.code[j].toNat_lt
  generalize key.code[j].toNat = w at *
  generalize (putByte key.code[j] k x).toNat = w' at *
  generalize (byteAt key.code[j] k).toNat = old at *
  generalize x.toNat = new at *
  obtain ⟨j, hj⟩ := j
  rcases h with ⟨hk, hpos⟩ | ⟨hk, hpos⟩
  · dsimp only at hk hpos heq hput
    rw [hk] at hput
    have hdiff : 2 ^ 32 - w + w' = 65536 * (65536 + new - old) := by omega
    rw [hdiff, Nat.mul_left_comm] at heq
    exact third_ne (by omega) hnew hold hne (top_shift hle hle' heq)
  · dsimp only at hk hpos heq hput
    rw [hk] at hput
    have hdiff : 2 ^ 32 - w + w' = 65536 * (65536 + 256 * new - 256 * old) := by omega
    rw [hdiff, Nat.mul_left_comm] at heq
    exact fourth_ne (by omega) hnew hold hne (top_shift hle hle' heq)

/-- A key and a new byte that goes unnoticed. Low bytes do not reach the upper half, half of a
highest byte is lost when it is doubled, and a third byte can undo what was carried. -/
def unnoticed (k : Fin 4) : Sh160 × UInt8 :=
  if k.val < 2 then (Vector.replicate 5 0, 1)
  else if k.val = 2 then (#v[64513, 4294902268, 0, 0, 0], 1)
  else (Vector.replicate 5 0, 128)

/-- For every other byte there is a key and a change that is not noticed. -/
theorem unnoticed_ver : ∀ (j : Fin 7) (k : Fin 4), ¬ Noticed j k →
    (unnoticed k).2 ≠ byteAt (shkeyShr160 (unnoticed k).1).code[j] k ∧
      shkeyShr160Ver (setByte (shkeyShr160 (unnoticed k).1) j k (unnoticed k).2) = .ok () := by
  decide

/-- A key of 160 bits verifies and gives them back, and its text gives back the key. Every change
of one byte of its code words is noticed just for the bytes of `Noticed`. -/
theorem shr160_text :
    (∀ raw : Sh160, shkeyShr160Ver (shkeyShr160 raw) = .ok () ∧
      (∀ u160, sh160Key (shkeyShr160 raw) u160 = raw) ∧
      shkeyShr160Gen (some (shkeyShr160Print (shkeyShr160 raw))) = some (shkeyShr160 raw)) ∧
    ∀ (j : Fin 7) (k : Fin 4),
      (∀ (raw : Sh160) (x : UInt8), x ≠ byteAt (shkeyShr160 raw).code[j] k →
        shkeyShr160Ver (setByte (shkeyShr160 raw) j k x) ≠ .ok ()) ↔ Noticed j k := by
  refine ⟨fun raw =>
    ⟨shkeyShr160Ver_ok raw, sh160Key_shkeyShr160 raw, shkeyShr160Gen_print raw⟩, fun j k => ?_⟩
  constructor
  · intro hall
    by_contra hout
    obtain ⟨hne, hver⟩ := unnoticed_ver j k hout
    exact hall _ _ hne hver
  · intro hin raw x hx
    exact noticed_ver (shkeyShr160Ver_ok raw) hin hx

/-- The first byte of the first word of the zero key can be one, and the key verifies. -/
theorem changed_key_verifies : ¬ ∀ (raw : Sh160) (j : Fin 7) (k : Fin 4) (x : UInt8),
    x ≠ byteAt (shkeyShr160 raw).code[j] k →
      shkeyShr160Ver (setByte (shkeyShr160 raw) j k x) ≠ .ok () := by
  intro hall
  exact hall (Vector.replicate 5 0) 0 0 1 (by decide) rfl

end LibShare.Mem
