import LibShare.Mem.Base64
import LibShare.Mem.KeyShr160

/-!
# libshare — changes of one byte, and the checksum

`shcrc` (`share.c`) sums up its words in `a`, modulo `2 ^ 32`, and the first bytes of its words in
`c`, modulo 65521. The sums of the sums are `b` and `d`. All four are added up in one number, so
that a change of one sum could hide that of another one. A change of one byte does not get lost
(`Differ.total_ne`):

* behind the first byte of a word it changes `a`, and neither `c` nor `d`;
* in the first byte it changes `a` and `c` by the same difference, and `c` by 65521 more or less if
  the sum passes that. Twice the difference is even and less than `2 ^ 16`, 65521 is odd.

The position in the data is an `int`, which holds no position from `2 ^ 31` on.

* `shcrc_detects_iff` — the changes that the checksum detects.
-/

namespace LibShare.Mem

/-- The rounds of `shcrc` from a position on. -/
def shcrcFrom (data : Bytes) (idx : Int32) (acc : ShcrcAcc) : Option ShcrcAcc :=
  if cSize idx.toInt < data.length then
    -- the word would be in front of the data
    if idx.toInt < 0 then none
    else shcrcFrom data (idx + 4) (shcrcStep acc ((data.drop idx.toInt.toNat).take 4))
  else some acc
termination_by if idx.toInt < 0 then 0 else (2 ^ 31 - idx.toInt).toNat
decreasing_by
  have hhigh := idx.toInt_lt
  have hfour : (4 : Int32).toInt = 4 := by decide
  rw [Int32.toInt_add, hfour, Int.bmod_def]
  split <;> split <;> omega

/-- `shcrc`, with the position as an `int`. -/
def shcrcInt (data : Bytes) : Option UInt64 :=
  (shcrcFrom data 0 { a := 1, b := 0, c := 1, d := 0 }).map fun acc => htonll (total acc)

/-! ## The position -/

/-- The first word, and then the rest. -/
theorem shcrcLoop_cons {data : Bytes} (acc : ShcrcAcc) (h : data ≠ []) :
    shcrcLoop acc data = shcrcLoop (shcrcStep acc (data.take 4)) (data.drop 4) := by
  match data with
  | [] => exact absurd rfl h
  | [_] => rfl
  | [_, _] => rfl
  | [_, _, _] => rfl
  | _ :: _ :: _ :: _ :: _ => rfl

/-- An `int` goes on by four, and wraps around at 2^31. -/
theorem int32_add_four {idx : Int32} (h : 0 ≤ idx.toInt) :
    (idx + 4).toInt = if idx.toInt + 4 < 2 ^ 31 then idx.toInt + 4 else idx.toInt + 4 - 2 ^ 32 := by
  have hhigh := idx.toInt_lt
  have hfour : (4 : Int32).toInt = 4 := by decide
  rw [Int32.toInt_add, hfour, Int.bmod_def]
  split <;> split <;> omega

/-- From an index that is negative the sum ends, or has no result. -/
theorem shcrcFrom_behind {data : Bytes} {idx : Int32} (hneg : idx.toInt = -2 ^ 31)
    (acc : ShcrcAcc) :
    shcrcFrom data idx acc = if data.length ≤ 2 ^ 64 - 2 ^ 31 then some acc else none := by
  have hsize : cSize idx.toInt = 2 ^ 64 - 2 ^ 31 := by
    rw [hneg]
    decide
  rw [shcrcFrom, hsize]
  split
  · rw [if_pos (by omega), if_neg (by omega)]
  · rw [if_pos (by omega)]

/-- From an index that is not negative the sum goes on word by word. -/
theorem shcrcFrom_inside {data : Bytes} {idx : Int32} (h : 0 ≤ idx.toInt) (acc : ShcrcAcc) :
    shcrcFrom data idx acc = if idx.toInt.toNat < data.length then
      shcrcFrom data (idx + 4)
        (shcrcStep acc ((data.drop idx.toInt.toNat).take 4)) else some acc := by
  have hhigh := idx.toInt_lt
  have hsize : cSize idx.toInt = idx.toInt.toNat := by
    rw [cSize, Int.emod_eq_of_lt h (by omega)]
  rw [shcrcFrom, hsize]
  split
  · rw [if_neg (Int.not_lt.mpr h)]
  · rfl

/-- The same for the data up to 2^31. -/
theorem shcrcLoop_inside {data : Bytes} {i : Nat} (hi : i + 4 ≤ 2 ^ 31) (acc : ShcrcAcc) :
    shcrcLoop acc ((data.take (2 ^ 31)).drop i) = if i < data.length then
      shcrcLoop (shcrcStep acc ((data.drop i).take 4))
        ((data.take (2 ^ 31)).drop (i + 4)) else acc := by
  split
  · next hlen =>
    have hword : ((data.take (2 ^ 31)).drop i).take 4 = (data.drop i).take 4 := by
      rw [List.drop_take, List.take_take, Nat.min_eq_left (by omega)]
    rw [shcrcLoop_cons, hword, List.drop_drop]
    intro hnil
    have hzero := congrArg List.length hnil
    rw [List.length_drop, List.length_take, List.length_nil] at hzero
    omega
  · next hlen =>
    rw [List.drop_eq_nil_of_le (by rw [List.length_take]; omega)]
    rfl

/-- The rounds go through the data up to the last position that is an `int`. -/
theorem shcrcFrom_eq {data : Bytes} : ∀ (n : Nat) {idx : Int32} (acc : ShcrcAcc), 0 ≤ idx.toInt →
    idx.toInt.toNat + 4 * (n + 1) = 2 ^ 31 →
      shcrcFrom data idx acc = if data.length ≤ 2 ^ 64 - 2 ^ 31 then
      some (shcrcLoop acc ((data.take (2 ^ 31)).drop idx.toInt.toNat)) else none := by
  intro n
  induction n with
  | zero =>
    intro idx acc hpos hidx
    -- the last round that there is a position for
    have hnext : (idx + 4).toInt = -2 ^ 31 := by
      rw [int32_add_four (by omega), if_neg (by omega)]
      omega
    rw [shcrcFrom_inside hpos, shcrcLoop_inside (by omega), shcrcFrom_behind hnext]
    have hend : ∀ acc : ShcrcAcc,
        shcrcLoop acc ((data.take (2 ^ 31)).drop (idx.toInt.toNat + 4)) = acc := by
      intro acc
      rw [List.drop_eq_nil_of_le (by rw [List.length_take]; omega)]
      rfl
    rw [hend]
    split
    · rfl
    · rw [if_pos (by omega)]
  | succ n ih =>
    intro idx acc hpos hidx
    have hnext : (idx + 4).toInt = idx.toInt + 4 := by
      rw [int32_add_four (by omega), if_pos (by omega)]
    have hnat : (idx + 4).toInt.toNat = idx.toInt.toNat + 4 := by omega
    rw [shcrcFrom_inside hpos, shcrcLoop_inside (by omega), ih _ (by omega) (by omega), hnat]
    split
    · rfl
    · rw [if_pos (by omega)]

/-- The checksum is that of the first 2^31 bytes. -/
theorem shcrcInt_eq (data : Bytes) :
    shcrcInt data = if data.length ≤ 2 ^ 64 - 2 ^ 31 then
      some (shcrc (data.take (2 ^ 31))) else none := by
  rw [shcrcInt, shcrcFrom_eq (2 ^ 29 - 1) _ (by decide) (by decide)]
  split <;> rfl

/-! ## Two runs -/

/-- Two states of the loop whose data differ in one byte: the first one of a word, or another one.
-/
inductive Differ (acc acc' : ShcrcAcc) : Prop
  | first (diff : Int) (hdiff : diff ≠ 0) (hlow : -256 < diff) (hhigh : diff < 256)
      (ha : (acc'.a.toNat : Int) % 2 ^ 32 = (acc.a.toNat + diff) % 2 ^ 32)
      (hc : (acc'.c.toNat : Int) % 65521 = (acc.c.toNat + diff) % 65521)
  | other (ha : acc.a ≠ acc'.a) (hc : acc.c = acc'.c) (hd : acc.d = acc'.d)

variable {acc acc' : ShcrcAcc}

/-- A remainder is changed by the difference, and by the modulus where it passes that. -/
theorem remainder_change {c c' : Nat} {diff : Int} (hc : c < 65521) (hc' : c' < 65521)
    (hlow : -256 < diff)
    (hhigh : diff < 256) (h : (c' : Int) % 65521 = (c + diff) % 65521) :
    (c' : Int) = c + diff ∨ (c' : Int) = c + diff + 65521 ∨ (c' : Int) = c + diff - 65521 := by
  omega

theorem lower_half {x y : Int} (h : x % 2 ^ 32 = y % 2 ^ 32) : x % 2 ^ 16 = y % 2 ^ 16 := by
  have hdvd : (2 ^ 16 : Int) ∣ 2 ^ 32 := by decide
  rw [← Int.emod_emod_of_dvd x hdvd, h, Int.emod_emod_of_dvd y hdvd]

/-- The two changes do not cancel out: twice the difference is even, and 65521 is odd. -/
theorem first_sums {a a' c c' : Nat} {diff : Int} (hdiff : diff ≠ 0) (hlow : -256 < diff)
    (hhigh : diff < 256)
    (hc : (c' : Int) = c + diff ∨ (c' : Int) = c + diff + 65521 ∨ (c' : Int) = c + diff - 65521)
    (ha : (a' : Int) % 2 ^ 16 = (a + diff) % 2 ^ 16) : (c + a) % 2 ^ 16 ≠ (c' + a') % 2 ^ 16 := by
  obtain hkeep | hup | hdown := hc <;> omega

/-- A change that has come into the sums stays in the lower half of the result. -/
theorem Differ.total_ne (hred : Reduced acc) (hred' : Reduced acc') (h : Differ acc acc') :
    total acc ≠ total acc' := by
  intro hsame
  have hnat := congrArg (fun v => v.toNat % 2 ^ 32) hsame
  rw [hred.total_low, hred'.total_low] at hnat
  cases h with
  | first diff hdiff hlow hhigh ha hc =>
    have hchange := remainder_change hred.1 hred'.1 hlow hhigh hc
    have hne := first_sums hdiff hlow hhigh hchange (lower_half ha)
    clear hchange ha hc
    omega
  | other ha hc hd =>
    have hlt := acc.a.toNat_lt
    have hlt' := acc'.a.toNat_lt
    rw [hc, hd] at hnat
    exact ha (UInt32.toNat_inj.mp (by omega))

/-- Two sums that differ do so after one more word. -/
theorem Differ.step (hred : Reduced acc) (hred' : Reduced acc') (h : Differ acc acc')
    (word : Bytes) :
    Differ (shcrcStep acc word) (shcrcStep acc' word) := by
  cases h with
  | first diff hdiff hlow hhigh ha hc =>
    have hword := (word.headD 0).toNat_lt
    have hc1 := hred.1
    have hc2 := hred'.1
    refine .first diff hdiff hlow hhigh ?_ ?_
    · rw [shcrcStep, shcrcStep, UInt32.toNat_add, UInt32.toNat_add]
      omega
    · simp only [shcrcStep, UInt32.toNat_mod, UInt32.toNat_add, UInt8.toNat_toUInt32,
        UInt32.reduceToNat]
      omega
  | other ha hc hd =>
    refine .other (fun hsame => ha ((UInt32.add_left_inj _).mp hsame)) ?_ ?_
    · rw [shcrcStep, shcrcStep, hc]
    · rw [shcrcStep, shcrcStep, hc, hd]

/-- The word with the change makes the difference. -/
theorem differ_word (hred : Reduced acc) {word : Bytes} (hfour : word.length ≤ 4) {j : Nat}
    (hj : j < word.length)
    {b : UInt8} (hb : word[j] ≠ b) :
    Differ (shcrcStep acc word) (shcrcStep acc (word.set j b)) := by
  obtain ⟨old, rest, rfl⟩ : ∃ old rest, word = old :: rest :=
    List.exists_cons_of_length_pos (Nat.zero_lt_of_lt hj)
  cases j with
  | zero =>
    have hold := old.toNat_lt
    have hnew := b.toNat_lt
    have hne : old.toNat ≠ b.toNat := fun h => hb (UInt8.toNat_inj.mp h)
    have hc := hred.1
    refine .first (b.toNat - old.toNat) (by omega) (by omega) (by omega) ?_ ?_
    · rw [List.set_cons_zero, shcrcStep, shcrcStep, UInt32.toNat_add, UInt32.toNat_add,
        toNat_leWord32, toNat_leWord32, leVal, leVal]
      omega
    · simp only [List.set_cons_zero, shcrcStep, List.headD_cons, UInt32.toNat_mod, UInt32.toNat_add,
        UInt8.toNat_toUInt32, UInt32.reduceToNat]
      omega
  | succ j =>
    refine .other (fun hsame => ?_) rfl rfl
    have hword := leWord32_inj (List.length_set).symm hfour ((UInt32.add_right_inj _).mp hsame)
    refine hb ?_
    rw [List.getElem_of_eq hword hj, List.getElem_set_self]

/-- The rounds of the loop, for an induction over the data. -/
theorem words_induction {motive : Bytes → Prop} (hnil : motive [])
    (hword : ∀ data, data ≠ [] → motive (data.drop 4) → motive data) : ∀ data, motive data
  | [] => hnil
  | b :: rest =>
    hword (b :: rest) (List.cons_ne_nil b rest) (words_induction hnil hword ((b :: rest).drop 4))
termination_by data => data.length
decreasing_by
  rw [List.length_drop, List.length_cons]
  omega

/-- The loop leaves the sums reduced. -/
theorem reduced_loop (data : Bytes) :
    ∀ {acc : ShcrcAcc}, Reduced acc → Reduced (shcrcLoop acc data) := by
  induction data using words_induction with
  | hnil => exact fun h => h
  | hword data hne ih =>
    intro acc _
    rw [shcrcLoop_cons acc hne]
    exact ih (reduced_step acc _)

/-- The rounds over the rest of the data keep the difference. -/
theorem Differ.loop (data : Bytes) :
    ∀ {acc acc' : ShcrcAcc}, Reduced acc → Reduced acc' → Differ acc acc' →
    Differ (shcrcLoop acc data) (shcrcLoop acc' data) := by
  induction data using words_induction with
  | hnil => exact fun _ _ h => h
  | hword data hne ih =>
    intro acc acc' hred hred' h
    rw [shcrcLoop_cons acc hne, shcrcLoop_cons acc' hne]
    exact ih (reduced_step acc _) (reduced_step acc' _) (h.step hred hred' _)

/-- A change of one byte of the data makes a difference in the states behind them. -/
theorem shcrcLoop_set (data : Bytes) : ∀ {acc : ShcrcAcc} {p : Nat} {b : UInt8}, Reduced acc →
    ∀ hp : p < data.length, data[p] ≠ b → Differ (shcrcLoop acc data)
      (shcrcLoop acc (data.set p b)) := by
  induction data using words_induction with
  | hnil => exact fun _ hp => absurd hp (Nat.not_lt_zero _)
  | hword data hne ih =>
    intro acc p b hred hp hb
    have hset : data.set p b ≠ [] := fun h => hne (List.eq_nil_of_length_eq_zero (by
      rw [← List.length_set, h, List.length_nil]))
    rw [shcrcLoop_cons acc hne, shcrcLoop_cons acc hset]
    rcases Nat.lt_or_ge p 4 with hfirst | hbehind
    · -- the change is in this word, and the rest is the same
      have hlen : (data.take 4).length = min 4 data.length := List.length_take
      have hword := differ_word hred (by omega) (show p < (data.take 4).length by omega)
        (show (data.take 4)[p] ≠ b by rwa [List.getElem_take])
      rw [List.take_set, List.drop_set_of_lt hfirst]
      exact hword.loop _ (reduced_step acc _) (reduced_step acc _)
    · -- this word is the same
      rw [List.take_set, List.set_eq_of_length_le (by rw [List.length_take]; omega), List.drop_set,
        if_neg (Nat.not_lt.mpr hbehind)]
      have hlen : p - 4 < (data.drop 4).length := by
        rw [List.length_drop]
        omega
      refine ih (reduced_step acc _) hlen ?_
      rwa [List.getElem_drop, List.getElem_of_eq rfl,
        getElem_congr_idx (Nat.add_sub_cancel' hbehind)]

/-! ## Changes that are detected -/

/-- A bit of a number in network order. -/
theorem testBit_htonll {p : Nat} (hp : p < 64) (v : UInt64) :
    (htonll v).toBitVec.getLsbD (8 * (7 - p / 8) + p % 8) = v.toBitVec.getLsbD p := by
  simp only [htonll, UInt64.toBitVec_or, UInt64.toBitVec_and, UInt64.toBitVec_shiftLeft,
    UInt64.toBitVec_shiftRight]
  generalize v.toBitVec = bits
  simp
  interval_cases p <;> simp

theorem htonll_inj {v w : UInt64} (h : htonll v = htonll w) : v = w := by
  rw [← UInt64.toBitVec_inj]
  refine BitVec.eq_of_getLsbD_eq fun p hp => ?_
  rw [← testBit_htonll hp v, ← testBit_htonll hp w, h]

/-- One byte that is changed changes the checksum. -/
theorem shcrc_set {data : Bytes} {p : Nat} {b : UInt8} (hp : p < data.length) (hb : data[p] ≠ b) :
    shcrc data ≠ shcrc (data.set p b) := by
  have hstart : Reduced { a := 1, b := 0, c := 1, d := 0 } := by
    constructor <;> decide
  have hdiffer := shcrcLoop_set data hstart hp hb
  exact fun hsame =>
    hdiffer.total_ne (reduced_loop data hstart) (reduced_loop _ hstart) (htonll_inj hsame)

/-- A change of one byte is detected if its position is an `int`, and the data are not so long that
the negative number after the last one is taken for a position inside them. -/
theorem shcrc_detects_iff (data : Bytes) (p : Nat) (b : UInt8) (hp : p < data.length)
    (hb : data[p] ≠ b) :
    (∃ crc crc', shcrcInt data = some crc ∧ shcrcInt (data.set p b) = some crc' ∧ crc ≠ crc') ↔
      p < 2 ^ 31 ∧ data.length ≤ 2 ^ 64 - 2 ^ 31 := by
  rw [shcrcInt_eq, shcrcInt_eq, List.length_set, List.take_set]
  constructor
  · rintro ⟨crc, crc', hcrc, hcrc', hne⟩
    split at hcrc
    · next hlen =>
      refine ⟨Nat.lt_of_not_le fun hbehind => hne ?_, hlen⟩
      rw [if_pos hlen, List.set_eq_of_length_le ((List.length_take_le _ _).trans hbehind)] at hcrc'
      exact Option.some.inj (hcrc.symm.trans hcrc')
    · cases hcrc
  · rintro ⟨hint, hlen⟩
    rw [if_pos hlen, if_pos hlen]
    have hp' : p < (data.take (2 ^ 31)).length := by
      rw [List.length_take]
      omega
    exact ⟨_, _, rfl, rfl, shcrc_set hp' (by rwa [List.getElem_take])⟩

/-- The last of three letters is changed to the next one. -/
theorem shcrc_detects_letter : (∃ crc crc', shcrcInt [97, 97, 97] = some crc ∧
    shcrcInt ([97, 97, 97].set 2 98) = some crc' ∧ crc ≠ crc') ↔
      2 < 2 ^ 31 ∧ ([97, 97, 97] : Bytes).length ≤ 2 ^ 64 - 2 ^ 31 :=
  shcrc_detects_iff [97, 97, 97] 2 98 (by decide) (by decide)

/-- What is behind the last position that is an `int` makes no difference. -/
theorem shcrcInt_set_behind {data : Bytes} (hlen : data.length ≤ 2 ^ 64 - 2 ^ 31) {p : Nat}
    (hp : 2 ^ 31 ≤ p) (b : UInt8) :
    shcrcInt data = some (shcrc (data.take (2 ^ 31))) ∧
      shcrcInt (data.set p b) = some (shcrc (data.take (2 ^ 31))) := by
  constructor
  · rw [shcrcInt_eq, if_pos hlen]
  · rw [shcrcInt_eq, List.length_set, if_pos hlen, List.take_set,
      List.set_eq_of_length_le ((List.length_take_le _ _).trans hp)]

/-- The last of `2 ^ 31 + 1` bytes is not looked at. -/
theorem shcrc_misses_last : ∃ data crc, data.length = 2 ^ 31 + 1 ∧ data[2 ^ 31]? = some 97 ∧
    shcrcInt data = some crc ∧ shcrcInt (data.set (2 ^ 31) 98) = some crc := by
  have hlen : (List.replicate (2 ^ 31 + 1) (97 : UInt8)).length = 2 ^ 31 + 1 :=
    List.length_replicate
  have hshort : 2 ^ 31 + 1 ≤ 2 ^ 64 - 2 ^ 31 := by decide
  obtain ⟨hcrc, hcrc'⟩ := shcrcInt_set_behind (hlen.trans_le hshort) (Nat.le_refl _) 98
  exact ⟨_, _, hlen, List.getElem?_replicate_of_lt (Nat.lt_succ_self _), hcrc, hcrc'⟩

end LibShare.Mem
