import LibShare.Mem.Alg
import LibShare.Mem.Base64
import Mathlib.Data.Nat.Factorization.Basic
import Mathlib.Data.Nat.ModEq

/-!
# libshare — which bytes a shrunk digest depends on

`shr224_shrink` of `shmem_alg_shr.c` sums up the words of its input and puts each sum into one of
the seven words of the digest, with an exclusive or. A change of one word changes all sums from it
on by the same amount. The lowest bit of that amount is flipped in each of them, so that a word of
the digest keeps the change if it has taken in an odd number of the sums (`shrinkLoop_bit`).

From a word on there is an even number of sums for all seven words if their number is a multiple of
14: then zeros behind the word hide the change (`shrinkLoop_zeros`). What is left over behind the
last word is not looked at.

* The number of the words is an `int`.
* `shrink_keeps_byte_iff` — which positions the digest depends on.
-/

namespace LibShare.Mem

/-! ## The words -/

/-- The number of words that `shr224_shrink` goes through. -/
def shrinkWords (len : Nat) : Nat := (cInt (len / 4)).toNat

/-- `shr224_shrink` of data of any length. -/
def shr224ShrinkData (crc : UInt64) (data : Bytes) : Bytes :=
  shr224Shrink crc (data.take (4 * shrinkWords data.length))

theorem shrinkWords_le (len : Nat) : 4 * shrinkWords len ≤ len := by
  unfold shrinkWords cInt
  omega

/-- Whole words in front. -/
theorem leWords_append : ∀ {x : Bytes} (k : Nat), x.length = 4 * k → ∀ y : Bytes,
    leWords (x ++ y) = leWords x ++ leWords y := by
  intro x
  induction x using leWords.induct with
  | case1 b0 b1 b2 b3 rest ih =>
    intro k hlen y
    rw [List.length_cons, List.length_cons, List.length_cons, List.length_cons] at hlen
    rw [List.cons_append, List.cons_append, List.cons_append, List.cons_append, leWords, leWords,
      List.cons_append, ih (k - 1) (by omega)]
  | case2 x hshort =>
    intro k hlen y
    rcases x with _ | ⟨b0, _ | ⟨b1, _ | ⟨b2, _ | ⟨b3, rest⟩⟩⟩⟩
    · rfl
    · simp only [List.length_cons, List.length_nil] at hlen
      omega
    · simp only [List.length_cons, List.length_nil] at hlen
      omega
    · simp only [List.length_cons, List.length_nil] at hlen
      omega
    · exact absurd rfl (hshort b0 b1 b2 b3 rest)

theorem length_leWords : ∀ {x : Bytes} (k : Nat), x.length = 4 * k → (leWords x).length = k := by
  intro x
  induction x using leWords.induct with
  | case1 b0 b1 b2 b3 rest ih =>
    intro k hlen
    rw [List.length_cons, List.length_cons, List.length_cons, List.length_cons] at hlen
    rw [leWords, List.length_cons, ih (k - 1) (by omega)]
    omega
  | case2 x hshort =>
    intro k hlen
    rcases x with _ | ⟨b0, _ | ⟨b1, _ | ⟨b2, _ | ⟨b3, rest⟩⟩⟩⟩
    · simp only [List.length_nil] at hlen
      rw [leWords, List.length_nil]
      · omega
      · exact hshort
    · simp only [List.length_cons, List.length_nil] at hlen
      omega
    · simp only [List.length_cons, List.length_nil] at hlen
      omega
    · simp only [List.length_cons, List.length_nil] at hlen
      omega
    · exact absurd rfl (hshort b0 b1 b2 b3 rest)

/-! ## The lowest bit of a difference -/

/-- The numbers are the same below a bit, and differ in it. -/
def LowDiff (p : Nat) (a b : UInt32) : Prop := b.toNat ≡ 2 ^ p + a.toNat [MOD 2 ^ (p + 1)]

/-- What is equal up to 32 bits is equal up to less. -/
theorem modEq_of_word {p x y : Nat} (hp : p < 32) (h : x ≡ y [MOD 2 ^ 32]) :
    x ≡ y [MOD 2 ^ (p + 1)] :=
  h.of_dvd (Nat.pow_dvd_pow 2 hp)

/-- Words that differ have a lowest bit in which they do. -/
theorem exists_lowDiff {a b : UInt32} (h : a ≠ b) : ∃ p < 32, LowDiff p a b := by
  have hsub : b = b - a + a := (UInt32.sub_add_cancel b a).symm
  have hne : (b - a).toNat ≠ 0 := by
    intro hzero
    have hword : b - a = 0 := UInt32.toNat_inj.mp hzero
    rw [hword, UInt32.zero_add] at hsub
    exact h hsub.symm
  obtain ⟨p, m, ⟨q, rfl⟩, hd⟩ := Nat.exists_eq_two_pow_mul_odd hne
  have hp : p < 32 := by
    have hle : 2 ^ p * 1 ≤ 2 ^ p * (2 * q + 1) := Nat.mul_le_mul_left _ (by omega)
    have hlt : 2 ^ p < 2 ^ 32 := by
      have hword := (b - a).toNat_lt
      omega
    exact (Nat.pow_lt_pow_iff_right (by decide)).mp hlt
  refine ⟨p, hp, ?_⟩
  have hsum : b.toNat ≡ (b - a).toNat + a.toNat [MOD 2 ^ 32] := by
    conv_lhs => rw [hsub, UInt32.toNat_add]
    exact Nat.mod_modEq _ _
  have hodd : (b - a).toNat + a.toNat = 2 ^ p + a.toNat + 2 ^ (p + 1) * q := by
    rw [hd, Nat.pow_succ, Nat.mul_add, Nat.mul_one, ← Nat.mul_assoc]
    omega
  rw [hodd] at hsum
  refine (modEq_of_word hp hsum).trans ?_
  rw [Nat.ModEq, Nat.add_mul_mod_self_left]

/-- A sum differs in the same bit. -/
theorem LowDiff.add {p : Nat} (hp : p < 32) {a b : UInt32} (h : LowDiff p a b) (v : UInt32) :
    LowDiff p (a + v) (b + v) := by
  have hsum : ∀ w : UInt32, (w + v).toNat ≡ w.toNat + v.toNat [MOD 2 ^ (p + 1)] := fun w => by
    rw [UInt32.toNat_add]
    exact modEq_of_word hp (Nat.mod_modEq _ _)
  have hright : 2 ^ p + (a + v).toNat ≡ 2 ^ p + a.toNat + v.toNat [MOD 2 ^ (p + 1)] := by
    rw [Nat.add_assoc]
    exact (hsum a).add_left _
  exact (hsum b).trans ((h.add_right _).trans hright.symm)

/-- In that bit they differ. -/
theorem LowDiff.testBit {p : Nat} {a b : UInt32} (h : LowDiff p a b) :
    b.toNat.testBit p = !a.toNat.testBit p := by
  have hlow : p < p + 1 := Nat.lt_succ_self p
  have hmod := congrArg (Nat.testBit · p) h
  rw [Nat.testBit_mod_two_pow, Nat.testBit_mod_two_pow, Nat.testBit_two_pow_add_eq] at hmod
  simpa only [hlow, decide_true, Bool.true_and] using hmod

/-- Where a bit is in the opposite order of the bytes. -/
def htonlBit (p : Nat) : Nat := 8 * (3 - p / 8) + p % 8

/-- A bit of a word in network order. -/
theorem testBit_htonl {p : Nat} (hp : p < 32) (w : UInt32) :
    (htonl w).toNat.testBit (htonlBit p) = w.toNat.testBit p := by
  rw [← UInt32.toNat_toBitVec, ← UInt32.toNat_toBitVec, BitVec.testBit_toNat, BitVec.testBit_toNat]
  unfold htonl htonlBit
  simp only [UInt32.toBitVec_or, UInt32.toBitVec_shiftLeft, UInt32.toBitVec_shiftRight,
    UInt32.toBitVec_and]
  interval_cases p <;> simp

/-! ## Odd numbers of sums -/

/-- Of so many sums from number `i` on, an odd number goes into a word of the digest. -/
def oddSums (c : Nat) : Nat → Nat → Bool
  | _, 0 => false
  | i, m + 1 => (i % 7 == c) ^^ oddSums c (i + 1) m

/-- The sums in two parts. -/
theorem oddSums_add (c : Nat) :
    ∀ (m n i : Nat), oddSums c i (m + n) = (oddSums c i m ^^ oddSums c (i + m) n) := by
  intro m
  induction m with
  | zero =>
    intro n i
    rw [Nat.zero_add, oddSums, Bool.false_xor, Nat.add_zero]
  | succ m ih =>
    intro n i
    rw [Nat.succ_add, oddSums, oddSums, ih, Bool.xor_assoc, Nat.succ_add_eq_add_succ]

/-- The sums repeat after seven words. -/
theorem oddSums_mod (c : Nat) : ∀ (m i : Nat), oddSums c (i % 7) m = oddSums c i m := by
  intro m
  induction m with
  | zero => exact fun _ => rfl
  | succ m ih =>
    intro i
    have hnext : (i % 7 + 1) % 7 = (i + 1) % 7 := by omega
    rw [oddSums, oddSums, ← ih (i % 7 + 1), hnext, ih, Nat.mod_mod]

/-- After fourteen words all is cancelled. -/
theorem oddSums_fourteen {c : Nat} (hc : c < 7) (i q : Nat) : oddSums c i (14 * q) = false := by
  have hperiod : ∀ i < 7, ∀ c < 7, oddSums c i 14 = false := by decide
  induction q generalizing i with
  | zero => rfl
  | succ q ih =>
    rw [Nat.mul_succ, Nat.add_comm, oddSums_add, ih, ← oddSums_mod,
      hperiod _ (Nat.mod_lt _ (by decide)) c hc]
    rfl

/-- Some word of the digest takes in an odd number, unless it is a multiple of 14. -/
theorem exists_oddSums {m : Nat} (hm : m % 14 ≠ 0) (i : Nat) : ∃ c < 7, oddSums c i m = true := by
  have hrest : ∀ i < 7, ∀ r < 14, r ≠ 0 → ∃ c < 7, oddSums c i r = true := by decide
  obtain ⟨c, hc, hodd⟩ :=
    hrest (i % 7) (Nat.mod_lt _ (by decide)) (m % 14) (Nat.mod_lt _ (by decide)) hm
  refine ⟨c, hc, ?_⟩
  have hpos : (i + 14 * (m / 14)) % 7 = i % 7 := by omega
  rw [← Nat.div_add_mod m 14, oddSums_add, oddSums_fourteen hc, Bool.false_xor,
    ← oddSums_mod, hpos, hodd]

/-! ## The loop -/

/-- A bit of a word of a digest. -/
def digestBit (q c : Nat) (digest : List UInt32) : Bool := (digest.getD c 0).toNat.testBit q

/-- A word that is added to the digest changes one of its bits. -/
theorem digestBit_modify {q c j : Nat} {digest : List UInt32} (hj : j < digest.length)
    (w : UInt32) :
    digestBit q c (digest.modify j (· ^^^ w)) =
      (digestBit q c digest ^^ ((j == c) && w.toNat.testBit q)) := by
  unfold digestBit
  rw [List.getD_eq_getElem?_getD, List.getD_eq_getElem?_getD, List.getElem?_modify]
  by_cases hc : j = c
  · subst hc
    rw [List.getElem?_eq_getElem hj]
    simp
  · simp [hc, beq_eq_false_iff_ne.mpr hc]

/-- Two sums that differ in a bit are taken in by the loop: a word of the digest keeps the
difference if it takes in an odd number of them. -/
theorem shrinkLoop_bit {p c : Nat} (hp : p < 32) : ∀ (words : List UInt32) (i : Nat) (a b : UInt32)
    (digest digest' : List UInt32), digest.length = 7 → digest'.length = 7 → LowDiff p a b →
    (digestBit (htonlBit p) c (shrinkLoop words i a digest) ^^ digestBit (htonlBit p) c
      (shrinkLoop words i b digest')) =
      (digestBit (htonlBit p) c digest ^^ digestBit
        (htonlBit p) c digest' ^^ oddSums c i words.length) := by
  intro words
  induction words with
  | nil =>
    intro i a b digest digest' _ _ _
    rw [shrinkLoop, shrinkLoop, List.length_nil, oddSums, Bool.xor_false]
  | cons val words ih =>
    intro i a b digest digest' hlen hlen' hdiff
    have hnext := hdiff.add hp val
    have hidx : i % 7 < 7 := Nat.mod_lt _ (by decide)
    rw [shrinkLoop, shrinkLoop, ih _ _ _ _ _ (by rwa [List.length_modify])
      (by rwa [List.length_modify]) hnext, digestBit_modify (by omega), digestBit_modify (by omega),
        testBit_htonl hp, testBit_htonl hp, hnext.testBit,
      List.length_cons, oddSums]
    -- the bit is flipped in one of the two sums
    cases (i % 7 == c) <;> cases (a + val).toNat.testBit p <;>
      cases digestBit (htonlBit p) c digest <;>
      cases digestBit (htonlBit p) c digest' <;> simp

/-- Sums that stay the same are taken in by the loop. -/
theorem shrinkLoop_zeros {c : Nat} :
    ∀ (m i : Nat) (a : UInt32) (digest : List UInt32), digest.length = 7 →
    (shrinkLoop (List.replicate m 0) i a digest)[c]? =
      digest[c]?.map fun w => if oddSums c i m then w ^^^ htonl a else w := by
  intro m
  induction m with
  | zero =>
    intro i a digest _
    simp [shrinkLoop, oddSums]
  | succ m ih =>
    intro i a digest hlen
    rw [List.replicate_succ, shrinkLoop, UInt32.add_zero, ih _ _ _ (by rwa [List.length_modify]),
      List.getElem?_modify, oddSums]
    cases digest[c]? with
    | none => rfl
    | some w =>
      by_cases hc : i % 7 = c
      · cases oddSums c (i + 1) m with
        | false => simp [hc]
        | true =>
          have hback : w ^^^ htonl a ^^^ htonl a = w := by
            rw [UInt32.xor_assoc, UInt32.xor_self, UInt32.xor_zero]
          simp [hc, hback]
      · simp [hc, beq_eq_false_iff_ne.mpr hc]

/-- The loop over two lists. -/
theorem shrinkLoop_append : ∀ (xs ys : List UInt32) (i : Nat) (a : UInt32) (digest : List UInt32),
    shrinkLoop (xs ++ ys) i a digest = shrinkLoop ys (i + xs.length) (xs.foldl (· + ·) a)
      (shrinkLoop xs i a digest) := by
  intro xs
  induction xs with
  | nil => exact fun _ _ _ _ => rfl
  | cons x xs ih =>
    intro ys i a digest
    rw [List.cons_append, shrinkLoop, shrinkLoop, List.length_cons, List.foldl_cons, ih,
      Nat.add_assoc, Nat.add_comm 1]

/-- A word counts as a sum that is larger by it. -/
theorem shrinkLoop_head (w : UInt32) (ys : List UInt32) (i : Nat) (a : UInt32)
    (digest : List UInt32) :
    shrinkLoop (w :: ys) i a digest = shrinkLoop (0 :: ys) i (a + w) digest := by
  rw [shrinkLoop, shrinkLoop, UInt32.add_zero]

/-- A word with zeros behind it leaves nothing, if there are as many sums for each word of the
digest. -/
theorem shrinkLoop_hidden {m : Nat} (hm : (m + 1) % 14 = 0) (w : UInt32) (i : Nat) (a : UInt32)
    {digest : List UInt32}
    (hlen : digest.length = 7) : shrinkLoop (w :: List.replicate m 0) i a digest = digest := by
  obtain ⟨q, hq⟩ : ∃ q, m + 1 = 14 * q := ⟨(m + 1) / 14, by omega⟩
  rw [shrinkLoop_head, ← List.replicate_succ, hq]
  apply List.ext_getElem?
  intro c
  rw [shrinkLoop_zeros _ _ _ _ hlen]
  by_cases hc : c < 7
  · rw [oddSums_fourteen hc]
    simp
  · rw [List.getElem?_eq_none (by omega), Option.map_none]

/-- Words that differ in one of them have different digests, if an odd number of sums follows for a
word of the digest. -/
theorem shrinkLoop_differs {xs ys : List UInt32} {w w' : UInt32} (hne : w ≠ w')
    (hodd : (ys.length + 1) % 14 ≠ 0)
    (a : UInt32) {digest : List UInt32} (hlen : digest.length = 7) :
    shrinkLoop (xs ++ w :: ys) 0 a digest ≠ shrinkLoop (xs ++ w' :: ys) 0 a digest := by
  intro heq
  obtain ⟨p, hp, hdiff⟩ := exists_lowDiff hne
  obtain ⟨c, -, hc⟩ := exists_oddSums hodd (0 + xs.length)
  have hsums := hdiff.add hp (xs.foldl (· + ·) a)
  rw [UInt32.add_comm w, UInt32.add_comm w'] at hsums
  have hmid : (shrinkLoop xs 0 a digest).length = 7 := by
    rw [length_shrinkLoop, hlen]
  have hbit := @shrinkLoop_bit p c hp (0 :: ys) (0 + xs.length) _ _ _ _ hmid hmid hsums
  rw [List.length_cons, hc, ← shrinkLoop_head, ← shrinkLoop_head, ← shrinkLoop_append,
    ← shrinkLoop_append, heq, Bool.xor_self, Bool.xor_self] at hbit
  exact absurd hbit (by decide)

/-! ## One byte -/

/-- Digests of data of a length differ where the data differs at the position. -/
def ShrinkKeepsByte (crc : UInt64) (len i : Nat) : Prop :=
  ∀ data data' : Bytes, data.length = len → data'.length = len →
    (∀ j, data[j]? ≠ data'[j]? ↔ j = i) →
    shr224ShrinkData crc data ≠ shr224ShrinkData crc data'

/-- Words are told apart by their bytes. -/
theorem flatMap_leBytes32_inj : ∀ {xs ys : List UInt32}, xs.length = ys.length →
    xs.flatMap leBytes32 = ys.flatMap leBytes32 → xs = ys := by
  intro xs
  induction xs with
  | nil =>
    intro ys hlen _
    exact (List.length_eq_zero_iff.mp hlen.symm).symm
  | cons x xs ih =>
    intro ys hlen heq
    rcases ys with _ | ⟨y, ys⟩
    · cases hlen
    · rw [List.flatMap_cons, List.flatMap_cons] at heq
      obtain ⟨hhead, htail⟩ := List.append_inj heq rfl
      have hword : x = y := by
        rw [← leWord32_leBytes32 x, hhead, leWord32_leBytes32]
      rw [hword, ih (Nat.succ.inj hlen) htail]

/-- The words of data that differs in one byte of a word. -/
theorem words_differ {data data' : Bytes} {n i : Nat} (hlen : 4 * n ≤ data.length)
    (hlen' : data'.length = data.length)
    (hdiff : ∀ j, data[j]? ≠ data'[j]? ↔ j = i) (hi : i / 4 < n) : ∃ xs ys w w', w ≠ w' ∧
      xs.length = i / 4 ∧ ys.length + 1 = n - i / 4 ∧
      leWords (data.take (4 * n)) = xs ++ w :: ys ∧
      leWords (data'.take (4 * n)) = xs ++ w' :: ys := by
  have hsame : ∀ j, j ≠ i → data[j]? = data'[j]? :=
    fun j hj => not_not.mp fun hne => hj ((hdiff j).mp hne)
  have hbefore : data'.take (4 * (i / 4)) = data.take (4 * (i / 4)) := by
    apply List.ext_getElem?
    intro j
    rw [List.getElem?_take, List.getElem?_take]
    split
    · exact (hsame j (by omega)).symm
    · rfl
  have hbehind : (data'.take (4 * n)).drop (4 * (i / 4) + 4) =
      (data.take (4 * n)).drop (4 * (i / 4) + 4) := by
    apply List.ext_getElem?
    intro j
    rw [List.getElem?_drop, List.getElem?_drop, List.getElem?_take, List.getElem?_take]
    split
    · exact (hsame _ (by omega)).symm
    · rfl
  have hword : (data.drop (4 * (i / 4))).take 4 ≠ (data'.drop (4 * (i / 4))).take 4 := by
    intro heq
    have hat := congrArg (·[i % 4]?) heq
    have hpos : 4 * (i / 4) + i % 4 = i := Nat.div_add_mod i 4
    have hlt : i % 4 < 4 := Nat.mod_lt _ (by decide)
    simp only [List.getElem?_take, List.getElem?_drop, if_pos hlt, hpos] at hat
    exact (hdiff i).mpr rfl hat
  -- the three parts of the words of one of them
  have hsplit : ∀ d : Bytes, 4 * n ≤ d.length →
      leWords (d.take (4 * n)) = leWords (d.take (4 * (i / 4))) ++
      leWord32 ((d.drop (4 * (i / 4))).take 4) ::
        leWords ((d.take (4 * n)).drop (4 * (i / 4) + 4)) := by
    intro d hd
    have hfour : ((d.drop (4 * (i / 4))).take 4).length = 4 := by
      rw [List.length_take, List.length_drop]
      omega
    have hmid : leWords ((d.drop (4 * (i / 4))).take 4) =
        [leWord32 ((d.drop (4 * (i / 4))).take 4)] := by
      obtain ⟨b0, b1, b2, b3, hb⟩ := List.length_eq_four.mp hfour
      rw [hb]
      rfl
    have hparts : d.take (4 * n) = d.take (4 * (i / 4)) ++
        ((d.drop (4 * (i / 4))).take 4 ++ (d.take (4 * n)).drop (4 * (i / 4) + 4)) := by
      have hfirst : d.take (4 * (i / 4)) = (d.take (4 * n)).take (4 * (i / 4)) := by
        rw [List.take_take, Nat.min_eq_left (by omega)]
      have hsecond : (d.drop (4 * (i / 4))).take 4 =
          ((d.take (4 * n)).drop (4 * (i / 4))).take 4 := by
        rw [List.drop_take, List.take_take, Nat.min_eq_left (by omega)]
      rw [hfirst, hsecond, ← List.drop_drop, List.take_append_drop, List.take_append_drop]
    conv_lhs => rw [hparts]
    rw [leWords_append (i / 4) (by rw [List.length_take]; omega), leWords_append 1 hfour, hmid,
      List.singleton_append]
  refine ⟨_, _, _, _, fun heq => hword (leWord32_inj ?_ ?_ heq), ?_, ?_, hsplit data hlen, ?_⟩
  · rw [List.length_take, List.length_take, List.length_drop, List.length_drop]
    omega
  · exact List.length_take_le 4 _
  · exact length_leWords _ (by rw [List.length_take]; omega)
  · rw [length_leWords (n - i / 4 - 1) (by rw [List.length_drop, List.length_take]; omega)]
    omega
  · rw [hsplit data' (by omega), hbefore, hbehind]

theorem leWords_zeros (n : Nat) : leWords (List.replicate (4 * n) 0) = List.replicate n 0 := by
  induction n with
  | zero => rfl
  | succ n ih =>
    rw [Nat.mul_succ, List.replicate_succ, List.replicate_succ, List.replicate_succ,
      List.replicate_succ, leWords, ih, List.replicate_succ]
    rfl

/-- Zeros, and one byte among them that is not zero. -/
theorem zeros_differ {len i : Nat} (hi : i < len) (j : Nat) :
    (List.replicate len (0 : UInt8))[j]? ≠ ((List.replicate len (0 : UInt8)).set i 1)[j]? ↔
    j = i := by
  rw [List.getElem?_set]
  by_cases hj : i = j
  · subst hj
    simp [hi]
  · simp [hj, eq_comm]

/-- A digest depends on a byte in every case if and only if the byte belongs to one of the words,
and the number of words from it on is no multiple of 14. -/
theorem shrink_keeps_byte_iff (crc : UInt64) (len i : Nat) (hi : i < len) :
    ShrinkKeepsByte crc len i ↔ i / 4 < shrinkWords len ∧ (shrinkWords len - i / 4) % 14 ≠ 0 := by
  have hwords := shrinkWords_le len
  have hseven : (List.replicate 7 (0 : UInt32)).length = 7 := List.length_replicate
  constructor
  · intro hkeeps
    have hzeros :=
      hkeeps (List.replicate len 0) ((List.replicate len 0).set i 1) List.length_replicate
      (by rw [List.length_set, List.length_replicate]) (zeros_differ hi)
    unfold shr224ShrinkData at hzeros
    rw [List.length_set, List.length_replicate] at hzeros
    have hin : i / 4 < shrinkWords len := by
      by_contra hout
      -- the byte is behind the last word
      refine hzeros (congrArg (shr224Shrink crc) ?_)
      rw [List.take_set, List.set_eq_of_length_le (by rw [List.length_take]; omega)]
    refine ⟨hin, fun hmod => ?_⟩
    obtain ⟨xs, ys, w, w', -, -, hys, hw, hw'⟩ :=
      @words_differ (List.replicate len 0) ((List.replicate len 0).set i 1)
      (shrinkWords len) i (hwords.trans_eq List.length_replicate.symm) List.length_set
        (zeros_differ hi) hin
    rw [List.take_replicate, Nat.min_eq_left hwords, leWords_zeros] at hw
    have hrest : ys = List.replicate ys.length 0 := by
      refine List.eq_replicate_iff.mpr ⟨rfl, fun v hv => ?_⟩
      have hmem : v ∈ List.replicate (shrinkWords len) 0 := by
        rw [hw]
        exact List.mem_append_right _ (List.mem_cons_of_mem _ hv)
      exact List.eq_of_mem_replicate hmem
    refine hzeros ?_
    unfold shr224Shrink
    dsimp only
    rw [hw', List.take_replicate, Nat.min_eq_left hwords, leWords_zeros, hw, shrinkLoop_append,
      shrinkLoop_append, hrest, shrinkLoop_hidden (by omega) w _ _ (by rw [length_shrinkLoop]; rfl),
      shrinkLoop_hidden (by omega) w' _ _ (by rw [length_shrinkLoop]; rfl)]
  · rintro ⟨hin, hmod⟩ data data' hlen hlen' hdiff heq
    obtain ⟨xs, ys, w, w', hne, -, hys, hw, hw'⟩ :=
      @words_differ data data' (shrinkWords len) i (hwords.trans_eq hlen.symm)
      (hlen'.trans hlen.symm) hdiff hin
    unfold shr224ShrinkData shr224Shrink at heq
    rw [hlen, hlen', hw, hw'] at heq
    refine shrinkLoop_differs hne (by rwa [hys]) _ hseven (flatMap_leBytes32_inj ?_ heq)
    rw [length_shrinkLoop, length_shrinkLoop]

/-- The digest of four bytes depends on the last one. -/
theorem shrink_keeps_last_of_four : ShrinkKeepsByte 0 4 3 :=
  (shrink_keeps_byte_iff 0 4 3 (by decide)).mpr (by decide)

/-- A fifth byte is left out, and of 56 zeros the first one can be another byte. -/
theorem shrink_hides_byte : ¬ ShrinkKeepsByte 0 5 4 ∧ ¬ ShrinkKeepsByte 0 56 0 := by
  constructor
  · intro hkeeps
    exact hkeeps (List.replicate 5 0) ((List.replicate 5 0).set 4 1) rfl rfl
      (zeros_differ (by decide)) (by decide)
  · intro hkeeps
    exact hkeeps (List.replicate 56 0) ((List.replicate 56 0).set 0 1) rfl rfl
      (zeros_differ (by decide)) (by decide)

end LibShare.Mem
