import LibShare.Base
import Mathlib.Data.List.TakeWhile

/-!
# libshare — keys of numbers

`shkey_num` and `ashkey_num` of `shmem_key.c`. The first hashes the eight bytes of a number, the
second its bytes up to the first one that is zero, as if they were a text. A number is given as
its word, a negative one in two's complement; `sh_sha256` is a parameter.

* `windows_cover` — the windows of the data that are hashed cover it, whatever its length.
* `ashkeyNum_iff` — which numbers are told apart, and for which the two keys are one.
-/

namespace LibShare.Mem

/-! ## Keys -/

/-- `shkey_bin_r`. The digest has half of the room that there is for it, and zeros follow. -/
def shkeyBinR (sha256 : Bytes → Bytes) (data : Bytes) : ShKey :=
  { ashkeyBlank with
    code := Vector.ofFn fun i : Fin 7 =>
      let step := data.length / 7
      let of := step * i
      let len := min (data.length - of) (step + 8)
      let hash := sha256 ((data.drop of).take len)
      -- created [32bit] checksum from sha hash
      shcrc32 (hash ++ List.replicate (64 - hash.length) 0) }

/-- `shkey_num`. -/
def shkeyNum (sha256 : Bytes → Bytes) (kvalue : UInt64) : ShKey :=
  shkeyBinR sha256 (leBytes64 kvalue)

/-- The buffer of `ashkey_num` up to its first zero. -/
def numStr (num : UInt64) : Bytes := (leBytes64 num ++ List.replicate 248 0).takeWhile (· ≠ 0)

/-- `ashkey_num`. -/
def ashkeyNum (sha256 : Bytes → Bytes) (num : UInt64) : ShKey := shkeyBinR sha256 (numStr num)

/-! ## Windows -/

/-- Where the window of a code word begins. -/
def windowOf (dataLen i : Nat) : Nat := dataLen / 7 * i

def windowLen (dataLen i : Nat) : Nat := min (dataLen - windowOf dataLen i) (dataLen / 7 + 8)

/-- The bytes that `shkey_bin_r` hashes for a code word. -/
def window (data : Bytes) (i : Nat) : Bytes :=
  (data.drop (windowOf data.length i)).take (windowLen data.length i)

/-- The code words are made of the windows, and of nothing else. -/
theorem shkeyBinR_window (sha256 : Bytes → Bytes) (data : Bytes) : shkeyBinR sha256 data =
    { ashkeyBlank with
      code := Vector.ofFn fun i : Fin 7 =>
        shcrc32 (sha256 (window data i) ++ List.replicate
          (64 - (sha256 (window data i)).length) 0) } := rfl

/-- A window lies within the data. -/
theorem window_within {n i : Nat} (hi : i < 7) : windowOf n i + windowLen n i ≤ n := by
  have hof : windowOf n i ≤ n := by
    have hsteps : n / 7 * i ≤ n / 7 * 7 := Nat.mul_le_mul_left _ (by omega)
    unfold windowOf
    omega
  unfold windowLen
  omega

/-- Each place of the data is in a window: the first six begin a seventh apart, and the
last one reaches to the end. -/
theorem exists_window {n j : Nat} (hj : j < n) :
    ∃ i < 7, windowOf n i ≤ j ∧ j < windowOf n i + windowLen n i := by
  by_cases hlast : n / 7 * 6 ≤ j
  · refine ⟨6, by decide, hlast, ?_⟩
    unfold windowLen windowOf
    omega
  · have hstep : 0 < n / 7 := by
      rcases Nat.eq_zero_or_pos (n / 7) with hzero | hpos
      · rw [hzero] at hlast
        omega
      · exact hpos
    have hlow : n / 7 * (j / (n / 7)) ≤ j := Nat.mul_div_le _ _
    have hhigh : j < n / 7 * (j / (n / 7)) + n / 7 := by
      rw [← Nat.mul_succ]
      exact Nat.lt_mul_div_succ _ hstep
    refine ⟨j / (n / 7), ?_, hlow, ?_⟩
    · rw [Nat.div_lt_iff_lt_mul hstep]
      omega
    · unfold windowLen windowOf
      omega

/-- Byte strings of one length that are cut at their first zero stay different if and only if no
zero stands below the first byte in which they differ. -/
theorem takeWhile_ne_iff : ∀ {xs ys : Bytes}, xs.length = ys.length → xs ≠ ys →
    (xs.takeWhile (· ≠ 0) ≠ ys.takeWhile (· ≠ 0) ↔
      ∀ i : Nat, (∀ j ≤ i, xs[j]? = ys[j]?) → xs[i]? ≠ some 0) := by
  intro xs
  induction xs with
  | nil =>
    intro ys hlen hne
    exact absurd (List.length_eq_zero_iff.mp hlen.symm).symm hne
  | cons x xs ih =>
    intro ys hlen hne
    rcases ys with _ | ⟨y, ys⟩
    · cases hlen
    by_cases hxy : x = y
    · subst hxy
      have htail : xs ≠ ys := fun heq => hne (congrArg (x :: ·) heq)
      by_cases hzero : x = 0
      · -- both end here
        subst hzero
        refine iff_of_false (fun h => h rfl) fun hall => hall 0 (fun j hj => ?_) rfl
        rw [Nat.le_zero.mp hj]
        rfl
      · rw [List.takeWhile_cons_of_pos (by simpa using hzero),
          List.takeWhile_cons_of_pos (by simpa using hzero), ne_eq, List.cons_inj_right, ← ne_eq,
            ih (Nat.succ.inj hlen) htail]
        constructor
        · intro hall i hi
          rcases i with _ | i
          · simpa using hzero
          · exact hall i fun j hj => hi (j + 1) (Nat.succ_le_succ hj)
        · intro hall i hi
          refine hall (i + 1) fun j hj => ?_
          rcases j with _ | j
          · rfl
          · exact hi j (Nat.le_of_succ_le_succ hj)
    · -- the first bytes differ, and one of them is not zero
      refine iff_of_true ?_ fun i hi => absurd (Option.some.inj (hi 0 (Nat.zero_le i))) hxy
      by_cases hx : x = 0
      · have hy : y ≠ 0 := fun hy => hxy (hx.trans hy.symm)
        rw [List.takeWhile_cons_of_neg (by simpa using hx),
          List.takeWhile_cons_of_pos (by simpa using hy)]
        exact fun heq => nomatch heq
      · rw [List.takeWhile_cons_of_pos (by simpa using hx)]
        by_cases hy : y = 0
        · rw [List.takeWhile_cons_of_neg (by simpa using hy)]
          exact fun heq => nomatch heq
        · rw [List.takeWhile_cons_of_pos (by simpa using hy)]
          exact fun heq => hxy (List.cons.inj heq).1

theorem length_leBytes64 (n : UInt64) : (leBytes64 n).length = 8 := rfl

theorem leBytes64_inj {n m : UInt64} (h : leBytes64 n = leBytes64 m) : n = m := by
  rw [← leWord64_leBytes64 n, h, leWord64_leBytes64]

/-- The zeros behind the number end it, if nothing else does. -/
theorem numStr_eq (n : UInt64) : numStr n = (leBytes64 n).takeWhile (· ≠ 0) := by
  unfold numStr
  by_cases hall : ∀ b ∈ leBytes64 n, decide (b ≠ 0) = true
  · rw [List.takeWhile_append_of_pos hall, List.takeWhile_eq_self_iff.mpr hall]
    simp
  · rw [List.takeWhile_append, if_neg]
    intro hlen
    exact hall (List.takeWhile_eq_self_iff.mp ((List.takeWhile_prefix _).eq_of_length hlen))

/-- A zero cuts the number short. -/
theorem numStr_short {n : UInt64} (h : 0 ∈ leBytes64 n) : (numStr n).length < 8 := by
  rw [numStr_eq]
  have hpre := List.takeWhile_prefix (fun b : UInt8 => decide (b ≠ 0)) (l := leBytes64 n)
  refine Nat.lt_of_le_of_ne hpre.length_le fun hlen => ?_
  have hself := List.takeWhile_eq_self_iff.mp (hpre.eq_of_length hlen) 0 h
  simp at hself

/-! ## The two keys -/

/-- A digest that tells lengths apart. -/
def lengthDigest (data : Bytes) : Bytes := [UInt8.ofNat data.length]

theorem lengthDigest_replicate (data : Bytes) :
    lengthDigest (List.replicate data.length 1) = lengthDigest data := by
  rw [lengthDigest, List.length_replicate, lengthDigest]

theorem lengthDigest_ne : ∀ len < 8,
    shcrc32 (lengthDigest (List.replicate len 1) ++ List.replicate 63 0) ≠
      shcrc32 (lengthDigest (List.replicate 8 1) ++ List.replicate 63 0) := by
  decide

/-- The first code word is that of the beginning of the data. -/
theorem shkeyBinR_first (sha256 : Bytes → Bytes) {data : Bytes} (hlen : data.length ≤ 8) :
    (shkeyBinR sha256 data).code[0] = shcrc32
    (sha256 data ++ List.replicate (64 - (sha256 data).length) 0) := by
  have hmin : min data.length (data.length / 7 + 8) = data.length := by omega
  simp [shkeyBinR, hmin]

/-- Different numbers give different byte strings to hash if and only if no byte below the first
one in which they differ is zero, and the keys of a number are one, whatever the digest is, if and
only if no byte of it is. -/
theorem ashkeyNum_iff (n : UInt64) :
    (∀ m : UInt64, n ≠ m → (numStr n ≠ numStr m ↔
      ∀ i : Nat, (∀ j ≤ i, (leBytes64 n)[j]? = (leBytes64 m)[j]?) → (leBytes64 n)[i]? ≠ some 0)) ∧
    ((∀ sha256, ashkeyNum sha256 n = shkeyNum sha256 n) ↔ 0 ∉ leBytes64 n) := by
  refine ⟨fun m hne => ?_, ?_⟩
  · rw [numStr_eq, numStr_eq]
    have hlength := (length_leBytes64 n).trans (length_leBytes64 m).symm
    exact takeWhile_ne_iff hlength fun heq => hne (leBytes64_inj heq)
  · constructor
    · -- a digest that tells lengths apart tells the two texts apart
      intro hall hzero
      have hshort := numStr_short hzero
      have hword := congrArg (fun key => key.code[0]) (hall lengthDigest)
      simp only [ashkeyNum, shkeyNum] at hword
      rw [shkeyBinR_first _ (Nat.le_of_lt hshort),
        shkeyBinR_first _ (Nat.le_of_eq (length_leBytes64 n))] at hword
      refine lengthDigest_ne _ hshort ?_
      rw [lengthDigest_replicate]
      exact hword
    · intro hno sha256
      have hself : numStr n = leBytes64 n := by
        rw [numStr_eq, List.takeWhile_eq_self_iff]
        intro b hb
        simpa using fun hz : b = 0 => hno (hz ▸ hb)
      rw [ashkeyNum, hself, shkeyNum]

/-- The numbers 0 and 256 are both hashed as nothing. -/
theorem numbers_not_told_apart : ¬ ((∀ n m : UInt64, n ≠ m → numStr n ≠ numStr m) ∧
    ∀ (sha256 : Bytes → Bytes) (n : UInt64), ashkeyNum sha256 n = shkeyNum sha256 n) := by
  rintro ⟨hall, -⟩
  exact hall 0 256 (by decide) rfl

end LibShare.Mem
