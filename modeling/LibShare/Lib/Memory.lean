import Mathlib.Data.Nat.Basic
import Mathlib.Data.UInt
import Mathlib.Tactic.Common

/-!
# Bytes in memory

A memory is a function from addresses to bytes. `poke` writes a byte string and
`slice` reads one; a string that is read back is the one that was written
(`slice_poke`), and what lies outside of it is unchanged (`slice_poke_ne`).
Numbers are stored with their most significant byte first (`beBytes`, `beVal`).
-/

namespace LibShare

/-- The byte at each address. -/
abbrev Memory := Nat → UInt8

/-- A byte string written at an address. -/
def poke (d : Memory) (a : Nat) (bs : List UInt8) : Memory :=
  fun i => if a ≤ i ∧ i < a + bs.length then bs.getD (i - a) 0 else d i

/-- The byte string at an address. -/
def slice (d : Memory) (a : Nat) : Nat → List UInt8
  | 0 => []
  | n + 1 => d a :: slice d (a + 1) n

@[simp] theorem length_slice (d : Memory) (n : Nat) : ∀ a, (slice d a n).length = n := by
  induction n with
  | zero =>
    intro a
    rfl
  | succ n ih =>
    intro a
    rw [slice, List.length_cons, ih]

theorem slice_congr {d d' : Memory} : ∀ {n a : Nat}, (∀ i, a ≤ i → i < a + n → d' i = d i) →
    slice d' a n = slice d a n := by
  intro n
  induction n with
  | zero =>
    intro a _
    rfl
  | succ n ih =>
    intro a h
    rw [slice, slice, h a (Nat.le_refl a) (by omega), ih fun i hi hlt => h i (by omega) (by omega)]

theorem poke_of_not_mem {d : Memory} {a i : Nat} {bs : List UInt8}
    (h : i < a ∨ a + bs.length ≤ i) : poke d a bs i = d i := by
  unfold poke
  rw [if_neg (by omega)]

/-- What lies outside of the bytes written is unchanged. -/
theorem slice_poke_ne {d : Memory} {a b n : Nat} {bs : List UInt8}
    (h : b + n ≤ a ∨ a + bs.length ≤ b) : slice (poke d a bs) b n = slice d b n :=
  slice_congr fun i _ _ => poke_of_not_mem (by omega)

/-- The bytes written are read back. -/
theorem slice_poke (d : Memory) : ∀ (bs : List UInt8) (a : Nat),
    slice (poke d a bs) a bs.length = bs := by
  intro bs
  induction bs generalizing d with
  | nil =>
    intro a
    rfl
  | cons b bs ih =>
    intro a
    have hhead : poke d a (b :: bs) a = b := by simp [poke]
    have htail : ∀ i, a + 1 ≤ i → i < a + 1 + bs.length →
        poke d a (b :: bs) i = poke d (a + 1) bs i := by
      intro i h1 h2
      have hi : i - a = (i - (a + 1)) + 1 := by omega
      unfold poke
      rw [if_pos (by rw [List.length_cons]; omega), if_pos (by omega), hi, List.getD_cons_succ]
    rw [List.length_cons, slice, hhead, slice_congr htail, ih]

theorem slice_append (d : Memory) (n : Nat) : ∀ (m a : Nat),
    slice d a (m + n) = slice d a m ++ slice d (a + m) n := by
  intro m
  induction m with
  | zero =>
    intro a
    rw [Nat.zero_add, Nat.add_zero]
    rfl
  | succ m ih =>
    intro a
    rw [Nat.add_right_comm, slice, slice, ih, List.cons_append, Nat.add_assoc a 1 m,
      Nat.add_comm 1 m]

/-! ## Numbers -/

/-- A number in a given number of bytes. -/
def beBytes : Nat → Nat → List UInt8
  | 0, _ => []
  | w + 1, n => UInt8.ofNat (n / 256 ^ w) :: beBytes w n

/-- The number that a byte string stands for. -/
def beVal : List UInt8 → Nat
  | [] => 0
  | b :: bs => b.toNat * 256 ^ bs.length + beVal bs

@[simp] theorem length_beBytes (w n : Nat) : (beBytes w n).length = w := by
  induction w with
  | zero => rfl
  | succ w ih => rw [beBytes, List.length_cons, ih]

theorem beVal_beBytes (w n : Nat) : beVal (beBytes w n) = n % 256 ^ w := by
  induction w with
  | zero => simp [beBytes, beVal, Nat.mod_one]
  | succ w ih =>
    have hbyte : (UInt8.ofNat (n / 256 ^ w)).toNat = n / 256 ^ w % 256 := by simp
    have hmod : n % (256 ^ w * 256) = n % 256 ^ w + 256 ^ w * (n / 256 ^ w % 256) :=
      Nat.mod_mul
    rw [beBytes, beVal, length_beBytes, ih, hbyte, Nat.pow_succ, hmod, Nat.mul_comm]
    omega

/-- Zero bytes stand for zero. -/
theorem beVal_zero : ∀ {bs : List UInt8}, (∀ b ∈ bs, b = 0) → beVal bs = 0 := by
  intro bs
  induction bs with
  | nil =>
    intro _
    rfl
  | cons b bs ih =>
    intro h
    rw [beVal, h b List.mem_cons_self, ih fun x hx => h x (List.mem_cons_of_mem _ hx)]
    simp

theorem slice_zero {d : Memory} : ∀ {n a : Nat}, (∀ i, a ≤ i → i < a + n → d i = 0) →
    ∀ b ∈ slice d a n, b = 0 := by
  intro n
  induction n with
  | zero =>
    intro a _ b hb
    cases hb
  | succ n ih =>
    intro a h b hb
    rcases List.mem_cons.mp hb with rfl | hb
    · exact h a (Nat.le_refl a) (by omega)
    · exact ih (fun i hi hlt => h i (by omega) (by omega)) b hb

/-- The number at an address. -/
def beAt (d : Memory) (a w : Nat) : Nat := beVal (slice d a w)

theorem beAt_poke (d : Memory) (a w n : Nat) (h : n < 256 ^ w) :
    beAt (poke d a (beBytes w n)) a w = n := by
  have hread := slice_poke d (beBytes w n) a
  rw [length_beBytes] at hread
  rw [beAt, hread, beVal_beBytes, Nat.mod_eq_of_lt h]

theorem beAt_poke_ne {d : Memory} {a b w : Nat} {bs : List UInt8}
    (h : b + w ≤ a ∨ a + bs.length ≤ b) : beAt (poke d a bs) b w = beAt d b w := by
  rw [beAt, slice_poke_ne h, beAt]

theorem beAt_zero {d : Memory} {a w : Nat} (h : ∀ i, a ≤ i → i < a + w → d i = 0) :
    beAt d a w = 0 :=
  beVal_zero (slice_zero h)

end LibShare
