import LibShare.Mem.MapIter

/-!
# libshare — the bucket mask of a map

`ht->max` is both the last index of the bucket array and the mask of a hash. The mask
of a new map is 15; `_expand_array` doubles it, where a mask of ones would need twice
the mask and one.

* `Expanded` — the maps that have been expanded so many times, with any other changes
  in between. What calls of `shmap_set_ent` lead to is one of them (`mapAfter_expanded`).
* `buckets_reached_iff` — a hash never leads outside of the array, and the buckets are
  all reached just before the first expansion, and from the 32nd on, where the mask is
  gone.
-/

namespace LibShare.Mem

variable {P : Type}

/-- A map that has been expanded `n` times since it was new. Everything else that changes
a map keeps its mask and the number of its buckets. -/
inductive Expanded : Nat → Shmap P → Prop
  | init : Expanded 0 shmapInit
  | edit {n : Nat} {ht ht' : Shmap P} (h : Expanded n ht) (hmax : ht'.max = ht.max)
      (hlen : ht'.array.length = ht.array.length) : Expanded n ht'
  | expand {n : Nat} {ht : Shmap P} (h : Expanded n ht) : Expanded (n + 1) (expandArray ht)

/-- The array has a bucket for each index up to the mask. -/
theorem expandArray_length (ht : Shmap P) :
    (expandArray ht).array.length = (ht.max * 2).toNat + 1 := by
  obtain ⟨hlen, -, -⟩ := Buckets.foldl_push (bucketOf (ht.max * 2)) ht.entries
    (fun he _ => mask_lt he.hash _) (allocArray (ht.max * 2)) (by simp [allocArray])
    (Buckets.placed_replicate_nil _ _)
  exact hlen

theorem Expanded.length {n : Nat} {ht : Shmap P} (h : Expanded n ht) :
    ht.array.length = ht.max.toNat + 1 := by
  induction h with
  | init => simp [shmapInit, allocArray]
  | edit _ hmax hlen ih => rw [hlen, hmax, ih]
  | expand _ _ => exact expandArray_length _

/-- The mask is doubled, modulo the width of an `unsigned int`. -/
theorem Expanded.max {n : Nat} {ht : Shmap P} (h : Expanded n ht) :
    ht.max.toNat = 15 * 2 ^ n % 2 ^ 32 := by
  induction h with
  | init => rfl
  | edit _ hmax _ ih => rw [hmax, ih]
  | @expand n ht _ ih =>
    show (ht.max * 2).toNat = _
    rw [UInt32.toNat_mul, ih, Nat.pow_succ]
    show 15 * 2 ^ n % 2 ^ 32 * 2 % 2 ^ 32 = _
    omega

theorem mapAfter_expanded (caller : Caller P) (calls : List (SetEnt P)) :
    ∃ n, Expanded n (mapAfter caller calls) := by
  induction calls using List.reverseRecOn with
  | nil => exact ⟨0, .init⟩
  | append_singleton calls call ih =>
    obtain ⟨n, hn⟩ := ih
    obtain ⟨⟨m, href⟩, -⟩ := memRun_holds caller (calls ++ [call])
    have hlen := href.wf.length_eq
    rcases store_max caller (mapAfter caller calls) call.key call.flag call.val call.size
        with hsame | hdouble
    · rw [mapAfter_snoc] at hlen ⊢
      refine ⟨n, hn.edit hsame ?_⟩
      rw [hlen, hn.length]
      exact congrArg (fun max : UInt32 => max.toNat + 1) hsame
    · rw [mapAfter_snoc] at hlen ⊢
      refine ⟨n + 1, hn.expand.edit hdouble ?_⟩
      rw [hlen, expandArray_length]
      exact congrArg (fun max : UInt32 => max.toNat + 1) hdouble

/-- An even mask leaves out the buckets with an odd index. -/
theorem and_even {max : UInt32} (h : max.toNat % 2 = 0) (hash : UInt32) :
    (hash &&& max).toNat % 2 = 0 := by
  have hbit : (hash.toNat &&& max.toNat) % 2 = hash.toNat % 2 &&& max.toNat % 2 :=
    Nat.and_mod_two_pow (n := 1)
  rw [UInt32.toNat_and, hbit, h, Nat.and_zero]

theorem mask_ne_zero : ∀ n < 32, 15 * 2 ^ n % 2 ^ 32 ≠ 0 := by decide

/-- A hash always leads to a bucket of the array. Every bucket is led to just before the
first expansion, and from the 32nd on. -/
theorem buckets_reached_iff {n : Nat} {ht : Shmap P} (h : Expanded n ht) :
    (∀ hash, (hash &&& ht.max).toNat < ht.array.length) ∧
      ((∀ i < ht.array.length, ∃ hash, (hash &&& ht.max).toNat = i) ↔ n = 0 ∨ 32 ≤ n) := by
  have hmax := h.max
  rw [h.length]
  refine ⟨fun hash => mask_lt hash ht.max, ?_⟩
  constructor
  · intro hall
    by_contra hn
    obtain ⟨hpos, hlt⟩ := not_or.mp hn
    -- the mask is even and not zero, so that bucket 1 is there
    have heven : ht.max.toNat % 2 = 0 := by
      obtain ⟨m, rfl⟩ := Nat.exists_eq_succ_of_ne_zero hpos
      rw [hmax, Nat.pow_succ]
      omega
    have hnz : ht.max.toNat ≠ 0 := by
      rw [hmax]
      exact mask_ne_zero n (by omega)
    obtain ⟨hash, hhash⟩ := hall 1 (Nat.succ_lt_succ (Nat.pos_of_ne_zero hnz))
    have hodd := and_even heven hash
    rw [hhash] at hodd
    cases hodd
  · rintro (rfl | hn) i hi
    · -- all bits below 16 are in the mask
      refine ⟨UInt32.ofNat i, ?_⟩
      rw [UInt32.toNat_and, hmax, UInt32.toNat_ofNat', Nat.mod_eq_of_lt (by omega)]
      exact (Nat.and_two_pow_sub_one_eq_mod i 4).trans (Nat.mod_eq_of_lt (by omega))
    · have hzero : ht.max.toNat = 0 := by
        obtain ⟨m, rfl⟩ := Nat.exists_eq_add_of_le hn
        rw [hmax, Nat.pow_add]
        omega
      refine ⟨0, ?_⟩
      rw [UInt32.toNat_and, hzero, Nat.and_zero]
      omega

/-- Stores under different keys, which are one more than a new map has room for. -/
def sixteenStores : List (SetEnt Unit) :=
  (List.range 16).map fun i => ⟨{ ashkeyBlank with crc := i.toUInt16 }, 0, some (), 0⟩

/-- The map has been expanded, and some of its buckets are reached by no hash. -/
theorem buckets_reached_sixteen :
    (∀ hash, (hash &&& (mapAfter zeroMemory sixteenStores).max).toNat <
      (mapAfter zeroMemory sixteenStores).array.length) ∧
    ¬ ∀ i < (mapAfter zeroMemory sixteenStores).array.length,
      ∃ hash, (hash &&& (mapAfter zeroMemory sixteenStores).max).toNat = i := by
  obtain ⟨n, hn⟩ := mapAfter_expanded zeroMemory sixteenStores
  have hmax : (mapAfter zeroMemory sixteenStores).max = 30 := by decide +kernel
  have hpow := hn.max
  rw [hmax] at hpow
  obtain ⟨hin, hall⟩ := buckets_reached_iff hn
  refine ⟨hin, fun h => ?_⟩
  rcases hall.mp h with rfl | hlong
  · exact absurd hpow (by decide)
  · obtain ⟨m, rfl⟩ := Nat.exists_eq_add_of_le hlong
    rw [Nat.pow_add] at hpow
    have hzero : (30 : UInt32).toNat = 30 := rfl
    omega

/-- After one expansion no hash leads to bucket 1. -/
theorem bucket_unreached : ∃ i < (expandArray (shmapInit : Shmap Nat)).array.length,
    ∀ hash, (hash &&& (expandArray (shmapInit : Shmap Nat)).max).toNat ≠ i := by
  refine ⟨1, ?_, ?_⟩
  · rw [expandArray_length]
    decide
  · intro hash hone
    have heven := @and_even (expandArray (shmapInit : Shmap Nat)).max (by decide) hash
    omega

end LibShare.Mem
