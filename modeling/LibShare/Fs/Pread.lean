import LibShare.Fs.Content
import LibShare.Mem.Buf

/-!
# libshare — reading a segment

`shfs_aux_pread` goes through the blocks of an inode from the first one on. It skips the blocks
before the offset, takes a part of the block that the offset is in, and takes every later block as
a whole, or as far as a map has room. The limit is compared with the buffer only for the part of a
block, and with the offset only behind a block: whole blocks beyond the limit are appended
(`pread_run`). The sum of the two is a `size_t`, which may wrap around to a block before the offset.

`pread_iff` says for which offsets, limits and buffers the segment is what it should be.
-/

namespace LibShare.Fs

variable {fs : Shfs} {inode : Block} {L : List Idx} {D ret : Bytes} {n of max held : Nat}
  {cap : Option Nat}

/-! ## Buffers -/

/-- The contents of a buffer may be so long: memory on the heap is less than 2^31 bytes, and a map
does not grow beyond its size. -/
def CanHold : Option Nat → Nat → Prop
  | none, len => Mem.Fits len
  | some size, len => len ≤ size

instance CanHold.decidable : ∀ (cap : Option Nat) (len : Nat), Decidable (CanHold cap len)
  | none, len => inferInstanceAs (Decidable (Mem.shbufBlocks (len + 1) < 2 ^ 31))
  | some size, len => inferInstanceAs (Decidable (len ≤ size))

/-- `shbuf_cat`: what cannot be held has no result. -/
def catInto (cap : Option Nat) (ret data : Bytes) : Option Bytes :=
  if CanHold cap (ret.length + data.length) then some (ret ++ data) else none

/-- A buffer on the heap, or a map of some size. -/
def PreadBuff.upTo (cap : Option Nat) : PreadBuff Bytes where
  size := List.length
  room ret := cap.map (· - ret.length)
  cat := catInto cap

/-- What can hold more can hold less. -/
theorem CanHold.mono {a b : Nat} (h : CanHold cap b) (hle : a ≤ b) : CanHold cap a := by
  cases cap with
  | none => exact Mem.Fits.mono h hle
  | some size => exact Nat.le_trans hle h

/-- Two parts are appended one after the other, or both at once. -/
theorem catInto_append (cap : Option Nat) (ret a b : Bytes) :
    (catInto cap ret a).bind (fun ret => catInto cap ret b) = catInto cap ret (a ++ b) := by
  unfold catInto
  by_cases hfirst : CanHold cap (ret.length + a.length)
  · rw [if_pos hfirst, Option.bind_some, List.length_append, List.length_append, List.append_assoc,
      Nat.add_assoc]
  · have hboth : ¬ CanHold cap (ret.length + (a ++ b).length) := by
      intro hroom
      refine hfirst (hroom.mono ?_)
      rw [List.length_append]
      omega
    rw [if_neg hfirst, if_neg hboth]
    rfl

/-- Nothing is appended to a buffer that can hold what it has. -/
theorem catInto_nil (h : CanHold cap ret.length) : catInto cap ret [] = some ret := by
  rw [catInto, List.length_nil, Nat.add_zero, if_pos h, List.append_nil]

/-- How many bytes of whole blocks there is room for. -/
def roomFor (cap : Option Nat) (held len : Nat) : Nat :=
  match cap with
  | none => len
  | some size => min len (size - held)

/-- What is taken of whole blocks. -/
def limited (cap : Option Nat) (held : Nat) (xs : Bytes) : Bytes :=
  xs.take (roomFor cap held xs.length)

/-- The room that is left is used for the first part, and then for the second. -/
theorem limited_append (cap : Option Nat) (held : Nat) (a b : Bytes) :
    limited cap held (a ++ b) = limited cap held a ++
      limited cap (held + (limited cap held a).length) b := by
  unfold limited roomFor
  cases cap with
  | none => simp only [List.take_length]
  | some size =>
    dsimp only
    rw [List.take_append, List.length_append, List.length_take]
    congr 1
    · rw [List.take_eq_take_iff]
      omega
    · rw [List.take_eq_take_iff]
      omega

/-- A part that is cut to a number of bytes and to the room. -/
theorem limited_take (cap : Option Nat) (held m : Nat) {xs : Bytes} (hm : m ≤ xs.length) :
    limited cap held (xs.take m) = xs.take (roomFor cap held m) := by
  unfold limited
  rw [List.length_take, Nat.min_eq_left hm, List.take_take]
  unfold roomFor
  cases cap with
  | none => exact congrArg xs.take (Nat.min_self m)
  | some size => exact congrArg xs.take (by dsimp only; omega)

/-! ## What is appended -/

/-- How many bytes are taken from block `k` on, where `n` are left. -/
def fullLen (of max k n : Nat) : Nat :=
  if max = 0 then n else min n (((of + max) / blockDataSize + 1 - k) * blockDataSize)

/-- Where the block begins that the byte before the offset is in. -/
def firstStart (of : Nat) : Nat := (of - 1) / blockDataSize * blockDataSize

/-- The end of that block. -/
def firstEnd (n of : Nat) : Nat := min n (((of - 1) / blockDataSize + 1) * blockDataSize)

/-- How many bytes are taken from that block, for a buffer that holds some. -/
def firstLen (n of max held : Nat) : Nat :=
  if max ≠ 0 ∧ (max + 2 ^ 64 - held) % 2 ^ 64 < firstEnd n of - of then
    (max + 2 ^ 64 - held) % 2 ^ 64
  else firstEnd n of - of

/-- The offset beyond which no block is read. -/
def stopOf (of max : Nat) : Nat := (max + of) % 2 ^ 64

/-- What is appended from the block of the offset on, where `rest` is the content from `start` on.
-/
def seekPart (cap : Option Nat) (rest : Bytes) (start n of max held : Nat) : Bytes :=
  let first := (rest.drop (of - start)).take (firstLen n of max held)
  if max ≠ 0 ∧ stopOf of max < firstEnd n of then first
  else first ++ limited cap (held + first.length) ((rest.drop (firstEnd n of - start)).take
    (fullLen of max ((of - 1) / blockDataSize + 1) (n - firstEnd n of)))

/-- What is appended to a buffer that holds some bytes. -/
def preadPart (cap : Option Nat) (D : Bytes) (of max held : Nat) : Bytes :=
  if of = 0 then limited cap held (D.take (fullLen 0 max 0 D.length))
  -- the limit has wrapped around to a block before the offset
  else if D.length ≤ of ∨ max ≠ 0 ∧ stopOf of max < firstStart of then []
  else seekPart cap D 0 D.length of max held

/-! ## The loop -/

theorem length_raw (blk : Block) : blk.raw.toList.length = blockDataSize := Vector.length_toList

theorem blockDataSize_eq : blockDataSize = 3976 := rfl

/-- A chain that has ended. -/
theorem Idx.ino_of_nil {idx : Idx} (h : Chain (nextOf fs) idx.ref []) : idx.ino = 0 := by
  by_contra hne
  rw [Idx.ref_of_ne hne] at h
  cases h

/-- The block that ends beyond the limit is the last one. -/
theorem fullLen_last {k bOf : Nat} (hbOf : bOf = min n (k * blockDataSize))
    (hlimit : bOf ≤ of + max)
    (hstop : max ≠ 0 ∧ max + of < bOf + min blockDataSize (n - bOf)) :
    fullLen of max k (n - bOf) = min blockDataSize (n - bOf) := by
  unfold fullLen
  rw [if_neg hstop.1]
  simp only [blockDataSize_eq] at *
  omega

/-- A block that does not, and what is taken of the others. -/
theorem fullLen_next {k bOf : Nat} (hbOf : bOf = min n (k * blockDataSize))
    (hlimit : max = 0 ∨ bOf ≤ of + max)
    (hgo : ¬ (max ≠ 0 ∧ max + of < bOf + min blockDataSize (n - bOf))) :
    min (min blockDataSize (n - bOf)) blockDataSize =
      min (fullLen of max k (n - bOf)) blockDataSize ∧ fullLen of max k (n - bOf) - blockDataSize =
        fullLen of max (k + 1) (n - (bOf + min blockDataSize (n - bOf))) := by
  unfold fullLen
  simp only [blockDataSize_eq] at *
  split
  · omega
  · omega

/-- A whole block is taken as far as there is room. -/
theorem preadBlock_full (cap : Option Nat) {raw : Bytes} {bOf bLen : Nat} (h : of = 0 ∨ of ≤ bOf)
    (hraw : bLen ≤ raw.length) (ret : Bytes) :
    auxPreadBlock (.upTo cap) raw bOf bLen of max ret =
      catInto cap ret (limited cap ret.length (raw.take bLen)) := by
  rw [auxPreadBlock, if_pos h, limited_take cap _ _ hraw]
  cases cap with
  | none => rfl
  | some size => rfl

/-- Whole blocks are taken until one of them ends beyond the limit. -/
theorem preadLoop_full (hsum : max = 0 ∨ of + max < 2 ^ 64) :
    ∀ {L : List Idx} {fuel k bOf : Nat} {idx : Idx} {ret : Bytes},
    Chain (nextOf fs) idx.ref L → (∀ p ∈ L, fs.inMap p) → bOf = min n (k * blockDataSize) →
    max = 0 ∨ bOf ≤ of + max → of = 0 ∨ of ≤ bOf → CanHold cap ret.length → L.length < fuel →
    shfsAuxPreadLoop (.upTo cap) n of max fuel fs idx bOf ret =
      (catInto cap ret (limited cap ret.length
        ((content fs L).take (fullLen of max k (n - bOf))))).map .ok := by
  -- induction on the chain; `k` blocks of it have been read
  intro L
  induction L with
  | nil =>
    intro fuel k bOf idx ret hchain _ _ _ _ hroom hfuel
    obtain ⟨m, rfl⟩ := Nat.exists_eq_add_of_lt hfuel
    have hend : content fs [] = [] := rfl
    have hnone : limited cap ret.length [] = [] := List.take_nil
    rw [shfsAuxPreadLoop, if_pos (Idx.ino_of_nil hchain), hend, List.take_nil, hnone,
      catInto_nil hroom]
    rfl
  | cons p L ih =>
    rintro fuel k bOf idx ret ⟨hs, hchain⟩ hmap hbOf hlimit hseek hroom hfuel
    obtain ⟨rfl, hne⟩ := Idx.ref_eq_some hs
    obtain ⟨m, rfl⟩ : ∃ m, fuel = m + 1 := ⟨fuel - 1, by omega⟩
    rw [List.length_cons] at hfuel
    have hraw := length_raw (fs.block p)
    have hstopOf : max ≠ 0 → (max + of) % 2 ^ 64 = max + of := by omega
    rw [shfsAuxPreadLoop, if_neg hne, shfsInodeReadBlock_ok (hmap p List.mem_cons_self)]
    dsimp only
    rw [preadBlock_full cap hseek (by rw [hraw]; exact Nat.min_le_left _ _)]
    by_cases hstop : max ≠ 0 ∧ max + of < bOf + min blockDataSize (n - bOf)
    · -- the read ends in this block
      have hlast : (content fs (p :: L)).take (fullLen of max k (n - bOf)) =
          (fs.block p).raw.toList.take (min blockDataSize (n - bOf)) := by
        rw [content_cons, List.take_append, hraw,
          fullLen_last hbOf (hlimit.resolve_left hstop.1) hstop,
            Nat.sub_eq_zero_of_le (Nat.min_le_left _ _), List.take_zero, List.append_nil]
      rw [hlast]
      cases catInto cap ret (limited cap ret.length
        ((fs.block p).raw.toList.take (min blockDataSize (n - bOf)))) with
      | none => rfl
      | some ret' =>
        dsimp only
        rw [hstopOf hstop.1, if_pos hstop]
        rfl
    · -- the block is read whole and the loop goes on
      obtain ⟨hfirst, hrest⟩ := fullLen_next hbOf hlimit hstop
      have hnext : bOf + min blockDataSize (n - bOf) = min n ((k + 1) * blockDataSize) := by
        rw [Nat.succ_mul]
        omega
      have htake : (fs.block p).raw.toList.take (fullLen of max k (n - bOf)) =
          (fs.block p).raw.toList.take (min blockDataSize (n - bOf)) := by
        rw [List.take_eq_take_iff, hraw]
        exact hfirst.symm
      have hgo : ¬ (max ≠ 0 ∧ (max + of) % 2 ^ 64 < bOf + min blockDataSize (n - bOf)) := by
        rintro ⟨h0, hless⟩
        rw [hstopOf h0] at hless
        exact hstop ⟨h0, hless⟩
      rw [content_cons, List.take_append, hraw, htake, hrest, limited_append, ← catInto_append]
      generalize limited cap ret.length ((fs.block p).raw.toList.take
        (min blockDataSize (n - bOf))) = piece
      by_cases hpiece : CanHold cap (ret.length + piece.length)
      · have hcat : catInto cap ret piece = some (ret ++ piece) := if_pos hpiece
        have hlen : (ret ++ piece).length = ret.length + piece.length := List.length_append
        rw [hcat, Option.bind_some]
        dsimp only
        rw [if_neg hgo, ih hchain (fun q hq =>
          hmap q (List.mem_cons_of_mem _ hq)) hnext (by omega) (by omega)
          (by rw [hlen]; exact hpiece) (by omega), hlen]
      · have hcat : catInto cap ret piece = none := if_neg hpiece
        rw [hcat]
        rfl

/-- The block that the offset is in. -/
theorem firstEnd_of {k : Nat} (hof : of < n) (hk : k * blockDataSize < of)
    (hin : of ≤ (k + 1) * blockDataSize) :
    (of - 1) / blockDataSize = k ∧ k * blockDataSize + min blockDataSize (n - k * blockDataSize) =
    firstEnd n of ∧
      of ≤ firstEnd n of ∧ firstEnd n of - k * blockDataSize ≤ blockDataSize := by
  unfold firstEnd
  simp only [blockDataSize_eq] at *
  omega

/-- A block before the one that the offset is in is skipped. -/
theorem preadBlock_skip (cap : Option Nat) (raw : Bytes) (max : Nat) {k : Nat} (hof : of < n)
    (hskip : (k + 1) * blockDataSize < of)
    (ret : Bytes) :
    auxPreadBlock (.upTo cap) raw (k * blockDataSize)
      (min blockDataSize (n - k * blockDataSize)) of max ret = some ret ∧
      k * blockDataSize + min blockDataSize (n - k * blockDataSize) = (k + 1) * blockDataSize := by
  have hsucc : (k + 1) * blockDataSize = k * blockDataSize + blockDataSize := Nat.succ_mul _ _
  have hblock : min blockDataSize (n - k * blockDataSize) = blockDataSize := by omega
  rw [hblock, ← hsucc]
  refine ⟨?_, rfl⟩
  rw [auxPreadBlock, if_neg (by omega), if_neg (by omega)]

/-- The first block gives no more than it has behind the offset. -/
theorem firstLen_le (n of max held : Nat) : firstLen n of max held ≤ firstEnd n of - of := by
  unfold firstLen
  split
  · omega
  · exact Nat.le_refl _

theorem fullLen_zero (of max k : Nat) : fullLen of max k 0 = 0 := by
  unfold fullLen
  split
  · rfl
  · exact Nat.zero_min _

/-- Behind a block. -/
theorem drop_content {p : Idx} {i : Nat} (hi : blockDataSize ≤ i) :
    (content fs (p :: L)).drop i = (content fs L).drop (i - blockDataSize) := by
  have hraw := length_raw (fs.block p)
  rw [content_cons, List.drop_append, hraw, List.drop_eq_nil_of_le (by rw [hraw]; exact hi),
    List.nil_append]

/-- A limit that has wrapped around to a block before the offset: nothing is read. -/
theorem preadLoop_early (hof : of < n) (h0 : max ≠ 0) (hearly : stopOf of max < firstStart of) :
    ∀ {L : List Idx} {fuel k : Nat} {idx : Idx}, Chain (nextOf fs) idx.ref L →
      (∀ p ∈ L, fs.inMap p) →
    k * blockDataSize ≤ stopOf of max → n - k * blockDataSize ≤ (content fs L).length →
      L.length < fuel →
    shfsAuxPreadLoop (.upTo cap) n of max fuel fs idx (k * blockDataSize) ret = some (.ok ret) := by
  intro L
  induction L with
  | nil =>
    intro fuel k idx _ _ hk hlen _
    have hend : (content fs []).length = 0 := rfl
    unfold firstStart at hearly
    simp only [blockDataSize_eq] at *
    omega
  | cons p L ih =>
    rintro fuel k idx ⟨hs, hchain⟩ hmap hk hlen hfuel
    obtain ⟨rfl, hne⟩ := Idx.ref_eq_some hs
    obtain ⟨m, rfl⟩ : ∃ m, fuel = m + 1 := ⟨fuel - 1, by omega⟩
    rw [List.length_cons] at hfuel
    have hraw := length_raw (fs.block p)
    have hskip : (k + 1) * blockDataSize < of := by
      unfold firstStart at hearly
      simp only [blockDataSize_eq] at *
      omega
    obtain ⟨hblock, hend⟩ := preadBlock_skip cap (fs.block p).raw.toList max hof hskip ret
    rw [shfsAuxPreadLoop, if_neg hne, shfsInodeReadBlock_ok (hmap p List.mem_cons_self)]
    dsimp only
    rw [hblock]
    dsimp only
    rw [hend]
    split
    · rfl
    · next hgo =>
      have hlen' : n - (k + 1) * blockDataSize ≤ (content fs L).length := by
        rw [content_cons, List.length_append, hraw] at hlen
        rw [Nat.succ_mul]
        omega
      have hnext : (k + 1) * blockDataSize ≤ stopOf of max :=
        Nat.not_lt.mp fun hless => hgo ⟨h0, hless⟩
      exact ih hchain (fun q hq => hmap q (List.mem_cons_of_mem _ hq)) hnext hlen' (by omega)

/-- The end of the block that the offset is in. -/
theorem preadBlock_part (cap : Option Nat) {raw : Bytes} {k : Nat} (hof : of < n)
    (hk : k * blockDataSize < of)
    (hin : of ≤ (k + 1) * blockDataSize) (ret : Bytes) :
    auxPreadBlock (.upTo cap) raw (k * blockDataSize)
      (min blockDataSize (n - k * blockDataSize)) of max ret =
      catInto cap ret ((raw.drop (of - k * blockDataSize)).take
        (firstLen n of max ret.length)) := by
  obtain ⟨-, hfirst, hge, -⟩ := firstEnd_of hof hk hin
  have hlen1 : min (min blockDataSize (n - k * blockDataSize)) (firstEnd n of - of) =
      firstEnd n of - of := by
    omega
  have hof1 : min blockDataSize (n - k * blockDataSize) - (firstEnd n of - of) =
      of - k * blockDataSize := by
    omega
  rw [auxPreadBlock, if_neg (by omega), hfirst, if_pos hge]
  dsimp only
  rw [hlen1, hof1]
  rfl

/-- Blocks before the offset are skipped, and of the one that the offset is in the end is taken. -/
theorem preadLoop_beyond (hof : of < n) (hn : n < 2 ^ 64) (hmax : max < 2 ^ 64)
    (hgo : max = 0 ∨ firstStart of ≤ stopOf of max) :
    ∀ {L : List Idx} {fuel k : Nat} {idx : Idx} {ret : Bytes}, Chain (nextOf fs) idx.ref L →
      (∀ p ∈ L, fs.inMap p) → k * blockDataSize < of →
    n - k * blockDataSize ≤ (content fs L).length → L.length < fuel →
    shfsAuxPreadLoop (.upTo cap) n of max fuel fs idx (k * blockDataSize) ret =
      (catInto cap ret (seekPart cap (content fs L)
        (k * blockDataSize) n of max ret.length)).map .ok := by
  intro L
  induction L with
  | nil =>
    intro fuel k idx ret _ _ hk hlen _
    have hend : (content fs []).length = 0 := rfl
    omega
  | cons p L ih =>
    rintro fuel k idx ret ⟨hs, hchain⟩ hmap hk hlen hfuel
    obtain ⟨rfl, hne⟩ := Idx.ref_eq_some hs
    obtain ⟨m, rfl⟩ : ∃ m, fuel = m + 1 := ⟨fuel - 1, by omega⟩
    rw [List.length_cons] at hfuel
    have hraw := length_raw (fs.block p)
    have hsucc : (k + 1) * blockDataSize = k * blockDataSize + blockDataSize := Nat.succ_mul _ _
    have hlen' : n - (k + 1) * blockDataSize ≤ (content fs L).length := by
      rw [content_cons, List.length_append, hraw] at hlen
      omega
    have hmap' : ∀ q ∈ L, fs.inMap q := fun q hq => hmap q (List.mem_cons_of_mem _ hq)
    rw [shfsAuxPreadLoop, if_neg hne, shfsInodeReadBlock_ok (hmap p List.mem_cons_self)]
    dsimp only
    rcases Nat.lt_or_ge ((k + 1) * blockDataSize) of with hskip | hin
    · -- the offset is further on
      obtain ⟨hblock, hend⟩ := preadBlock_skip cap (fs.block p).raw.toList max hof hskip ret
      have hbefore : (k + 1) * blockDataSize ≤ firstStart of := by
        unfold firstStart
        simp only [blockDataSize_eq] at *
        omega
      have hon : ¬ (max ≠ 0 ∧ stopOf of max < (k + 1) * blockDataSize) := by omega
      rw [hblock]
      dsimp only
      rw [hend, ← stopOf, if_neg hon, ih hchain hmap' hskip hlen' (by omega)]
      have hfirst : (k + 1) * blockDataSize ≤ firstEnd n of := by
        unfold firstEnd
        simp only [blockDataSize_eq] at *
        omega
      have hgone : ∀ i, (k + 1) * blockDataSize ≤ i →
          (content fs (p :: L)).drop (i - k * blockDataSize) =
          (content fs L).drop (i - (k + 1) * blockDataSize) := by
        intro i hi
        have hsub : i - (k + 1) * blockDataSize = i - k * blockDataSize - blockDataSize := by omega
        rw [drop_content (by omega), hsub]
      unfold seekPart
      rw [hgone of (Nat.le_of_lt hskip), hgone _ hfirst]
    · -- the end of the block
      obtain ⟨hk1, hfirst, hge, hle⟩ := firstEnd_of hof hk hin
      have hshort := firstLen_le n of max ret.length
      have hpiece : ((content fs (p :: L)).drop (of - k * blockDataSize)).take
          (firstLen n of max ret.length) =
          ((fs.block p).raw.toList.drop (of - k * blockDataSize)).take
            (firstLen n of max ret.length) := by
        rw [content_cons, List.drop_append, List.take_append_of_le_length
          (by rw [List.length_drop, hraw]; omega)]
      unfold seekPart
      rw [preadBlock_part cap hof hk hin, hpiece, hfirst, hk1, ← stopOf]
      dsimp only
      generalize ((fs.block p).raw.toList.drop (of - k * blockDataSize)).take
        (firstLen n of max ret.length) = piece
      by_cases hstop : max ≠ 0 ∧ stopOf of max < firstEnd n of
      · rw [if_pos hstop]
        cases catInto cap ret piece with
        | none => rfl
        | some ret' =>
          dsimp only
          rw [if_pos hstop]
          rfl
      · have hbOf : firstEnd n of = min n ((k + 1) * blockDataSize) := by
          unfold firstEnd
          rw [hk1]
        -- the limit has not wrapped around
        have hsum : max = 0 ∨ of + max < 2 ^ 64 ∧ firstEnd n of ≤ of + max := by
          unfold stopOf at hstop
          omega
        -- what is left of the block is beyond the end of the content
        have hrest : ((content fs (p :: L)).drop (firstEnd n of - k * blockDataSize)).take
            (fullLen of max (k + 1) (n - firstEnd n of)) =
            (content fs L).take (fullLen of max (k + 1) (n - firstEnd n of)) := by
          rcases Nat.eq_or_lt_of_le hle with heq | hlt
          · rw [heq, drop_content (Nat.le_refl _), Nat.sub_self, List.drop_zero]
          · have hend : n - firstEnd n of = 0 := by omega
            rw [hend, fullLen_zero, List.take_zero, List.take_zero]
        rw [if_neg hstop, hrest, ← catInto_append]
        by_cases hroom : CanHold cap (ret.length + piece.length)
        · have hcat : catInto cap ret piece = some (ret ++ piece) := if_pos hroom
          have hlength : (ret ++ piece).length = ret.length + piece.length := List.length_append
          rw [hcat, Option.bind_some]
          dsimp only
          rw [if_neg hstop, preadLoop_full (hsum.imp id And.left) hchain hmap' hbOf
            (hsum.imp id And.right)
            (Or.inr hge) (by rw [hlength]; exact hroom) (by omega), hlength]
        · have hcat : catInto cap ret piece = none := if_neg hroom
          rw [hcat]
          rfl

/-! ## A segment -/

theorem firstEnd_le (n of : Nat) : firstEnd n of ≤ n := Nat.min_le_left _ _

/-- A whole block gives no more than the blocks have. -/
theorem fullLen_le (of max k n : Nat) : fullLen of max k n ≤ n := by
  unfold fullLen
  split
  · exact Nat.le_refl _
  · exact Nat.min_le_left _ _

/-- What is read, whatever the offset and the limit are. -/
theorem pread_run (h : HasContent fs inode L) (hroom : CanHold cap ret.length) (hmax : max < 2 ^ 64)
    (hn : inode.size < 2 ^ 64) {fuel : Nat} (hfuel : L.length < fuel) :
    shfsAuxPread (.upTo cap) fuel fs inode ret of max =
      (catInto cap ret (preadPart cap (contentOf fs inode L) of max ret.length)).map .ok := by
  unfold shfsAuxPread preadPart
  rw [h.length]
  by_cases hof : of = 0
  · subst hof
    have hlen := fullLen_le 0 max 0 inode.size
    have hfull : shfsAuxPreadLoop (.upTo cap) inode.size 0 max fuel fs inode.fpos 0 ret =
        (catInto cap ret (limited cap ret.length
          ((content fs L).take (fullLen 0 max 0 (inode.size - 0))))).map .ok :=
      preadLoop_full (Or.inr (by omega)) h.chain h.inMap (by omega) (by omega)
        (Or.inl rfl) hroom hfuel
    rw [if_neg (fun hne => hne.1 rfl), if_pos rfl, hfull, contentOf, List.take_take, Nat.sub_zero,
      Nat.min_eq_left hlen]
  · rw [if_neg hof]
    by_cases hend : inode.size ≤ of
    · rw [if_pos ⟨hof, hend⟩, if_pos (Or.inl hend), catInto_nil hroom]
      rfl
    have hlt : of < inode.size := Nat.lt_of_not_le hend
    have hlen : inode.size - 0 * blockDataSize ≤ (content fs L).length := by
      rw [Nat.zero_mul]
      exact h.enough
    have hbefore : 0 * blockDataSize < of := by omega
    rw [if_neg (fun hboth => hend hboth.2)]
    by_cases hearly : max ≠ 0 ∧ stopOf of max < firstStart of
    · have hnone : shfsAuxPreadLoop (.upTo cap) inode.size of max fuel fs inode.fpos
          (0 * blockDataSize) ret =
          some (.ok ret) :=
            preadLoop_early hlt hearly.1 hearly.2 h.chain h.inMap (by omega) hlen hfuel
      rw [Nat.zero_mul] at hnone
      rw [hnone, if_pos (Or.inr hearly), catInto_nil hroom]
      rfl
    · have hseek :=
        @preadLoop_beyond _ _ _ _ cap hlt hn hmax
          (by omega) _ _ _ _ ret h.chain h.inMap hbefore hlen hfuel
      rw [Nat.zero_mul] at hseek
      rw [hseek, if_neg (not_or.mpr ⟨hend, hearly⟩)]
      have hfirst := firstLen_le inode.size of max ret.length
      have hle := firstEnd_le inode.size of
      have hfull :=
        fullLen_le of max ((of - 1) / blockDataSize + 1) (inode.size - firstEnd inode.size of)
      have htake : ∀ {i m : Nat}, m ≤ inode.size - i →
          ((contentOf fs inode L).drop i).take m = ((content fs L).drop i).take m := by
        intro i m hm
        rw [contentOf, List.drop_take, List.take_take, Nat.min_eq_left hm]
      unfold seekPart
      rw [Nat.sub_zero, Nat.sub_zero, htake (by omega), htake hfull]

/-- The segment of a content from an offset on, limited unless the limit is zero. -/
def segment (D : Bytes) (of max : Nat) : Bytes := if max = 0 then
  D.drop of else (D.drop of).take max

/-- The bytes up to the end of the first block, and those behind it. -/
theorem take_two {i e m : Nat} (h : i ≤ e) :
    (D.drop i).take (e - i) ++ (D.drop e).take m = (D.drop i).take (e - i + m) := by
  have hdrop : D.drop e = (D.drop i).drop (e - i) := by
    rw [List.drop_drop]
    congr 1
    omega
  rw [hdrop, List.take_add]

/-- Two cuts of one length agree just when they take as many bytes. -/
theorem take_drop_eq_iff {i a b : Nat} :
    (D.drop i).take a = (D.drop i).take b ↔ min a (D.length - i) = min b (D.length - i) := by
  rw [List.take_eq_take_iff, List.length_drop]

/-- The end of the first block is behind the offset. -/
theorem firstEnd_gt (hof : 0 < of) (hlt : of < n) : of ≤ firstEnd n of := by
  unfold firstEnd
  simp only [blockDataSize_eq]
  omega

/-- Where the last block that is appended ends. -/
def lastEnd (n of max : Nat) : Nat := min n (((of + max) / blockDataSize + 1) * blockDataSize)

/-- The blocks behind the first one are taken up to the end of the block that the limit is in. -/
theorem firstEnd_add_fullLen (hof : 0 < of) (h0 : max ≠ 0) (hgo : firstEnd n of ≤ of + max) :
    firstEnd n of + fullLen of max ((of - 1) / blockDataSize + 1)
      (n - firstEnd n of) = lastEnd n of max := by
  unfold fullLen lastEnd
  rw [if_neg h0]
  unfold firstEnd at *
  simp only [blockDataSize_eq] at *
  omega

/-- Without a limit the segment ends with the content. -/
theorem lastEnd_of_le (h : n ≤ of + max) : lastEnd n of max = n := by
  unfold lastEnd
  simp only [blockDataSize_eq]
  omega

/-- The segment ends behind the limit. -/
theorem lt_lastEnd (h : of + max < n) : of + max < lastEnd n of max := by
  unfold lastEnd
  simp only [blockDataSize_eq]
  omega

/-- The segment ends with the content at the latest. -/
theorem lastEnd_le (n of max : Nat) : lastEnd n of max ≤ n := Nat.min_le_left _ _

/-- The room that the limit leaves is what is taken of the first block, if the block holds as much.
-/
theorem firstLen_of_le (h0 : max ≠ 0) (hmax : max < 2 ^ 64) (hheld : held ≤ max) :
    firstLen n of max held = min (max - held) (firstEnd n of - of) := by
  have hroom : (max + 2 ^ 64 - held) % 2 ^ 64 = max - held := by omega
  unfold firstLen
  rw [hroom]
  split
  · omega
  · omega

/-- A buffer that holds more than the limit leaves room for everything: the difference wraps. -/
theorem firstLen_of_gt (hn : held + n < 2 ^ 64) (hheld : max < held) :
    firstLen n of max held = firstEnd n of - of := by
  have hle := firstEnd_le n of
  have hroom : (max + 2 ^ 64 - held) % 2 ^ 64 = max + 2 ^ 64 - held := by omega
  unfold firstLen
  rw [hroom]
  exact if_neg fun hless => by omega

/-- A segment that is read as it should be, into a buffer that holds some bytes and that may be a
map which is full then: there is no limit; or the segment is empty; or it goes to the end or fills
the map, and the limit covers the end of the first block and what the buffer holds, or not even
that; or it ends before its first block does, and the buffer is empty. In the next case as many
bytes are left out as are read too much, and they are the same. In the last one the limit wraps
around, to the only block that is read. -/
def Reads (D : Bytes) (of max held : Nat) (full : Prop) : Prop :=
  max = 0 ∨ D.length ≤ of ∨
    (of + max < 2 ^ 64 ∧
      ((D.length ≤ of + max ∨ full) ∧
          (of = 0 ∨ held + firstEnd D.length of ≤ of + max ∨ firstEnd D.length of ≤ of + max ∧
            max < held) ∨
        (0 < of ∧ of + max < firstEnd D.length of ∧ held = 0) ∨
        (0 < of ∧ of + max < D.length ∧ held ≤ max ∧ of + max < held + firstEnd D.length of ∧
          firstEnd D.length of ≤ of + max ∧
          (lastEnd D.length of max = firstEnd D.length of + held ∨
            full ∧ firstEnd D.length of + held ≤ lastEnd D.length of max) ∧
          (D.drop (firstEnd D.length of)).take held = (D.drop (of + max - held)).take held))) ∨
    (2 ^ 64 ≤ of + max ∧ firstStart of + 2 ^ 64 ≤ of + max ∧ firstEnd D.length of = D.length)

/-- The buffer is a map, and a segment of so many bytes fills it. -/
def Full (cap : Option Nat) (held len : Nat) : Prop := cap = some (held + len)

/-- There is room for as much as is asked for, if there is room for a segment that is as long, or
the map is full behind it. -/
theorem min_roomFor {len seg e : Nat} (hroom : CanHold cap (held + seg)) (hseg : seg ≤ len)
    (he : len ≤ e) :
    min (roomFor cap held len) e = seg ↔ len = seg ∨ Full cap held seg := by
  unfold roomFor Full
  cases cap with
  | none =>
    dsimp only
    simp only [reduceCtorEq, or_false]
    omega
  | some size =>
    have hsize : held + seg ≤ size := hroom
    simp only [Option.some.injEq]
    omega

/-- The segment has as many bytes as were asked for, or as there are. -/
theorem length_segment (D : Bytes) (of max : Nat) (h0 : max ≠ 0) :
    (segment D of max).length = min max (D.length - of) := by
  rw [segment, if_neg h0, List.length_take, List.length_drop]

/-- Whole blocks, from the first one on. -/
theorem whole_eq_iff (h0 : max ≠ 0) (hroom : CanHold cap (held + min max D.length)) :
    limited cap held (D.take (fullLen 0 max 0 D.length)) = D.take max ↔
      D.length ≤ max ∨ Full cap held (min max D.length) := by
  have hle := fullLen_le 0 max 0 D.length
  have hmin := @min_roomFor held cap (fullLen 0 max 0 D.length) (min max D.length) D.length hroom
    (by unfold fullLen; rw [if_neg h0]; simp only [blockDataSize_eq]; omega) hle
  rw [limited_take _ _ _ hle, List.take_eq_take_iff, hmin]
  refine or_congr_left ?_
  unfold fullLen
  rw [if_neg h0]
  simp only [blockDataSize_eq]
  omega

/-- A segment that ends before its first block does. -/
theorem first_eq_iff (h0 : max ≠ 0) (hmax : max < 2 ^ 64) (hheld : held + D.length < 2 ^ 64)
    (hstop : of + max < firstEnd D.length of) :
    (D.drop of).take (firstLen D.length of max held) = (D.drop of).take max ↔ held = 0 := by
  have hle := firstEnd_le D.length of
  rw [take_drop_eq_iff]
  rcases Nat.lt_or_ge max held with hover | hroom
  · rw [firstLen_of_gt hheld hover]
    omega
  · rw [firstLen_of_le h0 hmax hroom]
    omega

/-- A limit that wraps around, so that only the first block is read. -/
theorem wrapped_eq_iff (hmax : max < 2 ^ 64) (hheld : held + D.length < 2 ^ 64)
    (hlt : of < D.length)
    (hpos : 0 < of) (hwrap : 2 ^ 64 ≤ of + max) :
    (D.drop of).take (firstLen D.length of max held) = (D.drop of).take max ↔
    firstEnd D.length of = D.length := by
  have hle := firstEnd_le D.length of
  have hge := firstEnd_gt hpos hlt
  rw [take_drop_eq_iff, firstLen_of_le (by omega) hmax (by omega)]
  omega

/-- A segment that goes beyond its first block, of which everything is taken. -/
theorem rest_eq_iff (hof : 0 < of) (hlt : of < D.length) (h0 : max ≠ 0)
    (hgo : firstEnd D.length of ≤ of + max)
    (hroom : CanHold cap (held + min max (D.length - of))) :
    (D.drop of).take (firstEnd D.length of - of) ++
        limited cap (held + (firstEnd D.length of - of)) ((D.drop (firstEnd D.length of)).take
          (fullLen of max ((of - 1) / blockDataSize + 1) (D.length - firstEnd D.length of))) =
      (D.drop of).take max ↔ D.length ≤ of + max ∨ Full cap held (min max (D.length - of)) := by
  have hge := firstEnd_gt hof hlt
  have hend := firstEnd_le D.length of
  have hlast := firstEnd_add_fullLen (n := D.length) hof h0 hgo
  have hle := lastEnd_le D.length of max
  have hfull : fullLen of max ((of - 1) / blockDataSize + 1) (D.length - firstEnd D.length of) ≤
      (D.drop (firstEnd D.length of)).length := by
    rw [List.length_drop]
    exact fullLen_le _ _ _ _
  have hbeyond : of + max < D.length → of + max < lastEnd D.length of max := lt_lastEnd
  have hall : D.length ≤ of + max → lastEnd D.length of max = D.length := lastEnd_of_le
  rw [limited_take _ _ _ hfull, take_two hge, take_drop_eq_iff]
  rw [List.length_drop] at hfull
  generalize fullLen of max ((of - 1) / blockDataSize + 1)
    (D.length - firstEnd D.length of) = F at *
  unfold roomFor Full
  cases cap with
  | none =>
    simp only [reduceCtorEq, or_false]
    omega
  | some size =>
    have hsize : held + min max (D.length - of) ≤ size := hroom
    simp only [Option.some.injEq]
    omega

/-- A segment that goes beyond its first block, of which a part is left out. -/
theorem part_eq_iff (hof : 0 < of) (hlt : of < D.length) (h0 : max ≠ 0)
    (hgo : firstEnd D.length of ≤ of + max)
    (hheld : held ≤ max) (hleft : of + max < held + firstEnd D.length of)
    (hroom : CanHold cap (held + min max (D.length - of))) :
    (D.drop of).take (max - held) ++
        limited cap (held + (max - held)) ((D.drop (firstEnd D.length of)).take
          (fullLen of max ((of - 1) / blockDataSize + 1) (D.length - firstEnd D.length of))) =
      (D.drop of).take max ↔
    of + max < D.length ∧ (lastEnd D.length of max = firstEnd D.length of + held ∨
        Full cap held (min max (D.length - of)) ∧
        firstEnd D.length of + held ≤ lastEnd D.length of max) ∧
      (D.drop (firstEnd D.length of)).take held = (D.drop (of + max - held)).take held := by
  have hge := firstEnd_gt hof hlt
  have hlast := firstEnd_add_fullLen (n := D.length) hof h0 hgo
  have hend := firstEnd_le D.length of
  have hle := lastEnd_le D.length of max
  have hfull : fullLen of max ((of - 1) / blockDataSize + 1) (D.length - firstEnd D.length of) ≤
      (D.drop (firstEnd D.length of)).length := by
    rw [List.length_drop]
    exact fullLen_le _ _ _ _
  have hsplit : (D.drop of).take max =
      (D.drop of).take (max - held) ++ (D.drop (of + max - held)).take held := by
    have hsum : max = max - held + held := by omega
    have hdrop : D.drop (of + max - held) = (D.drop of).drop (max - held) := by
      rw [List.drop_drop]
      congr 1
      omega
    rw [hdrop, ← List.take_add, ← hsum]
  rw [limited_take _ _ _ hfull, hsplit, List.append_cancel_left_eq]
  rw [List.length_drop] at hfull
  generalize fullLen of max ((of - 1) / blockDataSize + 1)
    (D.length - firstEnd D.length of) = F at *
  -- as many bytes are taken as are left out
  have hcount : of + max < D.length →
      (min (roomFor cap (held + (max - held)) F) (D.length - firstEnd D.length of) = held ↔
      lastEnd D.length of max = firstEnd D.length of + held ∨
        Full cap held (min max (D.length - of)) ∧
          firstEnd D.length of + held ≤ lastEnd D.length of max) := by
    intro hshort
    have hbeyond := lt_lastEnd hshort
    unfold roomFor Full
    cases cap with
    | none =>
      simp only [reduceCtorEq, false_and, or_false]
      omega
    | some size =>
      have hsize : held + min max (D.length - of) ≤ size := hroom
      simp only [Option.some.injEq]
      omega
  constructor
  · intro heq
    have hlen := congrArg List.length heq
    rw [List.length_take, List.length_take, List.length_drop, List.length_drop] at hlen
    have hshort : of + max < D.length := by
      by_contra hlong
      omega
    have hmin : min (roomFor cap (held + (max - held)) F) (D.length - firstEnd D.length of) =
        held := by omega
    refine ⟨hshort, (hcount hshort).mp hmin, ?_⟩
    rw [← heq, List.take_eq_take_iff, List.length_drop]
    omega
  · rintro ⟨hshort, hsame, heq⟩
    rw [← heq, List.take_eq_take_iff, List.length_drop]
    have hmin := (hcount hshort).mpr hsame
    omega

/-- Without a limit everything is read. -/
theorem preadPart_zero (hroom : CanHold cap (held + (D.length - of))) :
    preadPart cap D of 0 held = D.drop of := by
  have hall : ∀ k m, fullLen of 0 k m = m := fun k m => if_pos rfl
  unfold preadPart
  split
  · next h0 =>
    subst h0
    rw [hall, limited_take _ _ _ (Nat.le_refl _), List.drop_zero, List.take_eq_self_iff]
    unfold roomFor
    cases cap with
    | none => exact Nat.le_refl _
    | some size =>
      have hsize : held + (D.length - 0) ≤ size := hroom
      dsimp only
      omega
  · next h0 =>
    split
    · next hend =>
      rcases hend with hend | ⟨hne, -⟩
      · exact (List.drop_eq_nil_of_le hend).symm
      · exact absurd rfl hne
    · next hlt =>
      have hof : of < D.length := Nat.lt_of_not_le fun hle => hlt (Or.inl hle)
      have hge := firstEnd_gt (Nat.pos_of_ne_zero h0) hof
      have hle := firstEnd_le D.length of
      have hfirst : firstLen D.length of 0 held = firstEnd D.length of - of :=
        if_neg fun hne => hne.1 rfl
      have hlen : ((D.drop of).take (firstEnd D.length of - of)).length =
          firstEnd D.length of - of := by
        rw [List.length_take, List.length_drop]
        omega
      unfold seekPart
      dsimp only
      rw [Nat.sub_zero, Nat.sub_zero, if_neg (fun hne => hne.1 rfl), hfirst, hall, hlen,
        limited_take _ _ _ (Nat.le_of_eq List.length_drop.symm), take_two hge,
          List.take_eq_self_iff, List.length_drop]
      unfold roomFor
      cases cap with
      | none =>
        dsimp only
        omega
      | some size =>
        have hsize : held + (D.length - of) ≤ size := hroom
        dsimp only
        omega

/-- Where the limit has not wrapped around to a block before the offset. -/
theorem preadPart_seek (hpos : 0 < of) (hlt : of < D.length)
    (hlate : firstStart of ≤ stopOf of max) :
    preadPart cap D of max held = seekPart cap D 0 D.length of max held := by
  unfold preadPart
  rw [if_neg (Nat.ne_of_gt hpos), if_neg]
  rintro (hend | ⟨-, hearly⟩)
  · exact Nat.not_le_of_lt hlt hend
  · exact Nat.not_lt_of_le hlate hearly

/-- What is appended is the segment in these cases and no other. -/
theorem preadPart_eq_iff (hmax : max < 2 ^ 64) (hheld : held + D.length < 2 ^ 64)
    (hroom : CanHold cap (held + (segment D of max).length)) :
    preadPart cap D of max held = segment D of max ↔
      Reads D of max held (Full cap held (segment D of max).length) := by
  by_cases h0 : max = 0
  · subst h0
    rw [segment, if_pos rfl, List.length_drop] at hroom
    rw [preadPart_zero hroom, segment, if_pos rfl]
    exact iff_of_true rfl (Or.inl rfl)
  rw [length_segment D of max h0] at hroom ⊢
  rw [segment, if_neg h0]
  unfold Reads
  rw [or_iff_right h0]
  -- from the start of the file every block is read whole
  by_cases hof : of = 0
  · subst hof
    rw [preadPart, if_pos rfl, List.drop_zero]
    rw [Nat.sub_zero] at hroom ⊢
    rw [whole_eq_iff h0 hroom]
    constructor
    · exact fun hcase => Or.inr (Or.inl ⟨by omega, Or.inl ⟨hcase.imp (by omega) id, Or.inl rfl⟩⟩)
    · rintro (hempty | ⟨-, ⟨hcase, -⟩ | ⟨hbad, -⟩ | ⟨hbad, -⟩⟩ | ⟨hwrap, -⟩)
      · omega
      · exact hcase.imp (by omega) id
      · exact absurd hbad (Nat.lt_irrefl 0)
      · exact absurd hbad (Nat.lt_irrefl 0)
      · omega
  -- otherwise the first block is sought, and read from the offset on
  have hpos : 0 < of := Nat.pos_of_ne_zero hof
  by_cases hend : D.length ≤ of
  · rw [preadPart, if_neg hof, if_pos (Or.inl hend), List.drop_eq_nil_of_le hend, List.take_nil]
    exact iff_of_true rfl (Or.inl hend)
  have hlt : of < D.length := Nat.lt_of_not_le hend
  have hge := firstEnd_gt hpos hlt
  have hle := firstEnd_le D.length of
  have hstart : firstStart of < of := by
    unfold firstStart
    simp only [blockDataSize_eq]
    omega
  rw [or_iff_right hend]
  -- the code compares with the sum of offset and length in 64 bits
  rcases Nat.lt_or_ge (of + max) (2 ^ 64) with hsum | hwrap
  · have hstopOf : stopOf of max = of + max := by
      unfold stopOf
      omega
    rw [preadPart_seek hpos hlt (by omega), seekPart]
    rw [Nat.sub_zero, Nat.sub_zero]
    -- the read ends in the first block, or that block is cut short, or it goes to its end
    by_cases hstop : of + max < firstEnd D.length of
    · rw [if_pos ⟨h0, by omega⟩, first_eq_iff h0 hmax hheld hstop]
      omega
    · rw [if_neg fun hboth => hstop (hstopOf ▸ hboth.2)]
      have hgo : firstEnd D.length of ≤ of + max := by omega
      by_cases hcut : held ≤ max ∧ of + max < held + firstEnd D.length of
      · have hfirst : firstLen D.length of max held = max - held := by
          rw [firstLen_of_le h0 hmax hcut.1]
          omega
        have hlen : ((D.drop of).take (max - held)).length = max - held := by
          rw [List.length_take, List.length_drop]
          omega
        rw [hfirst, hlen, part_eq_iff hpos hlt h0 hgo hcut.1 hcut.2 hroom]
        constructor
        · rintro ⟨hshort, hlast, hsame⟩
          exact Or.inl ⟨hsum, Or.inr (Or.inr ⟨hpos, hshort, hcut.1, hcut.2, hgo, hlast, hsame⟩)⟩
        · rintro (⟨-, ⟨-, hcase⟩ | hcase | ⟨-, hshort, -, -, -, hlast, hsame⟩⟩ | hcase)
          · omega
          · omega
          · exact ⟨hshort, hlast, hsame⟩
          · omega
      · have hfirst : firstLen D.length of max held = firstEnd D.length of - of := by
          rcases Nat.lt_or_ge max held with hover | hheld'
          · exact firstLen_of_gt hheld hover
          · rw [firstLen_of_le h0 hmax hheld']
            omega
        have hlen : ((D.drop of).take (firstEnd D.length of - of)).length =
            firstEnd D.length of - of := by
          rw [List.length_take, List.length_drop]
          omega
        rw [hfirst, hlen, rest_eq_iff hpos hlt h0 hgo hroom]
        constructor
        · exact fun hcase => Or.inl ⟨hsum, Or.inl ⟨hcase, by omega⟩⟩
        · rintro (⟨-, ⟨hcase, -⟩ | ⟨-, hbad, -⟩ | ⟨-, -, hheld', hless, -⟩⟩ | ⟨hwrap, -⟩)
          · exact hcase
          · omega
          · exact absurd ⟨hheld', hless⟩ hcut
          · omega
  · -- the sum has wrapped
    have hstopOf : stopOf of max + 2 ^ 64 = of + max := by
      unfold stopOf
      omega
    by_cases hearly : stopOf of max < firstStart of
    · rw [preadPart, if_neg hof, if_pos (Or.inr ⟨h0, hearly⟩)]
      refine iff_of_false ?_ (by omega)
      intro hnil
      have hlen := congrArg List.length hnil
      rw [List.length_nil, List.length_take, List.length_drop] at hlen
      omega
    · rw [preadPart_seek hpos hlt (Nat.le_of_not_lt hearly), seekPart]
      rw [Nat.sub_zero, if_pos ⟨h0, by omega⟩]
      rw [wrapped_eq_iff hmax hheld hlt hpos hwrap]
      omega

/-! ## Reads -/

/-- More passes do no harm. -/
theorem pread_mono {fuel m : Nat} {r}
    (hrun : shfsAuxPread (.upTo cap) fuel fs inode ret of max = some r)
    (hle : fuel ≤ m) : shfsAuxPread (.upTo cap) m fs inode ret of max = some r := by
  unfold shfsAuxPread at hrun ⊢
  split at hrun
  · next hend => rw [if_pos hend]; exact hrun
  · next hin => rw [if_neg hin]; exact preadLoop_mono hrun hle

/-- Either the segment is what is appended and there is room for it, or it is never read. -/
theorem pread_eq_iff (h : HasContent fs inode L) (hroom : CanHold cap ret.length)
    (hmax : max < 2 ^ 64)
    (hn : inode.size < 2 ^ 64) :
    (∃ fuel, shfsAuxPread (.upTo cap) fuel fs inode ret of max =
        some (.ok (ret ++ segment (contentOf fs inode L) of max))) ↔
      CanHold cap (ret.length + (segment (contentOf fs inode L) of max).length) ∧
        preadPart cap (contentOf fs inode L) of max ret.length =
          segment (contentOf fs inode L) of max := by
  constructor
  · rintro ⟨fuel, hrun⟩
    have hlong := pread_mono hrun (Nat.le_add_right fuel (L.length + 1))
    rw [pread_run h hroom hmax hn (by omega), catInto] at hlong
    split at hlong
    · next hfits =>
      have heq := List.append_cancel_left (Except.ok.inj (Option.some.inj hlong))
      exact ⟨heq ▸ hfits, heq⟩
    · cases hlong
  · rintro ⟨hfits, heq⟩
    refine ⟨L.length + 1, ?_⟩
    rw [pread_run h hroom hmax hn (Nat.lt_succ_self _), heq, catInto, if_pos hfits]
    rfl

/-- A segment is read in these cases and no other, into a buffer on the heap or a map, whatever it
holds. -/
theorem pread_iff (h : HasContent fs inode L) (hcap : CanHold cap ret.length) (hmax : max < 2 ^ 64)
    (hret : ret.length + inode.size < 2 ^ 64) :
    (∃ fuel, shfsAuxPread (.upTo cap) fuel fs inode ret of max =
        some (.ok (ret ++ segment (contentOf fs inode L) of max))) ↔
      CanHold cap (ret.length + (segment (contentOf fs inode L) of max).length) ∧
        Reads (contentOf fs inode L) of max ret.length
          (Full cap ret.length (segment (contentOf fs inode L) of max).length) := by
  rw [pread_eq_iff h hcap hmax (by omega)]
  rw [← h.length] at hret
  exact and_congr_right fun hroom => preadPart_eq_iff hmax hret hroom

/-- A partition on which a block refers to the next one. -/
def twoBlockStore : Shfs :=
  { Shfs.empty with
    block := fun p => if p = { jno := 1, ino := 1 } then
      { Block.zero with npos := { jno := 1, ino := 2 } } else Block.zero }

/-- A file of these two blocks. -/
def twoBlockFile : Block :=
  { Block.zero with size := 2 * blockDataSize, fpos := { jno := 1, ino := 1 } }

theorem twoBlockFile_content :
    HasContent twoBlockStore twoBlockFile [{ jno := 1, ino := 1 }, { jno := 1, ino := 2 }] := by
  refine ⟨⟨rfl, rfl, rfl⟩, fun p hp => ?_, ?_⟩
  · simp only [List.mem_cons, List.not_mem_nil, or_false] at hp
    rcases hp with rfl | rfl
    · exact ⟨by decide, by decide⟩
    · exact ⟨by decide, by decide⟩
  · rw [content_length]
    exact Nat.le_refl _

theorem twoBlockFile_length :
    (contentOf twoBlockStore twoBlockFile [{ jno := 1, ino := 1 },
      { jno := 1, ino := 2 }]).length = 7952 :=
  twoBlockFile_content.length

/-- The end of its first block and the whole of the second are read behind three bytes. -/
theorem pread_iff_twoBlocks :
    ∃ fuel, shfsAuxPread (.upTo none) fuel twoBlockStore twoBlockFile [1, 2, 3] 3000 5000 =
    some (.ok ([1, 2, 3] ++
      segment
        (contentOf twoBlockStore twoBlockFile [{ jno := 1, ino := 1 }, { jno := 1, ino := 2 }])
        3000 5000)) := by
  refine (pread_iff twoBlockFile_content (by decide) (by decide) (by decide)).mpr ⟨?_, ?_⟩
  · rw [length_segment _ _ _ (by decide), twoBlockFile_length]
    decide
  · unfold Reads
    rw [twoBlockFile_length]
    exact Or.inr (Or.inr (Or.inl
      ⟨by decide, Or.inl ⟨Or.inl (by decide), Or.inr (Or.inl (by decide))⟩⟩))

/-- Its first ten bytes cannot be read: the whole first block is appended. From its eleventh byte
on nothing of its second block is read with the largest limit. -/
theorem first_bytes_not_read :
    HasContent twoBlockStore twoBlockFile [{ jno := 1, ino := 1 }, { jno := 1, ino := 2 }] ∧
    (¬ ∃ fuel, shfsAuxPread (.upTo none) fuel twoBlockStore twoBlockFile [] 0 10 =
      some (.ok ([] ++
        segment (contentOf twoBlockStore twoBlockFile [{ jno := 1, ino := 1 },
          { jno := 1, ino := 2 }]) 0 10))) ∧
    ¬ ∃ fuel, shfsAuxPread (.upTo none) fuel twoBlockStore twoBlockFile [] 10 (2 ^ 64 - 1) =
      some (.ok ([] ++
        segment
          (contentOf twoBlockStore twoBlockFile [{ jno := 1, ino := 1 }, { jno := 1, ino := 2 }])
          10 (2 ^ 64 - 1))) := by
  have hlen := twoBlockFile_length
  have hnever : ∀ {of max : Nat}, max < 2 ^ 64 →
      ¬ Reads (contentOf twoBlockStore twoBlockFile [{ jno := 1, ino := 1 },
        { jno := 1, ino := 2 }]) of max 0
        (Full none 0 (segment (contentOf twoBlockStore twoBlockFile
          [{ jno := 1, ino := 1 }, { jno := 1, ino := 2 }]) of max).length) →
      ¬ ∃ fuel, shfsAuxPread (.upTo none) fuel twoBlockStore twoBlockFile [] of max =
        some (.ok ([] ++
          segment (contentOf twoBlockStore twoBlockFile [{ jno := 1, ino := 1 },
            { jno := 1, ino := 2 }]) of max)) := by
    intro of max hmax hbad hread
    have hparts := (pread_eq_iff twoBlockFile_content (by decide) hmax (by decide)).mp hread
    exact hbad ((preadPart_eq_iff hmax (by rw [hlen]; decide) hparts.1).mp hparts.2)
  refine ⟨twoBlockFile_content, hnever (by decide) ?_, hnever (by decide) ?_⟩
  · unfold Reads Full
    rw [hlen]
    rintro (hbad | hbad | ⟨-, ⟨hbad | hbad, -⟩ | ⟨hbad, -⟩ | ⟨hbad, -⟩⟩ | ⟨hbad, -⟩)
    · omega
    · omega
    · omega
    · exact nomatch hbad
    · omega
    · omega
    · omega
  · unfold Reads Full
    rw [hlen]
    have hend : firstEnd 7952 10 = 3976 := by decide
    rintro (hbad | hbad | ⟨hbad, -⟩ | ⟨-, -, hbad⟩)
    · omega
    · omega
    · omega
    · omega

end LibShare.Fs
