import LibShare.Fs.Alloc

/-!
# libshare — content of an inode

The content of an inode is spread over the blocks of its chain. Reading
concatenates their data segments up to the size of the inode
(`shfsAuxRead_chain`).
-/

namespace LibShare.Fs

/-! ## Chains of blocks -/

/-- The block that follows in the chain. -/
def nextOf (fs : Shfs) (p : Idx) : Option Idx := (fs.block p).npos.ref

/-- The data segments of blocks, one behind the other. -/
def content (fs : Shfs) (L : List Idx) : Bytes := L.flatMap fun p => (fs.block p).raw.toList

theorem blockDataSize_pos : 0 < blockDataSize := by decide

theorem content_cons (fs : Shfs) (p : Idx) (L : List Idx) :
    content fs (p :: L) = (fs.block p).raw.toList ++ content fs L := List.flatMap_cons

/-- Every block gives its whole data segment. -/
theorem content_length (fs : Shfs) (L : List Idx) :
    (content fs L).length = L.length * blockDataSize := by
  induction L with
  | nil => simp [content]
  | cons p L ih =>
    rw [content_cons, List.length_append, ih, Vector.length_toList, List.length_cons, Nat.succ_mul]
    omega

/-- The content depends on the blocks of the chain only. -/
theorem content_congr {fs fs' : Shfs} {L : List Idx} (h : ∀ p ∈ L, fs'.block p = fs.block p) :
    content fs' L = content fs L := by
  unfold content
  rw [List.flatMap_def, List.flatMap_def]
  congr 1
  exact List.map_congr_left fun p hp => by rw [h p hp]

/-- An inode with its chain, which holds its content. -/
structure HasContent (fs : Shfs) (inode : Block) (L : List Idx) : Prop where
  chain : Chain (nextOf fs) inode.fpos.ref L
  inMap : ∀ p ∈ L, fs.inMap p
  enough : inode.size ≤ (content fs L).length

/-- The content of an inode. -/
def contentOf (fs : Shfs) (inode : Block) (L : List Idx) : Bytes := (content fs L).take inode.size

/-- The content is as long as the inode says. -/
theorem HasContent.length {fs : Shfs} {inode : Block} {L : List Idx} (h : HasContent fs inode L) :
    (contentOf fs inode L).length = inode.size := by
  rw [contentOf, List.length_take, Nat.min_eq_left h.enough]

/-- The number of blocks for some data: at least one. -/
def blocksFor (data : Bytes) : Nat := (data.length - 1) / blockDataSize + 1

theorem blocksFor_pos (data : Bytes) : 0 < blocksFor data := Nat.succ_pos _

/-- What fits into a block needs one. -/
theorem blocksFor_last {data : Bytes} (h : data.drop blockDataSize = []) : blocksFor data = 1 := by
  have hlen := congrArg List.length h
  rw [List.length_drop, List.length_nil] at hlen
  have hpos := blockDataSize_pos
  unfold blocksFor
  rw [Nat.div_eq_of_lt (by omega)]

/-- What goes beyond a block needs one more than the rest. -/
theorem blocksFor_drop {data : Bytes} (h : data.drop blockDataSize ≠ []) :
    blocksFor data = blocksFor (data.drop blockDataSize) + 1 := by
  have hlen := List.length_pos_iff.mpr h
  rw [List.length_drop] at hlen
  have hpos := blockDataSize_pos
  unfold blocksFor
  rw [List.length_drop, show data.length - 1 = (data.length - blockDataSize - 1) + blockDataSize by
    omega, Nat.add_div_right _ hpos]

/-! ## Reading -/

-- Without a seek offset every block is read in full.
/-- From the start on a block is appended up to its length. -/
theorem auxPreadBlock_zero (raw : Bytes) (bOf bLen : Nat) (ret : Bytes) :
    auxPreadBlock .heap raw bOf bLen 0 0 ret = some (ret ++ raw.take bLen) := by
  simp [auxPreadBlock, PreadBuff.heap]

/-- The loop appends the blocks of the chain, by induction on it. -/
theorem preadLoop_chain {fs : Shfs} {dataLen : Nat} : ∀ {L : List Idx} {fuel : Nat} {idx : Idx}
    {bOf : Nat} {ret : Bytes}, Chain (nextOf fs) idx.ref L → (∀ p ∈ L, fs.inMap p) →
    bOf ≤ dataLen → L.length < fuel →
    shfsAuxPreadLoop .heap dataLen 0 0 fuel fs idx bOf ret =
      some (.ok (ret ++ (content fs L).take (dataLen - bOf))) := by
  intro L
  induction L with
  | nil =>
    intro fuel idx bOf ret hchain _ _ hfuel
    obtain ⟨n, rfl⟩ := Nat.exists_eq_add_of_lt hfuel
    have hzero : idx.ino = 0 := by
      by_contra hne
      rw [Idx.ref_of_ne hne] at hchain
      cases hchain
    simp only [List.length_nil, Nat.zero_add, shfsAuxPreadLoop, hzero, if_true, content,
      List.flatMap_nil, List.take_nil, List.append_nil]
  | cons p L ih =>
    rintro fuel idx bOf ret ⟨hs, hchain⟩ hmap hle hfuel
    obtain ⟨rfl, hne⟩ := Idx.ref_eq_some hs
    obtain ⟨n, rfl⟩ : ∃ n, fuel = n + 1 := ⟨fuel - 1, by omega⟩
    rw [List.length_cons] at hfuel
    set bLen := min blockDataSize (dataLen - bOf) with hbLen
    have hraw : (fs.block p).raw.toList.length = blockDataSize := Vector.length_toList
    simp only [shfsAuxPreadLoop, if_neg hne, shfsInodeReadBlock_ok (hmap p (by simp)),
      auxPreadBlock_zero, ne_eq, not_true_eq_false, false_and, if_false, ← hbLen]
    have hstep : (fs.block p).raw.toList.take bLen ++
        (content fs L).take (dataLen - (bOf + bLen)) =
        (content fs (p :: L)).take (dataLen - bOf) := by
      rw [content_cons, List.take_append, hraw]
      -- what the block gives, then what the rest of the chain gives
      rcases Nat.le_total blockDataSize (dataLen - bOf) with hfull | hpart
      · have hb : bLen = blockDataSize := Nat.min_eq_left hfull
        have hwhole : ∀ n, blockDataSize ≤ n → (fs.block p).raw.toList.take n =
            (fs.block p).raw.toList := fun n hn =>
              List.take_of_length_le ((Nat.le_of_eq hraw).trans hn)
        rw [hb, hwhole _ (Nat.le_refl _), hwhole _ hfull, Nat.sub_sub]
      · have hb : bLen = dataLen - bOf := Nat.min_eq_right hpart
        rw [hb, Nat.add_sub_cancel' hle, Nat.sub_self, Nat.sub_eq_zero_of_le hpart]
    rw [ih hchain (fun q hq => hmap q (by simp [hq])) (by omega) (by omega), List.append_assoc,
      hstep]

-- More passes do not change the result.
/-- More passes do no harm to the loop. -/
theorem preadLoop_mono {β : Type} {B : PreadBuff β} {dataLen seekOf seekMax : Nat}
    {res : Except Sherr β} :
    ∀ {fuel n : Nat} {fs : Shfs} {idx : Idx} {bOf : Nat} {ret : β},
    shfsAuxPreadLoop B dataLen seekOf seekMax fuel fs idx bOf ret = some res → fuel ≤ n →
    shfsAuxPreadLoop B dataLen seekOf seekMax n fs idx bOf ret = some res := by
  intro fuel
  induction fuel with
  | zero =>
    intro n fs idx bOf ret h _
    cases h
  | succ fuel ih =>
    intro n fs idx bOf ret h hle
    obtain ⟨n, rfl⟩ : ∃ m, n = m + 1 := ⟨n - 1, by omega⟩
    simp only [shfsAuxPreadLoop] at h ⊢
    split at h
    · next hzero => rw [if_pos hzero, h]
    · next hne =>
      rw [if_neg hne]
      cases hread : shfsInodeReadBlock fs idx with
      | error err =>
        rw [hread] at h
        exact h
      | ok blk =>
        rw [hread] at h
        simp only at h ⊢
        cases hblock : auxPreadBlock B blk.raw.toList bOf
          (min blockDataSize (dataLen - bOf)) seekOf seekMax ret with
        | none =>
          rw [hblock] at h
          cases h
        | some ret =>
          rw [hblock] at h
          simp only at h ⊢
          split at h
          · next hmax => rw [if_pos hmax, h]
          · next hmax =>
            rw [if_neg hmax]
            exact ih h (by omega)

/-- More passes do no harm to a read. -/
theorem shfsAuxRead_mono {fuel n : Nat} {fs : Shfs} {inode : Block} {res : Except Sherr Bytes}
    (h : shfsAuxRead fuel fs inode = some res) (hle : fuel ≤ n) :
    shfsAuxRead n fs inode = some res := by
  unfold shfsAuxRead shfsAuxPread at h ⊢
  rw [if_neg (by simp)] at h ⊢
  exact preadLoop_mono h hle

/-- What a read that returns with enough passes returns, it returns at all. -/
theorem auxRead_iff {k : Nat} {fs : Shfs} {inode : Block} {C X : Bytes}
    (h : ∀ n, k < n → shfsAuxRead n fs inode = some (.ok C)) :
    (∃ n, shfsAuxRead n fs inode = some (.ok X)) ↔ C = X := by
  constructor
  · rintro ⟨n, hn⟩
    have hlong := shfsAuxRead_mono hn (Nat.le_max_left n (k + 1))
    rw [h _ (Nat.lt_of_lt_of_le (Nat.lt_succ_self _) (Nat.le_max_right _ _))] at hlong
    exact Except.ok.inj (Option.some.inj hlong)
  · rintro rfl
    exact ⟨k + 1, h _ (Nat.lt_succ_self _)⟩

/-- Reading an inode whose chain is sound. -/
theorem shfsAuxRead_chain {fs : Shfs} {inode : Block} {L : List Idx} {fuel : Nat}
    (hchain : Chain (nextOf fs) inode.fpos.ref L) (hmap : ∀ p ∈ L, fs.inMap p)
    (hfuel : L.length < fuel) :
    shfsAuxRead fuel fs inode = some (.ok ((content fs L).take inode.size)) := by
  unfold shfsAuxRead shfsAuxPread
  rw [if_neg (by simp), preadLoop_chain hchain hmap (Nat.zero_le _) hfuel, List.nil_append,
    Nat.sub_zero]

/-! ## Data segments -/

/-- What is written to the front of a block. -/
theorem overlay_toList (raw : Vector UInt8 blockDataSize) {data : Bytes}
    (h : data.length ≤ blockDataSize) :
    (overlay raw 0 data).toList = data ++ raw.toList.drop data.length := by
  have hraw : raw.toList.length = blockDataSize := Vector.length_toList
  apply List.ext_getElem?
  intro i
  by_cases hi : i < data.length
  · rw [List.getElem?_append_left hi]
    simp [overlay, hi, Nat.lt_of_lt_of_le hi h]
  · rw [List.getElem?_append_right (by omega), List.getElem?_drop, Nat.add_sub_cancel' (by omega)]
    by_cases hb : i < blockDataSize
    · simp [overlay, hi, hb]
    · simp [hb]

/-- A chain whose first block holds the first part of the data and whose other
blocks hold as much of the rest as they have room for. -/
theorem content_take_cons_of {fs : Shfs} {p : Idx} {L : List Idx} {data : Bytes} {k : Nat}
    (hfirst : (fs.block p).raw.toList.take (data.take blockDataSize).length =
      data.take blockDataSize)
    (hrest : (content fs L).take (data.drop blockDataSize).length =
      (data.drop blockDataSize).take k) :
    (content fs (p :: L)).take data.length = data.take (k + blockDataSize) := by
  have hraw : (fs.block p).raw.toList.length = blockDataSize := Vector.length_toList
  rw [content_cons]
  rcases Nat.lt_or_ge blockDataSize data.length with hlong | hshort
  · have hlen : (data.take blockDataSize).length = blockDataSize := by
      rw [List.length_take]
      omega
    rw [hlen, List.take_of_length_le (by omega)] at hfirst
    rw [List.length_drop] at hrest
    rw [List.take_append, List.take_of_length_le (by omega), hraw, hrest, hfirst, Nat.add_comm k,
      List.take_add]
  · rw [List.take_of_length_le hshort] at hfirst
    have hall : data.take (k + blockDataSize) = data := List.take_of_length_le (by omega)
    rw [List.take_append_of_le_length (by omega), hall]
    exact hfirst

/-- The first block has the first part of the data, and the others have the rest. -/
theorem content_take_cons {fs : Shfs} {p : Idx} {L : List Idx} {data : Bytes}
    (hfirst : (fs.block p).raw.toList.take (data.take blockDataSize).length =
      data.take blockDataSize)
    (hrest : (content fs L).take (data.drop blockDataSize).length = data.drop blockDataSize) :
    (content fs (p :: L)).take data.length = data := by
  have hk : (content fs L).take (data.drop blockDataSize).length =
      (data.drop blockDataSize).take data.length := by
    rw [hrest, List.take_of_length_le (by simp)]
  rw [content_take_cons_of hfirst hk, List.take_of_length_le (Nat.le_add_right _ _)]

end LibShare.Fs
