import LibShare.Fs.Roundtrip
import LibShare.Fs.Shrink

/-!
# libshare — content after a truncation

The blocks that a truncation keeps still hold the first bytes of the content
(`cutBlocks_content`), if the blocks carry the sizes that a write has left in
them. Where blocks have been freed, the chain goes on to the first of them, a block of
zeros that refers to nothing (`cutChain`): it is read as content (`auxRead_cut`),
and a write comes to its end there (`auxWrite_cut`).
-/

namespace LibShare.Fs

/-! ## Kept blocks -/

/-- The blocks of a chain that begin before a length; `bOf` is where the first
one begins. -/
def keptBlocks (fs : Shfs) (len : Nat) : Nat → List Idx → List Idx
  | _, [] => []
  | bOf, p :: L =>
    if len ≤ bOf then [] else p :: keptBlocks fs len (bOf + (fs.block p).size) L

theorem keptBlocks_nil {fs : Shfs} {len bOf : Nat} (h : len ≤ bOf) (L : List Idx) :
    keptBlocks fs len bOf L = [] := by
  cases L with
  | nil => rfl
  | cons p L => rw [keptBlocks, if_pos h]

-- Behind the length all blocks are freed.
theorem cutBlocks_zero {fs fs' : Shfs} {len : Nat} : ∀ {L : List Idx} {bOf : Nat}, len ≤ bOf →
    CutBlocks fs fs' len bOf L → ∀ p ∈ L, fs'.block p = Block.zero := by
  intro L
  induction L with
  | nil =>
    intro bOf _ _ p hp
    cases hp
  | cons a L ih =>
    rintro bOf hle ⟨hcut, hrest⟩ p hp
    rw [if_pos hle] at hcut
    rcases List.mem_cons.mp hp with rfl | hp
    · exact hcut
    · exact ih (Nat.le_add_right_of_le hle) hrest p hp

/-- The chain is the kept blocks and the freed ones, in this order. -/
theorem keptBlocks_append {fs fs' : Shfs} {len : Nat} : ∀ {L : List Idx} {bOf : Nat},
    CutBlocks fs fs' len bOf L → ∃ R, L = keptBlocks fs len bOf L ++ R ∧
      (∀ p ∈ R, fs'.block p = Block.zero) ∧
      (∀ p ∈ keptBlocks fs len bOf L, (fs'.block p).npos = (fs.block p).npos ∧
        (fs'.block p).type = (fs.block p).type ∧ (fs'.block p).pos = (fs.block p).pos) := by
  intro L
  induction L with
  | nil =>
    intro bOf _
    exact ⟨[], rfl, by simp, by simp [keptBlocks]⟩
  | cons a L ih =>
    intro bOf hcut
    by_cases hle : len ≤ bOf
    · rw [keptBlocks_nil hle]
      exact ⟨a :: L, rfl, cutBlocks_zero hle hcut, by simp⟩
    obtain ⟨hcut, hrest⟩ := hcut
    obtain ⟨R, hL, hzero, hsame⟩ := ih hrest
    rw [keptBlocks, if_neg hle]
    refine ⟨R, by rw [List.cons_append, ← hL], hzero, fun p hp => ?_⟩
    rcases List.mem_cons.mp hp with rfl | hp
    · rw [if_neg hle] at hcut
      split at hcut
      · obtain ⟨mtime, heq⟩ := hcut
        rw [heq]
        exact ⟨rfl, rfl, rfl⟩
      · rw [hcut]
        exact ⟨rfl, rfl, rfl⟩
    · exact hsame p hp

-- Where blocks are freed, the kept ones have room for the length.
theorem keptBlocks_room {fs : Shfs} : ∀ {L : List Idx} {total bOf n : Nat},
    Chunked fs total L → (keptBlocks fs (bOf + n) bOf L).length < L.length →
    n ≤ (keptBlocks fs (bOf + n) bOf L).length * blockDataSize := by
  intro L
  induction L with
  | nil =>
    intro total bOf n _ h
    cases h
  | cons p L ih =>
    rintro total bOf n ⟨hsize, hchunk⟩ h
    obtain rfl | hpos := Nat.eq_zero_or_pos n
    · exact Nat.zero_le _
    rw [keptBlocks, if_neg (by omega)] at h ⊢
    rw [List.length_cons, Nat.succ_mul]
    rw [List.length_cons, List.length_cons] at h
    by_cases hin : n ≤ (fs.block p).size
    · omega
    have hlen : bOf + n = bOf + (fs.block p).size + (n - (fs.block p).size) := by omega
    rw [hlen] at h ⊢
    have := ih hchunk (Nat.lt_of_succ_lt_succ h)
    omega

/-- The data segment of a block that has been cut. -/
theorem truncateBlock_take (blk : Block) {len n : Nat} (h : n ≤ len) :
    (truncateBlock blk len).raw.toList.take n = blk.raw.toList.take n := by
  have hraw : (truncateBlock blk len).raw = if len ≠ blockDataSize then
      overlay blk.raw len (List.replicate (blockDataSize - len) 0) else blk.raw := rfl
  rw [hraw]
  split
  · apply List.ext_getElem?
    intro i
    by_cases hi : i < n
    · rw [List.getElem?_take_of_lt hi, List.getElem?_take_of_lt hi]
      by_cases hb : i < blockDataSize
      · have hno : ¬ (len ≤ i ∧ i < len + (blockDataSize - len)) := by omega
        simp [overlay, hb, hno]
      · simp [hb]
    · rw [List.getElem?_eq_none (by simp; omega), List.getElem?_eq_none (by simp; omega)]
  · rfl

/-- The kept blocks hold the first bytes of the content. -/
theorem cutBlocks_content {fs fs' : Shfs} : ∀ {L : List Idx} {total bOf n : Nat},
    Chunked fs total L → CutBlocks fs fs' (bOf + n) bOf L →
    (content fs' (keptBlocks fs (bOf + n) bOf L)).take n = (content fs L).take n := by
  intro L
  induction L with
  | nil =>
    intro total bOf n _ _
    rfl
  | cons p L ih =>
    rintro total bOf n ⟨hsize, hchunk⟩ ⟨hcut, hrest⟩
    obtain rfl | hpos := Nat.eq_zero_or_pos n
    · simp
    have hraw : (fs.block p).raw.toList.length = blockDataSize := Vector.length_toList
    rw [keptBlocks, if_neg (by omega)]
    rw [if_neg (by omega)] at hcut
    by_cases hin : bOf + n ≤ bOf + (fs.block p).size
    · -- the length falls into this block
      rw [if_pos hin] at hcut
      obtain ⟨mtime, heq⟩ := hcut
      have hn : n ≤ blockDataSize := by omega
      have hmin : min blockDataSize (bOf + n - bOf) = n := by omega
      rw [keptBlocks_nil hin, content_cons, content_cons, heq, hmin]
      have hraw' : (truncateBlock (fs.block p) n).raw.toList.length = blockDataSize :=
        Vector.length_toList
      show ((truncateBlock (fs.block p) n).raw.toList ++ _).take n = _
      rw [List.take_append_of_le_length (by omega), List.take_append_of_le_length (by omega),
        truncateBlock_take _ (Nat.le_refl n)]
    · rw [if_neg hin] at hcut
      have hlen : bOf + n = bOf + (fs.block p).size + (n - (fs.block p).size) := by omega
      rw [hlen] at hrest
      have hih := ih hchunk hrest
      rw [← hlen] at hih
      have hcutn : ∀ C : Bytes, (C.take (n - (fs.block p).size)).take (n - blockDataSize) =
          C.take (n - blockDataSize) := by
        intro C
        rw [List.take_take, Nat.min_eq_left (by omega)]
      rw [content_cons, content_cons, hcut, List.take_append, List.take_append, hraw,
        ← hcutn (content fs' _), hih, hcutn]

theorem content_append (fs : Shfs) (L L' : List Idx) :
    content fs (L ++ L') = content fs L ++ content fs L' := List.flatMap_append

theorem content_zero {fs : Shfs} {q : Idx} (h : fs.block q = Block.zero) :
    content fs [q] = List.replicate blockDataSize 0 := by
  have hraw : (fs.block q).raw = Vector.replicate blockDataSize 0 := by rw [h, Block.zero]
  rw [content_cons, hraw, Vector.toList_replicate, content, List.flatMap_nil, List.append_nil]

/-- The chain after a truncation: the kept blocks and the first freed one. -/
def cutChain (fs : Shfs) (len : Nat) (L : List Idx) : List Idx :=
  L.take ((keptBlocks fs len 0 L).length + 1)

theorem cutBlocks_chain {fs fs' : Shfs} {len : Nat} : ∀ {L : List Idx} {bOf : Nat}
    {s : Option Idx}, Chain (nextOf fs) s L → CutBlocks fs fs' len bOf L →
    Chain (nextOf fs') s (L.take ((keptBlocks fs len bOf L).length + 1)) := by
  intro L
  induction L with
  | nil =>
    intro bOf s hchain _
    exact hchain
  | cons p L ih =>
    rintro bOf s ⟨hs, hchain⟩ ⟨hcut, hrest⟩
    refine ⟨hs, ?_⟩
    by_cases hle : len ≤ bOf
    · rw [if_pos hle] at hcut
      rw [keptBlocks_nil hle, nextOf, hcut]
      rfl
    · have hnext : nextOf fs' p = nextOf fs p := by
        rw [if_neg hle] at hcut
        split at hcut
        · obtain ⟨mtime, heq⟩ := hcut
          rw [nextOf, heq]
          rfl
        · exact nextOf_congr hcut
      rw [keptBlocks, if_neg hle, hnext]
      exact ih hchain hrest

/-- Where no block is freed, the chain stays what it is. -/
theorem cutChain_all {fs : Shfs} {len : Nat} {L : List Idx}
    (h : ¬ (keptBlocks fs len 0 L).length < L.length) : cutChain fs len L = L :=
  List.take_of_length_le (by omega)

/-- Else it ends with a block of zeros. -/
theorem cutChain_freed {fs fs' : Shfs} {len : Nat} {L : List Idx} (hcut : CutBlocks fs fs' len 0 L)
    (h : (keptBlocks fs len 0 L).length < L.length) :
    ∃ q ∈ L, cutChain fs len L = keptBlocks fs len 0 L ++ [q] ∧ fs'.block q = Block.zero := by
  obtain ⟨R, hL, hzero, -⟩ := keptBlocks_append hcut
  obtain _ | ⟨q, R⟩ := R
  · rw [List.append_nil] at hL
    rw [← hL] at h
    omega
  · refine ⟨q, by rw [hL]; simp, ?_, hzero q List.mem_cons_self⟩
    unfold cutChain
    nth_rewrite 2 [hL]
    rw [List.take_length_add_append]
    rfl

theorem cutChain_content {fs fs' : Shfs} {len total : Nat} {L : List Idx}
    (hchunk : Chunked fs total L) (hcut : CutBlocks fs fs' len 0 L) :
    (content fs' (cutChain fs len L)).take len = (content fs L).take len := by
  have hlen : 0 + len = len := Nat.zero_add len
  have hkept := cutBlocks_content (n := len) hchunk (by rw [hlen]; exact hcut)
  rw [hlen] at hkept
  by_cases hfree : (keptBlocks fs len 0 L).length < L.length
  · have hroom := keptBlocks_room (n := len) hchunk (by rw [hlen]; exact hfree)
    rw [hlen] at hroom
    obtain ⟨q, -, heq, -⟩ := cutChain_freed hcut hfree
    rw [heq, content_append, List.take_append_of_le_length (by rw [content_length]; exact hroom),
      hkept]
  · obtain ⟨R, hL, -, -⟩ := keptBlocks_append hcut
    have hR : R = [] := by
      have := congrArg List.length hL
      rw [List.length_append] at this
      exact List.eq_nil_of_length_eq_zero (by omega)
    rw [hR, List.append_nil] at hL
    rw [cutChain_all hfree]
    nth_rewrite 1 [hL]
    exact hkept

/-! ## Reading after a truncation -/

/-- The chain of an inode of some size after a truncation. -/
def truncChain (fs : Shfs) (size len : Nat) (L : List Idx) : List Idx :=
  if len < size then cutChain fs len L else L

theorem truncChain_sub {fs : Shfs} {size len : Nat} {L : List Idx} :
    ∀ p ∈ truncChain fs size len L, p ∈ L := by
  intro p hp
  unfold truncChain at hp
  split at hp
  · exact List.mem_of_mem_take hp
  · exact hp

theorem Truncated.chain {fs fs1 : Shfs} {size len : Nat} {L : List Idx} {s : Option Idx}
    (h : Truncated fs fs1 size len L) (hchain : Chain (nextOf fs) s L) :
    Chain (nextOf fs1) s (truncChain fs size len L) := by
  unfold truncChain
  split
  · next hlt => exact cutBlocks_chain hchain (h.cut hlt)
  · next hge => exact hchain.congr fun p _ => nextOf_congr (by rw [h.same (by omega)])

theorem Truncated.content {fs fs1 : Shfs} {size len total : Nat} {L : List Idx}
    (h : Truncated fs fs1 size len L) (hchunk : Chunked fs total L) :
    (Fs.content fs1 (truncChain fs size len L)).take len = (Fs.content fs L).take len := by
  unfold truncChain
  split
  · next hlt => exact cutChain_content hchunk (h.cut hlt)
  · next hge =>
    have hsame : Fs.content fs1 L = Fs.content fs L :=
      content_congr fun p _ => by rw [h.same (by omega)]
    rw [hsame]

/-- `shfs_inode_truncate`, when it reports success. -/
theorem inodeTruncate_ok {env : Env} {fuel len : Nat} {fs fs' : Shfs} {inode b : Block}
    {L : List Idx} (hchain : Chain (nextOf fs) inode.fpos.ref L) (hall : AllStored fs L)
    (hmap : fs.inMap inode.pos)
    (hrun : shfsInodeTruncate env fuel fs inode len = some (fs', b, .ok ())) :
    inode.type = .binary ∧ (∃ crc mtime, b =
      { inode with crc := crc, mtime := mtime, size := len }) ∧
        ∃ fs1, Truncated fs fs1 inode.size len L ∧ fs'.size = fs1.size ∧ ∀ p, p ≠ inode.pos →
          fs'.block p = fs1.block p := by
  rcases inodeTruncate_spec hchain hall hmap hrun with
    ⟨-, hres⟩ | ⟨hbin, rfl, hres⟩ | ⟨hbin, -, fs1, b', writes, mtime, crc, hb, hres, htr⟩
  · cases hres
  · cases hres
    exact ⟨hbin, ⟨_, _, rfl⟩, fs, ⟨rfl, rfl, fun _ _ => rfl, fun hlt => absurd hlt (by omega),
      fun _ => rfl⟩, rfl, fun _ _ => rfl⟩
  · cases hres
    refine ⟨hbin, ⟨crc, mtime, hb⟩, fs1, htr, rfl, fun p hp => ?_⟩
    rw [Shfs.store_ne]
    rw [hb]
    exact hp

/-! ## Writing up to a freed block -/

/-- What the loop has done to a chain that goes on to a freed block. -/
structure CutWritten (fs fs' : Shfs) (L : List Idx) (data : Bytes) : Prop where
  size_eq : fs'.size = fs.size
  frame : ∀ p, p ∉ L → fs'.block p = fs.block p
  npos_eq : ∀ p ∈ L, (fs'.block p).npos = (fs.block p).npos
  content_eq : (content fs' L).take data.length = data.take (L.length * blockDataSize)

/-- The loop of `shfs_aux_pwrite` on a chain that goes on to a freed block: it
comes to its end there, whatever data is left. -/
theorem loop_cut {env : Env} {q : Idx} : ∀ {old : List Idx} {fuel : Nat} {fs fs' : Shfs}
    {blk : Block} {data : Bytes} {wof : Nat} {segCrc : UInt64} {r : Except Sherr UInt64},
    fs.block blk.pos = blk → Chain (nextOf fs) (some blk.pos) (blk.pos :: (old ++ [q])) →
    AllStored fs (blk.pos :: old) → fs.block q = Block.zero → fs.inMap q →
    shfsAuxPwriteLoop env 0 fuel fs blk blk data wof segCrc = some (fs', r) →
    (∃ crc, r = .ok crc) ∧ CutWritten fs fs' (blk.pos :: old) data := by
  -- induction on the blocks that are written over; `q` is the zero block behind them
  intro old
  induction old with
  | nil =>
    intro fuel fs fs' blk data wof segCrc r hblk hchain hall hzero hmapq h
    -- the zero block is read as the next one, and the loop ends on it
    obtain ⟨hlive, hmap, -, hino⟩ := hall blk.pos (by simp)
    have hnq : blk.npos = q ∧ q.ino ≠ 0 := by
      have hsome : nextOf fs blk.pos = some q := hchain.2.1
      rw [nextOf, hblk] at hsome
      obtain ⟨heq, hne⟩ := Idx.ref_eq_some hsome
      exact ⟨heq.symm, by rw [heq]; exact hne⟩
    have hnext : auxNext env fs blk (data.drop blockDataSize) = .ok (fs, blk, Block.zero) := by
      simp only [auxNext, hnq.1, if_neg hnq.2, shfsInodeReadBlock_ok hmapq, hzero]
    obtain _ | fuel := fuel
    · simp [shfsAuxPwriteLoop] at h
    obtain ⟨fs2, wof', crc', hs, heq⟩ := loop_step fuel wof segCrc hino hnext hmap (Or.inl hblk)
    rw [heq] at h
    obtain _ | fuel := fuel
    · simp [shfsAuxPwriteLoop] at h
    rw [loop_end] at h
    simp only [Option.some.injEq, Prod.mk.injEq] at h
    obtain ⟨rfl, rfl⟩ := h
    obtain ⟨-, hnpos, -, -, -, hraw, -⟩ := hs.head
    refine ⟨⟨crc', rfl⟩, hs.size_eq, fun p hp => hs.block_ne fun he => hp (by simp [he]), ?_, ?_⟩
    · intro p hp
      rw [List.mem_singleton.mp hp, hnpos, hblk]
    · have hrest : (content fs2 []).take (data.drop blockDataSize).length =
          (data.drop blockDataSize).take 0 := by simp [content]
      rw [content_take_cons_of ?_ hrest, List.length_singleton, Nat.one_mul, Nat.zero_add]
      rw [hraw, overlay_toList _ (List.length_take_le _ _), List.take_left]
  | cons a old ih =>
    intro fuel fs fs' blk data wof segCrc r hblk hchain hall hzero hmapq h
    -- one step of the loop writes this block and leaves the others as they are
    obtain ⟨hlive, hmap, -, hino⟩ := hall blk.pos (by simp)
    obtain ⟨-, hamap, hapos, haino⟩ := hall a (by simp)
    have hnpos : blk.npos = a := by
      have hsome : nextOf fs blk.pos = some a := hchain.2.1
      rw [nextOf, hblk] at hsome
      exact (Idx.ref_eq_some hsome).1.symm
    have hnext : auxNext env fs blk (data.drop blockDataSize) = .ok (fs, blk, fs.block a) := by
      simp only [auxNext, hnpos, if_neg haino, shfsInodeReadBlock_ok hamap]
    obtain _ | fuel := fuel
    · simp [shfsAuxPwriteLoop] at h
    obtain ⟨fs2, wof', crc', hs, heq⟩ := loop_step fuel wof segCrc hino hnext hmap (Or.inl hblk)
    rw [heq] at h
    have hsame : SameSlots fs fs2 := by
      refine hs.sameSlots ?_ hlive
      rw [← hblk]
      exact hlive
    have hnodup := List.nodup_cons.mp hchain.nodup
    have hback : ∀ p ∈ a :: (old ++ [q]), fs2.block p = fs.block p := by
      intro p hp
      refine hs.block_ne ?_
      rintro rfl
      exact hnodup.1 hp
    have hchain2 : Chain (nextOf fs2) (some (fs.block a).pos)
        ((fs.block a).pos :: (old ++ [q])) := by
      rw [hapos]
      exact Chain.congr ⟨rfl, hchain.2.2⟩ fun p hp => nextOf_congr (hback p hp)
    have hall2 : AllStored fs2 ((fs.block a).pos :: old) := by
      rw [hapos]
      intro p hp
      obtain ⟨h1, h2, h3, h4⟩ := hall p (List.mem_cons_of_mem _ hp)
      have hpb : fs2.block p = fs.block p := by
        rcases List.mem_cons.mp hp with rfl | hp
        · exact hback _ (by simp)
        · exact hback p (by simp [hp])
      exact ⟨(hsame.live_iff p).mp h1, (hs.inMap_iff p).mpr h2, by rw [hpb, h3], h4⟩
    have hq2 : fs2.block q = fs.block q := hback q (by simp)
    obtain ⟨hr, hw⟩ := ih (by rw [hapos, hback a (by simp)]) hchain2 hall2 (by rw [hq2, hzero])
      ((hs.inMap_iff q).mpr hmapq) h
    rw [hapos] at hw
    have hnot : blk.pos ∉ a :: old := fun hmem => hnodup.1 (by
      rcases List.mem_cons.mp hmem with he | hin
      · simp [he]
      · simp [hin])
    obtain ⟨-, hnpos2, -, -, -, hraw, -⟩ := hs.head
    refine ⟨hr, hw.size_eq.trans hs.size_eq, fun p hp => ?_, fun p hp => ?_, ?_⟩
    · rw [List.mem_cons, not_or] at hp
      rw [hw.frame p hp.2, hs.block_ne hp.1]
    · rcases List.mem_cons.mp hp with rfl | hp
      · rw [hw.frame _ hnot, hnpos2, hblk]
      · rw [hw.npos_eq p hp]
        rcases List.mem_cons.mp hp with rfl | hp
        · rw [hback _ (by simp)]
        · rw [hback p (by simp [hp])]
    · rw [content_take_cons_of ?_ hw.content_eq, ← Nat.succ_mul]
      · rfl
      rw [hw.frame _ hnot, hraw, overlay_toList _ (List.length_take_le _ _), List.take_left]

/-- `shfs_aux_write` on an inode whose chain goes on to a freed block. -/
theorem auxWrite_cut {env : Env} {fuel : Nat} {fs fs' : Shfs} {inode inode' : Block} {data : Bytes}
    {r : Except Sherr Unit} {K : List Idx} {q : Idx}
    (hchain : Chain (nextOf fs) inode.fpos.ref (K ++ [q])) (hall : AllStored fs K)
    (hzero : fs.block q = Block.zero) (hmapq : fs.inMap q) (hmap : fs.inMap inode.pos)
    (h : shfsAuxWrite env fuel fs inode data = some (fs', inode', r)) :
    ∃ fs2 crc mtime writes, CutWritten fs fs2 K data ∧
      inode' = writtenInode inode inode.fpos data crc mtime ∧
      fs' = { fs2 with writes := writes }.store inode' := by
  -- the inode is written once the loop has come to its end
  have hlast : ∀ {fs2 : Shfs} {crc : UInt64}, CutWritten fs fs2 K data →
      shfsInodeWriteBlock env fs2 { inode with crc := crc, size := data.length } =
        (fs', inode', r) → ∃ fs2 crc mtime writes, CutWritten fs fs2 K data ∧
      inode' = writtenInode inode inode.fpos data crc mtime ∧
      fs' = { fs2 with writes := writes }.store inode' := by
    intro fs2 crc hw hwrite
    have hm : fs2.inMap inode.pos := by
      rw [Shfs.inMap, hw.size_eq]
      exact hmap
    rw [shfsInodeWriteBlock_ok (show fs2.inMap { inode with crc := crc, size := data.length }.pos
      from hm)] at hwrite
    simp only [Prod.mk.injEq] at hwrite
    obtain ⟨rfl, rfl, -⟩ := hwrite
    exact ⟨fs2, _, _, _, hw, rfl, rfl⟩
  unfold shfsAuxWrite shfsAuxPwrite at h
  cases K with
  | nil =>
    -- the first block is read as one without a position
    obtain ⟨hs, -⟩ := hchain
    have hfirst := auxFirst_old env hs hmapq
    rw [hzero] at hfirst
    simp only [hfirst] at h
    obtain _ | fuel := fuel
    · cases h
    rw [loop_end] at h
    refine hlast ⟨rfl, fun _ _ => rfl, by simp, by simp [content]⟩ (Option.some.inj h)
  | cons p K =>
    obtain ⟨hs, hchain'⟩ := hchain
    obtain ⟨-, hpmap, hppos, -⟩ := hall p (by simp)
    simp only [auxFirst_old env hs hpmap] at h
    cases hloop : shfsAuxPwriteLoop env 0 fuel fs (fs.block p) (fs.block p) data 0 0 with
    | none =>
      rw [hloop] at h
      cases h
    | some res =>
      obtain ⟨fs2, r'⟩ := res
      have hres := loop_cut (by rw [hppos]) (by rw [hppos]; exact ⟨rfl, hchain'⟩)
        (by rw [hppos]; exact hall) hzero hmapq hloop
      rw [hppos] at hres
      obtain ⟨⟨crc, rfl⟩, hw⟩ := hres
      rw [hloop] at h
      exact hlast hw (Option.some.inj h)

/-! ## Padding with zeros -/

/-- The first `n` bytes of some content, of which `size` bytes count, are these
bytes and zeros. -/
def Padded (C : Bytes) (size n : Nat) : Prop :=
  n ≤ C.length ∧ ∀ k, size ≤ k → k < n → C[k]? = some 0

theorem take_eq_padded_iff (C : Bytes) (size n : Nat) :
    C.take n = (C.take size).take n ++ List.replicate (n - (C.take size).length) 0 ↔
      Padded C size n := by
  rw [List.length_take]
  constructor
  · intro h
    have hlen := congrArg List.length h
    rw [List.length_append, List.length_take, List.length_take, List.length_take,
      List.length_replicate] at hlen
    refine ⟨by omega, fun k hk hkn => ?_⟩
    have hget : (C.take n)[k]? = _ := congrArg (fun l => l[k]?) h
    rw [List.getElem?_take_of_lt hkn, List.getElem?_append_right (by simp; omega)] at hget
    rw [hget, List.getElem?_replicate_of_lt (by simp; omega)]
  · rintro ⟨hn, hzero⟩
    apply List.ext_getElem?
    intro k
    by_cases hkn : k < n
    · rw [List.getElem?_take_of_lt hkn]
      by_cases hk : k < size
      · rw [List.getElem?_append_left (by simp; omega), List.getElem?_take_of_lt hkn,
          List.getElem?_take_of_lt hk]
      · rw [hzero k (by omega) hkn, List.getElem?_append_right (by simp; omega),
          List.getElem?_replicate_of_lt (by simp; omega)]
    · rw [List.getElem?_eq_none (by simp; omega), List.getElem?_eq_none (by simp; omega)]

/-- The data has room in `k` blocks, or in one more if what goes there is zero. -/
def TailZero (k : Nat) (data : Bytes) : Prop :=
  data.length ≤ k * blockDataSize ∨
    data.length ≤ (k + 1) * blockDataSize ∧ ∀ x ∈ data.drop (k * blockDataSize), x = 0

theorem take_zeros_iff {C data : Bytes} {k : Nat} (hlen : C.length = k * blockDataSize)
    (hC : C.take data.length = data.take (k * blockDataSize)) :
    (C ++ List.replicate blockDataSize 0).take data.length = data ↔ TailZero k data := by
  unfold TailZero
  rw [Nat.succ_mul]
  obtain hle | hgt := Nat.lt_or_ge (k * blockDataSize) data.length |>.symm
  · rw [List.take_append_of_le_length (by omega), hC, List.take_of_length_le hle]
    exact iff_of_true rfl (Or.inl hle)
  rw [List.take_append, hC, hlen, List.take_replicate]
  have hsplit := List.take_append_drop (k * blockDataSize) data
  have hiff : data.take (k * blockDataSize) ++
      List.replicate (min (data.length - k * blockDataSize) blockDataSize) 0 = data ↔
      List.replicate (min (data.length - k * blockDataSize) blockDataSize) 0 =
        data.drop (k * blockDataSize) := by
    constructor
    · intro h
      rw [← hsplit] at h
      exact List.append_cancel_left (by rw [hsplit] at h; exact h.trans hsplit.symm)
    · intro h
      rw [h, hsplit]
  rw [hiff, eq_comm, List.eq_replicate_iff, List.length_drop]
  constructor
  · rintro ⟨h1, h2⟩
    exact Or.inr ⟨by omega, h2⟩
  · rintro (h1 | ⟨h1, h2⟩)
    · omega
    · exact ⟨by omega, h2⟩

/-- Reading an inode that has been written up to a freed block. -/
theorem auxRead_cut {fs fs2 fs' : Shfs} {inode' : Block} {data : Bytes} {K : List Idx} {q : Idx}
    {s : Option Idx} (hchain : Chain (nextOf fs) s (K ++ [q])) (hw : CutWritten fs fs2 K data)
    (hzero : fs.block q = Block.zero) (hmap : ∀ p ∈ K ++ [q], fs.inMap p)
    (hback : ∀ p ∈ K ++ [q], fs'.block p = fs2.block p) (hsize' : fs'.size = fs2.size)
    (hfpos : inode'.fpos.ref = s) (hsize : inode'.size = data.length) :
    (∃ n, shfsAuxRead n fs' inode' = some (.ok data)) ↔ TailZero K.length data := by
  have hq : q ∉ K := by
    have hnodup := hchain.nodup
    rw [List.nodup_append] at hnodup
    exact fun hmem => hnodup.2.2 q hmem q (by simp) rfl
  have hzero' : fs'.block q = Block.zero := by rw [hback q (by simp), hw.frame q hq, hzero]
  have hchain' : Chain (nextOf fs') inode'.fpos.ref (K ++ [q]) := by
    rw [hfpos]
    refine hchain.congr fun p hp => ?_
    rw [nextOf, hback p hp, nextOf]
    rcases List.mem_append.mp hp with hin | hin
    · rw [hw.npos_eq p hin]
    · rw [List.mem_singleton.mp hin, hw.frame q hq]
  have hmap' : ∀ p ∈ K ++ [q], fs'.inMap p := by
    intro p hp
    rw [Shfs.inMap, hsize', hw.size_eq]
    exact hmap p hp
  have hcont : content fs' K = content fs2 K := content_congr fun p hp => hback p (by simp [hp])
  have hread : ∀ n, (K ++ [q]).length < n → shfsAuxRead n fs' inode' =
      some (.ok ((content fs2 K ++ List.replicate blockDataSize 0).take data.length)) := by
    intro n hn
    rw [shfsAuxRead_chain hchain' hmap' hn, hsize, content_append, content_zero hzero', hcont]
  rw [auxRead_iff hread, take_zeros_iff (content_length fs2 K) hw.content_eq]

end LibShare.Fs
