import LibShare.Fs.Write

/-!
# libshare — truncation and removal

What `shfs_inode_truncate` and `shfs_inode_clear` do to a store. A truncation
keeps the blocks that begin before the new length, cuts the one that the length
falls into and frees the others (`truncateLoop_chain`). The removal of content
frees the first block of the inode's chain; it then goes to the inode's sibling
and frees the block behind that (`clearLoop_spec`).
-/

namespace LibShare.Fs

/-! ## Truncation -/

/-- The blocks of a chain after a truncation; `bOf` is where the first one
begins. -/
def CutBlocks (fs fs' : Shfs) (len : Nat) : Nat → List Idx → Prop
  | _, [] => True
  | bOf, p :: L =>
    (if len ≤ bOf then fs'.block p = Block.zero
     else if len ≤ bOf + (fs.block p).size then
      ∃ mtime, fs'.block p =
        { truncateBlock (fs.block p) (min blockDataSize (len - bOf)) with mtime := mtime }
     else fs'.block p = fs.block p) ∧
    CutBlocks fs fs' len (bOf + (fs.block p).size) L

-- It depends on the blocks of the chain only.
theorem cutBlocks_congr {fs fs1 fs' : Shfs} {len : Nat} : ∀ {L : List Idx} {bOf : Nat},
    (∀ p ∈ L, fs1.block p = fs.block p) → CutBlocks fs1 fs' len bOf L →
    CutBlocks fs fs' len bOf L := by
  intro L
  induction L with
  | nil =>
    intro bOf _ _
    trivial
  | cons p L ih =>
    rintro bOf heq ⟨h1, h2⟩
    rw [heq p (by simp)] at h1 h2
    exact ⟨h1, ih (fun q hq => heq q (by simp [hq])) h2⟩

theorem truncateBlock_npos (blk : Block) (len : Nat) : (truncateBlock blk len).npos = blk.npos :=
  rfl

theorem truncateBlock_pos (blk : Block) (len : Nat) : (truncateBlock blk len).pos = blk.pos := rfl

/-- The loop of `shfs_inode_truncate`. -/
theorem truncateLoop_chain {env : Env} {len : Nat} : ∀ {L : List Idx} {fuel : Nat} {fs fs' : Shfs}
    {idx : Idx} {bOf : Nat} {segCrc : UInt64} {r : Except Sherr UInt64},
    Chain (nextOf fs) idx.ref L → AllStored fs L →
    truncateLoop env len fuel fs idx bOf segCrc = some (fs', r) →
    (∃ crc, r = .ok crc) ∧ fs'.size = fs.size ∧ fs'.births = fs.births ∧
      (∀ p, p ∉ L → fs'.block p = fs.block p) ∧ CutBlocks fs fs' len bOf L := by
  intro L
  induction L with
  | nil =>
    intro fuel fs fs' idx bOf segCrc r hchain _ h
    have hzero : idx.ino = 0 := by
      by_contra hne
      rw [Idx.ref_of_ne hne] at hchain
      cases hchain
    obtain _ | fuel := fuel
    · cases h
    simp only [truncateLoop, hzero, if_true, Option.some.injEq, Prod.mk.injEq] at h
    obtain ⟨rfl, rfl⟩ := h
    exact ⟨⟨segCrc, rfl⟩, rfl, rfl, fun _ _ => rfl, trivial⟩
  | cons p L ih =>
    intro fuel fs fs' idx bOf segCrc r hchain hall h
    have hnodup := List.nodup_cons.mp hchain.nodup
    obtain ⟨hs, hchain⟩ := hchain
    obtain ⟨rfl, hne⟩ := Idx.ref_eq_some hs
    obtain ⟨-, hmap, hpos, -⟩ := hall p (by simp)
    obtain _ | fuel := fuel
    · cases h
    simp only [truncateLoop, if_neg hne, shfsInodeReadBlock_ok hmap] at h
    -- one block changed, then the rest of the chain
    have hgo : ∀ {fs1 : Shfs} {crc : UInt64} {npos : Idx} (b : Block),
        truncateLoop env len fuel fs1 npos (bOf + (fs.block p).size) crc = some (fs', r) →
        npos = (fs.block p).npos → fs1.size = fs.size → fs1.births = fs.births →
        fs1.block = Function.update fs.block p b →
        (∃ crc, r = .ok crc) ∧ fs'.size = fs.size ∧ fs'.births = fs.births ∧
          (∀ q, q ∉ p :: L → fs'.block q = fs.block q) ∧ fs'.block p = b ∧
          CutBlocks fs fs' len (bOf + (fs.block p).size) L := by
      rintro fs1 crc npos b hloop rfl hsize hbirths hblock
      have hback : ∀ q ∈ L, fs1.block q = fs.block q := by
        intro q hq
        rw [hblock, Function.update_of_ne]
        rintro rfl
        exact hnodup.1 hq
      have hchain1 : Chain (nextOf fs1) (fs.block p).npos.ref L :=
        hchain.congr fun q hq => nextOf_congr (hback q hq)
      have hall1 : AllStored fs1 L := by
        intro q hq
        obtain ⟨h1, h2, h3, h4⟩ := hall q (by simp [hq])
        unfold Shfs.live Shfs.inMap
        rw [hback q hq, hsize]
        exact ⟨h1, h2, h3, h4⟩
      obtain ⟨hr, hsize', hbirths', hframe, hcut⟩ := ih hchain1 hall1 hloop
      refine ⟨hr, hsize'.trans hsize, hbirths'.trans hbirths, ?_, ?_, cutBlocks_congr hback hcut⟩
      · intro q hq
        rw [List.mem_cons, not_or] at hq
        rw [hframe q hq.2, hblock, Function.update_of_ne hq.1]
      · rw [hframe p hnodup.1, hblock, Function.update_self]
    by_cases hdrop : len ≤ bOf
    · simp only [if_pos hdrop, shfsInodeClearBlock, if_pos hmap] at h
      obtain ⟨h1, h2, h3, h4, h5, h6⟩ := hgo Block.zero h rfl rfl rfl rfl
      exact ⟨h1, h2, h3, h4, by rw [if_pos hdrop]; exact h5, h6⟩
    · simp only [if_neg hdrop] at h
      by_cases hcut : len ≤ bOf + (fs.block p).size
      · simp only [if_pos hcut] at h
        generalize htb : truncateBlock (fs.block p) (min blockDataSize (len - bOf)) = tb at h
        have htpos : tb.pos = p := by rw [← htb, truncateBlock_pos, hpos]
        rw [shfsInodeWriteBlock_ok (htpos ▸ hmap)] at h
        obtain ⟨h1, h2, h3, h4, h5, h6⟩ := hgo { tb with mtime := env.clock fs.writes } h
          (by rw [← htb, truncateBlock_npos]) rfl rfl (by simp only [Shfs.store, htpos])
        exact ⟨h1, h2, h3, h4, by rw [if_neg hdrop, if_pos hcut, htb]; exact ⟨_, h5⟩, h6⟩
      · simp only [if_neg hcut] at h
        obtain ⟨h1, h2, h3, h4, h5, h6⟩ := hgo (fs.block p) h rfl rfl rfl
          (Function.update_eq_self _ _).symm
        exact ⟨h1, h2, h3, h4, by rw [if_neg hdrop, if_neg hcut]; exact h5, h6⟩

/-- The blocks of the chain after `shfs_inode_truncate` of an inode of some size. -/
structure Truncated (fs fs' : Shfs) (size len : Nat) (L : List Idx) : Prop where
  size_eq : fs'.size = fs.size
  births_eq : fs'.births = fs.births
  frame : ∀ p, p ∉ L → fs'.block p = fs.block p
  cut : len < size → CutBlocks fs fs' len 0 L
  same : size ≤ len → fs'.block = fs.block

/-- `shfs_inode_truncate`, on an inode whose chain is `L`. -/
theorem inodeTruncate_spec {env : Env} {fuel len : Nat} {fs : Shfs} {inode : Block} {L : List Idx}
    {res : Shfs × Block × Except Sherr Unit} (hchain : Chain (nextOf fs) inode.fpos.ref L)
    (hall : AllStored fs L) (hmap : fs.inMap inode.pos)
    (hrun : shfsInodeTruncate env fuel fs inode len = some res) :
    (inode.type ≠ .binary ∧ res = (fs, inode, .error .inval)) ∨
    (inode.type = .binary ∧ inode.size = len ∧ res = (fs, inode, .ok ())) ∨
    (inode.type = .binary ∧ inode.size ≠ len ∧ ∃ fs1 b writes mtime crc,
      b = { inode with crc := crc, mtime := mtime, size := len } ∧
      res = ({ fs1 with writes := writes }.store b, b, .ok ()) ∧
      Truncated fs fs1 inode.size len L) := by
  -- the inode is written at the end
  have hlast : ∀ {fs1 : Shfs} {b : Block}, shfsInodeWriteBlock env fs1 b = res →
      fs1.size = fs.size → b.pos = inode.pos →
      res = ({ fs1 with writes := fs1.writes + 1 }.store { b with mtime := env.clock fs1.writes },
        { b with mtime := env.clock fs1.writes }, .ok ()) := by
    intro fs1 b hres hsize hpos
    have hm : fs1.inMap b.pos := by
      rw [Shfs.inMap, hsize, hpos]
      exact hmap
    rw [← hres, shfsInodeWriteBlock_ok hm]
  unfold shfsInodeTruncate at hrun
  split at hrun
  · next hbin => exact Or.inl ⟨hbin, (Option.some.inj hrun).symm⟩
  next hbin =>
  rw [not_not] at hbin
  split at hrun
  · next heq => exact Or.inr (Or.inl ⟨hbin, heq, (Option.some.inj hrun).symm⟩)
  next hne =>
  refine Or.inr (Or.inr ⟨hbin, hne, ?_⟩)
  split at hrun
  · next hlt =>
    cases hloop : truncateLoop env len fuel fs inode.fpos 0 0 with
    | none =>
      rw [hloop] at hrun
      cases hrun
    | some x =>
      obtain ⟨fs1, r⟩ := x
      obtain ⟨⟨crc, rfl⟩, hsize, hbirths, hframe, hcut⟩ := truncateLoop_chain hchain hall hloop
      rw [hloop] at hrun
      exact ⟨fs1, _, _, _, _, rfl, hlast (Option.some.inj hrun) hsize rfl, hsize, hbirths, hframe,
        fun _ => hcut, fun hcon => by omega⟩
  · exact ⟨fs, _, _, _, inode.crc, rfl, hlast (Option.some.inj hrun) rfl rfl, rfl, rfl,
      fun _ _ => rfl, fun hcon => by omega, fun _ => rfl⟩

/-! ## Removal -/

/-- The store with some blocks freed. -/
def Shfs.wipe (fs : Shfs) (L : List Idx) : Shfs :=
  { fs with block := fun p => if p ∈ L then Block.zero else fs.block p }

theorem wipe_nil (fs : Shfs) : fs.wipe [] = fs := by
  simp [Shfs.wipe]

theorem wipe_mem (fs : Shfs) {L : List Idx} {p : Idx} (h : p ∈ L) :
    (fs.wipe L).block p = Block.zero := by
  simp [Shfs.wipe, h]

theorem wipe_not_mem (fs : Shfs) {L : List Idx} {p : Idx} (h : p ∉ L) :
    (fs.wipe L).block p = fs.block p := by
  simp [Shfs.wipe, h]

theorem clearBlock_wipe {fs : Shfs} {pos : Idx} {L : List Idx} (h : fs.inMap pos) :
    shfsInodeClearBlock (fs.wipe L) pos = .ok (fs.wipe (pos :: L)) := by
  have hm : (fs.wipe L).inMap pos := h
  rw [shfsInodeClearBlock, if_pos hm]
  congr 1
  simp only [Shfs.wipe, List.mem_cons, Shfs.mk.injEq, and_self, and_true]
  funext p
  by_cases hp : p = pos
  · subst hp
    simp
  · simp [hp]

/-- The blocks that the loop of `shfs_inode_clear` frees: the first one of the
inode's chain, and the one behind the inode's sibling. The block freed last is
read again as the next one, and it refers to nothing any more. -/
def clearedBy (fs : Shfs) (inode : Block) : List Idx :=
  if inode.fpos.ino = 0 then []
  else if inode.npos.ino = 0 then [inode.fpos]
  else
    let nblk := (fs.wipe [inode.fpos]).block inode.npos
    if nblk.npos.ino = 0 then [inode.fpos] else [nblk.npos, inode.fpos]

/-- The positions that the removal looks at are inside the journals. -/
structure ClearMapped (fs : Shfs) (inode : Block) : Prop where
  pos : fs.inMap inode.pos
  fpos : inode.fpos.ino ≠ 0 → fs.inMap inode.fpos
  npos : inode.npos.ino ≠ 0 → fs.inMap inode.npos
  behind : inode.npos.ino ≠ 0 → (fs.block inode.npos).npos.ino ≠ 0 →
    fs.inMap (fs.block inode.npos).npos

theorem clearLoop_done (fuel : Nat) (fs : Shfs) (idx : Idx) (blk : Block) (h : idx.ino = 0) :
    clearLoop (fuel + 1) fs idx blk = some (fs, .ok ()) := by
  simp only [clearLoop, h, if_true]

theorem clearLoop_spec {fs : Shfs} {inode : Block} (h : ClearMapped fs inode) (fuel : Nat) :
    clearLoop (fuel + 3) fs inode.fpos inode = some (fs.wipe (clearedBy fs inode), .ok ()) := by
  have hzero : Block.zero.npos.ino = 0 := rfl
  by_cases hf : inode.fpos.ino = 0
  · rw [clearLoop_done _ _ _ _ hf, clearedBy, if_pos hf, wipe_nil]
  have hc1 : shfsInodeClearBlock fs inode.fpos = .ok (fs.wipe [inode.fpos]) := by
    have := clearBlock_wipe (L := []) (h.fpos hf)
    rw [wipe_nil] at this
    exact this
  unfold clearLoop
  simp only [if_neg hf, hc1]
  by_cases hn : inode.npos.ino = 0
  · rw [if_pos hn, clearLoop_done _ _ _ _ hzero, clearedBy, if_neg hf, if_pos hn]
  have hm : (fs.wipe [inode.fpos]).inMap inode.npos := h.npos hn
  simp only [if_neg hn, shfsInodeReadBlock_ok hm]
  generalize hnblk : (fs.wipe [inode.fpos]).block inode.npos = nblk
  by_cases hn2 : nblk.npos.ino = 0
  · rw [clearLoop_done _ _ _ _ hn2, clearedBy, if_neg hf, if_neg hn, hnblk]
    simp only [if_pos hn2]
  -- the second pass frees the block behind the sibling and reads it
  have hm2 : fs.inMap nblk.npos := by
    have hsame : nblk = fs.block inode.npos := by
      rw [← hnblk]
      refine wipe_not_mem fs fun hmem => hn2 ?_
      rw [← hnblk, wipe_mem fs hmem]
      rfl
    rw [hsame]
    exact h.behind hn (hsame ▸ hn2)
  have hc2 := clearBlock_wipe (L := [inode.fpos]) hm2
  have hm3 : (fs.wipe [nblk.npos, inode.fpos]).inMap nblk.npos := hm2
  unfold clearLoop
  simp only [if_neg hn2, hc2, shfsInodeReadBlock_ok hm3, wipe_mem fs List.mem_cons_self]
  rw [clearLoop_done _ _ _ _ hzero, clearedBy, if_neg hf, if_neg hn, hnblk]
  simp only [if_neg hn2]

-- More passes do not change the result.
theorem clearLoop_mono {res : Shfs × Except Sherr Unit} : ∀ {fuel n : Nat} {fs : Shfs} {idx : Idx}
    {blk : Block}, clearLoop fuel fs idx blk = some res → fuel ≤ n →
    clearLoop n fs idx blk = some res := by
  intro fuel
  induction fuel with
  | zero =>
    intro n fs idx blk h _
    cases h
  | succ fuel ih =>
    intro n fs idx blk h hle
    obtain ⟨n, rfl⟩ : ∃ k, n = k + 1 := ⟨n - 1, by omega⟩
    unfold clearLoop at h ⊢
    split at h
    · next hz => rw [if_pos hz, h]
    · next hz =>
      rw [if_neg hz]
      cases hc : shfsInodeClearBlock fs idx with
      | error err =>
        rw [hc] at h
        exact h
      | ok fs1 =>
        rw [hc] at h
        simp only at h ⊢
        split at h
        · next hn =>
          rw [if_pos hn]
          exact ih h (by omega)
        · next hn =>
          rw [if_neg hn]
          cases hr : shfsInodeReadBlock fs1 blk.npos with
          | error err =>
            rw [hr] at h
            exact h
          | ok nblk =>
            rw [hr] at h
            exact ih h (by omega)

/-- `shfs_inode_clear`, whenever it returns. -/
theorem inodeClear_spec {env : Env} {fuel : Nat} {fs : Shfs} {inode : Block}
    {res : Shfs × Block × Except Sherr Unit} (h : ClearMapped fs inode)
    (hrun : shfsInodeClear env fuel fs inode = some res) :
    ∃ mtime writes, res.2.1 = { resetInode inode with mtime := mtime } ∧ res.2.2 = .ok () ∧
      res.1 = { fs.wipe (clearedBy fs inode) with writes := writes }.store
        { resetInode inode with mtime := mtime } := by
  unfold shfsInodeClear at hrun
  cases hloop : clearLoop fuel fs inode.fpos inode with
  | none =>
    rw [hloop] at hrun
    cases hrun
  | some x =>
    have hx : x = (fs.wipe (clearedBy fs inode), .ok ()) := by
      have h1 := clearLoop_mono hloop (Nat.le_add_right fuel 3)
      rw [clearLoop_spec h] at h1
      exact (Option.some.inj h1).symm
    have hm : (fs.wipe (clearedBy fs inode)).inMap (resetInode inode).pos := h.pos
    rw [hloop, hx] at hrun
    simp only [shfsInodeWriteBlock_ok hm, Option.some.injEq] at hrun
    rw [← hrun]
    exact ⟨_, _, rfl, rfl, rfl⟩

/-- It returns after three passes at most. -/
theorem inodeClear_returns {fs : Shfs} {inode : Block} (env : Env) (h : ClearMapped fs inode)
    {fuel : Nat} (hfuel : 3 ≤ fuel) : ∃ res, shfsInodeClear env fuel fs inode = some res := by
  obtain ⟨k, rfl⟩ := Nat.exists_eq_add_of_le' hfuel
  unfold shfsInodeClear
  rw [clearLoop_spec h k]
  exact ⟨_, rfl⟩

end LibShare.Fs
