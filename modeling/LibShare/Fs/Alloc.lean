import LibShare.Fs.Inode
import LibShare.Lib.Chain

/-!
# libshare — allocation of blocks

What `_shfs_journal_scan` returns: the highest free block of the journal, after
the journal has grown if need be (`TopFree`). A second scan of the journal
returns the same block as long as nothing has been stored there
(`scanRetry_top`).
-/

namespace LibShare.Fs

/-- The block is the highest free one of its journal, and the journal's map is
within the size limit. -/
structure TopFree (fs : Shfs) (pos : Idx) : Prop where
  ino_pos : 0 < pos.ino
  inMap : fs.inMap pos
  size_le : fs.size pos.jno ≤ maxBlock
  free : ¬ fs.live pos
  above : ∀ ino, pos.ino < ino → ino < fs.size pos.jno → fs.live { jno := pos.jno, ino := ino }

/-! ## The scan -/

theorem scanDown_some {fs : Shfs} {jno : Nat} : ∀ {n ino : Nat},
    scanDown fs jno n = .ok (some ino) →
    0 < ino ∧ ino < n ∧ n ≤ maxBlock ∧ ¬ fs.live { jno := jno, ino := ino } ∧
      ∀ k, ino < k → k < n → fs.live { jno := jno, ino := k } := by
  intro n
  induction n with
  | zero =>
    intro ino h
    simp [scanDown] at h
  | succ n ih =>
    intro ino h
    unfold scanDown at h
    split at h
    · simp at h
    · split at h
      · simp at h
      · split at h
        · next hlive =>
          obtain ⟨h1, h2, -, h4, h5⟩ := ih h
          refine ⟨h1, by omega, by omega, h4, fun k hk hkn => ?_⟩
          rcases Nat.lt_or_ge k n with hlt | hge
          · exact h5 k hk hlt
          · rw [show k = n by omega]
            exact hlive
        · next hfree =>
          simp only [Except.ok.injEq, Option.some.injEq] at h
          subst h
          exact ⟨by omega, by omega, by omega, hfree, fun k hk hkn => by omega⟩

/-- The store after a scan: only maps have grown. -/
theorem scanRetry_ok {fs fs' : Shfs} {jno : Nat} {pos : Idx}
    (h : scanRetry fs jno = .ok (fs', pos)) :
    pos.jno = jno ∧ TopFree fs' pos ∧ fs' = { fs with size := fs'.size } ∧
      ∀ j, fs.size j ≤ fs'.size j := by
  fun_induction scanRetry fs jno with
  | case1 fs err hscan => cases h
  | case2 fs ino hscan =>
    cases h
    obtain ⟨h1, h2, h3, h4, h5⟩ := scanDown_some hscan
    exact ⟨rfl, ⟨h1, ⟨by simp only; omega, h2⟩, h3, h4, h5⟩, rfl, fun j => Nat.le_refl _⟩
  | case3 fs hscan hfull => cases h
  | case4 fs hscan hroom ih =>
    obtain ⟨h1, h2, h3, h4⟩ := ih h
    refine ⟨h1, h2, ?_, fun j => ?_⟩
    · rw [h3]
    · refine Nat.le_trans ?_ (h4 j)
      by_cases hj : j = jno
      · subst hj
        simp only [Function.update_self]
        omega
      · simp only [Function.update_of_ne hj, Nat.le_refl]

/-- A scan grows no other journal. -/
theorem scanRetry_size {fs fs' : Shfs} {jno : Nat} {pos : Idx}
    (h : scanRetry fs jno = .ok (fs', pos)) : ∀ j, j ≠ jno → fs'.size j = fs.size j := by
  fun_induction scanRetry fs jno with
  | case1 fs err hscan => cases h
  | case2 fs ino hscan =>
    cases h
    exact fun j _ => rfl
  | case3 fs hscan hfull => cases h
  | case4 fs hscan hroom ih =>
    intro j hj
    rw [ih h j hj]
    exact Function.update_of_ne hj _ _

/-- The highest free block is found again. -/
theorem scanRetry_top {fs : Shfs} {pos : Idx} (h : TopFree fs pos) :
    scanRetry fs pos.jno = .ok (fs, pos) := by
  have hdown : ∀ n, pos.ino < n → n ≤ fs.size pos.jno →
      scanDown fs pos.jno n = .ok (some pos.ino) := by
    intro n
    induction n with
    | zero =>
      intro hlt _
      omega
    | succ n ih =>
      intro hlt hle
      have hpos := h.ino_pos
      have hsize := h.size_le
      unfold scanDown
      rw [if_neg (by omega), if_neg (by omega)]
      by_cases heq : n = pos.ino
      · subst heq
        rw [if_neg h.free]
      · rw [if_pos (h.above n (by omega) (by omega)), ih (by omega) (by omega)]
  unfold scanRetry
  rw [hdown _ h.inMap.2 (Nat.le_refl _)]

-- A scan looks at which blocks are in use and at the lengths of the maps.

theorem scanDown_congr {fs fs' : Shfs} (hlive : ∀ p, fs.live p ↔ fs'.live p) (jno n : Nat) :
    scanDown fs' jno n = scanDown fs jno n := by
  induction n with
  | zero => rfl
  | succ n ih =>
    unfold scanDown
    rw [ih]
    simp only [hlive]

theorem scanRetry_congr {fs : Shfs} (jno : Nat) : ∀ (fs' : Shfs),
    (∀ p, fs.live p ↔ fs'.live p) → fs.size = fs'.size →
    scanRetry fs' jno = (scanRetry fs jno).map fun r => ({ fs' with size := r.1.size }, r.2) := by
  fun_induction scanRetry fs jno with
  | case1 fs err hscan =>
    intro fs' hlive hsize
    rw [scanRetry, ← hsize, scanDown_congr hlive, hscan]
    rfl
  | case2 fs ino hscan =>
    intro fs' hlive hsize
    rw [scanRetry, ← hsize, scanDown_congr hlive, hscan]
    simp only [Except.map, hsize]
  | case3 fs hscan hfull =>
    intro fs' hlive hsize
    rw [scanRetry, ← hsize, scanDown_congr hlive, hscan]
    simp only [if_pos hfull, Except.map]
  | case4 fs hscan hroom ih =>
    intro fs' hlive hsize
    have hnext := ih { fs' with
      size := Function.update fs.size jno (max 2 (fs.size jno) * 2) } hlive rfl
    rw [scanRetry, ← hsize, scanDown_congr hlive, hscan]
    simp only [if_neg hroom]
    rw [hnext]

theorem shfsJournalScan_ok {env : Env} {fs fs' : Shfs} {key : ShKey} {pos : Idx}
    (h : shfsJournalScan env fs key = .ok (fs', pos)) :
    pos.jno = env.journalIndex key ∧ TopFree fs' pos ∧ fs' = { fs with size := fs'.size } ∧
      ∀ j, fs.size j ≤ fs'.size j :=
  scanRetry_ok h

/-! ## Blocks of the store -/

theorem Shfs.store_self (fs : Shfs) (blk : Block) : (fs.store blk).block blk.pos = blk := by
  simp [Shfs.store]

theorem Shfs.store_ne (fs : Shfs) (blk : Block) {p : Idx} (h : p ≠ blk.pos) :
    (fs.store blk).block p = fs.block p := by
  simp [Shfs.store, h]

/-- What a block write that succeeds has done. -/
theorem shfsInodeWriteBlock_ok {env : Env} {fs : Shfs} {blk : Block} (h : fs.inMap blk.pos) :
    shfsInodeWriteBlock env fs blk =
      ({ fs with writes := fs.writes + 1 }.store { blk with mtime := env.clock fs.writes },
        { blk with mtime := env.clock fs.writes }, .ok ()) := by
  simp only [shfsInodeWriteBlock, if_pos h]

theorem shfsInodeWriteBlock_inv {env : Env} {fs fs' : Shfs} {blk blk' : Block} {r : Unit}
    (h : shfsInodeWriteBlock env fs blk = (fs', blk', .ok r)) :
    ∃ mtime writes, blk' = { blk with mtime := mtime } ∧
      fs' = { fs with writes := writes }.store blk' := by
  unfold shfsInodeWriteBlock at h
  split at h
  · simp only [Prod.mk.injEq] at h
    obtain ⟨rfl, rfl, -⟩ := h
    exact ⟨_, _, rfl, rfl⟩
  · simp only [Prod.mk.injEq, reduceCtorEq, and_false] at h

theorem shfsInodeReadBlock_ok {fs : Shfs} {pos : Idx} (h : fs.inMap pos) :
    shfsInodeReadBlock fs pos = .ok (fs.block pos) := by
  simp only [shfsInodeReadBlock, if_pos h]

theorem TopFree.ref {fs : Shfs} {pos : Idx} (h : TopFree fs pos) : pos.ref = some pos := by
  have := h.ino_pos
  rw [Idx.ref, if_neg (by omega)]

theorem Idx.ref_of_ne {pos : Idx} (h : pos.ino ≠ 0) : pos.ref = some pos := by
  rw [Idx.ref, if_neg h]

theorem Idx.ref_of_eq {pos : Idx} (h : pos.ino = 0) : pos.ref = none := by
  rw [Idx.ref, if_pos h]

theorem Idx.ref_eq_some {pos p : Idx} (h : pos.ref = some p) : p = pos ∧ pos.ino ≠ 0 := by
  unfold Idx.ref at h
  split at h
  · cases h
  · next hne =>
    cases h
    exact ⟨rfl, hne⟩

end LibShare.Fs
