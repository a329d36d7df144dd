import LibShare.Fs.Alloc

/-!
# libshare — journals that grow

`_shfs_journal_scan` doubles a journal that has no free block, from four blocks up. The
limit `SHFS_MAX_BLOCK` is no power of two: a journal of 32768 blocks that is full grows to
65536 blocks, the scan begins beyond the limit, and `shfs_journal_block` refuses the block.
The last 24576 blocks below the limit are never handed out (`scan_iff`).
-/

namespace LibShare.Fs

variable {fs : Shfs} {jno n : Nat}

/-- A journal on disk: its map has a page, and what the map does not reach is not in use. A
file is extended by zeros. -/
structure Shfs.Journal (fs : Shfs) (jno : Nat) : Prop where
  pos : 0 < fs.size jno
  beyond : ∀ ino, fs.size jno ≤ ino → ¬ fs.live { jno := jno, ino := ino }

/-- Block `ino` of the journal may be handed out. -/
def Free (fs : Shfs) (jno n ino : Nat) : Prop :=
  0 < ino ∧ ino < n ∧ ¬ fs.live { jno := jno, ino := ino }

/-- What a scan should say: a free block below the limit that the map reaches, or else that
there is no free block below the limit. -/
def ScanRight (fs : Shfs) (jno : Nat) : Except Sherr (Shfs × Idx) → Prop
  | .ok (fs', pos) => pos.jno = jno ∧ Free fs' jno maxBlock pos.ino ∧ fs'.inMap pos
  | .error err => err = .nospc ∧ ∀ ino, ¬ Free fs jno maxBlock ino

/-! ## One pass -/

/-- A map that is longer than the limit is not scanned at all. -/
theorem scanDown_beyond (h : maxBlock < n) : scanDown fs jno n = .error .io := by
  obtain ⟨k, rfl⟩ := Nat.exists_eq_succ_of_ne_zero (Nat.ne_of_gt (Nat.zero_lt_of_lt h))
  have hk : maxBlock ≤ k := Nat.lt_succ_iff.mp h
  have hpos : 0 < maxBlock := by decide
  rw [scanDown, if_neg (by omega), if_pos hk]

theorem scanDown_full (hle : n ≤ maxBlock) (hfull : ∀ ino, ¬ Free fs jno n ino) :
    scanDown fs jno n = .ok none := by
  induction n with
  | zero => rfl
  | succ k ih =>
    have hrest : ∀ ino, ¬ Free fs jno k ino := fun ino hfree =>
      hfull ino ⟨hfree.1, Nat.lt_succ_of_lt hfree.2.1, hfree.2.2⟩
    rw [scanDown]
    split
    · rfl
    · next h0 =>
      have hlive : fs.live { jno := jno, ino := k } := by
        by_contra hfree
        exact hfull k ⟨Nat.pos_of_ne_zero h0, Nat.lt_succ_self k, hfree⟩
      rw [if_neg (by omega), if_pos hlive, ih (by omega) hrest]

theorem scanDown_free (hle : n ≤ maxBlock) (hfree : ∃ ino, Free fs jno n ino) :
    ∃ ino, scanDown fs jno n = .ok (some ino) := by
  induction n with
  | zero =>
    obtain ⟨ino, -, hlt, -⟩ := hfree
    exact absurd hlt (Nat.not_lt_zero _)
  | succ k ih =>
    obtain ⟨ino, hpos, hlt, hino⟩ := hfree
    have h0 : k ≠ 0 := by omega
    rw [scanDown, if_neg h0, if_neg (by omega)]
    split
    · next hlive =>
      -- the free block is further down
      have hne : ino ≠ k := by
        rintro rfl
        exact hino hlive
      exact ih (by omega) ⟨ino, hpos, by omega, hino⟩
    · exact ⟨k, rfl⟩

/-! ## The scan -/

/-- The map holds a free block. -/
theorem scanRetry_free (hle : fs.size jno ≤ maxBlock)
    (hfree : ∃ ino, Free fs jno (fs.size jno) ino) :
    ∃ pos, scanRetry fs jno = .ok (fs, pos) ∧ ScanRight fs jno (.ok (fs, pos)) := by
  obtain ⟨ino, hscan⟩ := scanDown_free hle hfree
  obtain ⟨hpos, hlt, -, hino, -⟩ := scanDown_some hscan
  have hmax : ino < maxBlock := Nat.lt_of_lt_of_le hlt hle
  refine ⟨{ jno := jno, ino := ino }, ?_, rfl, ⟨hpos, hmax, hino⟩, ⟨hmax, hlt⟩⟩
  rw [scanRetry, hscan]

/-- A journal that is not at the limit and full grows once. -/
theorem scanRetry_grow (hlt : fs.size jno < maxBlock)
    (hfull : ∀ ino, ¬ Free fs jno (fs.size jno) ino) :
    scanRetry fs jno =
      scanRetry { fs with size := Function.update fs.size jno (max 2 (fs.size jno) * 2) } jno := by
  rw [scanRetry, scanDown_full (Nat.le_of_lt hlt) hfull]
  dsimp only
  rw [if_neg (Nat.not_le.mpr hlt)]

/-- The scan does what it should if and only if the journal can still be doubled, has just the
size of the limit, or is within the limit and has a free block. -/
theorem scan_iff (h : fs.Journal jno) : ScanRight fs jno (scanRetry fs jno) ↔
    fs.size jno ≤ maxBlock / 2 ∨ fs.size jno = maxBlock ∨
      fs.size jno < maxBlock ∧ ∃ ino, Free fs jno (fs.size jno) ino := by
  have hmax : maxBlock / 2 * 2 = maxBlock := by decide
  have hpos := h.pos
  rcases Nat.lt_or_ge maxBlock (fs.size jno) with hbeyond | hle
  · -- the first block of the scan is refused
    have hrun : scanRetry fs jno = .error .io := by
      rw [scanRetry, scanDown_beyond hbeyond]
    rw [hrun]
    refine iff_of_false (fun hright => by cases hright.1) ?_
    omega
  by_cases hfree : ∃ ino, Free fs jno (fs.size jno) ino
  · obtain ⟨pos, hrun, hright⟩ := scanRetry_free hle hfree
    rw [hrun]
    refine iff_of_true hright ?_
    rcases Nat.eq_or_lt_of_le hle with heq | hlt
    · exact Or.inr (Or.inl heq)
    · exact Or.inr (Or.inr ⟨hlt, hfree⟩)
  -- from here on no block is free, and the code doubles the map
  have hfull : ∀ ino, ¬ Free fs jno (fs.size jno) ino := fun ino hino => hfree ⟨ino, hino⟩
  rcases Nat.eq_or_lt_of_le hle with heq | hlt
  · -- the journal has every block there can be
    have hrun : scanRetry fs jno = .error .nospc := by
      rw [scanRetry, scanDown_full hle hfull]
      dsimp only
      rw [if_pos (Nat.le_of_eq heq.symm)]
    rw [hrun]
    rw [heq] at hfull
    exact iff_of_true ⟨rfl, hfull⟩ (Or.inr (Or.inl heq))
  rw [scanRetry_grow hlt hfull]
  generalize hgrown : { fs with size := Function.update fs.size jno (max 2 (fs.size jno) * 2) } =
    fs1
  have hsize : fs1.size jno = max 2 (fs.size jno) * 2 := by
    rw [← hgrown]
    exact Function.update_self ..
  have hlive : ∀ ino, fs1.live { jno := jno, ino := ino } ↔ fs.live { jno := jno, ino := ino } := by
    intro ino
    rw [← hgrown]
    exact Iff.rfl
  by_cases hhalf : fs.size jno ≤ maxBlock / 2
  · -- what the map has grown by is free
    have hfree1 : ∃ ino, Free fs1 jno (fs1.size jno) ino := by
      refine ⟨fs.size jno, hpos, by omega, ?_⟩
      rw [hlive]
      exact h.beyond _ (Nat.le_refl _)
    have hle1 : fs1.size jno ≤ maxBlock := by
      have hfour : 4 ≤ maxBlock := by decide
      omega
    obtain ⟨pos, hrun, hright⟩ := scanRetry_free hle1 hfree1
    rw [hrun]
    exact iff_of_true hright (Or.inl hhalf)
  · -- the map has grown beyond the limit, past blocks that are free
    have hrun : scanRetry fs1 jno = .error .io := by
      rw [scanRetry, scanDown_beyond (by omega)]
    rw [hrun]
    refine iff_of_false (fun hright => by cases hright.1) ?_
    rintro (hsmall | heq | ⟨-, hfree1⟩)
    · exact hhalf hsmall
    · exact Nat.ne_of_lt hlt heq
    · exact hfree hfree1

/-- Journals of so many blocks, all of them in use. -/
def fullOf (n : Nat) : Shfs :=
  { Shfs.empty with
    block := fun pos => if pos.ino < n then { Block.zero with type := .aux } else Block.zero
    size := fun _ => n }

theorem fullOf_live (n jno ino : Nat) : (fullOf n).live { jno := jno, ino := ino } ↔ ino < n := by
  have hblock : (fullOf n).block { jno := jno, ino := ino } =
      if ino < n then { Block.zero with type := .aux } else Block.zero := rfl
  unfold Shfs.live
  rw [hblock]
  by_cases hlt : ino < n
  · rw [if_pos hlt]
    exact iff_of_true (fun heq => nomatch heq) hlt
  · rw [if_neg hlt]
    exact iff_of_false (fun hne => hne rfl) hlt

theorem fullOf_journal {n : Nat} (hpos : 0 < n) (jno : Nat) : (fullOf n).Journal jno :=
  ⟨hpos, fun ino hle hlive => Nat.not_lt.mpr hle ((fullOf_live n jno ino).mp hlive)⟩

/-- A full journal of 16384 blocks can be doubled. -/
theorem scan_iff_doubled :
    (fullOf 16384).Journal 1 ∧ (∀ ino < 16384, (fullOf 16384).live { jno := 1, ino := ino }) ∧
      ScanRight (fullOf 16384) 1 (scanRetry (fullOf 16384) 1) :=
  ⟨fullOf_journal (by decide) 1, fun ino hlt => (fullOf_live 16384 1 ino).mpr hlt,
    (scan_iff (fullOf_journal (by decide) 1)).mpr (Or.inl (show 16384 ≤ maxBlock / 2 by decide))⟩

/-- A journal of 32768 blocks, all of them in use. -/
def fullJournal : Shfs := fullOf 32768

theorem fullJournal_live (jno ino : Nat) :
    fullJournal.live { jno := jno, ino := ino } ↔ ino < 32768 :=
  fullOf_live 32768 jno ino

/-- A journal of 32768 blocks that is full: an error is reported, and block 32768 is free. -/
theorem full_journal_error : fullJournal.Journal 1 ∧ scanRetry fullJournal 1 = .error .io ∧
    Free fullJournal 1 maxBlock 32768 ∧ ¬ ScanRight fullJournal 1 (scanRetry fullJournal 1) := by
  have hsize : fullJournal.size 1 = 32768 := rfl
  have hjournal : fullJournal.Journal 1 := fullOf_journal (by decide) 1
  have hfull : ∀ ino, ¬ Free fullJournal 1 (fullJournal.size 1) ino := by
    intro ino hino
    exact hino.2.2 ((fullJournal_live 1 ino).mpr hino.2.1)
  have hrun : scanRetry fullJournal 1 = .error .io := by
    rw [scanRetry_grow (by rw [hsize]; decide) hfull, scanRetry, scanDown_beyond]
    dsimp only
    rw [Function.update_self, hsize]
    decide
  have hfree : Free fullJournal 1 maxBlock 32768 := by
    refine ⟨by decide, by decide, fun hlive => ?_⟩
    exact Nat.lt_irrefl _ ((fullJournal_live 1 32768).mp hlive)
  refine ⟨hjournal, hrun, hfree, ?_⟩
  rw [hrun]
  exact fun hright => hright.2 32768 hfree

end LibShare.Fs
