import LibShare.Fs.Runs

/-!
# libshare — removal of the content of an inode

`shfs_inode_clear` is meant to free the chain of an inode and nothing else. Its
loop takes the first block from `fpos` of the inode and everything after that
from `npos` of the inode, which is its sibling. `inodeClear_exact_iff` says when
it is exact all the same: the inode has no content, or a single block of it and
at most one sibling behind it.
-/

namespace LibShare.Fs

/-- The blocks of the chain are freed, the inode is reset, and every other block
is what it was. -/
structure ClearedExactly (fs fs' : Shfs) (inode inode' : Block) (L : List Idx) : Prop where
  cleared : ∀ p, fs.live p → (¬ fs'.live p ↔ p ∈ L)
  zeroed : ∀ p ∈ L, fs'.block p = Block.zero
  reset : ∃ mtime, inode' = { resetInode inode with mtime := mtime }
  stored : fs'.block inode.pos = inode'
  frame : ∀ p, p ∉ L → p ≠ inode.pos → fs'.block p = fs.block p

/-- Nothing to free, or one block and no second sibling. -/
def ClearExact (fs : Shfs) (inode : Block) (L : List Idx) : Prop :=
  L = [] ∨ L.length = 1 ∧ (inode.npos.ino = 0 ∨ (fs.block inode.npos).npos.ino = 0)

section Mounted

variable {fuel : Nat} {m : Mount} {own : Idx → Idx} {i : Nat} {ino : Ino} {L : List Idx}

/-- The siblings of an inode are not in its chain, and the second one is not the
inode itself. -/
theorem Mounted.sibling (h : Mounted m own) (hi : m.inos[i]? = some ino)
    (hn : ino.blk.npos.ino ≠ 0) (hb : (m.fs.block ino.blk.npos).npos.ino ≠ 0) :
    m.fs.live (m.fs.block ino.blk.npos).npos ∧
      own (m.fs.block ino.blk.npos).npos ≠ ino.blk.pos ∧
      (m.fs.block ino.blk.npos).npos ≠ ino.blk.pos := by
  have hheld := h.held i ino hi
  have hnext : nextOf m.fs ino.blk.pos = some ino.blk.npos := by
    rcases hheld.npos_eq with heq | hz
    · rw [nextOf, ← heq, Idx.ref_of_ne hn]
    · exact absurd hz hn
  have hbehind : nextOf m.fs ino.blk.npos = some (m.fs.block ino.blk.npos).npos :=
    Idx.ref_of_ne hb
  obtain ⟨hl1, ho1⟩ := h.sound.links.next_mem _ _ hheld.live hnext
  obtain ⟨hl2, ho2⟩ := h.sound.links.next_mem _ _ hl1 hbehind
  refine ⟨hl2, ?_, fun heq => ?_⟩
  · rw [ho2, ho1]
    exact h.sound.links.irrefl _ hheld.live
  · -- the siblings would come round to the inode again
    obtain ⟨T, hT⟩ := h.sound.links.tails _ hheld.live
    have hloop : Chain (nextOf m.fs) (some ino.blk.pos) (ino.blk.pos :: T) := ⟨rfl, hT⟩
    rw [hnext] at hT
    obtain _ | ⟨a, T⟩ := T
    · cases hT
    obtain ⟨ha, hT⟩ := hT
    cases ha
    rw [hbehind, heq] at hT
    have hnodup := hloop.nodup
    rw [List.nodup_cons] at hnodup
    exact hnodup.1 (List.mem_cons_of_mem _ hT.head_mem)

/-- The blocks that are freed: the first one of the chain, and the second
sibling if there is one. -/
theorem Mounted.clearedBy_eq (h : Mounted m own) (hi : m.inos[i]? = some ino)
    (hf : ino.blk.fpos.ino ≠ 0) :
    Fs.clearedBy m.fs ino.blk =
      if ino.blk.npos.ino = 0 ∨ (m.fs.block ino.blk.npos).npos.ino = 0 then [ino.blk.fpos]
      else [(m.fs.block ino.blk.npos).npos, ino.blk.fpos] := by
  unfold Fs.clearedBy
  rw [if_neg hf]
  by_cases hn : ino.blk.npos.ino = 0
  · rw [if_pos hn, if_pos (Or.inl hn)]
  rw [if_neg hn, wipe_not_mem m.fs (by simpa using h.fpos_ne_npos hi hf hn)]
  by_cases hb : (m.fs.block ino.blk.npos).npos.ino = 0
  · rw [if_pos (Or.inr hb)]
    exact if_pos hb
  · rw [if_neg (not_or.mpr ⟨hn, hb⟩)]
    exact if_neg hb

-- The store after the removal, with the blocks in `C` freed.
theorem clearedExactly_iff {fs fs' : Shfs} {inode inode' : Block} {C : List Idx} {writes : Nat}
    {mtime : UInt64} (htype : inode.type ≠ .null)
    (hC : inode.pos ∉ C) (hL : inode.pos ∉ L) (hCL : ∀ p ∈ C, fs.live p)
    (hLL : ∀ p ∈ L, fs.live p) (hinode : inode' = { resetInode inode with mtime := mtime })
    (hfs : fs' = { fs.wipe C with writes := writes }.store inode') :
    ClearedExactly fs fs' inode inode' L ↔ ∀ p, p ∈ C ↔ p ∈ L := by
  have hpos : inode'.pos = inode.pos := by rw [hinode]; rfl
  have hself : fs'.block inode.pos = inode' := by rw [hfs, ← hpos, Shfs.store_self]
  have hback : ∀ p, p ≠ inode.pos → fs'.block p = (fs.wipe C).block p := by
    intro p hp
    rw [hfs, Shfs.store_ne _ _ (by rw [hpos]; exact hp)]
  have hdead : ∀ p, fs.live p → (¬ fs'.live p ↔ p ∈ C) := by
    intro p hp
    by_cases hpp : p = inode.pos
    · subst hpp
      refine iff_of_false ?_ hC
      rw [not_not, Shfs.live, hself, hinode]
      exact htype
    · rw [Shfs.live, hback p hpp]
      by_cases hpC : p ∈ C
      · rw [wipe_mem fs hpC]
        simp [hpC, Block.zero]
      · rw [wipe_not_mem fs hpC]
        simpa [hpC, Shfs.live] using hp
  constructor
  · intro h p
    constructor
    · intro hp
      exact (h.cleared p (hCL p hp)).mp ((hdead p (hCL p hp)).mpr hp)
    · intro hp
      exact (hdead p (hLL p hp)).mp ((h.cleared p (hLL p hp)).mpr hp)
  · intro h
    refine ⟨fun p hp => (hdead p hp).trans (h p), fun p hp => ?_, ⟨mtime, hinode⟩, hself,
      fun p hp hpp => ?_⟩
    · have hpp : p ≠ inode.pos := by
        rintro rfl
        exact hL hp
      rw [hback p hpp, wipe_mem fs ((h p).mpr hp)]
    · rw [hback p hpp, wipe_not_mem fs fun hc => hp ((h p).mp hc)]

/-- In every sound tree of inodes, for every open inode: `shfs_inode_clear`
succeeds, and it frees exactly the inode's chain if and only if the chain is
empty, or is a single block and the inode has no second sibling behind it. -/
theorem inodeClear_exact_iff (env : Env) (h : Mounted m own) (hi : m.inos[i]? = some ino)
    (hchain : Chain (nextOf m.fs) ino.blk.fpos.ref L) (hfuel : 3 ≤ fuel) :
    ∃ fs' inode', shfsInodeClear env fuel m.fs ino.blk = some (fs', inode', .ok ()) ∧
      (ClearedExactly m.fs fs' ino.blk inode' L ↔ ClearExact m.fs ino.blk L) := by
  obtain ⟨⟨fs', inode', r⟩, hrun⟩ := inodeClear_returns env (h.clearMapped hi) hfuel
  obtain ⟨mtime, writes, hinode, hr, hfs⟩ := inodeClear_spec (h.clearMapped hi) hrun
  simp only at hinode hr hfs
  rw [← hinode] at hfs
  subst hr
  refine ⟨fs', inode', hrun, ?_⟩
  have hheld := h.held i ino hi
  obtain ⟨L', hchain', hall, hposL, hownL⟩ := h.chain hi
  rw [← hchain.unique hchain'] at hall hposL hownL
  have htype : ino.blk.type ≠ .null := by
    rw [← hheld.type_eq]
    exact hheld.live
  have hLL : ∀ p ∈ L, m.fs.live p := fun p hp => (hall p hp).1
  -- the inode has no content, or a first block
  obtain _ | ⟨q, T⟩ := L
  · have hf : ino.blk.fpos.ino = 0 := by
      by_contra hne
      rw [Idx.ref_of_ne hne] at hchain
      cases hchain
    have hC : Fs.clearedBy m.fs ino.blk = [] := by rw [Fs.clearedBy, if_pos hf]
    rw [hC] at hfs
    rw [clearedExactly_iff htype (by simp) (by simp) (by simp) hLL hinode hfs]
    exact iff_of_true (fun _ => Iff.rfl) (Or.inl rfl)
  obtain ⟨hq, hf⟩ := Idx.ref_eq_some hchain.1
  have hqL := hownL q List.mem_cons_self
  have hnodup := List.nodup_cons.mp hchain.nodup
  have hC := h.clearedBy_eq hi hf
  rw [← hq] at hC
  by_cases hsib : ino.blk.npos.ino = 0 ∨ (m.fs.block ino.blk.npos).npos.ino = 0
  · rw [if_pos hsib] at hC
    rw [hC] at hfs
    have hposC : ino.blk.pos ∉ [q] := fun hmem =>
      hposL (List.mem_cons.mpr (Or.inl (List.mem_singleton.mp hmem)))
    rw [clearedExactly_iff htype hposC hposL
      (fun p hp =>
        hLL p (by rw [List.mem_singleton.mp hp]; exact List.mem_cons_self)) hLL hinode hfs]
    constructor
    · intro hsame
      refine Or.inr ⟨?_, hsib⟩
      obtain _ | ⟨a, T⟩ := T
      · rfl
      · -- a second block of the chain is not freed
        have ha := (hsame a).mpr (by simp)
        rw [List.mem_singleton] at ha
        exact absurd (by simp [ha]) hnodup.1
    · rintro (hnil | ⟨hlen, -⟩) p
      · cases hnil
      · have hT : T = [] := by simpa using hlen
        rw [hT]
  · rw [if_neg hsib] at hC
    rw [hC] at hfs
    rw [not_or] at hsib
    obtain ⟨hblive, hbown, hbpos⟩ := h.sibling hi hsib.1 hsib.2
    have hposC : ino.blk.pos ∉ [(m.fs.block ino.blk.npos).npos, q] := by
      intro hmem
      rcases List.mem_cons.mp hmem with heq | hmem
      · exact hbpos heq.symm
      · exact hposL (List.mem_cons.mpr (Or.inl (List.mem_singleton.mp hmem)))
    have hCL : ∀ p ∈ [(m.fs.block ino.blk.npos).npos, q], m.fs.live p := by
      intro p hp
      rcases List.mem_cons.mp hp with rfl | hp
      · exact hblive
      · rw [List.mem_singleton.mp hp]
        exact hLL q List.mem_cons_self
    rw [clearedExactly_iff htype hposC hposL hCL hLL hinode hfs]
    refine iff_of_false (fun hsame => ?_) ?_
    · -- the second sibling is freed, and it is not in the chain
      exact hbown (hownL _ ((hsame _).mp List.mem_cons_self))
    · rintro (hnil | ⟨-, hcon⟩)
      · cases hnil
      · exact absurd hcon (not_or.mpr hsib)

end Mounted

/-! ## Directories below the root

Names of different lengths have different keys, and one journal holds all. -/

def keysByLength : Env where
  journalIndex := fun _ => 1
  journalIndex_pos := fun _ => Nat.one_pos
  keyBin := fun _ => ashkeyBlank
  token := fun _ _ _ path => { ashkeyBlank with crc := path.length.toUInt16 }
  birth := fun _ => 0
  clock := fun _ => 0

/-- A directory below an open one. -/
def newDirectory (i len : Nat) : Op :=
  .inode i (List.replicate len 0x61) .directory { owner := ashkeyBlank, attr := 0, salt := 0 }

/-- A chain of one block. -/
theorem chain_single {fs : Shfs} {pos p : Idx} (hpos : pos.ref = some p)
    (hnext : nextOf fs p = none) : Chain (nextOf fs) pos.ref [p] := ⟨hpos, hnext⟩

-- Directories are created by safe runs.
theorem newDirectory_reached {fuel : Nat} {ops : List (Nat × Nat)} {m : Mount}
    (h : runNew keysByLength fuel (ops.map fun op => newDirectory op.1 op.2) = some m) :
    Reached keysByLength (Op.Safe keysByLength · ·) m := by
  refine Reached.runNew (fun op hop m => ?_) h
  obtain ⟨x, -, rfl⟩ := List.mem_map.mp hop
  trivial

/-- A directory with one other directory in it. -/
theorem inodeClear_exact_child : ∃ m ino fs' inode',
    Reached keysByLength (Op.Safe keysByLength · ·) m ∧ m.inos[1]? = some ino ∧
    shfsInodeClear keysByLength 3 m.fs ino.blk = some (fs', inode', .ok ()) ∧
    ClearedExactly m.fs fs' ino.blk inode' [{ jno := 1, ino := 1 }] := by
  have hrun : ∃ m, runNew keysByLength 5 ([(0, 1), (1, 2)].map fun op => newDirectory op.1 op.2) =
      some m := Option.isSome_iff_exists.mp (by decide +kernel)
  obtain ⟨m, hm⟩ := hrun
  have hfacts : (runNew keysByLength 5
      ([(0, 1), (1, 2)].map fun op => newDirectory op.1 op.2)).map (fun m =>
      m.inos[1]?.map fun ino => (ino.blk.fpos.ref, nextOf m.fs { jno := 1, ino := 1 },
        ino.blk.npos.ino)) = some (some (some { jno := 1, ino := 1 }, none, 0)) := by decide +kernel
  rw [hm] at hfacts
  simp only [Option.map_some, Option.some.injEq] at hfacts
  obtain ⟨ino, hino, hfields⟩ := Option.map_eq_some_iff.mp hfacts
  simp only [Prod.mk.injEq] at hfields
  obtain ⟨hfpos, hnext, hnpos⟩ := hfields
  have hreach := newDirectory_reached hm
  obtain ⟨own, hmounted⟩ := hreach.mounted
  obtain ⟨fs', inode', hclear, hiff⟩ := inodeClear_exact_iff keysByLength hmounted hino
    (chain_single hfpos hnext) (Nat.le_refl 3)
  exact ⟨m, ino, fs', inode', hreach, hino, hclear, hiff.mpr (Or.inr ⟨rfl, Or.inl hnpos⟩)⟩

/-- Three directories below the root, and one below the newest of them. Removing
the content of that one frees the oldest one too. -/
theorem inodeClear_frees_sibling : ¬ ∀ (env : Env) (m : Mount) (own : Idx → Idx) (i fuel : Nat)
    (ino : Ino) (L : List Idx) (fs' : Shfs) (inode' : Block), Mounted m own →
    m.inos[i]? = some ino → Chain (nextOf m.fs) ino.blk.fpos.ref L →
    shfsInodeClear env fuel m.fs ino.blk = some (fs', inode', .ok ()) →
    ClearedExactly m.fs fs' ino.blk inode' L := by
  intro h
  have hrun : ∃ m, runNew keysByLength 5
      ([(0, 1), (0, 2), (0, 3), (3, 4)].map fun op => newDirectory op.1 op.2) = some m :=
    Option.isSome_iff_exists.mp (by decide +kernel)
  obtain ⟨m, hm⟩ := hrun
  have hfacts : (runNew keysByLength 5
      ([(0, 1), (0, 2), (0, 3), (3, 4)].map fun op => newDirectory op.1 op.2)).map (fun m =>
      m.inos[3]?.map fun ino => (ino.blk.fpos.ref, nextOf m.fs { jno := 1, ino := 6 },
        (m.fs.block { jno := 1, ino := 2 }).type)) =
      some (some (some { jno := 1, ino := 6 }, none, .directory)) := by decide +kernel
  have hclear : (runNew keysByLength 5
      ([(0, 1), (0, 2), (0, 3), (3, 4)].map fun op => newDirectory op.1 op.2)).map (fun m =>
      m.inos[3]?.map fun ino => (shfsInodeClear keysByLength 3 m.fs ino.blk).map fun res =>
        (res.2.2.toOption, (res.1.block { jno := 1, ino := 2 }).type)) =
      some (some (some (some (), .null))) := by decide +kernel
  rw [hm] at hfacts hclear
  simp only [Option.map_some, Option.some.injEq] at hfacts hclear
  obtain ⟨ino, hino, hfields⟩ := Option.map_eq_some_iff.mp hfacts
  simp only [hino, Option.map_some, Option.some.injEq, Prod.mk.injEq] at hfields hclear
  obtain ⟨hfpos, hnext, hbefore⟩ := hfields
  obtain ⟨⟨fs', inode', r⟩, hres, hafter⟩ := Option.map_eq_some_iff.mp hclear
  simp only [Prod.mk.injEq] at hafter
  have hrok : r = .ok () := ok_of_toOption hafter.1
  subst hrok
  obtain ⟨own, hmounted⟩ := (newDirectory_reached hm).mounted
  have hexact := h keysByLength m own 3 3 ino _ fs' inode' hmounted hino
    (chain_single hfpos hnext) hres
  have hlive : m.fs.live { jno := 1, ino := 2 } := by
    rw [Shfs.live, hbefore]
    decide
  have hmem := (hexact.cleared _ hlive).mp fun hcon => hcon hafter.2
  exact absurd hmem (by decide)

end LibShare.Fs
